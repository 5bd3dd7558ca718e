import QtJsonArray.Value.Double

/-!
# JSON values as the array keeps them

`QJsonArray` keeps its elements in a `QCborContainerPrivate`, as `QCborValue`s, and hands
them out as `QJsonValue`s: `QCborValue::fromJsonValue` on the way in, and
`QJsonPrivate::Value::fromTrustedCbor` on the way out (`insert`, `replace`, `at`). Neither
class is part of the array's source; both are modelled here as far as the array uses them.

## The model

A `QCborValue` is either a value without a container (`Scalar`) or an array, which holds the
address of its backend, or none: `QJsonArray()` converts to an array value with a null
container. Only the types a `QJsonValue` can hold appear. A map (a `QJsonObject`) is not part
of this development and stands as an opaque leaf. A double is its IEEE 754 bit pattern. A
string is its text: the byte data in which a backend keeps strings, and the reference a string
read out of an array keeps to that data, belong to the storage format and are left out.

A `QJsonValue` holds one `QCborValue`, as in Qt 6, and `QCborValue::fromJsonValue` gives it
back unchanged on every JSON type: the round trip through the backend is the identity.
-/

namespace QtJsonArray

/-- A backend's address: a `QCborContainerPrivate *`. -/
abbrev Ptr := ℕ

/-- The values of `QCborValue` that hold no container, among those a `QJsonValue` can hold. -/
inductive Scalar where
  /-- `QCborValue::Undefined`. -/
  | undefined
  /-- `QCborValue::Null`. -/
  | null
  /-- `QCborValue::False` and `QCborValue::True`. -/
  | bool (b : Bool)
  /-- `QCborValue::Integer`, a `qint64`. -/
  | integer (n : ℤ)
  /-- `QCborValue::Double`, as its bits. -/
  | double (bits : UInt64)
  /-- `QCborValue::String`. -/
  | string (s : String)
  /-- `QCborValue::Map`, a `QJsonObject`, left opaque. -/
  | map (key : ℕ)
  deriving DecidableEq, Repr

/-- A `QCborValue`, as an element of a backend or inside a `QJsonValue`. -/
inductive QCborValue where
  /-- A value with no container. -/
  | scalar (s : Scalar)
  /-- `QCborValue::Array`, with the address of its backend (null for an empty array). -/
  | array (container : Option Ptr)
  deriving DecidableEq, Repr

/-- `QJsonValue::Type`. -/
inductive JsonType where
  | null
  | bool
  | double
  | string
  | array
  | object
  | undefined
  deriving DecidableEq, Repr

/-- `convertFromCborType`: the `QJsonValue::Type` of a held value. -/
def QCborValue.type : QCborValue → JsonType
  | .scalar .undefined => .undefined
  | .scalar .null => .null
  | .scalar (.bool _) => .bool
  | .scalar (.integer _) => .double
  | .scalar (.double _) => .double
  | .scalar (.string _) => .string
  | .scalar (.map _) => .object
  | .array _ => .array

/-- The backend a value holds a reference to: an array's container. -/
def QCborValue.container : QCborValue → Option Ptr
  | .scalar _ => none
  | .array c => c

@[simp] theorem QCborValue.container_scalar (s : Scalar) : (QCborValue.scalar s).container = none :=
  rfl

@[simp] theorem QCborValue.container_array (c : Option Ptr) : (QCborValue.array c).container = c :=
  rfl

/-- `QJsonArray`: its one member, `QExplicitlySharedDataPointer<QCborContainerPrivate> a`. -/
structure QJsonArray where
  a : Option Ptr
  deriving DecidableEq, Repr

/-- `QJsonValue`: the `QCborValue` it holds. -/
structure QJsonValue where
  value : QCborValue
  deriving DecidableEq, Repr

namespace QJsonValue

/-- `QJsonValue::type()`. -/
def type (v : QJsonValue) : JsonType := v.value.type

/-- `QJsonValue(QJsonValue::Undefined)`. -/
def undefined : QJsonValue := ⟨.scalar .undefined⟩

/-- `QJsonValue(QJsonValue::Null)`. -/
def null : QJsonValue := ⟨.scalar .null⟩

/-- Modelled from the spec: an encoded element decoded, as `QJsonPrivate::Value::fromTrustedCbor`:
the stored value, taken as it is. -/
def fromTrustedCbor (x : QCborValue) : QJsonValue := ⟨x⟩

/-- `QJsonValue(const QJsonArray &)`: an array value sharing the array's backend. -/
def ofArray (x : QJsonArray) : QJsonValue := ⟨.array x.a⟩

/-- `QJsonValue::toArray()`: the array's backend, or an empty array for any other type. -/
def toArray (v : QJsonValue) : QJsonArray :=
  match v.value with
  | .array c => ⟨c⟩
  | .scalar _ => ⟨none⟩

/-- `QJsonValue::toDouble()`: a double as it is, an integer converted, otherwise `0.0`. -/
def toDouble (v : QJsonValue) : UInt64 :=
  match v.value with
  | .scalar (.double d) => d
  | .scalar (.integer n) => int64ToDouble n
  | _ => 0

@[simp] theorem type_undefined : undefined.type = .undefined := rfl

@[simp] theorem type_null : null.type = .null := rfl

@[simp] theorem toArray_ofArray (x : QJsonArray) : (ofArray x).toArray = x := rfl

end QJsonValue

/-- Modelled from the spec: a value encoded for storage, as `QCborValue::fromJsonValue`: a
`QJsonValue`'s value, converted back type by type, which on the JSON types gives the held value
itself. -/
def QCborValue.fromJsonValue (v : QJsonValue) : QCborValue := v.value

@[simp] theorem QCborValue.fromJsonValue_fromTrustedCbor (x : QCborValue) :
    QCborValue.fromJsonValue (QJsonValue.fromTrustedCbor x) = x := rfl

@[simp] theorem QJsonValue.fromTrustedCbor_fromJsonValue (v : QJsonValue) :
    QJsonValue.fromTrustedCbor (QCborValue.fromJsonValue v) = v := rfl

end QtJsonArray
