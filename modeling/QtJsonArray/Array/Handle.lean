import QtJsonArray.Store.Release

/-!
# `QJsonArray`

The members of qjsonarray.cpp that read or change an array, over a store. A read takes the
heap and the handle; a mutating member takes the store and the index of the handle it is
called on, and gives the new store or the fault the call runs into: a failed `Q_ASSERT` on its
arguments, or a dereference of a null `a`.

Below them sit the backend's own operations (`QCborContainerPrivate::detach`, `insertAt`,
`removeAt`, `extractAt`, `replaceAt`) and the assignment of the handle's shared pointer
(`QExplicitlySharedDataPointer::reset`), none of which is in the array's source. They are
modelled after the backend interface the array relies on: `detach` returns the backend itself
when its count is one and otherwise a clone, a new backend with the same elements whose
containers each gain a reference; editing an element retains the container it stores and
releases the one it drops.

## Allocation

`alloc` says whether allocating the clone in `QCborContainerPrivate::detach` succeeds; when it
does not, `detach` returns null. `new QCborContainerPrivate` in `insert` always succeeds. The
`reserve` argument of `detach` is a capacity hint and changes nothing observable.
-/

namespace QtJsonArray

/-- How a call goes wrong. -/
inductive Fault where
  /-- A `Q_ASSERT` on the arguments fails. -/
  | assertion
  /-- The null `a` is dereferenced. -/
  | nullDereference
  deriving DecidableEq, Repr

namespace Store

/-- `QExplicitlySharedDataPointer::reset(ptr)` on handle `h`'s `a`: nothing when `ptr` is the
pointer `a` holds; otherwise `ptr` is retained, `a` takes it, and the old pointer is released. -/
def reset (s : Store) (h : ℕ) (q : Option Ptr) : Store :=
  if q = (s.handle h).a then s else ((s.retain q).setHandle h ⟨q⟩).release (s.handle h).a.toList

/-- Modelled from the spec: the backend's `detach(current, reserveHint)`, a new exclusively-owned
backend or null on failure, as `QCborContainerPrivate::detach(d, reserved)` for a set `d`: `d`
itself when its count is one, otherwise `clone(d)`, a new backend with `d`'s elements and a count
of zero, each container among the elements retained; null, as the spec's interface has it, when
the clone cannot be allocated. -/
def detachBackend (alloc : Bool) (s : Store) (p : Ptr) : Store × Option Ptr :=
  if (s.heap.backend p).ref = 1 then (s, some p)
  else if alloc then
    let els := (s.heap.backend p).elements
    let c := (s.retainAll (children els)).alloc ⟨els, 0⟩
    (c.1, some c.2)
  else (s, none)

/-- Modelled from the spec: the backend's `insertAt(index, encoded element)`, as
`QCborContainerPrivate::insertAt(idx, value)`: the value goes in at `idx`, and a container it
holds gains a reference. -/
def insertAt (s : Store) (p : Ptr) (idx : ℕ) (x : QCborValue) : Store :=
  (s.retain x.container).setElements p ((s.heap.backend p).elements.insertIdx idx x)

/-- Modelled from the spec: the backend's `removeAt(index)`, as
`QCborContainerPrivate::removeAt(idx)`: `replaceAt(idx, {})` drops the element's reference, then
the slot goes. -/
def removeAt (s : Store) (p : Ptr) (idx : ℕ) : Store :=
  (s.setElements p ((s.heap.backend p).elements.eraseIdx idx)).release
    ((s.heap.backend p).valueAt idx).container.toList

/-- Modelled from the spec: the backend's `extractAt(index)`, remove-and-return, as
`QCborContainerPrivate::extractAt(idx)`: the element is swapped for an empty one and returned
with its reference. A string element is returned as it is; Qt's `extractAt_complex` moves its
characters into a new container. -/
def extractAt (s : Store) (p : Ptr) (idx : ℕ) : Store × QCborValue :=
  (s.setElements p ((s.heap.backend p).elements.set idx (.scalar .undefined)), (s.heap.backend p).valueAt idx)

/-- Modelled from the spec: the backend's `replaceAt(index, encoded element)`, as
`QCborContainerPrivate::replaceAt(idx, value)`: the new value's container gains a reference, the
old element's loses one. -/
def replaceAt (s : Store) (p : Ptr) (idx : ℕ) (x : QCborValue) : Store :=
  ((s.retain x.container).setElements p ((s.heap.backend p).elements.set idx x)).release
    ((s.heap.backend p).valueAt idx).container.toList

end Store

namespace QJsonArray

/-! ### Reading -/

/-- `a->elements`, none for a null `a`. -/
def elements (H : Heap) (x : QJsonArray) : List QCborValue :=
  match x.a with
  | none => []
  | some p => (H.backend p).elements

/-- `QJsonArray::size()`: `a ? a->elements.size() : 0`. -/
def size (H : Heap) (x : QJsonArray) : ℤ :=
  match x.a with
  | none => 0
  | some p => (H.backend p).elements.length

/-- `QJsonArray::isEmpty()`: `a == nullptr || a->elements.isEmpty()`. -/
def isEmpty (H : Heap) (x : QJsonArray) : Bool :=
  match x.a with
  | none => true
  | some p => (H.backend p).elements.isEmpty

/-- `QJsonArray::at(i)`: Undefined for a null `a` or an index out of range. -/
def «at» (H : Heap) (x : QJsonArray) (i : ℤ) : QJsonValue :=
  match x.a with
  | none => .undefined
  | some p =>
    if i < 0 ∨ ((H.backend p).elements.length : ℤ) ≤ i then .undefined
    else .fromTrustedCbor ((H.backend p).valueAt i.toNat)

theorem elements_of_a {H : Heap} {x : QJsonArray} {p : Ptr} (hp : x.a = some p) :
    elements H x = (H.backend p).elements := by
  simp [elements, hp]

@[simp] theorem elements_none (H : Heap) : elements H ⟨none⟩ = [] := rfl

theorem size_eq (H : Heap) (x : QJsonArray) : x.size H = (elements H x).length := by
  unfold size elements; split <;> rfl

/-- `QJsonArray::first()`: `at(0)`. -/
def first (H : Heap) (x : QJsonArray) : QJsonValue := x.at H 0

/-- `QJsonArray::last()`: `at(a ? (a->elements.size() - 1) : 0)`. -/
def last (H : Heap) (x : QJsonArray) : QJsonValue :=
  x.at H (match x.a with
    | some p => ((H.backend p).elements.length : ℤ) - 1
    | none => 0)

/-- `QJsonArray::contains(value)`: some `at(i)`, for `i < size()`, equals `value` under the
`QJsonValue` equality `eq`. -/
def contains (eq : QJsonValue → QJsonValue → Bool) (H : Heap) (x : QJsonArray) (value : QJsonValue) :
    Bool :=
  (List.range (x.size H).toNat).any fun i => eq (x.at H i) value

/-! ### Changing -/

/-- `QJsonArray::detach(reserve)`: `a = a->detach(a.data(), ...)` when `a` is set; returns
whether `a` is set afterwards. -/
def detach (alloc : Bool) (s : Store) (h : ℕ) : Store × Bool :=
  match (s.handle h).a with
  | none => (s, true)
  | some p =>
    let d := s.detachBackend alloc p
    (d.1.reset h d.2, d.2.isSome)

/-- The first statement of `insert`: `if (a) detach(a->elements.size() + 1); else a = new
QCborContainerPrivate;`. -/
def detachOrCreate (alloc : Bool) (s : Store) (h : ℕ) : Store :=
  match (s.handle h).a with
  | some _ => (detach alloc s h).1
  | none =>
    let c := s.alloc ⟨[], 0⟩
    c.1.reset h (some c.2)

/-- `QJsonArray::insert(i, value)`: detach, or give a null `a` a new backend; then
`Q_ASSERT(i >= 0 && i <= a->elements.size())` and insert the value, Undefined stored as Null. -/
def insert (alloc : Bool) (s : Store) (h : ℕ) (i : ℤ) (value : QJsonValue) : Except Fault Store :=
  let s₁ := detachOrCreate alloc s h
  match (s₁.handle h).a with
  | none => .error (if 0 ≤ i then .nullDereference else .assertion)
  | some p =>
    if 0 ≤ i ∧ i ≤ ((s₁.heap.backend p).elements.length : ℤ) then
      .ok (s₁.insertAt p i.toNat
        (if value.type = .undefined then .scalar .null else .fromJsonValue value))
    else .error .assertion

/-- `QJsonArray::prepend(value)`: `insert(0, value)`. -/
def prepend (alloc : Bool) (s : Store) (h : ℕ) (value : QJsonValue) : Except Fault Store :=
  insert alloc s h 0 value

/-- `QJsonArray::append(value)`: `insert(a ? a->elements.size() : 0, value)`. -/
def append (alloc : Bool) (s : Store) (h : ℕ) (value : QJsonValue) : Except Fault Store :=
  insert alloc s h ((s.handle h).size s.heap) value

/-- `QJsonArray::removeAt(i)`: nothing for a null `a` or an index out of range; otherwise detach
and remove. -/
def removeAt (alloc : Bool) (s : Store) (h : ℕ) (i : ℤ) : Except Fault Store :=
  match (s.handle h).a with
  | none => .ok s
  | some p =>
    if i < 0 ∨ ((s.heap.backend p).elements.length : ℤ) ≤ i then .ok s
    else
      let s₁ := (detach alloc s h).1
      match (s₁.handle h).a with
      | none => .error .nullDereference
      | some q => .ok (s₁.removeAt q i.toNat)

/-- `QJsonArray::takeAt(i)`: Undefined for a null `a` or an index out of range; otherwise detach,
extract the element and remove its slot. -/
def takeAt (alloc : Bool) (s : Store) (h : ℕ) (i : ℤ) : Except Fault (Store × QJsonValue) :=
  match (s.handle h).a with
  | none => .ok (s, .undefined)
  | some p =>
    if i < 0 ∨ ((s.heap.backend p).elements.length : ℤ) ≤ i then .ok (s, .undefined)
    else
      let s₁ := (detach alloc s h).1
      match (s₁.handle h).a with
      | none => .error .nullDereference
      | some q =>
        let e := s₁.extractAt q i.toNat
        .ok (e.1.removeAt q i.toNat, .fromTrustedCbor e.2)

/-- `QJsonArray::replace(i, value)`: `Q_ASSERT(a && i >= 0 && i < a->elements.size())`, detach,
and replace the element by the value. -/
def replace (alloc : Bool) (s : Store) (h : ℕ) (i : ℤ) (value : QJsonValue) : Except Fault Store :=
  match (s.handle h).a with
  | none => .error .assertion
  | some p =>
    if 0 ≤ i ∧ i < ((s.heap.backend p).elements.length : ℤ) then
      let s₁ := (detach alloc s h).1
      match (s₁.handle h).a with
      | none => .error .nullDereference
      | some q => .ok (s₁.replaceAt q i.toNat (.fromJsonValue value))
    else .error .assertion

end QJsonArray

end QtJsonArray
