import QtJsonArray.Array.Contents

/-!
# Equality and hashing

`comparesEqual(const QJsonArray &, const QJsonArray &)` decides array equality: by identity of
the backends first, then a null handle against the size of the other, then the sizes, then the
stored elements pairwise under `QCborValue ==`. `comparesEqual(const QJsonArray &, const QJsonValue &)`
compares with the value's `toArray()`. `qHash(const QJsonArray &, seed)` folds the elements'
`qHash(QJsonValue)` with `QHashCombine`.

## The model

The element comparison is a parameter `eq` of `comparesEqual`. `QCborValue ==` itself
(`cborEqual`) and `QJsonValue ==` (`jsonEqual`) are outside this file and are modelled after
their interface: `QCborValue ==` compares the type and the value, so an integer and a double
differ, and compares arrays element by element; `QJsonValue ==` compares an integer and a
double as doubles and arrays as `QJsonArray`s. Both descend into nested arrays through the heap
and take a depth `d`: below it arrays are compared by identity, and `qHashValue` hashes them to
the seed. The hashes of the values that hold no array are Qt's (`LeafHash`), a parameter.

## What is proved

* `comparesEqual_laws`: when `eq` is an equivalence, the fast paths agree with the element loop
  on a null handle read as empty, and array equality is an equivalence.
* `qHash_of_comparesEqual`: equal arrays hash alike, for any seed and any leaf hashes.
* `comparesEqual_integer_double`: `[1]` and `[1.0]` are unequal arrays although their elements
  are equal `QJsonValue`s.
* `comparesEqualValue_eq`: an array equals a value exactly when the value is an equal array, or
  the value is no array and the array is empty.
-/

namespace QtJsonArray

/-- Two element lists, compared pairwise by `eq`; lists of different lengths differ. -/
def elementwise (eq : QCborValue → QCborValue → Bool) : List QCborValue → List QCborValue → Bool
  | [], [] => true
  | x :: xs, y :: ys => eq x y && elementwise eq xs ys
  | _, _ => false

/-- Modelled from the spec: element equality with no coercion across types, as `QCborValue ==` on
stored values: scalars by type and value, arrays element by element, nested arrays compared `d`
levels deep and by identity below. -/
def cborEqual (H : Heap) : ℕ → QCborValue → QCborValue → Bool
  | _, .scalar a, .scalar b => a == b
  | 0, .array c, .array c' => c == c'
  | d + 1, .array c, .array c' =>
    elementwise (cborEqual H d) (QJsonArray.elements H ⟨c⟩) (QJsonArray.elements H ⟨c'⟩)
  | _, _, _ => false

namespace QJsonArray

/-- `comparesEqual(const QJsonArray &lhs, const QJsonArray &rhs)`, with `eq` for `QCborValue ==`. -/
def comparesEqual (eq : QCborValue → QCborValue → Bool) (H : Heap) (lhs rhs : QJsonArray) : Bool :=
  if lhs.a = rhs.a then true
  else
    match lhs.a, rhs.a with
    | none, some q => (H.backend q).elements.length == 0
    | some p, none => (H.backend p).elements.length == 0
    | some p, some q =>
      if (H.backend p).elements.length ≠ (H.backend q).elements.length then false
      else (List.range (H.backend p).elements.length).all fun i =>
        eq ((H.backend p).valueAt i) ((H.backend q).valueAt i)
    | none, none => true

/-- `comparesEqual(const QJsonArray &lhs, const QJsonValue &rhs)`: `lhs == rhs.toArray()`. -/
def comparesEqualValue (eq : QCborValue → QCborValue → Bool) (H : Heap) (lhs : QJsonArray) (rhs : QJsonValue) :
    Bool :=
  comparesEqual eq H lhs rhs.toArray

end QJsonArray

/-- Modelled from the spec: value equality, as `QJsonValue ==`: values of different types differ,
except an integer and a double, compared as doubles; arrays compare as `QJsonArray`s. -/
def jsonEqual (H : Heap) (d : ℕ) (v w : QJsonValue) : Bool :=
  match v.value, w.value with
  | .scalar .undefined, .scalar .undefined => true
  | .scalar .null, .scalar .null => true
  | .scalar (.bool a), .scalar (.bool b) => a == b
  | .scalar (.integer a), .scalar (.integer b) => a == b
  | .scalar (.double a), .scalar (.double b) => doubleEq a b
  | .scalar (.integer _), .scalar (.double _) => doubleEq v.toDouble w.toDouble
  | .scalar (.double _), .scalar (.integer _) => doubleEq v.toDouble w.toDouble
  | .scalar (.string a), .scalar (.string b) => a == b
  | .scalar (.map a), .scalar (.map b) => a == b
  | .array c, .array c' => QJsonArray.comparesEqual (cborEqual H d) H ⟨c⟩ ⟨c'⟩
  | _, _ => false

/-- `QHashCombine`, the combiner of `qHashRange`. -/
def hashCombine (seed h : UInt64) : UInt64 :=
  seed ^^^ (h + 0x9e3779b9 + (seed <<< (6 : UInt64)) + (seed >>> (2 : UInt64)))

/-- Qt's `qHash` for the types a `QJsonValue` holds other than arrays. -/
structure LeafHash where
  null : UInt64 → UInt64
  bool : Bool → UInt64 → UInt64
  double : UInt64 → UInt64 → UInt64
  string : String → UInt64 → UInt64
  object : ℕ → UInt64 → UInt64

/-- `qHash(const QJsonValue &, seed)` on a value holding no array: by its type, a number as the
double `toDouble()` gives, Undefined as the seed. -/
def LeafHash.scalar (L : LeafHash) : Scalar → UInt64 → UInt64
  | .undefined, seed => seed
  | .null, seed => L.null seed
  | .bool b, seed => L.bool b seed
  | .integer n, seed => L.double (int64ToDouble n) seed
  | .double x, seed => L.double x seed
  | .string t, seed => L.string t seed
  | .map k, seed => L.object k seed

/-- `qHash(const QJsonValue &, seed)`, nested arrays hashed `d` levels deep. -/
def qHashValue (L : LeafHash) (H : Heap) : ℕ → QJsonValue → UInt64 → UInt64
  | _, ⟨.scalar sc⟩, seed => L.scalar sc seed
  | 0, ⟨.array _⟩, seed => seed
  | d + 1, ⟨.array c⟩, seed =>
    (QJsonArray.elements H ⟨c⟩).foldl (fun acc e => hashCombine acc (qHashValue L H d (.fromTrustedCbor e) 0)) seed

namespace QJsonArray

/-- `qHash(const QJsonArray &array, seed)`: `qHashRange(array.begin(), array.end(), seed)`. -/
def qHash (L : LeafHash) (H : Heap) (d : ℕ) (x : QJsonArray) (seed : UInt64) : UInt64 :=
  (elements H x).foldl (fun acc e => hashCombine acc (qHashValue L H d (.fromTrustedCbor e) 0)) seed

end QJsonArray

/-! ### Comparing element lists -/

section Elementwise

variable {eq : QCborValue → QCborValue → Bool}

theorem beq_length_zero (l : List QCborValue) : (l.length == 0) = l.isEmpty := by
  cases l <;> rfl

@[simp] theorem elementwise_nil_left (ys : List QCborValue) : elementwise eq [] ys = ys.isEmpty := by
  cases ys <;> rfl

@[simp] theorem elementwise_nil_right (xs : List QCborValue) : elementwise eq xs [] = xs.isEmpty := by
  cases xs <;> rfl

theorem elementwise_length {xs ys : List QCborValue} (h : elementwise eq xs ys = true) :
    xs.length = ys.length := by
  induction xs generalizing ys with
  | nil => cases ys <;> simp_all
  | cons x xs ih =>
    cases ys with
    | nil => simp at h
    | cons y ys => simp only [elementwise, Bool.and_eq_true] at h; simp [ih h.2]

theorem elementwise_refl (hrefl : ∀ x, eq x x = true) (xs : List QCborValue) : elementwise eq xs xs = true := by
  induction xs <;> simp_all [elementwise]

theorem elementwise_comm (hsymm : ∀ x y, eq x y = eq y x) (xs ys : List QCborValue) :
    elementwise eq xs ys = elementwise eq ys xs := by
  induction xs generalizing ys with
  | nil => simp
  | cons x xs ih => cases ys <;> simp [elementwise, hsymm x, ih]

theorem elementwise_trans (htrans : ∀ x y z, eq x y = true → eq y z = true → eq x z = true)
    {xs ys zs : List QCborValue} (h₁ : elementwise eq xs ys = true) (h₂ : elementwise eq ys zs = true) :
    elementwise eq xs zs = true := by
  induction xs generalizing ys zs with
  | nil => cases ys <;> simp_all
  | cons x xs ih =>
    cases ys with
    | nil => simp at h₁
    | cons y ys =>
      cases zs with
      | nil => simp at h₂
      | cons z zs =>
        simp only [elementwise, Bool.and_eq_true] at *
        exact ⟨htrans x y z h₁.1 h₂.1, ih h₁.2 h₂.2⟩

/-- The loop of `comparesEqual`, on lists of equal lengths, is the pairwise comparison. -/
theorem all_range_eq_elementwise (u : QCborValue) {xs ys : List QCborValue} (hl : xs.length = ys.length) :
    ((List.range xs.length).all fun i => eq (xs.getD i u) (ys.getD i u)) = elementwise eq xs ys := by
  induction xs generalizing ys with
  | nil => cases ys <;> simp_all
  | cons x xs ih =>
    cases ys with
    | nil => simp at hl
    | cons y ys =>
      simp only [List.length_cons, Nat.succ.injEq] at hl
      rw [List.length_cons, List.range_succ_eq_map, List.all_cons, List.all_map]
      simp only [List.getD_cons_zero, List.getD_cons_succ, elementwise]
      rw [← ih hl]
      rfl

end Elementwise

namespace QJsonArray

variable {eq : QCborValue → QCborValue → Bool} {H : Heap}

/-- Past the fast paths, `comparesEqual` is the pairwise comparison of the elements, a null handle
read as empty. -/
theorem comparesEqual_of_ne {A B : QJsonArray} (hne : A.a ≠ B.a) :
    comparesEqual eq H A B = elementwise eq (elements H A) (elements H B) := by
  unfold comparesEqual
  rw [if_neg hne]
  cases ha : A.a with
  | none =>
    cases hb : B.a with
    | none => simp_all
    | some q => simp [elements, ha, hb, beq_length_zero]
  | some p =>
    cases hb : B.a with
    | none => simp [elements, ha, hb, beq_length_zero]
    | some q =>
      simp only [elements, ha, hb, Backend.valueAt]
      split
      · next hl => exact (Bool.eq_false_iff.mpr fun h => hl (elementwise_length h)).symm
      · next hl => exact all_range_eq_elementwise _ (not_not.mp hl)

theorem comparesEqual_self_a {A B : QJsonArray} (he : A.a = B.a) : comparesEqual eq H A B = true := by
  simp [comparesEqual, he]

/-- Equal arrays are the same backend, or pairwise equal elements. -/
theorem comparesEqual_cases {A B : QJsonArray} (h : comparesEqual eq H A B = true) :
    A.a = B.a ∨ elementwise eq (elements H A) (elements H B) = true := by
  by_cases he : A.a = B.a
  · exact .inl he
  · exact .inr (comparesEqual_of_ne he ▸ h)

end QJsonArray

/-! ### Equality on arrays -/

namespace QJsonArray

/-- With a reflexive element comparison, the fast paths of `comparesEqual` agree with the loop. -/
theorem comparesEqual_eq_elementwise {eq : QCborValue → QCborValue → Bool} {H : Heap}
    (hrefl : ∀ x, eq x x = true) {A B : QJsonArray} :
    comparesEqual eq H A B = elementwise eq (elements H A) (elements H B) := by
  by_cases he : A.a = B.a
  · rw [comparesEqual_self_a he, show elements H A = elements H B by simp [elements, he], elementwise_refl hrefl]
  · exact comparesEqual_of_ne he

/-- **Array equality**: when the element comparison is an equivalence, `comparesEqual` is the
pairwise comparison of the elements, a null handle read as empty (its fast paths never decide
otherwise), and it is an equivalence. -/
theorem comparesEqual_laws {eq : QCborValue → QCborValue → Bool} (hrefl : ∀ x, eq x x = true)
    (hsymm : ∀ x y, eq x y = eq y x) (htrans : ∀ x y z, eq x y = true → eq y z = true → eq x z = true)
    (H : Heap) :
    (∀ A B, comparesEqual eq H A B = elementwise eq (elements H A) (elements H B)) ∧
    (∀ A, comparesEqual eq H A A = true) ∧
    (∀ A B, comparesEqual eq H A B = comparesEqual eq H B A) ∧
    (∀ A B C, comparesEqual eq H A B = true → comparesEqual eq H B C = true → comparesEqual eq H A C = true) := by
  have hpair := fun A B => comparesEqual_eq_elementwise (H := H) hrefl (A := A) (B := B)
  refine ⟨hpair, fun A => ?_, fun A B => ?_, fun A B C h₁ h₂ => ?_⟩
  · rw [hpair, elementwise_refl hrefl]
  · rw [hpair, hpair, elementwise_comm hsymm]
  · rw [hpair] at *
    exact elementwise_trans htrans h₁ h₂

/-- Under `==` on stored values, a null handle equals a handle on an empty backend. -/
theorem comparesEqual_laws_absent_empty :
    comparesEqual (fun x y => decide (x = y)) [some ⟨[], 1⟩] ⟨none⟩ ⟨some 0⟩ = true :=
  by rw [(@comparesEqual_laws (fun x y => decide (x = y)) (fun x => by simp) (fun x y => by simp [eq_comm])
    (fun x y z h₁ h₂ => by simp_all) [some ⟨[], 1⟩]).1 ⟨none⟩ ⟨some 0⟩]; rfl

end QJsonArray

/-! ### Hashing -/

/-- Folding the hashes of pairwise equal lists, when equal elements hash alike. -/
theorem foldl_hashCombine_congr {eq : QCborValue → QCborValue → Bool} {g : QCborValue → UInt64}
    (hg : ∀ x y, eq x y = true → g x = g y) {xs ys : List QCborValue} (h : elementwise eq xs ys = true)
    (seed : UInt64) :
    xs.foldl (fun acc e => hashCombine acc (g e)) seed = ys.foldl (fun acc e => hashCombine acc (g e)) seed := by
  induction xs generalizing ys seed with
  | nil => cases ys <;> simp_all
  | cons x xs ih =>
    cases ys with
    | nil => simp at h
    | cons y ys =>
      simp only [elementwise, Bool.and_eq_true] at h
      rw [List.foldl_cons, List.foldl_cons, hg x y h.1]
      exact ih h.2 _

/-- Stored values equal under `QCborValue ==` hash alike. -/
theorem qHashValue_of_cborEqual (L : LeafHash) (H : Heap) (d : ℕ) {x y : QCborValue}
    (h : cborEqual H d x y = true) (seed : UInt64) :
    qHashValue L H d (.fromTrustedCbor x) seed = qHashValue L H d (.fromTrustedCbor y) seed := by
  induction d generalizing x y seed with
  | zero =>
    cases x <;> cases y <;> simp_all [cborEqual, qHashValue, QJsonValue.fromTrustedCbor]
  | succ d ih =>
    cases x with
    | scalar a => cases y <;> simp_all [cborEqual]
    | array c =>
      cases y with
      | scalar b => simp [cborEqual] at h
      | array c' =>
        simp only [cborEqual] at h
        exact @foldl_hashCombine_congr (cborEqual H d) (fun e => qHashValue L H d (.fromTrustedCbor e) 0)
          (fun x y hxy => ih hxy 0) _ _ h seed

namespace QJsonArray

/-- **Equal arrays hash alike**, for every seed and whatever Qt's hashes of the other types. -/
theorem qHash_of_comparesEqual (L : LeafHash) (H : Heap) (d : ℕ) (A B : QJsonArray) (seed : UInt64)
    (h : comparesEqual (cborEqual H d) H A B = true) : qHash L H d A seed = qHash L H d B seed := by
  unfold qHash
  rcases comparesEqual_cases h with he | he
  · simp [elements, he]
  · exact @foldl_hashCombine_congr (cborEqual H d) (fun e => qHashValue L H d (.fromTrustedCbor e) 0)
      (fun x y hxy => qHashValue_of_cborEqual L H d hxy 0) _ _ he seed

/-- Two distinct backends holding `[true]` hash alike. -/
theorem qHash_of_comparesEqual_two :
    comparesEqual (cborEqual [some ⟨[.scalar (.bool true)], 1⟩, some ⟨[.scalar (.bool true)], 1⟩] 0)
        [some ⟨[.scalar (.bool true)], 1⟩, some ⟨[.scalar (.bool true)], 1⟩] ⟨some 0⟩ ⟨some 1⟩ = true ∧
      qHash ⟨id, fun b s => s + if b then 1 else 0, fun x s => x ^^^ s, fun _ s => s, fun _ s => s⟩
          [some ⟨[.scalar (.bool true)], 1⟩, some ⟨[.scalar (.bool true)], 1⟩] 0 ⟨some 0⟩ 7 =
        qHash ⟨id, fun b s => s + if b then 1 else 0, fun x s => x ^^^ s, fun _ s => s, fun _ s => s⟩
          [some ⟨[.scalar (.bool true)], 1⟩, some ⟨[.scalar (.bool true)], 1⟩] 0 ⟨some 1⟩ 7 :=
  ⟨by decide, qHash_of_comparesEqual _ _ 0 ⟨some 0⟩ ⟨some 1⟩ 7 (by decide)⟩

/-! ### Where array equality is not `QJsonValue ==` -/

/-- `[QJsonValue(1)]` and `[QJsonValue(1.0)]`, built by `append` on two new arrays, are unequal
arrays at every depth, although each has one element and the two elements are equal
`QJsonValue`s: `comparesEqual` compares the stored `QCborValue`s, an integer and a double. -/
theorem comparesEqual_integer_double :
    ∃ s, ((append true (Store.init 2) 0 ⟨.scalar (.integer 1)⟩).bind fun s₁ =>
        append true s₁ 1 ⟨.scalar (.double 0x3FF0000000000000)⟩) = .ok s ∧
      ∀ d, comparesEqual (cborEqual s.heap d) s.heap (s.handle 0) (s.handle 1) = false ∧
        (s.handle 0).size s.heap = 1 ∧ (s.handle 1).size s.heap = 1 ∧
        jsonEqual s.heap d ((s.handle 0).at s.heap 0) ((s.handle 1).at s.heap 0) = true := by
  refine ⟨⟨[some ⟨[.scalar (.integer 1)], 1⟩, some ⟨[.scalar (.double 0x3FF0000000000000)], 1⟩],
    [⟨some 0⟩, ⟨some 1⟩], []⟩, ?_, fun d => ?_⟩
  · simp [QJsonArray.append, QJsonArray.insert, detachOrCreate, Store.init, Store.reset, Store.handle, Store.alloc,
      Store.retain, Store.setHandle, Store.insertAt, Store.setElements, Heap.read, Heap.backend, size, QJsonValue.type,
      QCborValue.type, QCborValue.fromJsonValue, Store.write, bind, Except.bind]
  · have hd : ∀ H a b, cborEqual H d (.scalar a) (.scalar b) = (a == b) := by
      intro H a b; cases d <;> rfl
    simp [comparesEqual, Store.handle, Heap.backend, Heap.read, Backend.valueAt, hd, size, QJsonArray.at,
      jsonEqual, QJsonValue.fromTrustedCbor, QJsonValue.toDouble, int64ToDouble_one]
    decide

/-- An array against a value: `comparesEqual(lhs, rhs)` reads a value that is no array as an
empty array, so it holds exactly when the value is an array equal to `lhs` as `QJsonValue`s, or
the value is no array and `lhs` is empty. -/
theorem comparesEqualValue_eq (H : Heap) (d : ℕ) (A : QJsonArray) (v : QJsonValue) :
    comparesEqualValue (cborEqual H d) H A v =
      if v.type = .array then jsonEqual H d (.ofArray A) v else A.isEmpty H := by
  rcases v with ⟨sc | c⟩
  · have ht : (QCborValue.scalar sc).type ≠ .array := by cases sc <;> simp [QCborValue.type]
    have : comparesEqual (cborEqual H d) H A ⟨none⟩ = A.isEmpty H := by
      unfold comparesEqual isEmpty
      cases A.a <;> simp [beq_length_zero]
    simpa [comparesEqualValue, QJsonValue.toArray, QJsonValue.type, ht] using this
  · rfl

/-- An empty array equals Null, which as a `QJsonValue` it does not. -/
theorem comparesEqualValue_empty_null :
    comparesEqualValue (cborEqual [] 0) [] ⟨none⟩ .null = true ∧
      jsonEqual [] 0 (.ofArray ⟨none⟩) .null = false := by
  decide

end QJsonArray

/-! ### `QCborValue ==` is an equivalence -/

section CborEqual

variable (H : Heap)

theorem cborEqual_refl (d : ℕ) (x : QCborValue) : cborEqual H d x x = true := by
  induction d generalizing x with
  | zero => cases x <;> simp [cborEqual]
  | succ d ih => cases x <;> simp [cborEqual, elementwise_refl ih]

theorem cborEqual_comm (d : ℕ) (x y : QCborValue) : cborEqual H d x y = cborEqual H d y x := by
  induction d generalizing x y with
  | zero => cases x <;> cases y <;> simp [cborEqual, eq_comm]
  | succ d ih => cases x <;> cases y <;> simp [cborEqual, eq_comm, elementwise_comm ih]

theorem cborEqual_trans (d : ℕ) (x y z : QCborValue) (h₁ : cborEqual H d x y = true)
    (h₂ : cborEqual H d y z = true) : cborEqual H d x z = true := by
  induction d generalizing x y z with
  | zero => cases x <;> cases y <;> cases z <;> simp_all [cborEqual]
  | succ d ih =>
    cases x <;> cases y <;> cases z <;> simp only [cborEqual, beq_iff_eq, reduceCtorEq] at *
    · exact h₁.trans h₂
    · exact elementwise_trans (ih · · ·) h₁ h₂

end CborEqual

/-- **Array equality with `QCborValue ==` is an equivalence** at every depth: on a null handle, a
handle on an empty backend, handles sharing a backend and handles on distinct ones. -/
theorem comparesEqual_cborEqual_equivalence (H : Heap) (d : ℕ) :
    (∀ A, QJsonArray.comparesEqual (cborEqual H d) H A A = true) ∧
    (∀ A B, QJsonArray.comparesEqual (cborEqual H d) H A B = QJsonArray.comparesEqual (cborEqual H d) H B A) ∧
    (∀ A B C, QJsonArray.comparesEqual (cborEqual H d) H A B = true →
      QJsonArray.comparesEqual (cborEqual H d) H B C = true → QJsonArray.comparesEqual (cborEqual H d) H A C = true) := by
  have hpair := fun A B => QJsonArray.comparesEqual_eq_elementwise (H := H) (cborEqual_refl H d) (A := A) (B := B)
  refine ⟨fun A => ?_, fun A B => ?_, fun A B C h₁ h₂ => ?_⟩
  · rw [hpair, elementwise_refl (cborEqual_refl H d)]
  · rw [hpair, hpair, elementwise_comm (cborEqual_comm H d)]
  · rw [hpair] at *
    exact elementwise_trans (cborEqual_trans H d) h₁ h₂

end QtJsonArray
