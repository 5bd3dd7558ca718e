import QtJsonArray.Array.Detach

/-!
# Editing a backend

The four in-place edits of a backend (`insertAt`, `removeAt`, `extractAt`, `replaceAt`), and the
members of `QJsonArray` that call them once the handle holds its backend alone.

For each edit: what it does to the edited backend's elements, and how it moves the ledger. An
insertion or a replacement retains the container it stores; a removal or a replacement
releases the one it drops; an extraction hands the dropped reference to the caller, so it stays
pending until the caller stores the value.

For each member, with allocation succeeding: the call is the edit on the backend `detach` (or
`new QCborContainerPrivate`) left the handle, exactly when the index is in range.
-/

namespace QtJsonArray

theorem eraseIdx_set_self {α : Type} (l : List α) (i : ℕ) (x : α) : (l.set i x).eraseIdx i = l.eraseIdx i := by
  induction l generalizing i with
  | nil => rfl
  | cons a l ih => cases i <;> simp [ih]

namespace Store

section Backend

variable {s : Store} {p : Ptr} {b : Backend}

@[simp] theorem handle_insertAt (p : Ptr) (idx : ℕ) (x : QCborValue) (h : ℕ) :
    (s.insertAt p idx x).handle h = s.handle h := by
  simp [insertAt]

@[simp] theorem handle_removeAt (p : Ptr) (idx : ℕ) (h : ℕ) : (s.removeAt p idx).handle h = s.handle h := by
  simp [removeAt]

@[simp] theorem handle_extractAt (p : Ptr) (idx : ℕ) (h : ℕ) :
    (s.extractAt p idx).1.handle h = s.handle h := by
  simp [extractAt]

@[simp] theorem handle_replaceAt (p : Ptr) (idx : ℕ) (x : QCborValue) (h : ℕ) :
    (s.replaceAt p idx x).handle h = s.handle h := by
  simp [replaceAt]

@[simp] theorem handles_insertAt (p : Ptr) (idx : ℕ) (x : QCborValue) :
    (s.insertAt p idx x).handles = s.handles := by
  simp [insertAt, handles_setElements, handles_retain]

@[simp] theorem values_insertAt (p : Ptr) (idx : ℕ) (x : QCborValue) :
    (s.insertAt p idx x).values = s.values := by
  simp [insertAt, values_setElements, values_retain]

@[simp] theorem handles_removeAt (p : Ptr) (idx : ℕ) : (s.removeAt p idx).handles = s.handles := by
  simp [removeAt, handles_release, handles_setElements]

@[simp] theorem values_removeAt (p : Ptr) (idx : ℕ) : (s.removeAt p idx).values = s.values := by
  simp [removeAt, values_release, values_setElements]

@[simp] theorem handles_extractAt (p : Ptr) (idx : ℕ) : (s.extractAt p idx).1.handles = s.handles := by
  simp [extractAt, handles_setElements]

@[simp] theorem values_extractAt (p : Ptr) (idx : ℕ) : (s.extractAt p idx).1.values = s.values := by
  simp [extractAt, values_setElements]

@[simp] theorem handles_replaceAt (p : Ptr) (idx : ℕ) (x : QCborValue) :
    (s.replaceAt p idx x).handles = s.handles := by
  simp [replaceAt, handles_release, handles_setElements, handles_retain]

@[simp] theorem values_replaceAt (p : Ptr) (idx : ℕ) (x : QCborValue) :
    (s.replaceAt p idx x).values = s.values := by
  simp [replaceAt, values_release, values_setElements, values_retain]

theorem rootRefs_setElements (p : Ptr) (xs : List QCborValue) (q : Ptr) :
    (s.setElements p xs).rootRefs q = s.rootRefs q := by
  simp only [rootRefs, handles_setElements, values_setElements]

theorem rootRefs_retain (x : Option Ptr) (q : Ptr) : (s.retain x).rootRefs q = s.rootRefs q := by
  simp only [rootRefs, handles_retain, values_retain]

/-! Each edit on a live backend, with the backend's elements read once. -/

theorem setElements_of_read (hb : s.heap.read p = some b) (xs : List QCborValue) :
    s.setElements p xs = s.write p (some { b with elements := xs }) := by
  simp [setElements, hb]

theorem setElements_setElements (hb : s.heap.read p = some b) (xs ys : List QCborValue) :
    (s.setElements p xs).setElements p ys = s.setElements p ys := by
  rw [setElements_of_read (read_setElements_self hb xs), setElements_of_read hb ys, setElements_of_read hb xs]
  simp [Store.write, List.set_set]

theorem insertAt_eq (hb : s.heap.read p = some b) (idx : ℕ) (x : QCborValue) :
    s.insertAt p idx x = (s.retain x.container).setElements p (b.elements.insertIdx idx x) := by
  rw [Store.insertAt, Heap.backend_of_read hb]

theorem removeAt_eq (hb : s.heap.read p = some b) (idx : ℕ) :
    s.removeAt p idx = (s.setElements p (b.elements.eraseIdx idx)).release (b.valueAt idx).container.toList := by
  rw [Store.removeAt, Heap.backend_of_read hb]

theorem extractAt_eq (hb : s.heap.read p = some b) (idx : ℕ) :
    s.extractAt p idx = (s.setElements p (b.elements.set idx (.scalar .undefined)), b.valueAt idx) := by
  rw [Store.extractAt, Heap.backend_of_read hb]

theorem replaceAt_eq (hb : s.heap.read p = some b) (idx : ℕ) (x : QCborValue) :
    s.replaceAt p idx x =
      ((s.retain x.container).setElements p (b.elements.set idx x)).release (b.valueAt idx).container.toList := by
  rw [Store.replaceAt, Heap.backend_of_read hb]

/-- The value stored by `insertAt` brings its container's reference. -/
theorem Counted.insertAt (hc : s.Counted []) (hb : s.heap.read p = some b) {idx : ℕ}
    (hi : idx ≤ b.elements.length) {x : QCborValue}
    (hx : ∀ c, x.container = some c → s.heap.read c ≠ none) : (s.insertAt p idx x).Counted [] := by
  obtain ⟨b', hb', he⟩ := read_retain_of_read x.container hb
  rw [insertAt_eq hb]
  refine (hc.retain hx).setElements hb' fun q => ?_
  rw [he, count_children_insertIdx x hi q]
  simp

theorem read_insertAt_self (hb : s.heap.read p = some b) (idx : ℕ) (x : QCborValue) :
    ∃ b', (s.insertAt p idx x).heap.read p = some b' ∧ b'.elements = b.elements.insertIdx idx x := by
  obtain ⟨b', hb', -⟩ := read_retain_of_read x.container hb
  exact ⟨_, by rw [insertAt_eq hb, read_setElements_self hb'], rfl⟩

/-- Before the release that ends `removeAt`, the dropped element's reference is pending. -/
theorem Counted.setElements_eraseIdx {P : List Ptr} (hc : s.Counted P) (hb : s.heap.read p = some b) {idx : ℕ}
    (hi : idx < b.elements.length) :
    (s.setElements p (b.elements.eraseIdx idx)).Counted ((b.valueAt idx).container.toList ++ P) :=
  hc.setElements hb fun q => by
    have := count_children_eraseIdx hi (.scalar .undefined) q
    simp only [Backend.valueAt, List.count_append]; omega

theorem Counted.removeAt {P : List Ptr} (hc : s.Counted P) (hb : s.heap.read p = some b) {idx : ℕ}
    (hi : idx < b.elements.length) : (s.removeAt p idx).Counted P := by
  rw [removeAt_eq hb]
  exact Counted.release_append (hc.setElements_eraseIdx hb hi)

/-- The backend a variable holds keeps its elements through the release that follows an edit. -/
theorem read_removeAt_self {P : List Ptr} (hc : s.Counted P) (hb : s.heap.read p = some b) {idx : ℕ}
    (hi : idx < b.elements.length) (hr : 0 < s.rootRefs p) :
    ∃ b', (s.removeAt p idx).heap.read p = some b' ∧ b'.elements = b.elements.eraseIdx idx := by
  rw [removeAt_eq hb]
  exact read_release_of_rootRefs (hc.setElements_eraseIdx hb hi) (read_setElements_self hb _)
    (by rwa [rootRefs_setElements])

/-- `extractAt` leaves the element's reference with the caller. -/
theorem Counted.extractAt (hc : s.Counted []) (hb : s.heap.read p = some b) {idx : ℕ}
    (hi : idx < b.elements.length) :
    (s.extractAt p idx).1.Counted ((s.extractAt p idx).2.container.toList) := by
  simp only [extractAt_eq hb]
  refine hc.setElements hb fun q => ?_
  have := count_children_set hi (.scalar .undefined) (.scalar .undefined) q
  simp only [Backend.valueAt, List.count_nil, QCborValue.container_scalar, Option.toList_none] at *
  omega

/-- Extracting an element and removing its slot removes the element. -/
theorem removeAt_extractAt (hb : s.heap.read p = some b) {idx : ℕ} (hi : idx < b.elements.length) :
    (s.extractAt p idx).1.removeAt p idx = s.setElements p (b.elements.eraseIdx idx) := by
  have hu : ({ b with elements := b.elements.set idx (.scalar .undefined) } : Backend).valueAt idx =
      .scalar .undefined := by
    simp [Backend.valueAt, List.getD_eq_getElem?_getD, hi]
  rw [extractAt_eq hb, removeAt_eq (read_setElements_self hb _), hu, QCborValue.container_scalar,
    Option.toList_none, release_nil, eraseIdx_set_self, setElements_setElements hb]

theorem extractAt_snd (hb : s.heap.read p = some b) (idx : ℕ) : (s.extractAt p idx).2 = b.valueAt idx := by
  rw [extractAt_eq hb]

theorem read_extractAt_self (hb : s.heap.read p = some b) (idx : ℕ) :
    (s.extractAt p idx).1.heap.read p = some { b with elements := b.elements.set idx (.scalar .undefined) } := by
  rw [extractAt_eq hb, read_setElements_self hb]

/-- Before the release that ends `replaceAt`, the dropped element's reference is pending. -/
theorem Counted.setElements_set (hc : s.Counted []) (hb : s.heap.read p = some b) {idx : ℕ}
    (hi : idx < b.elements.length) {x : QCborValue}
    (hx : ∀ c, x.container = some c → s.heap.read c ≠ none) :
    ((s.retain x.container).setElements p (b.elements.set idx x)).Counted
      ((b.valueAt idx).container.toList ++ []) := by
  obtain ⟨b', hb', he⟩ := read_retain_of_read x.container hb
  refine (hc.retain hx).setElements hb' fun q => ?_
  have := count_children_set hi (.scalar .undefined) x q
  simp only [he, Backend.valueAt, List.count_append, List.count_nil] at *
  omega

theorem Counted.replaceAt (hc : s.Counted []) (hb : s.heap.read p = some b) {idx : ℕ}
    (hi : idx < b.elements.length) {x : QCborValue}
    (hx : ∀ c, x.container = some c → s.heap.read c ≠ none) : (s.replaceAt p idx x).Counted [] := by
  rw [replaceAt_eq hb]
  exact Counted.release_append (hc.setElements_set hb hi hx)

theorem read_replaceAt_self (hc : s.Counted []) (hb : s.heap.read p = some b) {idx : ℕ}
    (hi : idx < b.elements.length) (x : QCborValue) (hx : ∀ c, x.container = some c → s.heap.read c ≠ none)
    (hr : 0 < s.rootRefs p) :
    ∃ b', (s.replaceAt p idx x).heap.read p = some b' ∧ b'.elements = b.elements.set idx x := by
  obtain ⟨b', hb', -⟩ := read_retain_of_read x.container hb
  rw [replaceAt_eq hb]
  exact read_release_of_rootRefs (hc.setElements_set hb hi hx) (read_setElements_self hb' _)
    (by rwa [rootRefs_setElements, rootRefs_retain])

end Backend

end Store

open Store

namespace QJsonArray

variable {s : Store} {h : ℕ}

/-- What `insert` stores for a value: Undefined is stored as Null. -/
theorem insert_of_detached {alloc : Bool} {q : Ptr} (hq : ((detachOrCreate alloc s h).handle h).a = some q)
    (he : elements (detachOrCreate alloc s h).heap ((detachOrCreate alloc s h).handle h) =
      elements s.heap (s.handle h)) (i : ℤ) (v : QJsonValue) :
    insert alloc s h i v =
      if 0 ≤ i ∧ i ≤ ((elements s.heap (s.handle h)).length : ℤ) then
        .ok ((detachOrCreate alloc s h).insertAt q i.toNat
          (if v.type = .undefined then .scalar .null else .fromJsonValue v))
      else .error .assertion := by
  rw [elements_of_a hq] at he
  simp only [insert, hq, he]

/-- When the detach left the handle null, `insert` dereferences it, or its assertion on `i`
fails first. -/
theorem insert_of_failed {alloc : Bool} (hq : ((detachOrCreate alloc s h).handle h).a = none) (i : ℤ)
    (v : QJsonValue) : insert alloc s h i v = .error (if 0 ≤ i then .nullDereference else .assertion) := by
  simp only [insert, hq]

theorem insert_true (hc : s.Counted []) (hh : h < s.handles.length) (i : ℤ) (v : QJsonValue) :
    ∃ q, Detached s (detachOrCreate true s h) h q ∧
      insert true s h i v =
        if 0 ≤ i ∧ i ≤ ((elements s.heap (s.handle h)).length : ℤ) then
          .ok ((detachOrCreate true s h).insertAt q i.toNat
            (if v.type = .undefined then .scalar .null else .fromJsonValue v))
        else .error .assertion := by
  obtain ⟨q, hd⟩ := detachOrCreate_true hc hh
  exact ⟨q, hd, insert_of_detached hd.owns.1 hd.elements i v⟩

/-- Out of range, `removeAt` does nothing, on a null handle too. -/
theorem removeAt_out (alloc : Bool) {i : ℤ} (hi : i < 0 ∨ ((elements s.heap (s.handle h)).length : ℤ) ≤ i) :
    removeAt alloc s h i = .ok s := by
  unfold removeAt elements at *
  split <;> simp_all

theorem takeAt_out (alloc : Bool) {i : ℤ} (hi : i < 0 ∨ ((elements s.heap (s.handle h)).length : ℤ) ≤ i) :
    takeAt alloc s h i = .ok (s, .undefined) := by
  unfold takeAt elements at *
  split <;> simp_all

/-- In range, the handle holds a backend. -/
theorem exists_a_of_lt {i : ℤ} (hi : 0 ≤ i ∧ i < ((elements s.heap (s.handle h)).length : ℤ)) :
    ∃ p, (s.handle h).a = some p := by
  cases hp : (s.handle h).a with
  | none => simp [elements, hp] at hi; omega
  | some p => exact ⟨p, rfl⟩

/-! In range, each of `removeAt`, `takeAt` and `replace` edits the backend the detach left the
handle, or dereferences null when the detach failed. -/

section InRange

variable {alloc : Bool} {i : ℤ} (hi : 0 ≤ i ∧ i < ((elements s.heap (s.handle h)).length : ℤ))
include hi

theorem removeAt_of_detached {q : Ptr} (hq : ((detach alloc s h).1.handle h).a = some q) :
    removeAt alloc s h i = .ok ((detach alloc s h).1.removeAt q i.toNat) := by
  obtain ⟨p, hp⟩ := exists_a_of_lt hi
  rw [elements_of_a hp] at hi
  simp only [removeAt, hp, hq]
  rw [if_neg (by omega)]

theorem removeAt_of_failed (hq : ((detach alloc s h).1.handle h).a = none) :
    removeAt alloc s h i = .error .nullDereference := by
  obtain ⟨p, hp⟩ := exists_a_of_lt hi
  rw [elements_of_a hp] at hi
  simp only [removeAt, hp, hq]
  rw [if_neg (by omega)]

theorem takeAt_of_detached {q : Ptr} (hq : ((detach alloc s h).1.handle h).a = some q) :
    takeAt alloc s h i = .ok (((detach alloc s h).1.extractAt q i.toNat).1.removeAt q i.toNat,
      .fromTrustedCbor ((detach alloc s h).1.extractAt q i.toNat).2) := by
  obtain ⟨p, hp⟩ := exists_a_of_lt hi
  rw [elements_of_a hp] at hi
  simp only [takeAt, hp, hq]
  rw [if_neg (by omega)]

theorem takeAt_of_failed (hq : ((detach alloc s h).1.handle h).a = none) :
    takeAt alloc s h i = .error .nullDereference := by
  obtain ⟨p, hp⟩ := exists_a_of_lt hi
  rw [elements_of_a hp] at hi
  simp only [takeAt, hp, hq]
  rw [if_neg (by omega)]

theorem replace_of_detached {q : Ptr} (hq : ((detach alloc s h).1.handle h).a = some q) (v : QJsonValue) :
    replace alloc s h i v = .ok ((detach alloc s h).1.replaceAt q i.toNat (.fromJsonValue v)) := by
  obtain ⟨p, hp⟩ := exists_a_of_lt hi
  rw [elements_of_a hp] at hi
  simp only [replace, hp, hq, if_pos hi]

theorem replace_of_failed (hq : ((detach alloc s h).1.handle h).a = none) (v : QJsonValue) :
    replace alloc s h i v = .error .nullDereference := by
  obtain ⟨p, hp⟩ := exists_a_of_lt hi
  rw [elements_of_a hp] at hi
  simp only [replace, hp, hq, if_pos hi]

end InRange

/-! ### What a call that succeeds has done -/

section Succeeds

variable {alloc : Bool} {i : ℤ} {s' : Store}

/-- `insert` that succeeds has detached or created the handle's backend, then inserted into it. -/
theorem insert_ok_cases {v : QJsonValue} (he : insert alloc s h i v = .ok s') :
    ∃ q idx x, ((detachOrCreate alloc s h).handle h).a = some q ∧ s' = (detachOrCreate alloc s h).insertAt q idx x := by
  cases hq : ((detachOrCreate alloc s h).handle h).a with
  | none => simp [insert, hq] at he
  | some q =>
    simp only [insert, hq] at he
    by_cases hi : 0 ≤ i ∧ i ≤ (((detachOrCreate alloc s h).heap.backend q).elements.length : ℤ)
    · rw [if_pos hi] at he
      exact ⟨q, _, _, rfl, (Except.ok.inj he).symm⟩
    · rw [if_neg hi] at he
      cases he

/-- `removeAt` that succeeds has done nothing, or detached and removed. -/
theorem removeAt_ok_cases (he : removeAt alloc s h i = .ok s') :
    s' = s ∨ ∃ q idx, ((detach alloc s h).1.handle h).a = some q ∧ s' = (detach alloc s h).1.removeAt q idx := by
  unfold removeAt at he
  split at he
  · exact .inl (Except.ok.inj he).symm
  · split_ifs at he
    · exact .inl (Except.ok.inj he).symm
    · dsimp only at he
      split at he
      · cases he
      · next q hq => exact .inr ⟨q, _, hq, (Except.ok.inj he).symm⟩

/-- `takeAt` that succeeds has done nothing, or detached, extracted and removed. -/
theorem takeAt_ok_cases {r : Store × QJsonValue} (he : takeAt alloc s h i = .ok r) :
    r.1 = s ∨ ∃ q idx, ((detach alloc s h).1.handle h).a = some q ∧
      r.1 = ((detach alloc s h).1.extractAt q idx).1.removeAt q idx := by
  unfold takeAt at he
  split at he
  · exact .inl (by rw [← Except.ok.inj he])
  · split_ifs at he
    · exact .inl (by rw [← Except.ok.inj he])
    · dsimp only at he
      split at he
      · cases he
      · next q hq => exact .inr ⟨q, _, hq, by rw [← Except.ok.inj he]⟩

/-- `replace` that succeeds has detached and replaced. -/
theorem replace_ok_cases {v : QJsonValue} (he : replace alloc s h i v = .ok s') :
    ∃ q idx x, ((detach alloc s h).1.handle h).a = some q ∧ s' = (detach alloc s h).1.replaceAt q idx x := by
  unfold replace at he
  split at he
  · cases he
  · split_ifs at he
    · dsimp only at he
      split at he
      · cases he
      · next q hq => exact ⟨q, _, _, hq, (Except.ok.inj he).symm⟩

end Succeeds

/-! ### The members, with allocation: what becomes of the handle's elements -/

/-- **`insert`**: in range, the value goes in at `i`, Undefined as Null; the counts stay exact
when the value's container is live. -/
theorem insert_spec (hc : s.Counted []) (hh : h < s.handles.length) {i : ℤ}
    (hi : 0 ≤ i ∧ i ≤ ((elements s.heap (s.handle h)).length : ℤ)) (v : QJsonValue) :
    ∃ s', insert true s h i v = .ok s' ∧
      elements s'.heap (s'.handle h) = (elements s.heap (s.handle h)).insertIdx i.toNat
        (if v.type = .undefined then .scalar .null else .fromJsonValue v) ∧
      s'.handles.length = s.handles.length ∧ s'.values = s.values ∧
      ((∀ c, v.value.container = some c → s.heap.read c ≠ none) → s'.Counted []) := by
  obtain ⟨q, hd, he⟩ := insert_true hc hh i v
  rw [if_pos hi] at he
  obtain ⟨b, hb, hel⟩ := hd.read
  obtain ⟨b', hb', he'⟩ := read_insertAt_self hb i.toNat
    (if v.type = .undefined then .scalar .null else .fromJsonValue v)
  refine ⟨_, he, ?_, by simp [hd.length], by simp [hd.values], fun hv => hd.counted.insertAt hb ?_ ?_⟩
  · rw [handle_insertAt, elements_of_a hd.owns.1, Heap.backend_of_read hb', he', hel]
  · rw [hel]; omega
  · intro c hx
    split at hx
    · simp at hx
    · exact hd.keeps.live (hv c hx)

/-- **`removeAt`**: in range, the element at `i` goes. -/
theorem removeAt_spec (hc : s.Counted []) {i : ℤ}
    (hi : 0 ≤ i ∧ i < ((elements s.heap (s.handle h)).length : ℤ)) :
    ∃ s', removeAt true s h i = .ok s' ∧
      elements s'.heap (s'.handle h) = (elements s.heap (s.handle h)).eraseIdx i.toNat ∧
      s'.handles.length = s.handles.length ∧ s'.values = s.values ∧ s'.Counted [] := by
  obtain ⟨p, hp⟩ := exists_a_of_lt hi
  obtain ⟨-, q, hd⟩ := detach_true hc hp
  have he := removeAt_of_detached hi hd.owns.1
  obtain ⟨b, hb, hel⟩ := hd.read
  have hi' : i.toNat < b.elements.length := by rw [hel]; omega
  obtain ⟨b', hb', he'⟩ := read_removeAt_self hd.counted hb hi' (rootRefs_pos_of_handle hd.owns.1)
  refine ⟨_, he, ?_, by simp [hd.length], by simp [hd.values], hd.counted.removeAt hb hi'⟩
  rw [handle_removeAt, elements_of_a hd.owns.1, Heap.backend_of_read hb', he', hel]

/-- **`takeAt`**: in range, the element at `i` is returned, with its reference, and its slot goes. -/
theorem takeAt_spec (hc : s.Counted []) {i : ℤ}
    (hi : 0 ≤ i ∧ i < ((elements s.heap (s.handle h)).length : ℤ)) :
    ∃ s' v, takeAt true s h i = .ok (s', v) ∧
      v = .fromTrustedCbor ((elements s.heap (s.handle h)).getD i.toNat (.scalar .undefined)) ∧
      elements s'.heap (s'.handle h) = (elements s.heap (s.handle h)).eraseIdx i.toNat ∧
      s'.handles.length = s.handles.length ∧ s'.values = s.values ∧
      s'.Counted v.value.container.toList := by
  obtain ⟨p, hp⟩ := exists_a_of_lt hi
  obtain ⟨-, q, hd⟩ := detach_true hc hp
  have he := takeAt_of_detached hi hd.owns.1
  obtain ⟨b, hb, hel⟩ := hd.read
  have hi' : i.toNat < b.elements.length := by rw [hel]; omega
  have c₂ := hd.counted.extractAt hb hi'
  have hr₂ := read_extractAt_self hb i.toNat
  have hi₂ : i.toNat < (b.elements.set i.toNat (.scalar .undefined)).length := by simpa using hi'
  obtain ⟨b', hb', he'⟩ := read_removeAt_self c₂ hr₂ hi₂
    (by rw [Store.extractAt, rootRefs_setElements]; exact rootRefs_pos_of_handle hd.owns.1)
  refine ⟨_, _, he, by rw [extractAt_snd hb, Backend.valueAt, hel], ?_, by simp [hd.length],
    by simp [hd.values], c₂.removeAt hr₂ hi₂⟩
  rw [handle_removeAt, handle_extractAt, elements_of_a hd.owns.1, Heap.backend_of_read hb', he',
    eraseIdx_set_self, hel]

/-- **`replace`**: in range, the element at `i` becomes the value. -/
theorem replace_spec (hc : s.Counted []) {i : ℤ}
    (hi : 0 ≤ i ∧ i < ((elements s.heap (s.handle h)).length : ℤ)) {v : QJsonValue}
    (hv : ∀ c, v.value.container = some c → s.heap.read c ≠ none) :
    ∃ s', replace true s h i v = .ok s' ∧
      elements s'.heap (s'.handle h) = (elements s.heap (s.handle h)).set i.toNat (.fromJsonValue v) ∧
      s'.handles.length = s.handles.length ∧ s'.values = s.values ∧ s'.Counted [] := by
  obtain ⟨p, hp⟩ := exists_a_of_lt hi
  obtain ⟨-, q, hd⟩ := detach_true hc hp
  have he := replace_of_detached hi hd.owns.1 v
  obtain ⟨b, hb, hel⟩ := hd.read
  have hi' : i.toNat < b.elements.length := by rw [hel]; omega
  have hv₁ : ∀ c, (QCborValue.fromJsonValue v).container = some c → _ := fun c hx => hd.keeps.live (hv c hx)
  obtain ⟨b', hb', he'⟩ := read_replaceAt_self hd.counted hb hi' _ hv₁ (rootRefs_pos_of_handle hd.owns.1)
  refine ⟨_, he, ?_, by simp [hd.length], by simp [hd.values], hd.counted.replaceAt hb hi' hv₁⟩
  rw [handle_replaceAt, elements_of_a hd.owns.1, Heap.backend_of_read hb', he', hel]

end QJsonArray

end QtJsonArray
