import QtJsonArray.Cow.Mirror

/-!
# Copy-on-write refines private lists

The main result of the development. Run any program of copies, moves, assignments and member
calls, including ones that put an array into itself (`a.append(a)`, `a.replace(0, a)`). The
store then holds exactly the private lists, with exact counts (`Rep`), or both meanings fail
with the same fault. On the way, no statement changes the elements of a backend that is not
held alone by the handle the member is called on (`EditsOnlyOwned`). That is what `detach`
is for.

## What is proved

* `execAlloc_step`: one statement, from related states, gives related outcomes, or stops with a
  null dereference where the clone allocation failed (`FailStop`); and it edits in place only a
  backend its handle holds alone. There is one lemma per member (`step_insert`, `step_removeAt`,
  `step_takeAt`, `step_replace`), and one per other statement (`Rep.copy`, ...).
* `runAlloc_refines` and `runAlloc_editsOnlyOwned`: the same over a whole run, by induction on
  the program; `run_refines` is the run where every allocation succeeds.
* `copy_on_write_refines`: from `n` default-constructed arrays, for every program in scope.
* `run_member_isolated`: a member called on one handle changes what no other variable reads.
* `alloc_failure_stops`: the same when allocations may fail; a failure stops the program and
  never corrupts it.
* `run_acyclic`: no backend a variable reaches lies on a cycle.
* `run_fault_is_assertion`: with allocation succeeding, the only fault is a failed `Q_ASSERT`.

## Honest scope

What a failed clone allocation does inside one member is in `Array.Faults`. A statement names
declared variables only (`Op.allInScope`).
-/

namespace QtJsonArray

open Store QJsonArray

/-- Two outcomes agree: the same fault, or successes related by `R`. -/
def ResultRel {α β : Type} (R : α → β → Prop) : Except Fault α → Except Fault β → Prop
  | .ok a, .ok b => R a b
  | .error e, .error e' => e = e'
  | _, _ => False

theorem resultRel_ok {α β : Type} {R : α → β → Prop} {a : α} {b : β} (h : R a b) :
    ResultRel R (.ok a) (.ok b) := h

theorem ResultRel.mono {α β : Type} {R S : α → β → Prop} (hRS : ∀ a b, R a b → S a b) :
    ∀ {x : Except Fault α} {y : Except Fault β}, ResultRel R x y → ResultRel S x y
  | .ok _, .ok _, h => hRS _ _ h
  | .error _, .error _, h => h
  | .ok _, .error _, h => h.elim
  | .error _, .ok _, h => h.elim

theorem ResultRel.ok_left {α β : Type} {R : α → β → Prop} {a : α} :
    ∀ {y : Except Fault β}, ResultRel R (.ok a) y → ∃ b, y = .ok b ∧ R a b
  | .ok b, h => ⟨b, rfl, h⟩
  | .error _, h => h.elim

theorem ResultRel.error_left {α β : Type} {R : α → β → Prop} {e : Fault} :
    ∀ {y : Except Fault β}, ResultRel R (.error e : Except Fault α) y → y = .error e
  | .ok _, h => h.elim
  | .error _, h => by rw [h]

/-- Two outcomes agree as `ResultRel R` says, or an allocation failed and the store side stopped
with a null dereference. -/
def FailStop {α β : Type} (alloc : Bool) (R : α → β → Prop) (x : Except Fault α) (y : Except Fault β) : Prop :=
  ResultRel R x y ∨ (alloc = false ∧ x = .error .nullDereference)

theorem FailStop.ok_left {α β : Type} {alloc : Bool} {R : α → β → Prop} {a : α} {y : Except Fault β}
    (h : FailStop alloc R (.ok a) y) : ∃ b, y = .ok b ∧ R a b :=
  h.elim ResultRel.ok_left fun ⟨_, h⟩ => nomatch h

/-- **The refinement relation**: the ledger balances, and every variable decodes to its private
value. -/
structure Rep (s : Store) (A : AStore) : Prop where
  counted : s.Counted []
  mirrors : Mirrors s A

/-- A statement taking `s` to `s'` changes the elements of a backend live in both only when it is
a member called on a handle that holds that backend alone in `s`. -/
def EditsOnlyOwned (s s' : Store) (t : Option ℕ) : Prop :=
  ∀ p b b', s.heap.read p = some b → s'.heap.read p = some b' → b'.elements ≠ b.elements →
    ∃ h, t = some h ∧ s.Owns h p

/-- What the program sees of its variables: each handle's `size()` and `at(i)`, and each value,
are those of its private value. -/
structure Observes (s : Store) (A : AStore) : Prop where
  size : ∀ h, (s.handle h).size s.heap = (A.handle h).length
  «at» : ∀ h i, Decodes s.heap ((s.handle h).at s.heap i).value (listAt (A.handle h) i)
  value : ∀ k, Decodes s.heap (s.value k).value (A.value k)

variable {s s' : Store} {A : AStore}

theorem Rep.observes (hr : Rep s A) : Observes s A where
  size h := by rw [size_eq, (decodes_handle (hr.mirrors.handle h)).length_eq]
  «at» h i := decodes_at (hr.mirrors.handle h) i
  value := hr.mirrors.value

theorem Store.Counted.live_handle {P : List Ptr} (hc : s.Counted P) (h : ℕ) :
    ∀ q, (s.handle h).a = some q → s.heap.read q ≠ none := fun _ hq => by
  obtain ⟨b, hb⟩ := read_of_handle hc hq
  rw [hb]
  exact Option.some_ne_none _

/-! ### Edits in place -/

theorem editsOnlyOwned_of_settles (hs : Heap.Settles s.heap s'.heap none) (t : Option ℕ) :
    EditsOnlyOwned s s' t := by
  intro p b b' hb hb' hne
  obtain ⟨b₀, hb₀, he⟩ := hs p b' (by simp) hb'
  rw [hb] at hb₀
  cases hb₀
  exact absurd he.symm hne

/-- After a detach, a member edits only the backend the handle now holds alone: one it held
alone before, or a fresh one. -/
theorem editsOnlyOwned_of_detached {s₁ : Store} {h : ℕ} {q : Ptr} (hd : Detached s s₁ h q)
    (hs : Heap.Settles s₁.heap s'.heap (some q)) : EditsOnlyOwned s s' (some h) := by
  intro p b b' hb hb' hne
  by_cases hpq : q = p
  · subst hpq
    rcases hd.origin with ho | hn
    · exact ⟨h, rfl, ho⟩
    · rw [hn] at hb; cases hb
  · obtain ⟨b₁, hb₁, he₁⟩ := hs p b' (by simpa using hpq) hb'
    obtain ⟨b₂, hb₂, he₂⟩ := hd.keeps p b hb
    rw [hb₁] at hb₂
    cases hb₂
    exact absurd (he₁.symm.trans he₂) hne

/-! ### Statements that call no member -/

namespace Rep

variable {h : ℕ}

theorem copy (hr : Rep s A) (h : ℕ) :
    Rep ((s.retain (s.handle h).a).pushHandle (s.handle h)) (A.pushHandle (A.handle h)) :=
  ⟨(hr.counted.retain (hr.counted.live_handle h)).pushHandle,
    (hr.mirrors.retain _).pushHandle ((hr.mirrors.handle h).keeps (keeps_retain s _))⟩

theorem reset (hr : Rep s A) (hh : h < s.handles.length) {q : Option Ptr}
    (hq : ∀ x, q = some x → s.heap.read x ≠ none) {ts : List Json} (hx : Decodes s.heap (.array q) (.array ts)) :
    Rep (s.reset h q) (A.setHandle h ts) :=
  ⟨hr.counted.reset hh hq, hr.mirrors.reset hr.counted hh hq hx⟩

theorem ofArray (hr : Rep s A) (h : ℕ) :
    Rep ((s.retain (s.handle h).a).pushValue (.ofArray (s.handle h))) (A.pushValue (.array (A.handle h))) :=
  ⟨(hr.counted.retain (hr.counted.live_handle h)).pushValue,
    (hr.mirrors.retain _).pushValue ((hr.mirrors.handle h).keeps (keeps_retain s _))⟩

theorem «at» (hr : Rep s A) (h : ℕ) (i : ℤ) :
    Rep ((s.retain ((s.handle h).at s.heap i).value.container).pushValue ((s.handle h).at s.heap i))
      (A.pushValue (listAt (A.handle h) i)) :=
  ⟨(hr.counted.retain (hr.counted.live_at h i)).pushValue,
    (hr.mirrors.retain _).pushValue ((decodes_at (hr.mirrors.handle h) i).keeps (keeps_retain s _))⟩

theorem toArray (hr : Rep s A) (k : ℕ) :
    Rep ((s.retain (s.value k).toArray.a).pushHandle (s.value k).toArray) (A.pushHandle (A.value k).toArray) :=
  ⟨(hr.counted.retain (QJsonValue.toArray_a _ ▸ hr.counted.live_value k)).pushHandle,
    (hr.mirrors.retain _).pushHandle ((decodes_toArray (hr.mirrors.value k)).keeps (keeps_retain s _))⟩

theorem scalar (hr : Rep s A) (x : Scalar) : Rep (s.pushValue ⟨.scalar x⟩) (A.pushValue (.scalar x)) :=
  ⟨Counted.pushValue (v := ⟨.scalar x⟩) (P := []) hr.counted, hr.mirrors.pushValue (.scalar x)⟩

theorem destroyValue (hr : Rep s A) {k : ℕ} (hk : k < s.values.length) :
    Rep ((s.setValue k .undefined).release (s.value k).value.container.toList) (A.setValue k .undefined) :=
  have c : (s.setValue k .undefined).Counted ((s.value k).value.container.toList ++ []) :=
    Counted.setValue (v := .undefined) (P := []) hr.counted hk
  ⟨Counted.release_append c, (hr.mirrors.setValue hk (.scalar _)).release c⟩

end Rep

/-! ### The members -/

section Members

variable {h : ℕ}

/-- The step relation of a member called on handle `h`. -/
abbrev MemberRel (s : Store) (h : ℕ) : Store → AStore → Prop := fun s' A' => Rep s' A' ∧ EditsOnlyOwned s s' (some h)

theorem length_elements (hr : Rep s A) (h : ℕ) :
    ((elements s.heap (s.handle h)).length : ℤ) = (A.handle h).length := by
  rw [(decodes_handle (hr.mirrors.handle h)).length_eq]

/-- **`insert`**: the tree goes into the handle's private list, Undefined as Null; or the clone
could not be allocated, and an index that is not negative dereferences null. -/
theorem step_insert (hr : Rep s A) (hh : h < s.handles.length) (alloc : Bool) (i : ℤ) (k : ℕ) :
    FailStop alloc (MemberRel s h) (QJsonArray.insert alloc s h i (s.value k))
      (A.insertAt h i (A.value k)) := by
  rcases detachOrCreate_cases alloc hr.counted hh with ⟨q, hd⟩ | ⟨ha, hq⟩
  · refine .inl ?_
    obtain ⟨b, hb, -⟩ := hd.read
    have hm₁ := hr.mirrors.detached hd
    have hv₁ : (detachOrCreate alloc s h).value k = s.value k := by simp [Store.value, hd.values]
    rw [insert_of_detached hd.owns.1 hd.elements, AStore.insertAt, length_elements hr]
    by_cases hi : 0 ≤ i ∧ i ≤ ((A.handle h).length : ℤ)
    · rw [if_pos hi, if_pos hi]
      generalize hx : (if (s.value k).type = .undefined then QCborValue.scalar .null else .fromJsonValue (s.value k)) = x
      have hx' : x = .scalar .null ∨ x = ((detachOrCreate alloc s h).value k).value := by
        rw [← hx, hv₁]; split
        · exact .inl rfl
        · exact .inr rfl
      have hdx : Decodes (detachOrCreate alloc s h).heap x (A.value k).norm := by
        rw [← hx]; exact decodes_stored (hv₁ ▸ hm₁.value k)
      have hlen : b.elements.length = (A.handle h).length := (hm₁.elements hd.owns.1 hb).length_eq
      have hi' : i.toNat ≤ b.elements.length := by omega
      refine resultRel_ok ⟨⟨hd.counted.insertAt hb hi' fun c hc => ?_, ?_⟩, ?_⟩
      · rcases hx' with rfl | rfl
        · cases hc
        · exact hd.keeps.live (hr.counted.live_value k c (hv₁ ▸ hc))
      · rw [insertAt_eq hb]
        exact hm₁.retain_edit hd.owns hb hx' hdx (fun hs hx => hs.insertIdx hx _)
          fun y hy => (List.mem_insertIdx hi').mp hy
      · rw [insertAt_eq hb]
        exact editsOnlyOwned_of_detached hd ((settles_retain _ _ _).trans (settles_setElements _ _ _))
    · rw [if_neg hi, if_neg hi]; rfl
  · rw [insert_of_failed hq, AStore.insertAt]
    by_cases hi : 0 ≤ i
    · exact .inr ⟨ha, by rw [if_pos hi]⟩
    · exact .inl (by rw [if_neg hi, if_neg (not_and_of_not_left _ hi)]; rfl)

/-- **`removeAt`**: in range, the element goes from the handle's private list, or the clone could
not be allocated and null is dereferenced; otherwise nothing happens. -/
theorem step_removeAt (hr : Rep s A) (alloc : Bool) (h : ℕ) (i : ℤ) :
    FailStop alloc (MemberRel s h) (QJsonArray.removeAt alloc s h i)
      (.ok (if 0 ≤ i ∧ i < (A.handle h).length then A.setHandle h ((A.handle h).eraseIdx i.toNat) else A)) := by
  split_ifs with hi
  · rw [← length_elements hr] at hi
    obtain ⟨p, hp⟩ := exists_a_of_lt hi
    rcases detach_cases alloc hr.counted hp with ⟨q, hd⟩ | ⟨ha, hq⟩
    · obtain ⟨b, hb, hel⟩ := hd.read
      have hm₁ := hr.mirrors.detached hd
      have hi' : i.toNat < b.elements.length := by rw [hel]; omega
      have c₂ := hd.counted.setElements_eraseIdx hb hi'
      rw [removeAt_of_detached hi hd.owns.1, removeAt_eq hb]
      refine .inl (resultRel_ok ⟨⟨Counted.release_append c₂, Mirrors.release ?_ c₂⟩, ?_⟩)
      · exact hm₁.eraseIdx hd.owns hb _
      · exact editsOnlyOwned_of_detached hd ((settles_setElements _ _ _).trans ((settles_release _ _).mono _))
    · exact .inr ⟨ha, removeAt_of_failed hi hq⟩
  · rw [removeAt_out alloc (by rw [length_elements hr]; omega)]
    exact .inl (resultRel_ok ⟨hr, editsOnlyOwned_of_settles (Heap.Settles.refl _ _) _⟩)

/-- **`takeAt`**: in range, the element goes from the handle's private list into a new value, or
the clone could not be allocated and null is dereferenced; otherwise the new value is
Undefined. -/
theorem step_takeAt (hr : Rep s A) (alloc : Bool) (h : ℕ) (i : ℤ) :
    FailStop alloc (MemberRel s h) ((QJsonArray.takeAt alloc s h i).map fun r => r.1.pushValue r.2)
      (.ok ((if 0 ≤ i ∧ i < (A.handle h).length then A.setHandle h ((A.handle h).eraseIdx i.toNat) else A).pushValue
        (listAt (A.handle h) i))) := by
  split_ifs with hi
  · rw [listAt, if_pos hi]
    rw [← length_elements hr] at hi
    obtain ⟨p, hp⟩ := exists_a_of_lt hi
    rcases detach_cases alloc hr.counted hp with ⟨q, hd⟩ | ⟨ha, hq⟩
    · obtain ⟨b, hb, hel⟩ := hd.read
      have hm₁ := hr.mirrors.detached hd
      have hts := hm₁.elements hd.owns.1 hb
      have hi' : i.toNat < b.elements.length := by rw [hel]; omega
      have hy : b.valueAt i.toNat ∈ b.elements := by simp [Backend.valueAt, List.getD_eq_getElem?_getD, hi']
      have hnr := hd.owns.not_reaches_elem hb hy
      have hv : Decodes ((detach alloc s h).1.setElements q (b.elements.eraseIdx i.toNat)).heap (b.valueAt i.toNat)
          ((A.handle h).getD i.toNat .undefined) := by
        rw [setElements_of_read hb]
        exact (hts.getD i.toNat).transport (agrees_set hnr _)
      rw [takeAt_of_detached hi hd.owns.1]
      simp only [Except.map, removeAt_extractAt hb hi', extractAt_snd hb]
      refine .inl (resultRel_ok ⟨⟨Counted.pushValue (hd.counted.setElements_eraseIdx hb hi'),
        (hm₁.eraseIdx hd.owns hb _).pushValue hv⟩, ?_⟩)
      exact editsOnlyOwned_of_detached hd (settles_setElements _ _ _)
    · exact .inr ⟨ha, by rw [takeAt_of_failed hi hq]; rfl⟩
  · rw [listAt, if_neg hi, takeAt_out alloc (by rw [length_elements hr]; omega)]
    exact .inl (resultRel_ok ⟨⟨Counted.pushValue (v := .undefined) (P := []) hr.counted,
      hr.mirrors.pushValue (.scalar _)⟩, editsOnlyOwned_of_settles (Heap.Settles.refl _ _) _⟩)

/-- **`replace`**: in range, the element of the handle's private list becomes the value's tree, or
the clone could not be allocated and null is dereferenced; otherwise the assertion fails. -/
theorem step_replace (hr : Rep s A) (alloc : Bool) (h : ℕ) (i : ℤ) (k : ℕ) :
    FailStop alloc (MemberRel s h) (QJsonArray.replace alloc s h i (s.value k))
      (if 0 ≤ i ∧ i < (A.handle h).length then .ok (A.setHandle h ((A.handle h).set i.toNat (A.value k)))
        else .error .assertion) := by
  split_ifs with hi
  · rw [← length_elements hr] at hi
    obtain ⟨p, hp⟩ := exists_a_of_lt hi
    rcases detach_cases alloc hr.counted hp with ⟨q, hd⟩ | ⟨ha, hq⟩
    · obtain ⟨b, hb, hel⟩ := hd.read
      have hm₁ := hr.mirrors.detached hd
      have hv₁ : (detach alloc s h).1.value k = s.value k := by simp [Store.value, hd.values]
      have hi' : i.toNat < b.elements.length := by rw [hel]; omega
      have c₃ := hd.counted.setElements_set hb hi' fun c hc => hd.keeps.live (hr.counted.live_value k c hc)
      rw [replace_of_detached hi hd.owns.1, replaceAt_eq hb]
      refine .inl (resultRel_ok ⟨⟨Counted.release_append c₃, Mirrors.release ?_ c₃⟩, ?_⟩)
      · exact hm₁.retain_edit hd.owns hb (.inr (by rw [hv₁]; rfl)) (hv₁ ▸ hm₁.value k)
          (fun hs hx => hs.set hx _) fun y hy => (List.mem_or_eq_of_mem_set hy).symm
      · exact editsOnlyOwned_of_detached hd
          (((settles_retain _ _ _).trans (settles_setElements _ _ _)).trans ((settles_release _ _).mono _))
    · exact .inr ⟨ha, replace_of_failed hi hq _⟩
  · exact .inl ((replace_out alloc (by rwa [length_elements hr]) _).symm ▸ rfl)

end Members

/-! ### Statements and runs -/

/-- A statement that edits no backend in place, and keeps the relation. -/
theorem failStop_of_settles {alloc : Bool} {A' : AStore} {t : Option ℕ} (hr' : Rep s' A')
    (hs : Heap.Settles s.heap s'.heap none) :
    FailStop alloc (fun s' A' => Rep s' A' ∧ EditsOnlyOwned s s' t) (.ok s') (.ok A') :=
  .inl ⟨hr', editsOnlyOwned_of_settles hs t⟩

/-- **One statement refines private lists**, or stops at a failed allocation; and it edits in
place only a backend its handle holds alone. -/
theorem execAlloc_step (hr : Rep s A) {op : Op} (hs : op.inScope s.handles.length s.values.length = true)
    (alloc : Bool) :
    FailStop alloc (fun s' A' => Rep s' A' ∧ EditsOnlyOwned s s' op.target) (s.execAlloc alloc op) (A.exec op) := by
  cases op with
  | copy h => exact failStop_of_settles (hr.copy h) (settles_retain s _ none)
  | assign h src =>
    simp only [Op.inScope, Bool.and_eq_true, decide_eq_true_eq] at hs
    exact failStop_of_settles (hr.reset hs.1 (hr.counted.live_handle src) (hr.mirrors.handle src))
      (settles_reset _ _ _)
  | move h =>
    simp only [Op.inScope, decide_eq_true_eq] at hs
    have hh : h < ((s.retain (s.handle h).a).pushHandle (s.handle h)).handles.length := by
      simp [Store.pushHandle, handles_retain]; omega
    exact failStop_of_settles ((hr.copy h).reset hh (fun _ h => by cases h) .null)
      ((settles_retain s _ none).trans (settles_reset ((s.retain (s.handle h).a).pushHandle (s.handle h)) h none))
  | destroy h =>
    simp only [Op.inScope, decide_eq_true_eq] at hs
    exact failStop_of_settles (hr.reset hs (fun _ h => by cases h) .null) (settles_reset _ _ _)
  | insert h i k =>
    simp only [Op.inScope, Bool.and_eq_true, decide_eq_true_eq] at hs
    exact step_insert hr hs.1 alloc i k
  | append h k =>
    simp only [Op.inScope, Bool.and_eq_true, decide_eq_true_eq] at hs
    show FailStop alloc _ (QJsonArray.insert alloc s h ((s.handle h).size s.heap) (s.value k))
      (A.insertAt h (A.handle h).length (A.value k))
    rw [size_eq, length_elements hr]
    exact step_insert hr hs.1 alloc _ k
  | prepend h k =>
    simp only [Op.inScope, Bool.and_eq_true, decide_eq_true_eq] at hs
    exact step_insert hr hs.1 alloc 0 k
  | removeAt h i => exact step_removeAt hr alloc h i
  | takeAt h i => exact step_takeAt hr alloc h i
  | replace h i k => exact step_replace hr alloc h i k
  | ofArray h => exact failStop_of_settles (hr.ofArray h) (settles_retain s _ none)
  | «at» h i => exact failStop_of_settles (hr.at h i) (settles_retain s _ none)
  | toArray k => exact failStop_of_settles (hr.toArray k) (settles_retain s _ none)
  | scalar x => exact failStop_of_settles (hr.scalar x) (Heap.Settles.refl _ _)
  | destroyValue k =>
    simp only [Op.inScope, decide_eq_true_eq] at hs
    exact failStop_of_settles (hr.destroyValue hs) (settles_release (s.setValue k .undefined) _)

/-- A statement in scope that succeeds on both sides declares what it says on the store too. -/
theorem Rep.scope_step {A' : AStore} {op : Op} (hr : Rep s A) (hr' : Rep s' A')
    (hs : op.inScope s.handles.length s.values.length = true) (he : A.exec op = .ok A') :
    s'.handles.length = s.handles.length + op.newHandles ∧ s'.values.length = s.values.length + op.newValues := by
  have hl := AStore.exec_lengths (by rwa [← hr.mirrors.handles_length, ← hr.mirrors.values_length]) he
  rw [hr'.mirrors.handles_length, hr'.mirrors.values_length, hr.mirrors.handles_length, hr.mirrors.values_length]
  exact hl

/-- A statement in scope that succeeds on the store succeeds on private lists too, keeps the
relation, edits in place only a backend its handle holds alone, and leaves the rest of the program
in scope. -/
theorem Rep.exec_ok (hr : Rep s A) {op : Op} {ops : List Op}
    (hs : Op.allInScope s.handles.length s.values.length (op :: ops) = true) {alloc : Bool}
    (hx : s.execAlloc alloc op = .ok s') :
    ∃ A', A.exec op = .ok A' ∧ Rep s' A' ∧ EditsOnlyOwned s s' op.target ∧
      Op.allInScope s'.handles.length s'.values.length ops = true := by
  simp only [Op.allInScope, Bool.and_eq_true] at hs
  have hstep := execAlloc_step hr hs.1 alloc
  rw [hx] at hstep
  obtain ⟨A', hy, hr', hed⟩ := hstep.ok_left
  obtain ⟨hl, hv⟩ := hr.scope_step hr' hs.1 hy
  exact ⟨A', hy, hr', hed, by rw [hl, hv]; exact hs.2⟩

/-- **A run refines private lists, or stops with a null dereference**, and then some statement's
allocation failed. -/
theorem runAlloc_refines (hr : Rep s A) {ops : List Op}
    (hs : Op.allInScope s.handles.length s.values.length ops = true) (alloc : ℕ → Bool) :
    ResultRel Rep (s.runAlloc alloc ops) (A.run ops) ∨
      (s.runAlloc alloc ops = .error .nullDereference ∧ ∃ m < ops.length, alloc m = false) := by
  induction ops generalizing s A alloc with
  | nil => exact .inl hr
  | cons op ops ih =>
    rw [Store.runAlloc_cons, AStore.run_cons]
    cases hx : s.execAlloc (alloc 0) op with
    | error e =>
      simp only [Op.allInScope, Bool.and_eq_true] at hs
      have hstep := execAlloc_step hr hs.1 (alloc 0)
      rw [hx] at hstep
      rcases hstep with hstep | ⟨ha, he⟩
      · exact .inl (by rw [hstep.error_left]; rfl)
      · cases he
        exact .inr ⟨rfl, 0, by simp, ha⟩
    | ok s' =>
      obtain ⟨A', hy, hr', -, hs'⟩ := hr.exec_ok hs hx
      rw [hy]
      rcases ih hr' hs' fun m => alloc (m + 1) with h | ⟨he, m, hm, ha⟩
      · exact .inl h
      · exact .inr ⟨he, m + 1, by simp [hm], ha⟩

/-- **A run refines private lists.** -/
theorem run_refines (hr : Rep s A) {ops : List Op}
    (hs : Op.allInScope s.handles.length s.values.length ops = true) : ResultRel Rep (s.run ops) (A.run ops) := by
  rw [run_eq_runAlloc]
  rcases runAlloc_refines hr hs _ with h | ⟨-, _, -, h⟩
  · exact h
  · cases h

/-- A prefix of a program in scope takes related states to related states, from which the rest
of the program is in scope. -/
theorem Rep.runAlloc_ok (hr : Rep s A) (alloc : ℕ → Bool) (pre : List Op) {rest : List Op}
    (hs : Op.allInScope s.handles.length s.values.length (pre ++ rest) = true) {s₁ : Store}
    (h₁ : s.runAlloc alloc pre = .ok s₁) :
    ∃ A₁, Rep s₁ A₁ ∧ Op.allInScope s₁.handles.length s₁.values.length rest = true := by
  induction pre generalizing s A alloc with
  | nil => cases h₁; exact ⟨A, hr, hs⟩
  | cons op pre ih =>
    rw [Store.runAlloc_cons] at h₁
    cases hx : s.execAlloc (alloc 0) op with
    | error e => rw [hx] at h₁; cases h₁
    | ok s' =>
      rw [hx] at h₁
      obtain ⟨_, -, hr', -, hs'⟩ := hr.exec_ok hs hx
      exact ih hr' _ hs' h₁

/-- **Along a run, every statement edits in place only a backend its handle holds alone.** -/
theorem runAlloc_editsOnlyOwned (hr : Rep s A) (alloc : ℕ → Bool) (pre : List Op) {op : Op} {post : List Op}
    (hs : Op.allInScope s.handles.length s.values.length (pre ++ op :: post) = true) {s₁ s₂ : Store}
    (h₁ : s.runAlloc alloc pre = .ok s₁) (h₂ : s₁.execAlloc (alloc pre.length) op = .ok s₂) :
    EditsOnlyOwned s₁ s₂ op.target := by
  obtain ⟨A₁, hr₁, hs₁⟩ := hr.runAlloc_ok alloc pre hs h₁
  obtain ⟨-, -, -, hed, -⟩ := hr₁.exec_ok hs₁ h₂
  exact hed

theorem Rep.init (n : ℕ) : Rep (Store.init n) (AStore.init n) := ⟨counted_init n, Mirrors.init n⟩

theorem allInScope_init {n : ℕ} {ops : List Op} (hs : Op.allInScope n 0 ops = true) :
    Op.allInScope (Store.init n).handles.length (Store.init n).values.length ops = true := by
  simpa [Store.init] using hs

/-- A run from default-constructed arrays that succeeds on the store ends related to private lists. -/
theorem Rep.of_runAlloc {n : ℕ} {ops : List Op} (hs : Op.allInScope n 0 ops = true) {alloc : ℕ → Bool}
    (hx : (Store.init n).runAlloc alloc ops = .ok s) : ∃ A, (AStore.init n).run ops = .ok A ∧ Rep s A := by
  rcases runAlloc_refines (Rep.init n) (allInScope_init hs) alloc with h | ⟨he, -⟩
  · rw [hx] at h; exact h.ok_left
  · rw [hx] at he; cases he

/-- **Copy-on-write is invisible.** From `n` default-constructed arrays, every program in scope
either fails on the store with the fault it fails with on private lists, or ends with exact
counts and every handle's `size()` and `at(i)`, and every value, those of private lists; and no
statement of it changes the elements of a backend but one the handle it is called on holds
alone. -/
theorem copy_on_write_refines (n : ℕ) (ops : List Op) (hs : Op.allInScope n 0 ops = true) :
    ResultRel (fun s A => s.Counted [] ∧ Observes s A) ((Store.init n).run ops) ((AStore.init n).run ops) ∧
      ∀ pre op post s s', ops = pre ++ op :: post → (Store.init n).run pre = .ok s → s.exec op = .ok s' →
        EditsOnlyOwned s s' op.target := by
  refine ⟨(run_refines (Rep.init n) (allInScope_init hs)).mono fun _ _ hr => ⟨hr.counted, hr.observes⟩, ?_⟩
  rintro pre op post s s' rfl h₁ h₂
  rw [run_eq_runAlloc] at h₁
  exact runAlloc_editsOnlyOwned (Rep.init n) _ pre (allInScope_init hs) h₁ h₂

/-- `a.append(1)`, `v = QJsonValue(a)`, then `a.append(v)`: an array put into itself, all
allocations succeeding. -/
theorem copy_on_write_refines_append_self :
    Op.allInScope 1 0 [.scalar (.integer 1), .append 0 0, .ofArray 0, .append 0 1] = true ∧
      (ResultRel (fun s A => s.Counted [] ∧ Observes s A)
        ((Store.init 1).run [.scalar (.integer 1), .append 0 0, .ofArray 0, .append 0 1])
        ((AStore.init 1).run [.scalar (.integer 1), .append 0 0, .ofArray 0, .append 0 1]) ∧
      ∀ pre op post s s', [.scalar (.integer 1), .append 0 0, .ofArray 0, .append 0 1] = pre ++ op :: post →
        (Store.init 1).run pre = .ok s → s.exec op = .ok s' → EditsOnlyOwned s s' op.target) :=
  ⟨by decide, copy_on_write_refines 1 _ (by decide)⟩

/-- **A write through one array is invisible through every other.** From `n` default-constructed
arrays, whichever clone allocations fail, when a statement of a program in scope calls a member on
handle `h`, every other handle keeps its `size()` and the tree each `at(i)` reads, and every value
declared before it keeps its tree; also a handle that shared `h`'s backend before the call. -/
theorem run_member_isolated (n : ℕ) (ops : List Op) (hs : Op.allInScope n 0 ops = true) (alloc : ℕ → Bool) :
    ∀ pre op post s s' h, ops = pre ++ op :: post → (Store.init n).runAlloc alloc pre = .ok s →
      s.execAlloc (alloc pre.length) op = .ok s' → op.target = some h →
      (∀ h', h' ≠ h → (s'.handle h').size s'.heap = (s.handle h').size s.heap ∧
        ∀ i t, Decodes s.heap ((s.handle h').at s.heap i).value t →
          Decodes s'.heap ((s'.handle h').at s'.heap i).value t) ∧
      ∀ k, k < s.values.length → ∀ t, Decodes s.heap (s.value k).value t → Decodes s'.heap (s'.value k).value t := by
  rintro pre op post s s' h rfl h₁ h₂ ht
  obtain ⟨A, hr, hs₁⟩ := (Rep.init n).runAlloc_ok alloc pre (allInScope_init hs) h₁
  obtain ⟨A', hy, hr', -, -⟩ := hr.exec_ok hs₁ h₂
  obtain ⟨hh, hv⟩ := AStore.exec_member ht hy
  refine ⟨fun h' hne => ⟨by rw [hr'.observes.size, hr.observes.size, hh h' hne], fun i t hd => ?_⟩,
    fun k hk t hd => ?_⟩
  · rw [← (hr.observes.at h' i).unique hd, ← hh h' hne]
    exact hr'.observes.at h' i
  · rw [← (hr.observes.value k).unique hd, ← hv k (by rwa [← hr.mirrors.values_length])]
    exact hr'.observes.value k

/-- `b = a`, then `b.append(2)`: `a`, which shared its backend with `b`, reads as before. -/
theorem run_member_isolated_copy_append :
    Op.allInScope 1 0 [.scalar (.integer 1), .append 0 0, .copy 0, .scalar (.integer 2), .append 1 1] = true ∧
      ∀ pre op post s s' h, [.scalar (.integer 1), .append 0 0, .copy 0, .scalar (.integer 2), .append 1 1] =
          pre ++ op :: post → (Store.init 1).runAlloc (fun _ => true) pre = .ok s →
        s.execAlloc ((fun _ => true) pre.length) op = .ok s' → op.target = some h →
        (∀ h', h' ≠ h → (s'.handle h').size s'.heap = (s.handle h').size s.heap ∧
          ∀ i t, Decodes s.heap ((s.handle h').at s.heap i).value t →
            Decodes s'.heap ((s'.handle h').at s'.heap i).value t) ∧
        ∀ k, k < s.values.length → ∀ t, Decodes s.heap (s.value k).value t → Decodes s'.heap (s'.value k).value t :=
  ⟨by decide, run_member_isolated 1 _ (by decide) _⟩

/-- **A failed allocation stops the program; it never corrupts it.** Let any clone allocation
fail. From `n` default-constructed arrays, every program in scope still agrees with private lists
as in `copy_on_write_refines`, or it stops with a null dereference, and then the allocation of
one of its statements failed; and no statement edits in place a backend its handle does not hold
alone. -/
theorem alloc_failure_stops (n : ℕ) (ops : List Op) (hs : Op.allInScope n 0 ops = true) (alloc : ℕ → Bool) :
    (ResultRel (fun s A => s.Counted [] ∧ Observes s A) ((Store.init n).runAlloc alloc ops) ((AStore.init n).run ops) ∨
      ((Store.init n).runAlloc alloc ops = .error .nullDereference ∧ ∃ m < ops.length, alloc m = false)) ∧
      ∀ pre op post s s', ops = pre ++ op :: post → (Store.init n).runAlloc alloc pre = .ok s →
        s.execAlloc (alloc pre.length) op = .ok s' → EditsOnlyOwned s s' op.target := by
  refine ⟨(runAlloc_refines (Rep.init n) (allInScope_init hs) alloc).imp_left
    (ResultRel.mono fun _ _ hr => ⟨hr.counted, hr.observes⟩), ?_⟩
  rintro pre op post s s' rfl h₁ h₂
  exact runAlloc_editsOnlyOwned (Rep.init n) alloc pre (allInScope_init hs) h₁ h₂

/-- A copy sharing the backend, then `removeAt` on it, with every allocation failing. -/
theorem alloc_failure_stops_shared_removeAt :
    Op.allInScope 1 0 [.scalar .null, .append 0 0, .copy 0, .removeAt 1 0] = true ∧
      ((ResultRel (fun s A => s.Counted [] ∧ Observes s A)
          ((Store.init 1).runAlloc (fun _ => false) [.scalar .null, .append 0 0, .copy 0, .removeAt 1 0])
          ((AStore.init 1).run [.scalar .null, .append 0 0, .copy 0, .removeAt 1 0]) ∨
        ((Store.init 1).runAlloc (fun _ => false) [.scalar .null, .append 0 0, .copy 0, .removeAt 1 0] =
            .error .nullDereference ∧
          ∃ m < [Op.scalar .null, .append 0 0, .copy 0, .removeAt 1 0].length, (fun _ => false) m = false)) ∧
        ∀ pre op post s s', [.scalar .null, .append 0 0, .copy 0, .removeAt 1 0] = pre ++ op :: post →
          (Store.init 1).runAlloc (fun _ => false) pre = .ok s →
          s.execAlloc ((fun _ => false) pre.length) op = .ok s' → EditsOnlyOwned s s' op.target) :=
  ⟨by decide, alloc_failure_stops 1 _ (by decide) _⟩

/-- **Sharing never makes a cycle.** In every store a program in scope reaches, including by
putting an array into itself, no backend a variable reaches lies on a cycle. -/
theorem run_acyclic (n : ℕ) (ops : List Op) (hs : Op.allInScope n 0 ops = true) :
    ∀ s, (Store.init n).run ops = .ok s → ∀ x ∈ s.roots, ∀ p, Reaches s.heap x p → ¬ s.heap.OnCycle p := by
  intro s hrun x hx p hp
  have hrep := run_refines (Rep.init n) (allInScope_init hs)
  rw [hrun] at hrep
  obtain ⟨A, -, hrep⟩ := hrep.ok_left
  obtain ⟨t, ht⟩ := hrep.mirrors.decodes_root hx
  exact ht.not_onCycle hp

/-- `a.append(a)`, with `a` holding one element, is in scope. -/
theorem run_acyclic_append_self :
    Op.allInScope 1 0 [.scalar (.integer 1), .append 0 0, .ofArray 0, .append 0 1] = true ∧
      ∀ s, (Store.init 1).run [.scalar (.integer 1), .append 0 0, .ofArray 0, .append 0 1] = .ok s →
        ∀ x ∈ s.roots, ∀ p, Reaches s.heap x p → ¬ s.heap.OnCycle p :=
  ⟨by decide, run_acyclic 1 _ (by decide)⟩

/-- **Only an allocation failure dereferences null.** From `n` default-constructed arrays, with every
allocation succeeding, a program in scope that faults stops at a failed `Q_ASSERT` on an index
(`insert` or `replace` out of range), never at a null `a`. -/
theorem run_fault_is_assertion (n : ℕ) (ops : List Op) (hs : Op.allInScope n 0 ops = true) :
    ∀ e, (Store.init n).run ops = .error e → e = .assertion := by
  intro e he
  have hrep := run_refines (Rep.init n) (allInScope_init hs)
  rw [he] at hrep
  exact AStore.run_fault hrep.error_left

/-- `a.insert(5, v)` on an empty array fails its assertion. -/
theorem run_fault_is_assertion_insert :
    Op.allInScope 1 0 [.scalar (.integer 1), .insert 0 5 0] = true ∧
      ∀ e, (Store.init 1).run [.scalar (.integer 1), .insert 0 5 0] = .error e → e = .assertion :=
  ⟨by decide, run_fault_is_assertion 1 _ (by decide)⟩

end QtJsonArray
