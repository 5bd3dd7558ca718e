import QtJsonArray.Array.Handle

/-!
# Detaching

Every member that changes an array first makes its handle the only holder of its backend:
`QJsonArray::detach` keeps a backend whose count is one and otherwise swaps it for a clone;
`insert` gives a null handle a new backend instead. `Detached s s' h q` says what such a step
leaves: exact counts, the handle `h` the only reference to a live backend `q` holding the
elements `h` had, and every other handle, every value and every backend as it was. The backend
`q` is either one `h` already held alone or a new one.

When the clone cannot be allocated, `detach` sets the handle to null, dropping its reference
(`detach_of_shared_fail`).
-/

namespace QtJsonArray

namespace Store

/-- Handle `h` holds the only reference to `p`. -/
def Owns (s : Store) (h : ℕ) (p : Ptr) : Prop := (s.handle h).a = some p ∧ s.occ p = 1

/-- What a successful detach of handle `h` leaves from `s`. -/
structure Detached (s s' : Store) (h : ℕ) (q : Ptr) : Prop where
  counted : s'.Counted []
  owns : s'.Owns h q
  elements : QJsonArray.elements s'.heap (s'.handle h) = QJsonArray.elements s.heap (s.handle h)
  keeps : s.heap.Keeps s'.heap
  handles : ∀ h', h' ≠ h → s'.handle h' = s.handle h'
  length : s'.handles.length = s.handles.length
  values : s'.values = s.values
  origin : s.Owns h q ∨ s.heap.read q = none

/-- A handle's backend is live. -/
theorem read_of_handle {s : Store} {P : List Ptr} (hc : s.Counted P) {h : ℕ} {p : Ptr}
    (hp : (s.handle h).a = some p) : ∃ b, s.heap.read p = some b :=
  Option.ne_none_iff_exists'.mp
    (hc.read_ne_none (by have := occ_pos_of_rootRefs (rootRefs_pos_of_handle hp); omega))

/-- The detached backend holds the elements the handle had. -/
theorem Detached.read {s s₁ : Store} {h : ℕ} {q : Ptr} (hd : Detached s s₁ h q) :
    ∃ b, s₁.heap.read q = some b ∧ b.elements = QJsonArray.elements s.heap (s.handle h) := by
  obtain ⟨b, hb⟩ := read_of_handle hd.counted hd.owns.1
  exact ⟨b, hb, by rw [← hd.elements, QJsonArray.elements_of_a hd.owns.1, Heap.backend_of_read hb]⟩

/-- A handle is the only holder of its backend when the backend's count is one. -/
theorem owns_of_ref {s : Store} (hc : s.Counted []) {h : ℕ} {p : Ptr} {b : Backend}
    (hp : (s.handle h).a = some p) (hb : s.heap.read p = some b) (h1 : b.ref = 1) : s.Owns h p :=
  ⟨hp, by have := hc.live hb; simp at this; omega⟩

/-! ### Reassigning a handle -/

section Reset

variable {s : Store} {h : ℕ}

theorem Counted.reset (hc : s.Counted []) (hh : h < s.handles.length) {q : Option Ptr}
    (hq : ∀ x, q = some x → s.heap.read x ≠ none) : (s.reset h q).Counted [] := by
  unfold Store.reset
  split
  · exact hc
  · refine Counted.release ?_
    simpa using (hc.retain hq).setHandle (x := ⟨q⟩) (by rwa [handles_retain])

theorem handle_reset_self (hh : h < s.handles.length) (q : Option Ptr) : (s.reset h q).handle h = ⟨q⟩ := by
  unfold Store.reset
  split
  · next he => rw [he]
  · simp [handles_retain, hh]

theorem handle_reset_ne {h' : ℕ} (hne : h' ≠ h) (q : Option Ptr) : (s.reset h q).handle h' = s.handle h' := by
  unfold Store.reset
  split
  · rfl
  · simp [handle_setHandle_ne _ _ (Ne.symm hne)]

theorem handles_length_reset (q : Option Ptr) : (s.reset h q).handles.length = s.handles.length := by
  unfold Store.reset; split <;> simp [handles_release, setHandle, handles_retain]

theorem values_reset (q : Option Ptr) : (s.reset h q).values = s.values := by
  unfold Store.reset; split <;> simp [values_release, setHandle, values_retain]

/-- Reassigning a handle whose backend has other references only lowers that backend's count. -/
theorem reset_of_shared (hc : s.Counted []) {p q : Ptr} (hp : (s.handle h).a = some p)
    (hq : s.heap.read q ≠ none) (hne : q ≠ p) (ho : 1 < s.occ p) :
    ∃ b, (s.retain (some q)).heap.read p = some b ∧
      s.reset h (some q) = ((s.retain (some q)).setHandle h ⟨some q⟩).write p (some { b with ref := b.ref - 1 }) := by
  have hh := lt_of_handle hp
  have c₄ : ((s.retain (some q)).setHandle h ⟨some q⟩).Counted [p] := by
    have := (hc.retain (x := some q) fun x hx => Option.some.inj hx ▸ hq).setHandle
      (x := ⟨some q⟩) (by rwa [handles_retain])
    rwa [handle_retain, hp] at this
  have ho₄ : 0 < ((s.retain (some q)).setHandle h ⟨some q⟩).occ p := by
    have := occ_setHandle (s.retain (some q)) (by rwa [handles_retain]) ⟨some q⟩ p
    simp only [handle_retain, hp, occ_retain, Option.toList_some, List.count_singleton_self,
      List.count_singleton, beq_iff_eq, hne.symm, if_false] at this
    omega
  obtain ⟨b, hb, he⟩ := release_singleton c₄ ho₄
  refine ⟨b, hb, ?_⟩
  rw [Store.reset, if_neg (by simpa [hp] using hne), hp]
  exact he

theorem reset_of_none (hp : (s.handle h).a = none) {q : Ptr} :
    s.reset h (some q) = (s.retain (some q)).setHandle h ⟨some q⟩ := by
  simp [Store.reset, hp]

end Reset

end Store

open Store

namespace QJsonArray

theorem detach_of_ref_one (alloc : Bool) {s : Store} {h : ℕ} {p : Ptr} {b : Backend}
    (hp : (s.handle h).a = some p) (hb : s.heap.read p = some b) (h1 : b.ref = 1) :
    detach alloc s h = (s, true) := by
  simp [detach, hp, detachBackend, Heap.backend_of_read hb, h1, reset]

theorem detach_of_shared_fail {s : Store} {h : ℕ} {p : Ptr} {b : Backend}
    (hp : (s.handle h).a = some p) (hb : s.heap.read p = some b) (h1 : b.ref ≠ 1) :
    detach false s h = (s.reset h none, false) := by
  simp [detach, hp, detachBackend, Heap.backend_of_read hb, h1]

theorem detach_of_shared {s : Store} {h : ℕ} {p : Ptr} {b : Backend}
    (hp : (s.handle h).a = some p) (hb : s.heap.read p = some b) (h1 : b.ref ≠ 1) :
    detach true s h =
      ((((s.retainAll (children b.elements)).alloc ⟨b.elements, 0⟩).1.reset h (some s.heap.length)), true) := by
  simp [detach, hp, detachBackend, Heap.backend_of_read hb, h1]

/-- A backend the handle already holds alone is kept. -/
theorem detached_self {s : Store} (hc : s.Counted []) {h : ℕ} {p : Ptr} (ho : s.Owns h p) :
    Detached s s h p :=
  ⟨hc, ho, rfl, Heap.Keeps.refl _, fun _ _ => rfl, rfl, rfl, .inl ho⟩

/-- The clone case of `detach`: the clone is the handle's alone, and the old backend loses the
handle's reference without being freed. -/
theorem detached_clone {s : Store} (hc : s.Counted []) {h : ℕ} {p : Ptr} {b : Backend}
    (hp : (s.handle h).a = some p) (hb : s.heap.read p = some b) (h1 : b.ref ≠ 1) :
    Detached s (detach true s h).1 h s.heap.length := by
  rw [detach_of_shared hp hb h1]
  dsimp only
  have hh := lt_of_handle hp
  have hne : s.heap.length ≠ p := (Nat.ne_of_lt (Heap.lt_of_read hb)).symm
  -- the clone, allocated after its elements' containers are retained
  generalize hs₂ : ((s.retainAll (children b.elements)).alloc ⟨b.elements, 0⟩).1 = s₂
  have c₂ : s₂.Counted [] := hs₂ ▸ Counted.alloc (by
    simpa using hc.retainAll fun q hq => hc.read_ne_none (by have := occ_pos_of_child hb hq; omega))
  have hr₂ : s₂.heap.read s.heap.length = some ⟨b.elements, 0⟩ := by
    rw [← hs₂, heap_alloc, ← length_retainAll s (children b.elements), Heap.read_append_length]
  have hk₂ : s.heap.Keeps s₂.heap := hs₂ ▸ (keeps_retainAll _ _).trans (keeps_alloc _ _)
  have hp₂ : (s₂.handle h).a = some p := by rw [← hs₂]; simpa using hp
  have ho₂ : 1 < s₂.occ p := by
    have := hc.live hb
    have := occ_pos_of_rootRefs (rootRefs_pos_of_handle hp)
    rw [← hs₂, occ_alloc, occ_retainAll]
    simp at *; omega
  have hh₂ : h < s₂.handles.length := by rw [← hs₂]; simpa [handles_retainAll] using hh
  obtain ⟨b', hb', he⟩ := reset_of_shared c₂ hp₂ (by simp [hr₂]) hne ho₂
  have hr' : (s₂.reset h (some s.heap.length)).heap.read s.heap.length = some ⟨b.elements, 1⟩ := by
    rw [he, heap_write, Heap.read_set_ne _ _ hne.symm, heap_setHandle, read_retain_self hr₂]
  have c' := c₂.reset hh₂ (q := some s.heap.length) fun x hx => Option.some.inj hx ▸ by simp [hr₂]
  refine ⟨c', ⟨?_, ?_⟩, ?_, ?_, ?_, ?_, ?_, .inr (Heap.read_eq_none_of_le le_rfl)⟩
  · rw [handle_reset_self hh₂]
  · have := c'.live hr'; simp at this; omega
  · simp [handle_reset_self hh₂, elements, hp, Heap.backend_of_read hr', Heap.backend_of_read hb]
  · rw [he]
    exact hk₂.trans ((keeps_retain _ _).trans (by
      simpa using keeps_write (s := (s₂.retain (some s.heap.length)).setHandle h ⟨some s.heap.length⟩)
        (b := b') (by simpa using hb') { b' with ref := b'.ref - 1 } rfl))
  · intro h' hne'; rw [handle_reset_ne hne', ← hs₂]; simp
  · rw [handles_length_reset, ← hs₂]; simp [handles_retainAll]
  · rw [values_reset, ← hs₂]; simp [values_retainAll]

/-- **`detach` succeeds when allocation does**, leaving the handle the sole holder of a backend
with its elements. -/
theorem detach_true {s : Store} (hc : s.Counted []) {h : ℕ} {p : Ptr} (hp : (s.handle h).a = some p) :
    (detach true s h).2 = true ∧ ∃ q, Detached s (detach true s h).1 h q := by
  obtain ⟨b, hb⟩ := read_of_handle hc hp
  by_cases h1 : b.ref = 1
  · rw [detach_of_ref_one true hp hb h1]
    exact ⟨rfl, p, detached_self hc (owns_of_ref hc hp hb h1)⟩
  · exact ⟨by rw [detach_of_shared hp hb h1], _, detached_clone hc hp hb h1⟩

/-- `detach` either succeeds, or the clone could not be allocated and the handle is set to null. -/
theorem detach_spec (alloc : Bool) {s : Store} (hc : s.Counted []) {h : ℕ} {p : Ptr}
    (hp : (s.handle h).a = some p) :
    ((detach alloc s h).2 = true ∧ ∃ q, Detached s (detach alloc s h).1 h q) ∨
      (alloc = false ∧ detach alloc s h = (s.reset h none, false)) := by
  cases alloc with
  | true => exact .inl (detach_true hc hp)
  | false =>
    obtain ⟨b, hb⟩ := read_of_handle hc hp
    by_cases h1 : b.ref = 1
    · rw [detach_of_ref_one false hp hb h1]
      exact .inl ⟨rfl, p, detached_self hc (owns_of_ref hc hp hb h1)⟩
    · exact .inr ⟨rfl, detach_of_shared_fail hp hb h1⟩

/-- A null handle gets a new, empty backend of its own. -/
theorem detached_create {s : Store} (hc : s.Counted []) {h : ℕ} (hh : h < s.handles.length)
    (hp : (s.handle h).a = none) (alloc : Bool) :
    Detached s (detachOrCreate alloc s h) h s.heap.length := by
  simp only [detachOrCreate, hp, alloc_snd]
  have c₂ : (s.alloc ⟨[], 0⟩).1.Counted [] := Counted.alloc (by simpa using hc)
  have hr₂ : (s.alloc ⟨[], 0⟩).1.heap.read s.heap.length = some ⟨[], 0⟩ := Heap.read_append_length _ _
  have hh₂ : h < (s.alloc ⟨[], 0⟩).1.handles.length := hh
  have he := reset_of_none (s := (s.alloc ⟨[], 0⟩).1) hp (q := s.heap.length)
  have hr' : ((s.alloc ⟨[], 0⟩).1.reset h (some s.heap.length)).heap.read s.heap.length = some ⟨[], 1⟩ := by
    rw [he, heap_setHandle, read_retain_self hr₂]
  have c' := c₂.reset hh₂ (q := some s.heap.length) fun x hx => Option.some.inj hx ▸ by
    rw [hr₂]; exact Option.some_ne_none _
  refine ⟨c', ⟨handle_reset_self hh₂ _ ▸ rfl, ?_⟩, ?_, ?_, ?_, ?_, ?_, .inr (Heap.read_eq_none_of_le le_rfl)⟩
  · have := c'.live hr'; simp at this; omega
  · simp [handle_reset_self hh₂, elements, hp, Heap.backend_of_read hr']
  · rw [he]
    exact (keeps_alloc _ _).trans (keeps_retain _ _)
  · intro h' hne'; rw [handle_reset_ne hne']; rfl
  · rw [handles_length_reset]; rfl
  · rw [values_reset]; rfl

/-- **The first step of `insert`**: with allocation, the handle ends up the sole holder of a
backend with its elements; without, either that, or a shared backend could not be cloned. -/
theorem detachOrCreate_spec (alloc : Bool) {s : Store} (hc : s.Counted []) {h : ℕ}
    (hh : h < s.handles.length) :
    (∃ q, Detached s (detachOrCreate alloc s h) h q) ∨
      (alloc = false ∧ detachOrCreate alloc s h = s.reset h none ∧ (s.handle h).a ≠ none) := by
  cases hp : (s.handle h).a with
  | none => exact .inl ⟨_, detached_create hc hh hp alloc⟩
  | some p =>
    have hd : detachOrCreate alloc s h = (detach alloc s h).1 := by simp [detachOrCreate, hp]
    rw [hd]
    rcases detach_spec alloc hc hp with ⟨-, q, hq⟩ | ⟨ha, he⟩
    · exact .inl ⟨q, hq⟩
    · exact .inr ⟨ha, by rw [he], by simp⟩

/-- `detach` on a handle with a backend: the handle ends up the sole holder of a backend with its
elements, or the clone could not be allocated and the handle is null. -/
theorem detach_cases (alloc : Bool) {s : Store} (hc : s.Counted []) {h : ℕ} {p : Ptr}
    (hp : (s.handle h).a = some p) :
    (∃ q, Detached s (detach alloc s h).1 h q) ∨ (alloc = false ∧ ((detach alloc s h).1.handle h).a = none) := by
  rcases detach_spec alloc hc hp with ⟨-, hq⟩ | ⟨ha, he⟩
  · exact .inl hq
  · exact .inr ⟨ha, by rw [he, handle_reset_self (lt_of_handle hp)]⟩

theorem detachOrCreate_cases (alloc : Bool) {s : Store} (hc : s.Counted []) {h : ℕ} (hh : h < s.handles.length) :
    (∃ q, Detached s (detachOrCreate alloc s h) h q) ∨
      (alloc = false ∧ ((detachOrCreate alloc s h).handle h).a = none) := by
  rcases detachOrCreate_spec alloc hc hh with hq | ⟨ha, he, -⟩
  · exact .inl hq
  · exact .inr ⟨ha, by rw [he, handle_reset_self hh]⟩

theorem detachOrCreate_true {s : Store} (hc : s.Counted []) {h : ℕ} (hh : h < s.handles.length) :
    ∃ q, Detached s (detachOrCreate true s h) h q := by
  rcases detachOrCreate_spec true hc hh with hq | ⟨h, -⟩
  · exact hq
  · cases h

end QJsonArray

end QtJsonArray
