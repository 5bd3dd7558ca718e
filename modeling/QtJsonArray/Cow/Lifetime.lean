import QtJsonArray.Cow.Refinement
import Mathlib.Data.Fintype.Card

/-!
# Backend lifetimes

When backends are created and when they are freed. A backend is created only by the first write
to a shared or null array: copies are lazy. It is freed when the last reference to it goes
(`Store.release`). Counting alone frees every backend nothing can reach only if no backend ever
reaches itself, since a cycle keeps its own counts up. `detach` rules cycles out: it clones a
shared backend before an edit, so that an array put into itself (`a.append(a)`) holds the old
backend, not its own.

## What is proved

* `Frame`: what a step does to the heap. Counts of live backends stay positive, and every backend
  live after it, but the one at `t`, was live before with the same elements. There is one lemma
  per operation of the store (`frame_retain`, `frame_release`, `frame_detach`, ...), one per
  member (`frame_insert`, ...), and one per statement (`execAlloc_frame`), where `t` is held by
  a handle afterwards.
* `Heap.acyclic_of_settles`: such a step makes no cycle when the backend at `t` is not on one;
  and a backend a handle holds is on none, since it decodes to a finite tree.
* `reaches_of_live`: in a store with exact, positive counts and no cycle, every live backend is
  reached from a variable. A least unreached one, in the order of reaching, would have a holder,
  and the holder would be unreached too.
* `run_live_iff_reaches`: in every store a program in scope and without strings reaches, whether
  or not clone allocations fail, a backend is live exactly when a variable reaches it.
* `execAlloc_lazy` and `run_allocates_lazily`: a statement allocates at most one backend, and only
  when it is a member called on a handle that holds no backend alone; over a run, for programs
  without strings, whose containers and references the store does not keep (`Op.isString`).
-/

namespace QtJsonArray

open Store QJsonArray

/-! ### Counts and cycles -/

/-- A value holding `q` is the array `q`. -/
theorem QCborValue.eq_array_of_container {x : QCborValue} {q : Ptr} (h : x.container = some q) :
    x = .array (some q) := by
  cases x with
  | scalar => simp at h
  | array c => rw [QCborValue.container_array] at h; rw [h]

namespace Heap

/-- Every live backend has a positive count. -/
def Positive (H : Heap) : Prop := ∀ p b, H.read p = some b → 0 < b.ref

/-- No live backend lies on a cycle. -/
def Acyclic (H : Heap) : Prop := ∀ p, ¬ H.OnCycle p

/-- An element of `p`'s backend reaches `r`: `p` reaches `r` in one step or more. A backend on a
cycle is one above itself. -/
def Above (H : Heap) (p r : Ptr) : Prop := ∃ b y, H.read p = some b ∧ y ∈ b.elements ∧ Reaches H y r

variable {H H' : Heap}

/-- Writing a cell keeps the counts positive when the new cell's count is, whatever the old
cell's was. -/
theorem positive_set {p : Ptr} {ob : Option Backend} (hpos : ∀ r b, r ≠ p → H.read r = some b → 0 < b.ref)
    (hob : ∀ b, ob = some b → 0 < b.ref) : Positive (H.set p ob) := by
  intro r b hr
  by_cases hrp : p = r
  · subst hrp
    by_cases hl : p < H.length
    · rw [read_set_self _ hl] at hr
      exact hob b hr
    · rw [List.set_eq_of_length_le (not_lt.mp hl), read_eq_none_of_le (not_lt.mp hl)] at hr
      cases hr
  · rw [read_set_ne _ _ hrp] at hr
    exact hpos r b (Ne.symm hrp) hr

/-- After an allocation, every count is positive but perhaps the new backend's. -/
theorem positive_append (hpos : H.Positive) (b : Backend) :
    ∀ r c, r ≠ H.length → read (H ++ [some b]) r = some c → 0 < c.ref := by
  intro r c hr hc
  have h₁ := lt_of_read hc
  rw [List.length_append, List.length_singleton] at h₁
  rw [read_append_lt _ _ (Nat.lt_of_le_of_ne (Nat.le_of_lt_succ h₁) hr)] at hc
  exact hpos r c hc

end Heap

section Paths

variable {H H' : Heap}

theorem Reaches.trans {x y : QCborValue} {p r : Ptr} {b : Backend} (hx : Reaches H x p)
    (hb : H.read p = some b) (hy : y ∈ b.elements) (hr : Reaches H y r) : Reaches H x r := by
  induction hx with
  | here => exact .child hb hy hr
  | child hb' hy' _ ih => exact .child hb' hy' (ih hb)

theorem Heap.Above.trans {p q r : Ptr} (h₁ : H.Above p q) (h₂ : H.Above q r) : H.Above p r := by
  obtain ⟨b, y, hb, hy, hr⟩ := h₁
  obtain ⟨b', y', hb', hy', hr'⟩ := h₂
  exact ⟨b, y, hb, hy, hr.trans hb' hy' hr'⟩

/-- A path after a step that settles every backend but the one at `t` is a path before it, or it
goes through `t`. -/
theorem Reaches.settles {t : Option Ptr} (hs : Heap.Settles H H' t) {x : QCborValue} {r : Ptr}
    (hr : Reaches H' x r) : Reaches H x r ∨ ∃ q, t = some q ∧ Reaches H' x q ∧ H'.Above q r := by
  induction hr with
  | here r => exact .inl (.here r)
  | @child p b' y r hb' hy hr ih =>
    by_cases hpt : t = some p
    · exact .inr ⟨p, hpt, .here p, b', y, hb', hy, hr⟩
    obtain ⟨b, hb, he⟩ := hs p b' hpt hb'
    rcases ih with hl | ⟨q, hq, hyq, ha⟩
    · exact .inl (.child hb (he ▸ hy) hl)
    · exact .inr ⟨q, hq, .child hb' hy hyq, ha⟩

end Paths

namespace Heap

variable {H H' : Heap}

/-- **A step that settles every backend but one makes no cycle**, when that one is not on a
cycle afterwards. -/
theorem acyclic_of_settles {t : Option Ptr} (hac : H.Acyclic) (hs : Settles H H' t)
    (ht : ∀ q, t = some q → ¬ H'.OnCycle q) : H'.Acyclic := by
  rintro p ⟨b', y, hb', hy, hr⟩
  by_cases hpt : t = some p
  · exact ht p hpt ⟨b', y, hb', hy, hr⟩
  obtain ⟨b, hb, he⟩ := hs p b' hpt hb'
  rcases hr.settles hs with hr | ⟨q, hq, hyq, b₁, y₁, hb₁, hy₁, hr₁⟩
  · exact hac p ⟨b, y, hb, he ▸ hy, hr⟩
  · exact ht q hq ⟨b₁, y₁, hb₁, hy₁, hr₁.trans hb' hy hyq⟩

/-- A reference the heap holds to `q` is an element of a live backend. -/
theorem exists_of_refs_pos {q : Ptr} (h : 0 < H.refs q) : ∃ p b, H.read p = some b ∧ .array (some q) ∈ b.elements := by
  induction H with
  | nil => simp [refs] at h
  | cons ob H ih =>
    by_cases hc : 0 < cellRefs ob q
    · obtain ⟨b, rfl⟩ : ∃ b, ob = some b := by cases ob <;> simp_all [cellRefs]
      obtain ⟨x, hx, hxq⟩ := List.mem_filterMap.mp (List.count_pos_iff.mp hc)
      exact ⟨0, b, rfl, QCborValue.eq_array_of_container hxq ▸ hx⟩
    · obtain ⟨p, b, hb, hy⟩ := ih (by simp only [refs] at h; omega)
      exact ⟨p + 1, b, hb, hy⟩

end Heap

/-- A reference a variable holds to `q` is the root `q`. -/
theorem root_of_rootRefs_pos {s : Store} {q : Ptr} (h : 0 < s.rootRefs q) : .array (some q) ∈ s.roots := by
  simp only [rootRefs] at h
  by_cases hh : 0 < (s.handles.filterMap QJsonArray.a).count q
  · obtain ⟨x, hx, hxq⟩ := List.mem_filterMap.mp (List.count_pos_iff.mp hh)
    exact List.mem_append_left _ (List.mem_map.mpr ⟨x, hx, by rw [hxq]⟩)
  · obtain ⟨v, hv, hvq⟩ := List.mem_filterMap.mp
      (List.count_pos_iff.mp (show 0 < (s.values.filterMap (·.value.container)).count q by omega))
    exact List.mem_append_right _ (List.mem_map.mpr ⟨v, hv, QCborValue.eq_array_of_container hvq⟩)

section Live

variable {s : Store}

/-- **No garbage.** With exact, positive counts and no cycle, every live backend is reached from a
variable. -/
theorem reaches_of_live (hc : s.Counted []) (hpos : s.heap.Positive) (hac : s.heap.Acyclic) {p : Ptr}
    {b : Backend} (hb : s.heap.read p = some b) : ∃ x ∈ s.roots, Reaches s.heap x p := by
  by_contra hp
  haveI : IsTrans (Fin s.heap.length) fun c a => s.heap.Above c a := ⟨fun _ _ _ h₁ h₂ => h₁.trans h₂⟩
  haveI : IsIrrefl (Fin s.heap.length) fun c a => s.heap.Above c a := ⟨fun a => hac a⟩
  -- a live, unreached backend that no live, unreached backend is above
  obtain ⟨a, ⟨ha, hna⟩, hmin⟩ := (Finite.wellFounded_of_trans_of_irrefl fun c a : Fin s.heap.length =>
    s.heap.Above c a).has_min {a | s.heap.read a ≠ none ∧ ¬ ∃ x ∈ s.roots, Reaches s.heap x a}
      ⟨⟨p, Heap.lt_of_read hb⟩, by simp [hb], hp⟩
  obtain ⟨ba, hba⟩ := Option.ne_none_iff_exists'.mp ha
  have hocc : 0 < s.occ a := by
    have := hc.live hba
    have := hpos _ _ hba
    simp only [List.count_nil, add_zero] at *
    omega
  by_cases hroot : 0 < s.rootRefs a
  · exact hna ⟨_, root_of_rootRefs_pos hroot, .here a⟩
  · -- then a live backend holds it, and that one is unreached too
    obtain ⟨c, bc, hbc, hy⟩ := Heap.exists_of_refs_pos (show 0 < s.heap.refs a by simp only [occ] at hocc; omega)
    exact hmin ⟨c, Heap.lt_of_read hbc⟩
      ⟨by simp [hbc], fun ⟨x, hx, hr⟩ => hna ⟨x, hx, hr.trans hbc hy (.here a)⟩⟩ ⟨bc, _, hbc, hy, .here a⟩

/-- With exact, positive counts and no cycle, a backend is live exactly when a variable reaches
it. -/
theorem live_iff_reaches (hc : s.Counted []) (hpos : s.heap.Positive) (hac : s.heap.Acyclic) (p : Ptr) :
    s.heap.read p ≠ none ↔ ∃ x ∈ s.roots, Reaches s.heap x p := by
  constructor
  · intro hp
    obtain ⟨b, hb⟩ := Option.ne_none_iff_exists'.mp hp
    exact reaches_of_live hc hpos hac hb
  · rintro ⟨x, hx, hr⟩ hp
    have := occ_pos_of_reaches hx hr
    have := hc.dead hp
    simp only [List.count_nil, add_zero] at *
    omega

end Live

/-! ### What a step does to the heap -/

/-- What a step from `s` to `s'` does to the heap: counts of live backends stay positive, and every
backend live in `s'`, but the one at `t`, was live in `s` with the same elements. -/
structure Frame (s s' : Store) (t : Option Ptr) : Prop where
  positive : s.heap.Positive → s'.heap.Positive
  settles : Heap.Settles s.heap s'.heap t

namespace Frame

variable {s s₁ s₂ s₃ : Store} {t : Option Ptr}

theorem refl (s : Store) (t : Option Ptr) : Frame s s t := ⟨id, Heap.Settles.refl _ _⟩

theorem trans (h₁ : Frame s₁ s₂ t) (h₂ : Frame s₂ s₃ t) : Frame s₁ s₃ t :=
  ⟨h₂.positive ∘ h₁.positive, h₁.settles.trans h₂.settles⟩

/-- A step that leaves the heap alone. -/
theorem of_heap (he : s₂.heap = s₁.heap) (t : Option Ptr) : Frame s₁ s₂ t :=
  ⟨fun h => he ▸ h, he ▸ Heap.Settles.refl _ _⟩

end Frame

namespace Store

variable (s : Store)

theorem frame_retain (x t : Option Ptr) : Frame s (s.retain x) t where
  positive hpos := by
    rcases x with _ | q
    · exact hpos
    · cases hq : s.heap.read q with
      | none => rwa [retain_dead hq]
      | some b =>
        rw [retain_some hq, heap_write]
        exact Heap.positive_set (fun r c _ => hpos r c) fun _ h => by cases h; exact Nat.succ_pos _
  settles := settles_retain s x t

theorem frame_setHandle (h : ℕ) (x : QJsonArray) (t : Option Ptr) : Frame s (s.setHandle h x) t :=
  Frame.of_heap (by rfl) t

theorem frame_pushHandle (x : QJsonArray) (t : Option Ptr) : Frame s (s.pushHandle x) t := Frame.of_heap (by rfl) t

theorem frame_setValue (k : ℕ) (v : QJsonValue) (t : Option Ptr) : Frame s (s.setValue k v) t :=
  Frame.of_heap (by rfl) t

theorem frame_pushValue (v : QJsonValue) (t : Option Ptr) : Frame s (s.pushValue v) t := Frame.of_heap (by rfl) t

theorem frame_retainAll (ps : List Ptr) (t : Option Ptr) : Frame s (s.retainAll ps) t := by
  induction ps generalizing s with
  | nil => exact Frame.refl s t
  | cons p ps ih => exact (frame_retain s (some p) t).trans (ih (s.retain (some p)))

theorem frame_setElements (p : Ptr) (xs : List QCborValue) : Frame s (s.setElements p xs) (some p) where
  positive hpos := by
    unfold setElements
    split
    · next b hb => exact Heap.positive_set (fun r c _ => hpos r c) fun _ h => by cases h; exact hpos p b hb
    · exact hpos
  settles := settles_setElements s p xs

theorem frame_release (P : List Ptr) (t : Option Ptr) : Frame s (s.release P) t where
  positive hpos := by
    induction s, P using Store.release.induct with
    | case1 s => simpa using hpos
    | case2 s p ps hp ih => rw [release_cons_dead ps hp]; exact ih hpos
    | case3 s p ps b hp h1 ih =>
      rw [release_cons_free ps hp h1]
      exact ih (Heap.positive_set (fun r c _ => hpos r c) fun _ h => by cases h)
    | case4 s p ps b hp h1 ih =>
      rw [release_cons_drop ps hp (by omega)]
      exact ih (Heap.positive_set (fun r c _ => hpos r c) fun _ h => by cases h; show 0 < b.ref - 1; omega)
  settles := (settles_release s P).mono t

theorem frame_reset (h : ℕ) (q t : Option Ptr) : Frame s (s.reset h q) t := by
  unfold reset
  split
  · exact Frame.refl s t
  · exact (frame_retain s q t).trans ((frame_setHandle _ h _ t).trans (frame_release _ _ t))

/-- A handle moved to a backend that has just been allocated with a count of zero: the retain of
`reset` gives it its count. -/
theorem positive_reset_fresh {h : ℕ} {n : Ptr} (hpos : ∀ r b, r ≠ n → s.heap.read r = some b → 0 < b.ref)
    (hne : (s.handle h).a ≠ some n) : (s.reset h (some n)).heap.Positive := by
  rw [reset, if_neg (Ne.symm hne)]
  refine (frame_release _ _ none).positive ?_
  rw [heap_setHandle]
  cases hn : s.heap.read n with
  | none =>
    rw [retain_dead hn]
    intro r b hr
    by_cases hrn : r = n
    · rw [hrn, hn] at hr; cases hr
    · exact hpos r b hrn hr
  | some b =>
    rw [retain_some hn, heap_write]
    exact Heap.positive_set hpos fun _ h => by cases h; exact Nat.succ_pos _

theorem settles_alloc (b : Backend) : Heap.Settles s.heap (s.alloc b).1.heap (some s.heap.length) := by
  intro p b' hp hb'
  rw [heap_alloc] at hb'
  have h₁ := Heap.lt_of_read hb'
  rw [List.length_append, List.length_singleton] at h₁
  have h₂ : p < s.heap.length := Nat.lt_of_le_of_ne (Nat.le_of_lt_succ h₁) fun h => hp (by rw [h])
  exact ⟨b', by rwa [Heap.read_append_lt _ _ h₂] at hb', rfl⟩

/-- **A clone**: its elements' containers retained, the clone allocated with a count of zero, the
handle moved to it. -/
theorem frame_clone {h : ℕ} (hne : (s.handle h).a ≠ some s.heap.length) (xs : List QCborValue) :
    Frame s (((s.retainAll (children xs)).alloc ⟨xs, 0⟩).1.reset h (some s.heap.length)) (some s.heap.length) where
  positive hpos := by
    have h₁ := (frame_retainAll s (children xs) none).positive hpos
    refine positive_reset_fresh _ ?_ (by simpa using hne)
    rw [heap_alloc, ← length_retainAll s (children xs)]
    exact Heap.positive_append h₁ _
  settles := by
    have h₂ := settles_alloc (s.retainAll (children xs)) ⟨xs, 0⟩
    rw [length_retainAll] at h₂
    exact (frame_retainAll s _ _).settles.trans (h₂.trans (frame_reset _ h _ _).settles)

theorem frame_insertAt (p : Ptr) (idx : ℕ) (x : QCborValue) : Frame s (s.insertAt p idx x) (some p) :=
  (frame_retain s _ _).trans (frame_setElements _ p _)

theorem frame_removeAt (p : Ptr) (idx : ℕ) : Frame s (s.removeAt p idx) (some p) :=
  (frame_setElements s p _).trans (frame_release _ _ _)

theorem frame_extractAt (p : Ptr) (idx : ℕ) : Frame s (s.extractAt p idx).1 (some p) :=
  frame_setElements s p _

theorem frame_replaceAt (p : Ptr) (idx : ℕ) (x : QCborValue) : Frame s (s.replaceAt p idx x) (some p) :=
  ((frame_retain s _ _).trans (frame_setElements _ p _)).trans (frame_release _ _ _)

end Store

namespace QJsonArray

variable {s s' : Store} {h : ℕ}

/-- **`detach`** changes no backend but the one the handle holds afterwards. -/
theorem frame_detach (hc : s.Counted []) (alloc : Bool) (h : ℕ) :
    Frame s (detach alloc s h).1 ((detach alloc s h).1.handle h).a := by
  cases hp : (s.handle h).a with
  | none =>
    simp only [detach, hp]
    exact Frame.refl _ _
  | some p =>
    obtain ⟨b, hb⟩ := read_of_handle hc hp
    by_cases h1 : b.ref = 1
    · rw [detach_of_ref_one alloc hp hb h1]
      exact Frame.refl _ _
    cases alloc with
    | false =>
      rw [detach_of_shared_fail hp hb h1]
      exact frame_reset s h none _
    | true =>
      have hh : h < (((s.retainAll (children b.elements)).alloc ⟨b.elements, 0⟩).1).handles.length := by
        simpa [handles_retainAll] using lt_of_handle hp
      rw [detach_of_shared hp hb h1, handle_reset_self hh]
      exact frame_clone s (by rw [hp]; exact fun he => absurd (Heap.lt_of_read hb) (by simp_all)) _

theorem frame_detachOrCreate (hc : s.Counted []) (alloc : Bool) (hh : h < s.handles.length) :
    Frame s (detachOrCreate alloc s h) ((detachOrCreate alloc s h).handle h).a := by
  cases hp : (s.handle h).a with
  | none =>
    simp only [detachOrCreate, hp, alloc_snd]
    rw [handle_reset_self (by simpa using hh)]
    exact frame_clone s (by rw [hp]; exact Option.noConfusion) []
  | some p =>
    have hd : detachOrCreate alloc s h = (detach alloc s h).1 := by simp [detachOrCreate, hp]
    rw [hd]
    exact frame_detach hc alloc h

variable {alloc : Bool} {i : ℤ}

theorem frame_insert (hc : s.Counted []) (hh : h < s.handles.length) {v : QJsonValue}
    (he : insert alloc s h i v = .ok s') : Frame s s' (s'.handle h).a := by
  obtain ⟨q, idx, x, hq, rfl⟩ := insert_ok_cases he
  have hf := frame_detachOrCreate hc alloc hh
  rw [hq] at hf
  rw [handle_insertAt, hq]
  exact hf.trans (frame_insertAt _ q _ _)

theorem frame_removeAt (hc : s.Counted []) (he : removeAt alloc s h i = .ok s') : Frame s s' (s'.handle h).a := by
  rcases removeAt_ok_cases he with rfl | ⟨q, idx, hq, rfl⟩
  · exact Frame.refl _ _
  · have hf := frame_detach hc alloc h
    rw [hq] at hf
    rw [handle_removeAt, hq]
    exact hf.trans (Store.frame_removeAt _ q _)

theorem frame_takeAt (hc : s.Counted []) {r : Store × QJsonValue} (he : takeAt alloc s h i = .ok r) :
    Frame s r.1 (r.1.handle h).a := by
  rcases takeAt_ok_cases he with hr | ⟨q, idx, hq, hr⟩ <;> rw [hr]
  · exact Frame.refl _ _
  · have hf := frame_detach hc alloc h
    rw [hq] at hf
    rw [handle_removeAt, handle_extractAt, hq]
    exact (hf.trans (frame_extractAt _ q _)).trans (Store.frame_removeAt _ q _)

theorem frame_replace (hc : s.Counted []) {v : QJsonValue} (he : replace alloc s h i v = .ok s') :
    Frame s s' (s'.handle h).a := by
  obtain ⟨q, idx, x, hq, rfl⟩ := replace_ok_cases he
  have hf := frame_detach hc alloc h
  rw [hq] at hf
  rw [handle_replaceAt, hq]
  exact hf.trans (frame_replaceAt _ q _ _)

end QJsonArray

variable {s s' : Store} {A : AStore}

/-- **What one statement does to the heap**: it keeps counts positive, and changes no backend but
perhaps one a handle holds afterwards. -/
theorem execAlloc_frame (hc : s.Counted []) {op : Op} (hs : op.inScope s.handles.length s.values.length = true)
    {alloc : Bool} (hx : s.execAlloc alloc op = .ok s') :
    ∃ t, Frame s s' t ∧ ∀ q, t = some q → ∃ h, (s'.handle h).a = some q := by
  have none_held : ∀ q : Ptr, (none : Option Ptr) = some q → ∃ h, (s'.handle h).a = some q := fun _ h => nomatch h
  cases op with
  | copy h => cases hx; exact ⟨none, (frame_retain s _ _).trans (frame_pushHandle _ _ _), none_held⟩
  | assign h src => cases hx; exact ⟨none, frame_reset s h _ _, none_held⟩
  | move h =>
    cases hx
    exact ⟨none, (frame_retain s _ _).trans ((frame_pushHandle _ _ _).trans (frame_reset _ h _ _)), none_held⟩
  | destroy h => cases hx; exact ⟨none, frame_reset s h _ _, none_held⟩
  | insert h i k =>
    simp only [Op.inScope, Bool.and_eq_true, decide_eq_true_eq] at hs
    exact ⟨_, frame_insert hc hs.1 hx, fun _ hq => ⟨h, hq⟩⟩
  | append h k =>
    simp only [Op.inScope, Bool.and_eq_true, decide_eq_true_eq] at hs
    exact ⟨_, frame_insert hc hs.1 hx, fun _ hq => ⟨h, hq⟩⟩
  | prepend h k =>
    simp only [Op.inScope, Bool.and_eq_true, decide_eq_true_eq] at hs
    exact ⟨_, frame_insert hc hs.1 hx, fun _ hq => ⟨h, hq⟩⟩
  | removeAt h i => exact ⟨_, frame_removeAt hc hx, fun _ hq => ⟨h, hq⟩⟩
  | takeAt h i =>
    simp only [Store.execAlloc] at hx
    cases ht : takeAt alloc s h i with
    | error e => rw [ht] at hx; cases hx
    | ok r =>
      rw [ht] at hx
      cases hx
      exact ⟨_, (frame_takeAt hc ht).trans (frame_pushValue _ _ _), fun _ hq => ⟨h, hq⟩⟩
  | replace h i k => exact ⟨_, frame_replace hc hx, fun _ hq => ⟨h, hq⟩⟩
  | ofArray h => cases hx; exact ⟨none, (frame_retain s _ _).trans (frame_pushValue _ _ _), none_held⟩
  | «at» h i => cases hx; exact ⟨none, (frame_retain s _ _).trans (frame_pushValue _ _ _), none_held⟩
  | toArray k => cases hx; exact ⟨none, (frame_retain s _ _).trans (frame_pushHandle _ _ _), none_held⟩
  | scalar x => cases hx; exact ⟨none, frame_pushValue s _ _, none_held⟩
  | destroyValue k => cases hx; exact ⟨none, (frame_setValue s _ _ _).trans (frame_release _ _ _), none_held⟩

/-! ### Allocation

The heap's length counts the backends ever allocated: a freed backend leaves its cell empty. -/

namespace Store

variable (s : Store)

@[simp] theorem length_setElements (p : Ptr) (xs : List QCborValue) :
    (s.setElements p xs).heap.length = s.heap.length := by
  unfold setElements
  split <;> simp

@[simp] theorem length_release (P : List Ptr) : (s.release P).heap.length = s.heap.length := by
  induction s, P using Store.release.induct with
  | case1 s => simp
  | case2 s p ps hp ih => rw [release_cons_dead ps hp, ih]
  | case3 s p ps b hp h1 ih => rw [release_cons_free ps hp h1, ih]; simp
  | case4 s p ps b hp h1 ih => rw [release_cons_drop ps hp (by omega), ih]; simp

@[simp] theorem length_reset (h : ℕ) (q : Option Ptr) : (s.reset h q).heap.length = s.heap.length := by
  unfold reset
  split <;> simp

@[simp] theorem length_insertAt (p : Ptr) (idx : ℕ) (x : QCborValue) :
    (s.insertAt p idx x).heap.length = s.heap.length := by
  simp [insertAt]

@[simp] theorem length_removeAt (p : Ptr) (idx : ℕ) : (s.removeAt p idx).heap.length = s.heap.length := by
  simp [removeAt]

@[simp] theorem length_extractAt (p : Ptr) (idx : ℕ) : (s.extractAt p idx).1.heap.length = s.heap.length := by
  simp [extractAt]

@[simp] theorem length_replaceAt (p : Ptr) (idx : ℕ) (x : QCborValue) :
    (s.replaceAt p idx x).heap.length = s.heap.length := by
  simp [replaceAt]

end Store

/-- From `s` to `s'` no backend is allocated, or one is, for the handle `t`, which held no backend
alone in `s`. -/
def Lazy (s s' : Store) (t : Option ℕ) : Prop :=
  s'.heap.length = s.heap.length ∨ (s'.heap.length = s.heap.length + 1 ∧ ∃ h, t = some h ∧ ∀ p, ¬ s.Owns h p)

/-- An edit after an allocation allocates nothing more. -/
theorem Lazy.edit {s₁ s₂ : Store} {t : Option ℕ} (hl : Lazy s s₁ t) (he : s₂.heap.length = s₁.heap.length) :
    Lazy s s₂ t := by
  rwa [Lazy, he]

namespace QJsonArray

variable {h : ℕ}

/-- **`detach` clones only a backend the handle does not hold alone.** -/
theorem lazy_detach (hc : s.Counted []) (alloc : Bool) (h : ℕ) : Lazy s (detach alloc s h).1 (some h) := by
  cases hp : (s.handle h).a with
  | none => exact .inl (by simp [detach, hp])
  | some p =>
    obtain ⟨b, hb⟩ := read_of_handle hc hp
    by_cases h1 : b.ref = 1
    · exact .inl (by rw [detach_of_ref_one alloc hp hb h1])
    cases alloc with
    | false => exact .inl (by rw [detach_of_shared_fail hp hb h1]; simp)
    | true =>
      refine .inr ⟨by rw [detach_of_shared hp hb h1]; simp, h, rfl, fun p' ho => h1 ?_⟩
      obtain rfl : p = p' := Option.some.inj (hp.symm.trans ho.1)
      have := hc.live hb
      simp only [List.count_nil, add_zero] at this
      rw [this, ho.2]

/-- The first step of `insert`: a backend is created only for a null handle, and cloned only when
shared. -/
theorem lazy_detachOrCreate (hc : s.Counted []) (alloc : Bool) (h : ℕ) :
    Lazy s (detachOrCreate alloc s h) (some h) := by
  cases hp : (s.handle h).a with
  | none => exact .inr ⟨by simp [detachOrCreate, hp], h, rfl, fun p ho => Option.noConfusion (hp.symm.trans ho.1)⟩
  | some p =>
    have hd : detachOrCreate alloc s h = (detach alloc s h).1 := by simp [detachOrCreate, hp]
    rw [hd]
    exact lazy_detach hc alloc h

end QJsonArray

/-- **Copies are lazy.** A statement allocates at most one backend, and only when it is a member
called on a handle that holds no backend alone: a copy, an assignment or a conversion shares, and a
member on an array that holds its backend alone edits it in place. -/
theorem execAlloc_lazy (hc : s.Counted []) {op : Op} {alloc : Bool} (hx : s.execAlloc alloc op = .ok s') :
    Lazy s s' op.target := by
  cases op with
  | insert h i k =>
    obtain ⟨q, idx, x, -, rfl⟩ := insert_ok_cases hx
    exact (lazy_detachOrCreate hc alloc h).edit (by simp)
  | append h k =>
    obtain ⟨q, idx, x, -, rfl⟩ := insert_ok_cases hx
    exact (lazy_detachOrCreate hc alloc h).edit (by simp)
  | prepend h k =>
    obtain ⟨q, idx, x, -, rfl⟩ := insert_ok_cases hx
    exact (lazy_detachOrCreate hc alloc h).edit (by simp)
  | removeAt h i =>
    rcases removeAt_ok_cases hx with rfl | ⟨q, idx, -, rfl⟩
    · exact .inl rfl
    · exact (lazy_detach hc alloc h).edit (by simp)
  | takeAt h i =>
    simp only [Store.execAlloc] at hx
    cases ht : takeAt alloc s h i with
    | error e => rw [ht] at hx; cases hx
    | ok r =>
      rw [ht] at hx
      cases hx
      rcases takeAt_ok_cases ht with hr | ⟨q, idx, -, hr⟩
      · exact .inl (by simp [hr])
      · exact (lazy_detach hc alloc h).edit (by simp [hr])
  | replace h i k =>
    obtain ⟨q, idx, x, -, rfl⟩ := replace_ok_cases hx
    exact (lazy_detach hc alloc h).edit (by simp)
  | copy | assign | move | destroy | ofArray | «at» | toArray | scalar | destroyValue =>
    cases hx
    exact .inl (by simp)

/-- A backend a handle holds is on no cycle: it decodes to a finite tree. -/
theorem Rep.not_onCycle (hr : Rep s A) {h : ℕ} {q : Ptr} (hq : (s.handle h).a = some q) : ¬ s.heap.OnCycle q := by
  obtain ⟨t, ht⟩ := hr.mirrors.decodes_root (handle_mem_roots (lt_of_handle hq))
  exact ht.not_onCycle (hq ▸ .here q)

/-- **Along a run, counts stay exact and positive, and no cycle appears.** -/
theorem runAlloc_tidy (hr : Rep s A) (hpos : s.heap.Positive) (hac : s.heap.Acyclic) {ops : List Op}
    (hs : Op.allInScope s.handles.length s.values.length ops = true) (alloc : ℕ → Bool)
    (hx : s.runAlloc alloc ops = .ok s') : s'.Counted [] ∧ s'.heap.Positive ∧ s'.heap.Acyclic := by
  induction ops generalizing s A alloc with
  | nil => cases hx; exact ⟨hr.counted, hpos, hac⟩
  | cons op ops ih =>
    rw [Store.runAlloc_cons] at hx
    cases h₁ : s.execAlloc (alloc 0) op with
    | error e => rw [h₁] at hx; cases hx
    | ok s₁ =>
      rw [h₁] at hx
      obtain ⟨A₁, -, hr₁, -, hs₁⟩ := hr.exec_ok hs h₁
      have hop : op.inScope s.handles.length s.values.length = true := by
        simp only [Op.allInScope, Bool.and_eq_true] at hs; exact hs.1
      obtain ⟨t, hf, ht⟩ := execAlloc_frame hr.counted hop h₁
      refine ih hr₁ (hf.positive hpos) (Heap.acyclic_of_settles hac hf.settles fun q hq => ?_) hs₁ _ hx
      obtain ⟨h, hh⟩ := ht q hq
      exact hr₁.not_onCycle hh

/-- **Reference counting leaves no garbage, and frees nothing in use.** From `n` default-constructed
arrays, in every store a program in scope and without strings reaches, whichever clone allocations
fail, a backend is live exactly when one of the program's variables reaches it. With no string,
the backends are all the containers Qt allocates (`Op.isString`). -/
theorem run_live_iff_reaches (n : ℕ) (ops : List Op) (hs : Op.allInScope n 0 ops = true) (alloc : ℕ → Bool) :
    (∀ op ∈ ops, op.isString = false) →
      ∀ s, (Store.init n).runAlloc alloc ops = .ok s → ∀ p, s.heap.read p ≠ none ↔ ∃ x ∈ s.roots, Reaches s.heap x p := by
  intro _ s hx p
  obtain ⟨hc, hpos, hac⟩ := runAlloc_tidy (Rep.init n) (fun _ _ hb => by simp [Store.init] at hb)
    (fun _ ⟨_, _, hb, _⟩ => by simp [Store.init] at hb) (allInScope_init hs) alloc hx
  exact live_iff_reaches hc hpos hac p

/-- `a.append(1)`, `v = QJsonValue(a)`, `a.append(v)`, then `v` and `a` destroyed, with every
allocation succeeding. -/
theorem run_live_iff_reaches_append_self :
    Op.allInScope 1 0 [.scalar (.integer 1), .append 0 0, .ofArray 0, .append 0 1, .destroyValue 1, .destroy 0] = true ∧
      (∀ op ∈ [Op.scalar (.integer 1), .append 0 0, .ofArray 0, .append 0 1, .destroyValue 1, .destroy 0],
        op.isString = false) ∧
      ∀ s, (Store.init 1).runAlloc (fun _ => true)
          [.scalar (.integer 1), .append 0 0, .ofArray 0, .append 0 1, .destroyValue 1, .destroy 0] = .ok s →
        ∀ p, s.heap.read p ≠ none ↔ ∃ x ∈ s.roots, Reaches s.heap x p :=
  ⟨by decide, by decide, run_live_iff_reaches 1 _ (by decide) _ (by decide)⟩

/-- **Copying is lazy, over a whole run.** From `n` default-constructed arrays, whichever clone
allocations fail, each statement of a program in scope and without strings allocates at most one
backend, and only when it is a member called on a handle that holds no backend alone: copies,
assignments and conversions never allocate, and a member on an array that holds its backend alone
edits it in place. With no string, no value holds a reference into an array's backend and no
statement allocates a string's container (`Op.isString`). -/
theorem run_allocates_lazily (n : ℕ) (ops : List Op) (hs : Op.allInScope n 0 ops = true) (alloc : ℕ → Bool) :
    (∀ op ∈ ops, op.isString = false) →
      ∀ pre op post s s', ops = pre ++ op :: post → (Store.init n).runAlloc alloc pre = .ok s →
        s.execAlloc (alloc pre.length) op = .ok s' → Lazy s s' op.target := by
  rintro _ pre op post s s' rfl h₁ h₂
  obtain ⟨A₁, hr₁, -⟩ := (Rep.init n).runAlloc_ok alloc pre (allInScope_init hs) h₁
  exact execAlloc_lazy hr₁.counted h₂

/-- `a.append(1)`, `b = a`, then `b.append(2)`: the copy shares, the append clones. -/
theorem run_allocates_lazily_copy_append :
    Op.allInScope 1 0 [.scalar (.integer 1), .append 0 0, .copy 0, .scalar (.integer 2), .append 1 1] = true ∧
      (∀ op ∈ [Op.scalar (.integer 1), .append 0 0, .copy 0, .scalar (.integer 2), .append 1 1], op.isString = false) ∧
      ∀ pre op post s s', [.scalar (.integer 1), .append 0 0, .copy 0, .scalar (.integer 2), .append 1 1] =
          pre ++ op :: post → (Store.init 1).runAlloc (fun _ => true) pre = .ok s →
        s.execAlloc ((fun _ => true) pre.length) op = .ok s' → Lazy s s' op.target :=
  ⟨by decide, by decide, run_allocates_lazily 1 _ (by decide) _ (by decide)⟩

end QtJsonArray
