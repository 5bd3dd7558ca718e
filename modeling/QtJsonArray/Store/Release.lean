import QtJsonArray.Store.Heap

/-!
# Dropping references

`QCborContainerPrivate::deref()` lowers a backend's count; the backend whose last reference
goes is deleted, and its destructor derefs every container its elements hold, in order. The
cascade is `Store.release`, over a list of addresses still to deref. It stops because each
step either frees a backend or shortens the list.

The main fact is `Counted.release`: if the counts are exact up to the pending list, they are
exact once the list is released. Everything else `release` changes is nothing: handles,
values, and the elements of every backend that survives stay as they were.
-/

namespace QtJsonArray

namespace Store

/-- The number of live backends. -/
def liveCount (s : Store) : ℕ := s.heap.countP Option.isSome

theorem liveCount_write_none {s : Store} {p : Ptr} {b : Backend} (hb : s.heap.read p = some b) :
    (s.write p none).liveCount < s.liveCount := by
  have hp := Heap.lt_of_read hb
  have hget : s.heap[p] = some b := by
    simpa [Heap.read, List.getD_eq_getElem?_getD, hp] using hb
  simp only [liveCount, heap_write, List.countP_set _ _ _ _ hp, hget, Option.isSome_some, Option.isSome_none,
    if_true, Bool.false_eq_true, if_false]
  have : 0 < s.heap.countP Option.isSome :=
    List.countP_pos_iff.mpr ⟨some b, hget ▸ List.getElem_mem hp, rfl⟩
  omega

theorem liveCount_write_some {s : Store} {p : Ptr} {b : Backend} (hb : s.heap.read p = some b)
    (b' : Backend) : (s.write p (some b')).liveCount = s.liveCount := by
  have hp := Heap.lt_of_read hb
  have hget : s.heap[p] = some b := by
    simpa [Heap.read, List.getD_eq_getElem?_getD, hp] using hb
  have : 0 < s.heap.countP Option.isSome :=
    List.countP_pos_iff.mpr ⟨some b, hget ▸ List.getElem_mem hp, rfl⟩
  simp only [liveCount, heap_write, List.countP_set _ _ _ _ hp, hget, Option.isSome_some, if_true]
  omega

/-- `deref()` on each address of the list `ps`, in order. A count above one goes down; a backend
whose last reference goes is freed, and the containers its elements hold are dereffed next. -/
def release : Store → List Ptr → Store
  | s, [] => s
  | s, p :: ps =>
    match h : s.heap.read p with
    | none => release s ps
    | some b =>
      if b.ref ≤ 1 then release (s.write p none) (children b.elements ++ ps)
      else release (s.write p (some { b with ref := b.ref - 1 })) ps
termination_by s ps => (s.liveCount, ps.length)
decreasing_by
  all_goals simp_wf
  · exact Prod.Lex.right _ (Nat.lt_succ_self _)
  · exact Prod.Lex.left _ _ (liveCount_write_none h)
  · rw [liveCount_write_some h]; exact Prod.Lex.right _ (Nat.lt_succ_self _)

@[simp] theorem release_nil (s : Store) : s.release [] = s := by
  rw [release]

theorem release_cons_dead {s : Store} {p : Ptr} (ps : List Ptr) (hb : s.heap.read p = none) :
    s.release (p :: ps) = s.release ps := by
  rw [release]; split <;> simp_all

theorem release_cons_free {s : Store} {p : Ptr} (ps : List Ptr) {b : Backend}
    (hb : s.heap.read p = some b) (h1 : b.ref ≤ 1) :
    s.release (p :: ps) = (s.write p none).release (children b.elements ++ ps) := by
  rw [release]; split <;> simp_all

theorem release_cons_drop {s : Store} {p : Ptr} (ps : List Ptr) {b : Backend}
    (hb : s.heap.read p = some b) (h1 : 1 < b.ref) :
    s.release (p :: ps) = (s.write p (some { b with ref := b.ref - 1 })).release ps := by
  rw [release]; split <;> simp_all

theorem handles_release (s : Store) (P : List Ptr) : (s.release P).handles = s.handles := by
  induction s, P using Store.release.induct with
  | case1 s => simp
  | case2 s p ps hb ih => rw [release_cons_dead ps hb, ih]
  | case3 s p ps b hb h1 ih => rw [release_cons_free ps hb h1, ih]; rfl
  | case4 s p ps b hb h1 ih => rw [release_cons_drop ps hb (by omega), ih]; rfl

theorem values_release (s : Store) (P : List Ptr) : (s.release P).values = s.values := by
  induction s, P using Store.release.induct with
  | case1 s => simp
  | case2 s p ps hb ih => rw [release_cons_dead ps hb, ih]
  | case3 s p ps b hb h1 ih => rw [release_cons_free ps hb h1, ih]; rfl
  | case4 s p ps b hb h1 ih => rw [release_cons_drop ps hb (by omega), ih]; rfl

@[simp] theorem handle_release (s : Store) (P : List Ptr) (h : ℕ) : (s.release P).handle h = s.handle h := by
  simp [handle, handles_release]

/-! ### The two steps of the cascade, on the ledger -/

/-- Freeing a backend whose only count is the one being dropped. -/
theorem Counted.free {s : Store} {P : List Ptr} {p : Ptr} {b : Backend} (hc : s.Counted (p :: P))
    (hb : s.heap.read p = some b) (h1 : b.ref ≤ 1) :
    (s.write p none).Counted (children b.elements ++ P) := by
  have hd := s.occ_write (Heap.lt_of_read hb) none
  have hp := hc.live hb
  simp only [List.count_cons_self] at hp
  simp only [hb, Heap.cellRefs] at hd
  apply counted_of
  · intro q b' hb'
    by_cases hq : p = q
    · subst hq; simp [Heap.read_set_self _ (Heap.lt_of_read hb)] at hb'
    · rw [heap_write, Heap.read_set_ne _ _ hq] at hb'
      have := hc.live hb'; have := hd q
      simp only [List.count_append, List.count_cons, beq_iff_eq, hq, if_false] at *; omega
  · intro q hb'
    by_cases hq : p = q
    · subst hq; have := hd p; simp only [List.count_append] at *; omega
    · rw [heap_write, Heap.read_set_ne _ _ hq] at hb'
      have := hc.dead hb'; have := hd q
      simp only [List.count_append, List.count_cons, beq_iff_eq, hq, if_false] at *; omega

/-- Lowering a count above one. -/
theorem Counted.drop {s : Store} {P : List Ptr} {p : Ptr} {b : Backend} (hc : s.Counted (p :: P))
    (hb : s.heap.read p = some b) (h1 : 1 < b.ref) :
    (s.write p (some { b with ref := b.ref - 1 })).Counted P := by
  have hd := s.occ_write (Heap.lt_of_read hb) (some { b with ref := b.ref - 1 })
  simp only [hb, Heap.cellRefs] at hd
  apply counted_of
  · intro q b' hb'
    by_cases hq : p = q
    · subst hq
      rw [heap_write, Heap.read_set_self _ (Heap.lt_of_read hb)] at hb'
      cases hb'
      have := hc.live hb; have := hd p; simp only [List.count_cons_self] at *; omega
    · rw [heap_write, Heap.read_set_ne _ _ hq] at hb'
      have := hc.live hb'; have := hd q
      simp only [List.count_cons, beq_iff_eq, hq, if_false] at *; omega
  · intro q hb'
    by_cases hq : p = q
    · subst hq; rw [heap_write, Heap.read_set_self _ (Heap.lt_of_read hb)] at hb'; cases hb'
    · rw [heap_write, Heap.read_set_ne _ _ hq] at hb'
      have := hc.dead hb'; have := hd q
      simp only [List.count_cons, beq_iff_eq, hq, if_false] at *; omega

/-- **Releasing settles the released part of the ledger**; references still pending after it stay
pending. -/
theorem Counted.release_append {s : Store} {P Q : List Ptr} (hc : s.Counted (P ++ Q)) :
    (s.release P).Counted Q := by
  induction s, P using Store.release.induct with
  | case1 s => simpa using hc
  | case2 s p ps hb ih =>
    have := hc.dead hb; simp at this
  | case3 s p ps b hb h1 ih =>
    rw [release_cons_free ps hb h1]; exact ih (by simpa using hc.free hb h1)
  | case4 s p ps b hb h1 ih => rw [release_cons_drop ps hb (by omega)]; exact ih (hc.drop hb (by omega))

/-- **Releasing restores exact counts.** -/
theorem Counted.release {s : Store} {P : List Ptr} (hc : s.Counted P) : (s.release P).Counted [] :=
  Counted.release_append (by simpa using hc)

/-- **What the program's variables reference survives a release**, with its elements. -/
theorem read_release_of_rootRefs {s : Store} {P Q : List Ptr} (hc : s.Counted (P ++ Q)) {q : Ptr}
    {b : Backend} (hb : s.heap.read q = some b) (hr : 0 < s.rootRefs q) :
    ∃ b', (s.release P).heap.read q = some b' ∧ b'.elements = b.elements := by
  induction s, P using Store.release.induct generalizing b with
  | case1 s => exact ⟨b, by simpa using hb, rfl⟩
  | case2 s p ps hp ih => have := hc.dead hp; simp at this
  | case3 s p ps b₀ hp h1 ih =>
    rw [release_cons_free ps hp h1]
    have hpq : p ≠ q := by
      rintro rfl; have := hc.live hp; simp [occ] at this; omega
    exact ih (by simpa using hc.free hp h1) (by rwa [heap_write, Heap.read_set_ne _ _ hpq]) hr
  | case4 s p ps b₀ hp h1 ih =>
    rw [release_cons_drop ps hp (by omega)]
    by_cases hpq : p = q
    · subst hpq
      rw [hb] at hp; cases hp
      obtain ⟨b', h', he⟩ :=
        ih (hc.drop hb (by omega)) (by rw [heap_write, Heap.read_set_self _ (Heap.lt_of_read hb)]) hr
      exact ⟨b', h', he⟩
    · exact ih (hc.drop hp (by omega)) (by rwa [heap_write, Heap.read_set_ne _ _ hpq]) hr

/-- Releasing a reference that is not the backend's last only lowers its count. -/
theorem release_singleton {s : Store} {p : Ptr} (hc : s.Counted [p]) (ho : 0 < s.occ p) :
    ∃ b, s.heap.read p = some b ∧ s.release [p] = s.write p (some { b with ref := b.ref - 1 }) := by
  obtain ⟨b, hb⟩ := Option.ne_none_iff_exists'.mp (hc.read_ne_none (p := p) (by omega))
  have := hc.live hb
  simp only [List.count_singleton_self] at this
  exact ⟨b, hb, by rw [release_cons_drop [] hb (by omega), release_nil]⟩

end Store

end QtJsonArray
