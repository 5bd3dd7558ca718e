import QtJsonArray.Cow.Program

/-!
# The store mirrors private lists

`Mirrors s A`: every variable of the store decodes to its private value in `A`. This module
shows how each primitive of the store moves the relation. A primitive that keeps what the
variables reach keeps it. A release keeps it, because it frees only what no variable reaches.
An in-place edit of a backend that a handle holds alone changes the private list of that
handle and nothing else (`Mirrors.edit`).

It also gives the frame of a statement on the heap (`Heap.Settles`): which live backends can
come out of it with other elements.
-/

namespace QtJsonArray

/-! ### Variables and roots -/

namespace Store

variable {s : Store}

theorem handle_of_le {h : ℕ} (hh : s.handles.length ≤ h) : s.handle h = ⟨none⟩ := by
  simp [handle, List.getD_eq_getElem?_getD, List.getElem?_eq_none hh]

theorem value_of_le {k : ℕ} (hk : s.values.length ≤ k) : s.value k = .undefined := by
  simp [value, List.getD_eq_getElem?_getD, List.getElem?_eq_none hk]

theorem handle_mem_roots {h : ℕ} (hh : h < s.handles.length) : .array (s.handle h).a ∈ s.roots :=
  List.mem_append_left _ (List.mem_map.mpr ⟨s.handles[h], List.getElem_mem hh, by
    simp [handle, List.getD_eq_getElem?_getD, hh]⟩)

theorem value_mem_roots {k : ℕ} (hk : k < s.values.length) : (s.value k).value ∈ s.roots :=
  List.mem_append_right _ (List.mem_map.mpr ⟨s.values[k], List.getElem_mem hk, by
    simp [value, List.getD_eq_getElem?_getD, hk]⟩)

@[simp] theorem handle_pushValue (v : QJsonValue) (h : ℕ) : (s.pushValue v).handle h = s.handle h := rfl

@[simp] theorem handle_setValue (k : ℕ) (v : QJsonValue) (h : ℕ) : (s.setValue k v).handle h = s.handle h := rfl

@[simp] theorem value_pushHandle (x : QJsonArray) (k : ℕ) : (s.pushHandle x).value k = s.value k := rfl

@[simp] theorem value_setHandle (h : ℕ) (x : QJsonArray) (k : ℕ) : (s.setHandle h x).value k = s.value k := rfl

@[simp] theorem value_write (p : Ptr) (ob : Option Backend) (k : ℕ) : (s.write p ob).value k = s.value k := rfl

theorem value_retain (x : Option Ptr) (k : ℕ) : (s.retain x).value k = s.value k := by
  simp [value, values_retain]

theorem handle_setHandle {h : ℕ} (hh : h < s.handles.length) (x : QJsonArray) (h' : ℕ) :
    (s.setHandle h x).handle h' = if h' = h then x else s.handle h' := by
  split_ifs with he
  · subst he; exact handle_setHandle_self s x hh
  · exact handle_setHandle_ne s x (Ne.symm he)

theorem handle_pushHandle (x : QJsonArray) (h : ℕ) :
    (s.pushHandle x).handle h = if h = s.handles.length then x else s.handle h := by
  unfold handle pushHandle
  rcases lt_trichotomy h s.handles.length with hh | rfl | hh
  · simp [List.getElem?_append_left hh, hh.ne]
  · simp
  · have hl : (s.handles ++ [x]).length ≤ h := by rw [List.length_append, List.length_singleton]; omega
    simp [List.getElem?_eq_none hl, List.getElem?_eq_none hh.le, hh.ne']

theorem value_setValue {k : ℕ} (hk : k < s.values.length) (v : QJsonValue) (k' : ℕ) :
    (s.setValue k v).value k' = if k' = k then v else s.value k' := by
  unfold value setValue
  by_cases he : k' = k
  · subst he; simp [hk]
  · simp [he, List.getElem?_set_ne (Ne.symm he)]

theorem value_pushValue (v : QJsonValue) (k : ℕ) :
    (s.pushValue v).value k = if k = s.values.length then v else s.value k := by
  unfold value pushValue
  rcases lt_trichotomy k s.values.length with hk | rfl | hk
  · simp [List.getElem?_append_left hk, hk.ne]
  · simp
  · have hl : (s.values ++ [v]).length ≤ k := by rw [List.length_append, List.length_singleton]; omega
    simp [List.getElem?_eq_none hl, List.getElem?_eq_none hk.le, hk.ne']

theorem setHandle_handle_self {h : ℕ} (hh : h < s.handles.length) : s.setHandle h (s.handle h) = s := by
  have : s.handles.set h (s.handle h) = s.handles := List.ext_getElem (by simp) fun j _ _ => by
    by_cases hj : h = j
    · subst hj; simp [handle, List.getD_eq_getElem?_getD, hh]
    · simp [List.getElem_set, hj]
  simp [setHandle, this]

end Store

theorem agrees_null (H H' : Heap) : Agrees H H' (.array none) := fun _ _ hr => by cases hr

theorem agrees_scalar (H H' : Heap) (x : Scalar) : Agrees H H' (.scalar x) := fun _ _ hr => by cases hr

namespace Store

variable {s : Store} {H' : Heap}

/-- What agrees on every root agrees on every handle, declared or not. -/
theorem agrees_handle (ha : ∀ x ∈ s.roots, Agrees s.heap H' x) (h : ℕ) :
    Agrees s.heap H' (.array (s.handle h).a) := by
  by_cases hh : h < s.handles.length
  · exact ha _ (handle_mem_roots hh)
  · rw [handle_of_le (Nat.le_of_not_lt hh)]; exact agrees_null _ _

theorem agrees_value (ha : ∀ x ∈ s.roots, Agrees s.heap H' x) (k : ℕ) : Agrees s.heap H' (s.value k).value := by
  by_cases hk : k < s.values.length
  · exact ha _ (value_mem_roots hk)
  · rw [value_of_le (Nat.le_of_not_lt hk)]; exact agrees_scalar _ _ _

/-! ### A backend one handle holds alone, through the primitives -/

variable {h : ℕ} {q : Ptr}

theorem Owns.retain (ho : s.Owns h q) (x : Option Ptr) : (s.retain x).Owns h q :=
  ⟨by rw [handle_retain]; exact ho.1, by rw [occ_retain]; exact ho.2⟩

/-- A handle's backend is live, and every element of it holds a live container. -/
theorem Counted.live_at {P : List Ptr} (hc : s.Counted P) (h : ℕ) (i : ℤ) :
    ∀ c, ((s.handle h).at s.heap i).value.container = some c → s.heap.read c ≠ none := by
  intro c hx
  unfold QJsonArray.at at hx
  split at hx
  · cases hx
  · next p hp =>
    obtain ⟨b, hb⟩ := read_of_handle hc hp
    rw [Heap.backend_of_read hb] at hx
    split at hx
    · cases hx
    · have hi : i.toNat < b.elements.length := by omega
      have hy : b.valueAt i.toNat ∈ b.elements := by
        simp [Backend.valueAt, List.getD_eq_getElem?_getD, hi]
      have := occ_pos_of_child hb (List.mem_filterMap.mpr ⟨_, hy, hx⟩)
      exact hc.read_ne_none (by omega)

end Store

/-! ### What the program reads -/

/-- What `insert` stores for a value decodes to the value's tree, Undefined as Null. -/
theorem decodes_stored {H : Heap} {v : QJsonValue} {t : Json} (hv : Decodes H v.value t) :
    Decodes H (if v.type = .undefined then .scalar .null else .fromJsonValue v) t.norm := by
  obtain ⟨x⟩ := v
  cases hv with
  | scalar s => cases s <;> exact .scalar _
  | null => exact .null
  | array hb hs => exact .array hb hs

/-- `at(i)` decodes to the private list's `at(i)`. -/
theorem decodes_at {H : Heap} {x : QJsonArray} {ts : List Json} (hx : Decodes H (.array x.a) (.array ts)) (i : ℤ) :
    Decodes H (x.at H i).value (listAt ts i) := by
  unfold QJsonArray.at listAt
  cases ha : x.a with
  | none => rw [ha] at hx; cases hx; dsimp only; split_ifs <;> exact .scalar _
  | some p =>
    rw [ha] at hx
    rcases hx with _ | _ | ⟨hb, hs⟩
    simp only [Heap.backend_of_read hb, hs.length_eq]
    by_cases hi : 0 ≤ i ∧ i < ts.length
    · rw [if_neg (by omega), if_pos hi]; exact hs.getD _
    · rw [if_pos (by omega), if_neg hi]; exact .scalar _

/-- `toArray()` decodes to the tree's items. -/
theorem decodes_toArray {H : Heap} {v : QJsonValue} {t : Json} (hv : Decodes H v.value t) :
    Decodes H (.array v.toArray.a) (.array t.toArray) := by
  obtain ⟨x⟩ := v
  cases hv with
  | scalar s => exact .null
  | null => exact .null
  | array hb hs => exact .array hb hs

theorem QJsonValue.toArray_a (v : QJsonValue) : v.toArray.a = v.value.container := by
  obtain ⟨_ | _⟩ := v <;> rfl

/-! ### The relation -/

/-- Every variable of the store decodes to its private value. -/
structure Mirrors (s : Store) (A : AStore) : Prop where
  handles_length : s.handles.length = A.handles.length
  values_length : s.values.length = A.values.length
  handle : ∀ h, Decodes s.heap (.array (s.handle h).a) (.array (A.handle h))
  value : ∀ k, Decodes s.heap (s.value k).value (A.value k)

namespace Mirrors

variable {s s' : Store} {A : AStore}

theorem init (n : ℕ) : Mirrors (Store.init n) (AStore.init n) where
  handles_length := by simp [Store.init, AStore.init]
  values_length := rfl
  handle h := by
    simp only [Store.init, AStore.init, Store.handle, AStore.handle, List.getD_eq_getElem?_getD,
      List.getElem?_replicate]
    split_ifs <;> exact .null
  value _ := .scalar _

/-- Every value a variable holds decodes. -/
theorem decodes_root (hm : Mirrors s A) {x : QCborValue} (hx : x ∈ s.roots) : ∃ t, Decodes s.heap x t := by
  rcases List.mem_append.mp hx with hx | hx
  · obtain ⟨y, hy, rfl⟩ := List.mem_map.mp hx
    obtain ⟨i, hi, rfl⟩ := List.getElem_of_mem hy
    exact ⟨_, by simpa [Store.handle, List.getD_eq_getElem?_getD, hi] using hm.handle i⟩
  · obtain ⟨v, hv, rfl⟩ := List.mem_map.mp hx
    obtain ⟨i, hi, rfl⟩ := List.getElem_of_mem hv
    exact ⟨_, by simpa [Store.value, List.getD_eq_getElem?_getD, hi] using hm.value i⟩

/-- The variables' backends keep their elements: the relation holds in the new heap. -/
theorem transport (hm : Mirrors s A) (hh : s'.handles = s.handles) (hv : s'.values = s.values)
    (ha : ∀ x ∈ s.roots, Agrees s.heap s'.heap x) : Mirrors s' A where
  handles_length := hh ▸ hm.handles_length
  values_length := hv ▸ hm.values_length
  handle h := by
    rw [show s'.handle h = s.handle h by simp [Store.handle, hh]]
    exact (hm.handle h).transport (Store.agrees_handle ha h)
  value k := by
    rw [show s'.value k = s.value k by simp [Store.value, hv]]
    exact (hm.value k).transport (Store.agrees_value ha k)

theorem retain (hm : Mirrors s A) (x : Option Ptr) : Mirrors (s.retain x) A :=
  hm.transport (Store.handles_retain s x) (Store.values_retain s x) fun y _ => (Store.keeps_retain s x).agrees y

theorem release (hm : Mirrors s A) {P Q : List Ptr} (hc : s.Counted (P ++ Q)) : Mirrors (s.release P) A :=
  hm.transport (Store.handles_release s P) (Store.values_release s P) fun _ hx => Store.agrees_release hc hx

theorem release_all (hm : Mirrors s A) {P : List Ptr} (hc : s.Counted P) : Mirrors (s.release P) A :=
  hm.release (Q := []) (by rwa [List.append_nil])

variable {h : ℕ} {ts : List Json}

theorem setHandle (hm : Mirrors s A) (hh : h < s.handles.length) {x : QJsonArray}
    (hx : Decodes s.heap (.array x.a) (.array ts)) : Mirrors (s.setHandle h x) (A.setHandle h ts) where
  handles_length := by simp [Store.setHandle, hm.handles_length]
  values_length := hm.values_length
  handle h' := by
    rw [Store.handle_setHandle hh, AStore.handle_setHandle A (hm.handles_length ▸ hh)]
    split_ifs
    · exact hx
    · exact hm.handle h'
  value := hm.value

theorem pushHandle (hm : Mirrors s A) {x : QJsonArray} (hx : Decodes s.heap (.array x.a) (.array ts)) :
    Mirrors (s.pushHandle x) (A.pushHandle ts) where
  handles_length := by simp [Store.pushHandle, hm.handles_length]
  values_length := hm.values_length
  handle h := by
    rw [Store.handle_pushHandle, AStore.handle_pushHandle, hm.handles_length]
    split_ifs
    · exact hx
    · exact hm.handle h
  value := hm.value

theorem setValue (hm : Mirrors s A) {k : ℕ} (hk : k < s.values.length) {v : QJsonValue} {t : Json}
    (hv : Decodes s.heap v.value t) : Mirrors (s.setValue k v) (A.setValue k t) where
  handles_length := hm.handles_length
  values_length := by simp [Store.setValue, hm.values_length]
  handle := hm.handle
  value k' := by
    rw [Store.value_setValue hk, AStore.value_setValue A (hm.values_length ▸ hk)]
    split_ifs
    · exact hv
    · exact hm.value k'

theorem pushValue (hm : Mirrors s A) {v : QJsonValue} {t : Json} (hv : Decodes s.heap v.value t) :
    Mirrors (s.pushValue v) (A.pushValue t) where
  handles_length := hm.handles_length
  values_length := by simp [Store.pushValue, hm.values_length]
  handle := hm.handle
  value k := by
    rw [Store.value_pushValue, AStore.value_pushValue, hm.values_length]
    split_ifs
    · exact hv
    · exact hm.value k

/-- `reset` gives the handle the private value of what it now points to. -/
theorem reset (hm : Mirrors s A) (hc : s.Counted []) (hh : h < s.handles.length) {q : Option Ptr}
    (hq : ∀ x, q = some x → s.heap.read x ≠ none) (hx : Decodes s.heap (.array q) (.array ts)) :
    Mirrors (s.reset h q) (A.setHandle h ts) := by
  unfold Store.reset
  split
  · next he =>
    have := hm.setHandle hh (x := s.handle h) (he ▸ hx)
    rwa [Store.setHandle_handle_self hh] at this
  · have c : ((s.retain q).setHandle h ⟨q⟩).Counted (s.handle h).a.toList := by
      simpa using (hc.retain hq).setHandle (x := ⟨q⟩) (by rwa [Store.handles_retain])
    exact ((hm.retain q).setHandle (by rwa [Store.handles_retain])
      (hx.keeps (Store.keeps_retain s q))).release_all c

/-- `detach` changes no private value. -/
theorem detached (hm : Mirrors s A) {s₁ : Store} {q : Ptr} (hd : Store.Detached s s₁ h q) : Mirrors s₁ A where
  handles_length := hd.length ▸ hm.handles_length
  values_length := hd.values ▸ hm.values_length
  handle h' := by
    by_cases he : h' = h
    · subst he
      obtain ⟨b, hb, hel⟩ := hd.read
      rw [hd.owns.1]
      exact .array hb (hel ▸ (decodes_handle (hm.handle h')).keeps hd.keeps)
    · rw [hd.handles h' he]; exact (hm.handle h').keeps hd.keeps
  value k := by
    rw [show s₁.value k = s.value k by simp [Store.value, hd.values]]
    exact (hm.value k).keeps hd.keeps

/-- The elements of a handle's backend decode to the handle's private list. -/
theorem elements (hm : Mirrors s A) {q : Ptr} (hq : (s.handle h).a = some q) {b : Backend}
    (hb : s.heap.read q = some b) : DecodesAll s.heap b.elements (A.handle h) := by
  have := hm.handle h
  rw [hq, decodes_array_some hb] at this
  obtain ⟨ts, he, hs⟩ := this
  cases he
  exact hs

/-- **An in-place edit of a backend one handle holds alone** changes that handle's private list,
and nothing else, provided nothing it stores reaches the backend. -/
theorem edit (hm : Mirrors s A) {q : Ptr} (ho : s.Owns h q) {b : Backend} (hb : s.heap.read q = some b)
    {xs : List QCborValue} (hxs : DecodesAll s.heap xs ts) (hnr : ∀ y ∈ xs, ¬ Reaches s.heap y q) :
    Mirrors (s.setElements q xs) (A.setHandle h ts) := by
  have hh := Store.lt_of_handle ho.1
  rw [Store.setElements_of_read hb]
  refine ⟨by simpa using hm.handles_length, by simpa using hm.values_length, fun h' => ?_, fun k => ?_⟩
  · rw [Store.handle_write, AStore.handle_setHandle A (hm.handles_length ▸ hh)]
    split_ifs with he
    · subst he
      rw [ho.1]
      exact .array (b := { b with elements := xs }) (by rw [Store.heap_write, Heap.read_set_self _ (Heap.lt_of_read hb)])
        (hxs.transport fun y hy => agrees_set (hnr y hy) _)
    · exact (hm.handle h').transport (agrees_set (ho.not_reaches_handle he) _)
  · exact (hm.value k).transport (agrees_set (ho.not_reaches_value k) _)

/-- Erasing an element of a backend the handle holds alone erases it from the private list. -/
theorem eraseIdx (hm : Mirrors s A) {q : Ptr} (ho : s.Owns h q) {b : Backend} (hb : s.heap.read q = some b)
    (i : ℕ) : Mirrors (s.setElements q (b.elements.eraseIdx i)) (A.setHandle h ((A.handle h).eraseIdx i)) :=
  hm.edit ho hb ((hm.elements ho.1 hb).eraseIdx i) fun _ hy => ho.not_reaches_elem hb (List.mem_of_mem_eraseIdx hy)

/-- **Storing a variable's value by an in-place edit**: with the container of `x` retained, an
edit `f` of the elements of a backend the handle holds alone, which stores `x` and keeps old
elements, is the edit `g` of the handle's private list. -/
theorem retain_edit (hm : Mirrors s A) {q : Ptr} (ho : s.Owns h q) {b : Backend} (hb : s.heap.read q = some b)
    {k : ℕ} {x : QCborValue} {t : Json} (hx : x = .scalar .null ∨ x = (s.value k).value)
    (hxt : Decodes s.heap x t) {f : List QCborValue → List QCborValue} {g : List Json → List Json}
    (hfg : ∀ {H xs ts}, DecodesAll H xs ts → Decodes H x t → DecodesAll H (f xs) (g ts))
    (hf : ∀ y ∈ f b.elements, y = x ∨ y ∈ b.elements) :
    Mirrors ((s.retain x.container).setElements q (f b.elements)) (A.setHandle h (g (A.handle h))) := by
  obtain ⟨b₂, hb₂, he₂⟩ := Store.read_retain_of_read x.container hb
  have ho₂ := ho.retain x.container
  have hm₂ := hm.retain x.container
  have hts := hm₂.elements ho₂.1 hb₂
  rw [he₂] at hts
  refine hm₂.edit ho₂ hb₂ (hfg hts (hxt.keeps (Store.keeps_retain s _))) fun y hy => ?_
  rcases hf y hy with rfl | hy
  · rcases hx with rfl | rfl
    · intro hr; cases hr
    · have := ho₂.not_reaches_value k
      rwa [Store.value_retain] at this
  · exact ho₂.not_reaches_elem hb₂ (he₂ ▸ hy)

end Mirrors

/-! ### What a statement can change on the heap -/

/-- Every backend live in `H'`, except perhaps the one at `q`, was live in `H` with the same
elements. -/
def Heap.Settles (H H' : Heap) (q : Option Ptr) : Prop :=
  ∀ p b', q ≠ some p → H'.read p = some b' → ∃ b, H.read p = some b ∧ b.elements = b'.elements

namespace Heap

variable {H H₁ H₂ H₃ : Heap} {q : Option Ptr}

theorem Settles.refl (H : Heap) (q : Option Ptr) : Settles H H q := fun _ b' _ hb => ⟨b', hb, rfl⟩

theorem Settles.trans (h₁ : Settles H₁ H₂ q) (h₂ : Settles H₂ H₃ q) : Settles H₁ H₃ q := by
  intro p b₃ hq hb₃
  obtain ⟨b₂, hb₂, he₂⟩ := h₂ p b₃ hq hb₃
  obtain ⟨b₁, hb₁, he₁⟩ := h₁ p b₂ hq hb₂
  exact ⟨b₁, hb₁, he₁.trans he₂⟩

theorem Settles.mono (h : Settles H H' none) (q : Option Ptr) : Settles H H' q :=
  fun p b' _ hb' => h p b' (by simp) hb'

theorem settles_set (H : Heap) (p : Ptr) (ob : Option Backend) : Settles H (H.set p ob) (some p) := by
  intro p' b' hq hb'
  rw [read_set_ne _ _ (fun he => hq (by rw [he]))] at hb'
  exact ⟨b', hb', rfl⟩

/-- A write that frees a cell, or keeps its elements, settles the heap. -/
theorem settles_set_of {p : Ptr} {ob : Option Backend}
    (hob : ∀ b', ob = some b' → ∃ b, H.read p = some b ∧ b.elements = b'.elements) :
    Settles H (H.set p ob) none := by
  intro p' b' _ hb'
  by_cases hp : p = p'
  · subst hp
    rw [read_set_self _ (by
      by_contra hl
      rw [read_eq_none_of_le (by simpa using hl)] at hb'
      cases hb')] at hb'
    exact hob b' hb'
  · rw [read_set_ne _ _ hp] at hb'
    exact ⟨b', hb', rfl⟩

end Heap

namespace Store

theorem settles_retain (s : Store) (x : Option Ptr) (q : Option Ptr) : Heap.Settles s.heap (s.retain x).heap q := by
  intro p b' _ hb'
  have := elements_retain s x p
  rw [hb'] at this
  cases h : s.heap.read p with
  | none => rw [h] at this; cases this
  | some b => rw [h] at this; exact ⟨b, rfl, (Option.some.inj this).symm⟩

theorem settles_setElements (s : Store) (p : Ptr) (xs : List QCborValue) :
    Heap.Settles s.heap (s.setElements p xs).heap (some p) := by
  unfold setElements
  split
  · exact Heap.settles_set _ _ _
  · exact Heap.Settles.refl _ _

/-- **A release frees and lowers counts only.** -/
theorem settles_release (s : Store) (P : List Ptr) : Heap.Settles s.heap (s.release P).heap none := by
  induction s, P using Store.release.induct with
  | case1 s => rw [release_nil]; exact Heap.Settles.refl _ _
  | case2 s p ps hp ih => rwa [release_cons_dead ps hp]
  | case3 s p ps b hp h1 ih =>
    rw [release_cons_free ps hp h1]
    exact (Heap.settles_set_of fun _ h => by cases h).trans ih
  | case4 s p ps b hp h1 ih =>
    rw [release_cons_drop ps hp (by omega)]
    exact (Heap.settles_set_of fun b' h => by cases h; exact ⟨b, hp, rfl⟩).trans ih

theorem settles_reset (s : Store) (h : ℕ) (q : Option Ptr) : Heap.Settles s.heap (s.reset h q).heap none := by
  unfold reset
  split
  · exact Heap.Settles.refl _ _
  · exact (settles_retain s q none).trans (settles_release _ _)

end Store

end QtJsonArray
