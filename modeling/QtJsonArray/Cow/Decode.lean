import QtJsonArray.Array.Contents

/-!
# Arrays as JSON trees

What a value stored in the heap means to the program: a JSON tree, in which every array is a
list of its own. `Decodes H x t` says that the stored value `x` is the tree `t` in heap `H`:
an array value is decoded through the backend it points to, element by element; a null
container is the empty array. The relation is a function (`Decodes.unique`), and holds only
where the backends reachable from `x` are live and hold no cycle.

`Reaches H x p` says that `x` reaches the backend `p`. A decoding depends only on the elements
of the backends `x` reaches (`Decodes.transport`), which gives the frames of the store's
primitives: one that keeps every live backend's elements keeps every decoding
(`Heap.Keeps.agrees`); a release keeps the decodings of the program's variables, because it frees
only what they do not reach (`Store.agrees_release`); and a backend held by one handle alone is
reached by nothing else (`Store.Owns.not_reaches_handle`, `Store.Owns.not_reaches_value`,
`Store.Owns.not_reaches_elem`), so an edit of it changes no other variable.
-/

namespace QtJsonArray

/-- A JSON value as the program sees it: a value with no array, or an array of its own values. -/
inductive Json where
  | scalar (s : Scalar)
  | array (items : List Json)
  deriving Repr

/-- `QJsonValue::Undefined` as a tree. -/
def Json.undefined : Json := .scalar .undefined

mutual

/-- The stored value `x` is the tree `t` in heap `H`. -/
inductive Decodes (H : Heap) : QCborValue → Json → Prop
  | scalar (s : Scalar) : Decodes H (.scalar s) (.scalar s)
  | null : Decodes H (.array none) (.array [])
  | array {p : Ptr} {b : Backend} {ts : List Json} (hb : H.read p = some b) (hs : DecodesAll H b.elements ts) :
      Decodes H (.array (some p)) (.array ts)

/-- The stored values `xs` are the trees `ts`, one by one. -/
inductive DecodesAll (H : Heap) : List QCborValue → List Json → Prop
  | nil : DecodesAll H [] []
  | cons {x : QCborValue} {xs : List QCborValue} {t : Json} {ts : List Json} :
      Decodes H x t → DecodesAll H xs ts → DecodesAll H (x :: xs) (t :: ts)

end

/-- The stored value `x` reaches the backend `p`: `x` points to it, or an element of a backend
`x` points to reaches it. -/
inductive Reaches (H : Heap) : QCborValue → Ptr → Prop
  | here (p : Ptr) : Reaches H (.array (some p)) p
  | child {p : Ptr} {b : Backend} {y : QCborValue} {q : Ptr} (hb : H.read p = some b) (hy : y ∈ b.elements)
      (hr : Reaches H y q) : Reaches H (.array (some p)) q

/-- The backends `x` reaches in `H` are live in `H'` with the same elements. -/
def Agrees (H H' : Heap) (x : QCborValue) : Prop :=
  ∀ p b, Reaches H x p → H.read p = some b → ∃ b', H'.read p = some b' ∧ b'.elements = b.elements

/-! ### Decoding -/

mutual

theorem Decodes.unique {H : Heap} {x : QCborValue} {t t' : Json} (h : Decodes H x t) (h' : Decodes H x t') :
    t = t' := by
  cases h with
  | scalar s => cases h'; rfl
  | null => cases h'; rfl
  | array hb hs =>
    cases h' with
    | array hb' hs' =>
      rw [hb] at hb'
      cases hb'
      rw [DecodesAll.unique hs hs']

theorem DecodesAll.unique {H : Heap} {xs : List QCborValue} {ts ts' : List Json} (h : DecodesAll H xs ts)
    (h' : DecodesAll H xs ts') : ts = ts' := by
  cases h with
  | nil => cases h'; rfl
  | cons hx hxs =>
    cases h' with
    | cons hx' hxs' => rw [Decodes.unique hx hx', DecodesAll.unique hxs hxs']

end

mutual

/-- **A decoding depends only on what it reaches.** -/
theorem Decodes.transport {H H' : Heap} {x : QCborValue} {t : Json} (h : Decodes H x t) (ha : Agrees H H' x) :
    Decodes H' x t := by
  cases h with
  | scalar s => exact .scalar s
  | null => exact .null
  | @array p b ts hb hs =>
    obtain ⟨b', hb', he⟩ := ha p b (.here p) hb
    refine .array hb' (he ▸ hs.transport fun y hy q c hr hc => ha q c (.child hb hy hr) hc)

theorem DecodesAll.transport {H H' : Heap} {xs : List QCborValue} {ts : List Json} (h : DecodesAll H xs ts)
    (ha : ∀ y ∈ xs, Agrees H H' y) : DecodesAll H' xs ts := by
  cases h with
  | nil => exact .nil
  | cons hx hxs =>
    exact .cons (hx.transport (ha _ (List.mem_cons_self _ _)))
      (hxs.transport fun y hy => ha y (List.mem_cons_of_mem _ hy))

end

theorem Heap.Keeps.agrees {H H' : Heap} (hk : H.Keeps H') (x : QCborValue) : Agrees H H' x :=
  fun p b _ hb => hk p b hb

theorem Decodes.keeps {H H' : Heap} {x : QCborValue} {t : Json} (h : Decodes H x t) (hk : H.Keeps H') :
    Decodes H' x t :=
  h.transport (hk.agrees x)

theorem DecodesAll.keeps {H H' : Heap} {xs : List QCborValue} {ts : List Json} (h : DecodesAll H xs ts)
    (hk : H.Keeps H') : DecodesAll H' xs ts :=
  h.transport fun y _ => hk.agrees y

theorem decodes_array_some {H : Heap} {p : Ptr} {b : Backend} (hb : H.read p = some b) {t : Json} :
    Decodes H (.array (some p)) t ↔ ∃ ts, t = .array ts ∧ DecodesAll H b.elements ts := by
  constructor
  · rintro (_ | _ | ⟨hb', hs⟩)
    rw [hb] at hb'
    cases hb'
    exact ⟨_, rfl, hs⟩
  · rintro ⟨ts, rfl, hs⟩
    exact .array hb hs

/-- A handle decodes to the list its elements decode to. -/
theorem decodes_handle {H : Heap} {x : QJsonArray} {ts : List Json} (h : Decodes H (.array x.a) (.array ts)) :
    DecodesAll H (QJsonArray.elements H x) ts := by
  unfold QJsonArray.elements
  split
  · next hx => rw [hx] at h; cases h; exact .nil
  · next p hx =>
    rw [hx] at h
    rcases h with _ | _ | ⟨hb, hs⟩
    rwa [Heap.backend_of_read hb]

/-! ### Lists of decodings -/

section DecodesAll

variable {H : Heap}

theorem DecodesAll.length_eq {xs : List QCborValue} {ts : List Json} (h : DecodesAll H xs ts) :
    xs.length = ts.length := by
  induction xs generalizing ts with
  | nil => cases h; rfl
  | cons _ _ ih => cases h with | cons _ hs => simp [ih hs]

theorem DecodesAll.insertIdx {xs : List QCborValue} {ts : List Json} (h : DecodesAll H xs ts) {x : QCborValue}
    {t : Json} (hx : Decodes H x t) (i : ℕ) : DecodesAll H (xs.insertIdx i x) (ts.insertIdx i t) := by
  induction xs generalizing ts i with
  | nil =>
    cases h
    cases i with
    | zero => exact .cons hx .nil
    | succ => exact .nil
  | cons y ys ih =>
    cases h with
    | cons hy hys =>
      cases i with
      | zero => exact .cons hx (.cons hy hys)
      | succ i => exact .cons hy (ih hys i)

theorem DecodesAll.eraseIdx {xs : List QCborValue} {ts : List Json} (h : DecodesAll H xs ts) (i : ℕ) :
    DecodesAll H (xs.eraseIdx i) (ts.eraseIdx i) := by
  induction xs generalizing ts i with
  | nil => cases h; exact .nil
  | cons y ys ih =>
    cases h with
    | cons hy hys =>
      cases i with
      | zero => exact hys
      | succ i => exact .cons hy (ih hys i)

theorem DecodesAll.set {xs : List QCborValue} {ts : List Json} (h : DecodesAll H xs ts) {x : QCborValue}
    {t : Json} (hx : Decodes H x t) (i : ℕ) : DecodesAll H (xs.set i x) (ts.set i t) := by
  induction xs generalizing ts i with
  | nil => cases h; exact .nil
  | cons y ys ih =>
    cases h with
    | cons hy hys =>
      cases i with
      | zero => exact .cons hx hys
      | succ i => exact .cons hy (ih hys i)

theorem DecodesAll.getD {xs : List QCborValue} {ts : List Json} (h : DecodesAll H xs ts) (i : ℕ) :
    Decodes H (xs.getD i (.scalar .undefined)) (ts.getD i .undefined) := by
  induction xs generalizing ts i with
  | nil => cases h; exact .scalar .undefined
  | cons y ys ih =>
    cases h with
    | cons hy hys =>
      cases i with
      | zero => exact hy
      | succ i => exact ih hys i

end DecodesAll

/-! ### Reaching -/

section Reaches

variable {H : Heap}

/-- What an element of a live backend reaches has a reference from the heap. -/
theorem refs_pos_of_reaches_elem {p q : Ptr} {b : Backend} {y : QCborValue} (hb : H.read p = some b)
    (hy : y ∈ b.elements) (hr : Reaches H y q) : 0 < H.refs q := by
  induction hr generalizing p b with
  | here q =>
    have : q ∈ children b.elements := List.mem_filterMap.mpr ⟨_, hy, rfl⟩
    have := Store.Heap.cellRefs_le_refs hb q
    have := List.count_pos_iff.mpr ‹q ∈ children b.elements›
    omega
  | child hb' hy' _ ih => exact ih hb' hy'

/-- A value reaches a backend directly, or through the heap's references to it. -/
theorem Reaches.here_or_refs {x : QCborValue} {q : Ptr} (hr : Reaches H x q) :
    x = .array (some q) ∨ 0 < H.refs q := by
  cases hr with
  | here => exact .inl rfl
  | child hb hy hr => exact .inr (refs_pos_of_reaches_elem hb hy hr)

theorem Reaches.keeps {H' : Heap} {x : QCborValue} {q : Ptr} (hr : Reaches H x q) (hk : H.Keeps H') :
    Reaches H' x q := by
  induction hr with
  | here p => exact .here p
  | child hb hy _ ih =>
    obtain ⟨b', hb', he⟩ := hk _ _ hb
    exact .child hb' (he ▸ hy) ih

/-- A write to a cell that `x` does not reach keeps what `x` reaches. -/
theorem Reaches.set {x : QCborValue} {q p₀ : Ptr} (hr : Reaches H x q) (hn : ∀ p, Reaches H x p → p ≠ p₀)
    (ob : Option Backend) : Reaches (H.set p₀ ob) x q := by
  induction hr with
  | here p => exact .here p
  | @child p b y q hb hy hr ih =>
    have hp : p ≠ p₀ := hn p (.here p)
    exact .child (by rwa [Heap.read_set_ne _ _ hp.symm]) hy (ih fun p' hp' => hn p' (.child hb hy hp'))

/-- A write elsewhere agrees on what `x` reaches, when `x` does not reach the written cell. -/
theorem agrees_set {x : QCborValue} {p₀ : Ptr} (hn : ¬ Reaches H x p₀) (ob : Option Backend) :
    Agrees H (H.set p₀ ob) x := by
  intro p b hr hb
  have hp : p ≠ p₀ := fun h => hn (h ▸ hr)
  exact ⟨b, by rwa [Heap.read_set_ne _ _ hp.symm], rfl⟩

end Reaches

/-! ### Decodings are finite trees -/

/-- A backend lies on a cycle: one of its elements reaches it back. -/
def Heap.OnCycle (H : Heap) (p : Ptr) : Prop :=
  ∃ b y, H.read p = some b ∧ y ∈ b.elements ∧ Reaches H y p

theorem DecodesAll.mem {H : Heap} {xs : List QCborValue} {ts : List Json} (h : DecodesAll H xs ts)
    {y : QCborValue} (hy : y ∈ xs) : ∃ t ∈ ts, Decodes H y t := by
  induction xs generalizing ts with
  | nil => cases hy
  | cons x xs ih =>
    cases h with
    | cons hx hxs =>
      rcases List.mem_cons.mp hy with rfl | hy
      · exact ⟨_, List.mem_cons_self _ _, hx⟩
      · obtain ⟨t, ht, hd⟩ := ih hxs hy
        exact ⟨t, List.mem_cons_of_mem _ ht, hd⟩

/-- What a value reaches decodes to a subtree of the value's tree. -/
theorem Decodes.reaches {H : Heap} {x : QCborValue} {t : Json} (hd : Decodes H x t) {p : Ptr}
    (hr : Reaches H x p) : ∃ tp, Decodes H (.array (some p)) tp ∧ sizeOf tp ≤ sizeOf t := by
  induction hr generalizing t with
  | here p => exact ⟨t, hd, le_rfl⟩
  | child hb hy _ ih =>
    obtain ⟨ts, rfl, hs⟩ := (decodes_array_some hb).mp hd
    obtain ⟨ty, hty, hdy⟩ := hs.mem hy
    obtain ⟨tp, hdp, hle⟩ := ih hdy
    have := List.sizeOf_lt_of_mem hty
    exact ⟨tp, hdp, by simp only [Json.array.sizeOf_spec]; omega⟩

/-- **A decoded value reaches no cycle**: below one of its elements, a backend decodes to a
strictly smaller tree, and decodings are unique. -/
theorem Decodes.not_onCycle {H : Heap} {x : QCborValue} {t : Json} (hd : Decodes H x t) {p : Ptr}
    (hr : Reaches H x p) : ¬ H.OnCycle p := by
  rintro ⟨b, y, hb, hy, hr'⟩
  obtain ⟨tp, hdp, -⟩ := hd.reaches hr
  obtain ⟨ts, rfl, hs⟩ := (decodes_array_some hb).mp hdp
  obtain ⟨ty, hty, hdy⟩ := hs.mem hy
  obtain ⟨tp', hdp', hle⟩ := hdy.reaches hr'
  have := List.sizeOf_lt_of_mem hty
  rw [← hdp.unique hdp', Json.array.sizeOf_spec] at hle
  omega

/-! ### The program's variables -/

namespace Store

/-- The values the program's variables hold: every handle as an array value, and every value. -/
def roots (s : Store) : List QCborValue := s.handles.map (fun x => .array x.a) ++ s.values.map (·.value)

theorem rootRefs_pos_of_root {s : Store} {q : Ptr} (hx : .array (some q) ∈ s.roots) : 0 < s.rootRefs q := by
  rcases List.mem_append.mp hx with hx | hx
  · obtain ⟨x, hx, he⟩ := List.mem_map.mp hx
    have : q ∈ s.handles.filterMap QJsonArray.a := List.mem_filterMap.mpr ⟨x, hx, by simpa using he⟩
    have := List.count_pos_iff.mpr this
    simp only [rootRefs]; omega
  · obtain ⟨v, hv, he⟩ := List.mem_map.mp hx
    exact rootRefs_pos_of_value hv (by rw [he]; rfl)

/-- What the program's variables reach is referenced. -/
theorem occ_pos_of_reaches {s : Store} {x : QCborValue} (hx : x ∈ s.roots) {q : Ptr} (hr : Reaches s.heap x q) :
    0 < s.occ q := by
  rcases hr.here_or_refs with rfl | h
  · exact occ_pos_of_rootRefs (rootRefs_pos_of_root hx)
  · simp only [occ]; omega

/-- **A release keeps what the program's variables reach**, and its elements. -/
theorem agrees_release {s : Store} {P Q : List Ptr} (hc : s.Counted (P ++ Q)) {x : QCborValue} (hx : x ∈ s.roots) :
    Agrees s.heap (s.release P).heap x := by
  induction s, P using Store.release.induct with
  | case1 s => intro p b _ hb; exact ⟨b, by simpa using hb, rfl⟩
  | case2 s p ps hp ih => have := hc.dead hp; simp at this
  | case3 s p₀ ps b₀ hp h1 ih =>
    rw [release_cons_free ps hp h1]
    have hn : ∀ p, Reaches s.heap x p → p ≠ p₀ := by
      rintro p hr rfl
      have := hc.live hp
      have := occ_pos_of_reaches hx hr
      simp at *; omega
    intro p b hr hb
    exact ih (by simpa using hc.free hp h1) hx p b (hr.set hn none)
      (by rwa [heap_write, Heap.read_set_ne _ _ (hn p hr).symm])
  | case4 s p₀ ps b₀ hp h1 ih =>
    rw [release_cons_drop ps hp (by omega)]
    have hk := keeps_write hp { b₀ with ref := b₀.ref - 1 } rfl
    intro p b hr hb
    obtain ⟨b₁, hb₁, he₁⟩ := hk p b hb
    obtain ⟨b', hb', he'⟩ := ih (hc.drop hp (by omega)) hx p b₁ (hr.keeps hk) hb₁
    exact ⟨b', hb', he'.trans he₁⟩

/-! ### A backend one handle holds alone -/

/-- Two entries of a list that both hold `q` count twice. -/
theorem two_le_count_of_ne {α : Type} (f : α → Option Ptr) (d : α) (hd : f d = none) {l : List α} {i j : ℕ}
    (hi : i < l.length) (hj : j < l.length) (hij : i ≠ j) {q : Ptr} (hfi : f l[i] = some q)
    (hfj : f l[j] = some q) : 2 ≤ (l.filterMap f).count q := by
  have hset := count_filterMap_set f l d d hj q
  have hmem : q ∈ (l.set j d).filterMap f :=
    List.mem_filterMap.mpr ⟨l[i], List.mem_iff_getElem.mpr ⟨i, by simpa using hi,
      by simp [List.getElem_set, Ne.symm hij]⟩, hfi⟩
  have := List.count_pos_iff.mpr hmem
  simp only [List.getD_eq_getElem?_getD, List.getElem?_eq_getElem hj, Option.getD_some, hfj, hd] at hset
  simp at hset
  omega

theorem count_handles_pos {s : Store} {h : ℕ} {p : Ptr} (hp : (s.handle h).a = some p) :
    0 < (s.handles.filterMap QJsonArray.a).count p := by
  have hh := lt_of_handle hp
  exact List.count_pos_iff.mpr (List.mem_filterMap.mpr ⟨s.handles[h], List.getElem_mem hh, by
    simpa [handle, List.getD_eq_getElem?_getD, hh] using hp⟩)

theorem count_values_pos {s : Store} {k : ℕ} {p : Ptr} (hp : (s.value k).value.container = some p) :
    0 < (s.values.filterMap (·.value.container)).count p := by
  have hk : k < s.values.length := by
    by_contra hk
    simp [value, List.getD_eq_getElem?_getD, List.getElem?_eq_none (Nat.le_of_not_lt hk),
      QJsonValue.undefined, QCborValue.container] at hp
  exact List.count_pos_iff.mpr (List.mem_filterMap.mpr ⟨s.values[k], List.getElem_mem hk, by
    simpa [value, List.getD_eq_getElem?_getD, hk] using hp⟩)

variable {s : Store} {h : ℕ} {q : Ptr}

theorem Owns.refs_eq_zero (ho : s.Owns h q) : s.heap.refs q = 0 := by
  have := rootRefs_pos_of_handle ho.1
  have := ho.2
  simp only [occ] at this; omega

theorem Owns.rootRefs_eq_one (ho : s.Owns h q) : s.rootRefs q = 1 := by
  have := rootRefs_pos_of_handle ho.1
  have := ho.2
  simp only [occ] at this; omega

/-- No element of a live backend reaches a backend a handle holds alone. -/
theorem Owns.not_reaches_elem (ho : s.Owns h q) {p : Ptr} {b : Backend} (hb : s.heap.read p = some b)
    {y : QCborValue} (hy : y ∈ b.elements) : ¬ Reaches s.heap y q := fun hr => by
  have := refs_pos_of_reaches_elem hb hy hr
  rw [ho.refs_eq_zero] at this
  omega

/-- No other handle reaches a backend a handle holds alone. -/
theorem Owns.not_reaches_handle (ho : s.Owns h q) {h' : ℕ} (hne : h' ≠ h) :
    ¬ Reaches s.heap (.array (s.handle h').a) q := fun hr => by
  rcases hr.here_or_refs with he | hpos
  · have hh := lt_of_handle ho.1
    have hh' : (s.handle h').a = some q := by simpa using he
    have hl' := lt_of_handle hh'
    have := two_le_count_of_ne QJsonArray.a ⟨none⟩ rfl hl' hh hne
      (by simpa [handle, List.getD_eq_getElem?_getD, hl'] using hh')
      (by simpa [handle, List.getD_eq_getElem?_getD, hh] using ho.1)
    have := ho.rootRefs_eq_one
    simp only [rootRefs] at this; omega
  · rw [ho.refs_eq_zero] at hpos; omega

/-- No value reaches a backend a handle holds alone. -/
theorem Owns.not_reaches_value (ho : s.Owns h q) (k : ℕ) : ¬ Reaches s.heap (s.value k).value q := fun hr => by
  rcases hr.here_or_refs with he | hpos
  · have := count_values_pos (k := k) (p := q) (by rw [he]; rfl)
    have := count_handles_pos ho.1
    have := ho.rootRefs_eq_one
    simp only [rootRefs] at this; omega
  · rw [ho.refs_eq_zero] at hpos; omega

end Store

end QtJsonArray
