import QtJsonArray.Array.Edit

/-!
# What an array shows

`contents` is an array as its read members show it, `[at(0), ..., at(size() - 1)]`: the stored
elements, each handed out by `fromTrustedCbor`. A null handle and a handle on an empty backend
both show `[]`.

Every mutating member, with allocation succeeding, acts on the contents as a list operation:
`insert` inserts the value (Undefined as Null), `removeAt` erases, `takeAt` erases and returns
what `at` returned, `replace` sets. `ArrayOp.spec` is that list reading of a call, and
`run_refines` says that a whole sequence of calls on one handle refines it: what the program
sees depends on the handle's contents and the program's values only, so a null handle and one
on an empty backend cannot be told apart.
-/

namespace QtJsonArray

theorem map_insertIdx {α β : Type} (f : α → β) (l : List α) (i : ℕ) (x : α) :
    (l.insertIdx i x).map f = (l.map f).insertIdx i (f x) := by
  induction l generalizing i with
  | nil => cases i <;> rfl
  | cons a l ih => cases i <;> simp [List.insertIdx_succ_cons, ih]

theorem map_eraseIdx {α β : Type} (f : α → β) (l : List α) (i : ℕ) :
    (l.eraseIdx i).map f = (l.map f).eraseIdx i := by
  induction l generalizing i with
  | nil => rfl
  | cons a l ih => cases i <;> simp [ih]

namespace Store

/-- A value the program holds refers to a live backend. -/
theorem Counted.live_value {s : Store} {P : List Ptr} (hc : s.Counted P) (k : ℕ) :
    ∀ c, (s.value k).value.container = some c → s.heap.read c ≠ none := by
  intro c hk
  by_cases hl : k < s.values.length
  · have hv : s.value k ∈ s.values := by
      simp [value, List.getD_eq_getElem?_getD, hl]
    exact hc.read_ne_none (by have := occ_pos_of_rootRefs (rootRefs_pos_of_value hv hk); omega)
  · simp [value, List.getD_eq_getElem?_getD, List.getElem?_eq_none (Nat.le_of_not_lt hl)] at hk
    cases hk

end Store

open Store

/-- The value `insert` stores in place of `v`: Undefined as Null, any other value as it is. -/
def QJsonValue.norm (v : QJsonValue) : QJsonValue := if v.type = .undefined then .null else v

/-- A value stored in a backend and read back: `QCborValue::fromJsonValue`, then
`fromTrustedCbor`, as `insert` and `at` do. -/
def QJsonValue.rt (v : QJsonValue) : QJsonValue := .fromTrustedCbor (.fromJsonValue v)

/-- What `insert` stores for `v`, read back, is `rt (norm v)`. -/
theorem QJsonValue.fromTrustedCbor_stored (v : QJsonValue) :
    QJsonValue.fromTrustedCbor (if v.type = .undefined then .scalar .null else .fromJsonValue v) = v.norm.rt := by
  unfold norm rt; split <;> rfl

namespace QJsonArray

/-- The array as its read members show it: `[at(0), ..., at(size() - 1)]`. -/
def contents (H : Heap) (x : QJsonArray) : List QJsonValue :=
  (List.range (x.size H).toNat).map fun i : ℕ => x.at H (i : ℤ)

theorem at_eq (H : Heap) (x : QJsonArray) (i : ℤ) :
    x.at H i = if 0 ≤ i ∧ i < ((elements H x).length : ℤ) then
      .fromTrustedCbor ((elements H x).getD i.toNat (.scalar .undefined)) else .undefined := by
  unfold QJsonArray.at elements
  split
  · rw [if_neg (by rw [List.length_nil]; omega)]
  · simp only [Backend.valueAt]
    split_ifs <;> first | rfl | omega

theorem contents_eq (H : Heap) (x : QJsonArray) : contents H x = (elements H x).map .fromTrustedCbor := by
  unfold contents
  rw [size_eq]
  apply List.ext_getElem
  · simp
  · intro n h₁ h₂
    have hn : n < (elements H x).length := by simpa using h₂
    rw [List.getElem_map, List.getElem_map, List.getElem_range, at_eq, if_pos (by omega)]
    simp [hn]

theorem length_contents (H : Heap) (x : QJsonArray) : (contents H x).length = (elements H x).length := by
  simp [contents_eq]

/-- `at(i)` reads the contents, and is Undefined out of range. -/
theorem at_eq_contents (H : Heap) (x : QJsonArray) (i : ℤ) :
    x.at H i = if 0 ≤ i ∧ i < x.size H then (contents H x).getD i.toNat .undefined else .undefined := by
  rw [at_eq, size_eq]
  split
  · next hi =>
    rw [contents_eq, List.getD_eq_getElem?_getD, List.getD_eq_getElem?_getD, List.getElem?_map]
    have : i.toNat < (elements H x).length := by omega
    simp [this]
  · rfl

theorem isEmpty_iff (H : Heap) (x : QJsonArray) : x.isEmpty H = true ↔ x.size H = 0 := by
  unfold isEmpty size
  split
  · simp
  · rw [List.isEmpty_iff_length_eq_zero]; omega

theorem last_eq (H : Heap) (x : QJsonArray) : x.last H = x.at H (x.size H - 1) := by
  cases hx : x.a with
  | none => simp [last, size, QJsonArray.at, hx]
  | some p => simp [last, size, hx]

theorem contains_iff (eq : QJsonValue → QJsonValue → Bool) (H : Heap) (x : QJsonArray) (v : QJsonValue) :
    x.contains eq H v = true ↔ ∃ e ∈ contents H x, eq e v = true := by
  simp only [contains, contents, List.any_eq_true, List.mem_range, List.mem_map]
  constructor
  · rintro ⟨i, hi, he⟩; exact ⟨_, ⟨i, hi, rfl⟩, he⟩
  · rintro ⟨_, ⟨i, hi, rfl⟩, he⟩; exact ⟨i, hi, he⟩

/-! ### The mutating members on the contents -/

theorem contents_of_elements {H H' : Heap} {x x' : QJsonArray} {f : List QCborValue → List QCborValue}
    {g : List QJsonValue → List QJsonValue} (hfg : ∀ l, (f l).map .fromTrustedCbor = g (l.map .fromTrustedCbor))
    (he : elements H' x' = f (elements H x)) : contents H' x' = g (contents H x) := by
  rw [contents_eq, contents_eq, he, hfg]

variable {s : Store} {h : ℕ}

theorem insert_out (hc : s.Counted []) (hh : h < s.handles.length) {i : ℤ}
    (hi : ¬(0 ≤ i ∧ i ≤ ((elements s.heap (s.handle h)).length : ℤ))) (v : QJsonValue) :
    insert true s h i v = .error .assertion := by
  obtain ⟨q, -, he⟩ := insert_true hc hh i v
  rw [he, if_neg hi]

/-- In range, `insert` puts the value's reading into the contents at `i`. -/
theorem insert_contents (hc : s.Counted []) (hh : h < s.handles.length) {i : ℤ}
    (hi : 0 ≤ i ∧ i ≤ ((elements s.heap (s.handle h)).length : ℤ)) (v : QJsonValue) :
    ∃ s', insert true s h i v = .ok s' ∧
      contents s'.heap (s'.handle h) = (contents s.heap (s.handle h)).insertIdx i.toNat v.norm.rt ∧
      h < s'.handles.length ∧ s'.values = s.values ∧
      ((∀ c, v.value.container = some c → s.heap.read c ≠ none) → s'.Counted []) := by
  obtain ⟨s', he, hel, hl, hvs, hc'⟩ := insert_spec hc hh hi v
  exact ⟨s', he, contents_of_elements (fun l => by rw [map_insertIdx, QJsonValue.fromTrustedCbor_stored]) hel,
    hl ▸ hh, hvs, hc'⟩

theorem replace_out (alloc : Bool) {i : ℤ} (hi : ¬(0 ≤ i ∧ i < ((elements s.heap (s.handle h)).length : ℤ)))
    (v : QJsonValue) : replace alloc s h i v = .error .assertion := by
  unfold replace elements at *
  split <;> simp_all

theorem contents_pushValue (v : QJsonValue) :
    contents (s.pushValue v).heap ((s.pushValue v).handle h) = contents s.heap (s.handle h) := rfl

end QJsonArray

/-- The mutating members of `QJsonArray` on one handle, each value argument one of the program's
`QJsonValue` variables. -/
inductive ArrayOp where
  | insert (i : ℤ) (k : ℕ)
  | append (k : ℕ)
  | prepend (k : ℕ)
  | removeAt (i : ℤ)
  | takeAt (i : ℤ)
  | replace (i : ℤ) (k : ℕ)
  deriving DecidableEq, Repr

namespace ArrayOp

open QJsonArray

/-- The call on handle `h`, with allocation succeeding, and what it returns (`takeAt`'s value,
kept in a new variable; Undefined for the others). -/
def apply (s : Store) (h : ℕ) : ArrayOp → Except Fault (Store × QJsonValue)
  | .insert i k => (QJsonArray.insert true s h i (s.value k)).map (·, .undefined)
  | .append k => (QJsonArray.append true s h (s.value k)).map (·, .undefined)
  | .prepend k => (QJsonArray.prepend true s h (s.value k)).map (·, .undefined)
  | .removeAt i => (QJsonArray.removeAt true s h i).map (·, .undefined)
  | .takeAt i => (QJsonArray.takeAt true s h i).map fun r => (r.1.pushValue r.2, r.2)
  | .replace i k => (QJsonArray.replace true s h i (s.value k)).map (·, .undefined)

/-- A call as a list operation on the contents `c` and the values `vals`: what the contents and
the values become, and what the call returns. -/
def spec (c vals : List QJsonValue) : ArrayOp → Except Fault (List QJsonValue × List QJsonValue × QJsonValue)
  | .insert i k =>
    if 0 ≤ i ∧ i ≤ (c.length : ℤ) then .ok (c.insertIdx i.toNat (vals.getD k .undefined).norm.rt, vals, .undefined)
    else .error .assertion
  | .append k => .ok (c ++ [(vals.getD k .undefined).norm.rt], vals, .undefined)
  | .prepend k => .ok ((vals.getD k .undefined).norm.rt :: c, vals, .undefined)
  | .removeAt i => .ok (if 0 ≤ i ∧ i < (c.length : ℤ) then c.eraseIdx i.toNat else c, vals, .undefined)
  | .takeAt i =>
    if 0 ≤ i ∧ i < (c.length : ℤ) then
      .ok (c.eraseIdx i.toNat, vals ++ [c.getD i.toNat .undefined], c.getD i.toNat .undefined)
    else .ok (c, vals ++ [.undefined], .undefined)
  | .replace i k =>
    if 0 ≤ i ∧ i < (c.length : ℤ) then .ok (c.set i.toNat (vals.getD k .undefined).rt, vals, .undefined)
    else .error .assertion

/-- Calls one after another on handle `h`, up to the first fault; the values they return. -/
def run (s : Store) (h : ℕ) : List ArrayOp → Except Fault (Store × List QJsonValue)
  | [] => .ok (s, [])
  | op :: ops =>
    match op.apply s h with
    | .error f => .error f
    | .ok (s', v) =>
      match run s' h ops with
      | .error f => .error f
      | .ok (s'', vs) => .ok (s'', v :: vs)

/-- A sequence of calls as list operations: the final contents and the values returned. -/
def runSpec (c vals : List QJsonValue) : List ArrayOp → Except Fault (List QJsonValue × List QJsonValue)
  | [] => .ok (c, [])
  | op :: ops =>
    match spec c vals op with
    | .error f => .error f
    | .ok (c', vals', v) =>
      match runSpec c' vals' ops with
      | .error f => .error f
      | .ok (c'', vs) => .ok (c'', v :: vs)

/-- What the program sees after a run: the handle's contents and the returned values. -/
def observe (h : ℕ) (r : Store × List QJsonValue) : List QJsonValue × List QJsonValue :=
  (contents r.1.heap (r.1.handle h), r.2)

variable {s : Store} {h : ℕ}

/-- A call that leaves the store `s'`, with exact counts and the handle declared, keeps both. -/
theorem counted_of_map_ok {x : Except Fault Store} {s' : Store} (he : x = .ok s') (hc' : s'.Counted [])
    (hh' : h < s'.handles.length) :
    ∀ r, x.map (·, QJsonValue.undefined) = .ok r → r.1.Counted [] ∧ h < r.1.handles.length := by
  rintro r hr
  rw [he] at hr
  cases hr
  exact ⟨hc', hh'⟩

/-- One call refines its reading on the contents, and keeps the counts exact. -/
theorem apply_spec (hc : s.Counted []) (hh : h < s.handles.length) (op : ArrayOp) :
    (op.apply s h).map (fun r => (contents r.1.heap (r.1.handle h), r.1.values, r.2)) =
        spec (contents s.heap (s.handle h)) s.values op ∧
      ∀ r, op.apply s h = .ok r → r.1.Counted [] ∧ h < r.1.handles.length := by
  have hlen := length_contents s.heap (s.handle h)
  have hv := hc.live_value
  cases op with
  | insert i k =>
    by_cases hi : 0 ≤ i ∧ i ≤ ((elements s.heap (s.handle h)).length : ℤ)
    · obtain ⟨s', he, hct, hh', hvs, hc'⟩ := insert_contents hc hh hi (s.value k)
      refine ⟨?_, counted_of_map_ok he (hc' (hv k)) hh'⟩
      simp only [apply, he, spec, hlen, if_pos hi, Except.map, hvs, hct]; rfl
    · simp [apply, insert_out hc hh hi, spec, hlen, hi, Except.map]
  | append k =>
    have hi : (0 : ℤ) ≤ (s.handle h).size s.heap ∧ (s.handle h).size s.heap ≤ ((elements s.heap (s.handle h)).length : ℤ) := by
      rw [size_eq]; omega
    obtain ⟨s', he, hct, hh', hvs, hc'⟩ := insert_contents hc hh hi (s.value k)
    refine ⟨?_, counted_of_map_ok he (hc' (hv k)) hh'⟩
    simp only [apply, QJsonArray.append, he, spec, Except.map, hvs, hct]
    rw [size_eq, Int.toNat_ofNat, ← hlen, List.insertIdx_length_self]; rfl
  | prepend k =>
    obtain ⟨s', he, hct, hh', hvs, hc'⟩ := insert_contents hc hh (i := 0) (by omega) (s.value k)
    refine ⟨?_, counted_of_map_ok he (hc' (hv k)) hh'⟩
    simp only [apply, QJsonArray.prepend, he, spec, Except.map, hvs, hct]; rfl
  | removeAt i =>
    by_cases hi : 0 ≤ i ∧ i < ((elements s.heap (s.handle h)).length : ℤ)
    · obtain ⟨s', he, hel, hl, hvs, hc'⟩ := removeAt_spec hc hi
      refine ⟨?_, counted_of_map_ok he hc' (hl ▸ hh)⟩
      simp only [apply, he, spec, hlen, if_pos hi, Except.map, hvs]
      rw [contents_of_elements (g := fun l => l.eraseIdx i.toNat) (fun l => map_eraseIdx _ l _) hel]
    · replace hi : i < 0 ∨ ((elements s.heap (s.handle h)).length : ℤ) ≤ i := by omega
      refine ⟨?_, counted_of_map_ok (removeAt_out true hi) hc hh⟩
      simp only [apply, removeAt_out true hi, spec, hlen, Except.map]
      rw [if_neg (by omega)]
  | takeAt i =>
    by_cases hi : 0 ≤ i ∧ i < ((elements s.heap (s.handle h)).length : ℤ)
    · obtain ⟨s', v, he, hv', hel, hl, hvs, hc'⟩ := takeAt_spec hc hi
      have hget : v = (contents s.heap (s.handle h)).getD i.toNat .undefined := by
        rw [hv', contents_eq, List.getD_eq_getElem?_getD, List.getD_eq_getElem?_getD, List.getElem?_map]
        simp [show i.toNat < (elements s.heap (s.handle h)).length by omega]
      refine ⟨?_, fun r hr => ?_⟩
      · simp only [apply, he, spec, hlen, if_pos hi, Except.map, contents_pushValue]
        rw [contents_of_elements (g := fun l => l.eraseIdx i.toNat) (fun l => map_eraseIdx _ l _) hel, ← hget]
        simp [Store.pushValue, hvs]
      · simp only [apply, he, Except.map, Except.ok.injEq] at hr
        subst hr; exact ⟨Counted.pushValue (by simpa using hc'), by simpa [Store.pushValue, hl] using hh⟩
    · replace hi : i < 0 ∨ ((elements s.heap (s.handle h)).length : ℤ) ≤ i := by omega
      simp only [apply, takeAt_out true hi, spec, hlen, Except.map]
      refine ⟨by rw [if_neg (by omega)]; simp only [contents_pushValue]; rfl, fun r hr => ?_⟩
      simp only [Except.ok.injEq] at hr
      subst hr
      exact ⟨Counted.pushValue (by simpa using hc), by simpa [Store.pushValue] using hh⟩
  | replace i k =>
    by_cases hi : 0 ≤ i ∧ i < ((elements s.heap (s.handle h)).length : ℤ)
    · obtain ⟨s', he, hel, hl, hvs, hc'⟩ := replace_spec hc hi (hv k)
      refine ⟨?_, counted_of_map_ok he hc' (hl ▸ hh)⟩
      simp only [apply, he, spec, hlen, if_pos hi, Except.map, hvs]
      rw [contents_of_elements (g := fun l => l.set i.toNat (s.value k).rt) (fun l => by rw [List.map_set]; rfl) hel]
      rfl
    · simp [apply, replace_out true hi, spec, hlen, hi, Except.map]

/-- **A run of calls on one handle refines its reading on the contents.** -/
theorem run_refines (hc : s.Counted []) (hh : h < s.handles.length) (ops : List ArrayOp) :
    (run s h ops).map (observe h) = runSpec (contents s.heap (s.handle h)) s.values ops := by
  induction ops generalizing s with
  | nil => rfl
  | cons op ops ih =>
    obtain ⟨hspec, hinv⟩ := apply_spec hc hh op
    cases ha : op.apply s h with
    | error f =>
      rw [ha] at hspec
      simp only [run, runSpec, ha, ← hspec]
      rfl
    | ok r =>
      rw [ha] at hspec
      obtain ⟨hc', hh'⟩ := hinv r ha
      have ih' := ih hc' hh'
      simp only [run, runSpec, ha, ← hspec, Except.map] at ih' ⊢
      cases hr : run r.1 h ops <;> (rw [hr] at ih'; rw [← ih'])
      rfl

end ArrayOp

namespace QJsonArray

open Store ArrayOp

/-- **The array's members on its contents.** The read members read the contents (a null handle
reads as empty), and with allocation succeeding each mutating member acts on the contents as
the list operation the spec names; over any sequence of calls what the program sees depends on
the handle's contents and the program's values only. -/
theorem contents_laws :
    (∀ (H : Heap) (x : QJsonArray),
      x.size H = ((contents H x).length : ℤ) ∧ (x.isEmpty H = true ↔ x.size H = 0) ∧
      (∀ i : ℤ, x.at H i = if 0 ≤ i ∧ i < x.size H then (contents H x).getD i.toNat .undefined
        else .undefined) ∧
      x.first H = x.at H 0 ∧ x.last H = x.at H (x.size H - 1) ∧
      (∀ eq v, x.contains eq H v = true ↔ ∃ e ∈ contents H x, eq e v = true)) ∧
    (∀ (s : Store) (h : ℕ), s.Counted [] → h < s.handles.length →
      (∀ (i : ℤ) (v : QJsonValue), 0 ≤ i → i ≤ (s.handle h).size s.heap →
        ∃ s', insert true s h i v = .ok s' ∧
          contents s'.heap (s'.handle h) = (contents s.heap (s.handle h)).insertIdx i.toNat v.norm.rt) ∧
      (∀ v, append true s h v = insert true s h ((s.handle h).size s.heap) v ∧
        prepend true s h v = insert true s h 0 v) ∧
      (∀ i : ℤ, ∃ s', removeAt true s h i = .ok s' ∧
        contents s'.heap (s'.handle h) = if 0 ≤ i ∧ i < (s.handle h).size s.heap then
          (contents s.heap (s.handle h)).eraseIdx i.toNat else contents s.heap (s.handle h)) ∧
      (∀ i : ℤ, ∃ s₁ v s₂, takeAt true s h i = .ok (s₁, v) ∧ v = (s.handle h).at s.heap i ∧
        removeAt true s h i = .ok s₂ ∧ contents s₁.heap (s₁.handle h) = contents s₂.heap (s₂.handle h)) ∧
      (∀ (i : ℤ) (v : QJsonValue), 0 ≤ i → i < (s.handle h).size s.heap →
        (∀ c, v.value.container = some c → s.heap.read c ≠ none) →
        ∃ s', replace true s h i v = .ok s' ∧
          contents s'.heap (s'.handle h) = (contents s.heap (s.handle h)).set i.toNat v.rt) ∧
      (∀ ops, (run s h ops).map (observe h) = runSpec (contents s.heap (s.handle h)) s.values ops) ∧
      (∀ t : Store, t.Counted [] → h < t.handles.length → t.values = s.values →
        contents t.heap (t.handle h) = contents s.heap (s.handle h) →
        ∀ ops, (run t h ops).map (observe h) = (run s h ops).map (observe h))) := by
  refine ⟨fun H x => ⟨by rw [size_eq, length_contents], isEmpty_iff H x, at_eq_contents H x, rfl, last_eq H x,
    fun eq v => contains_iff eq H x v⟩, fun s h hc hh => ⟨?_, fun v => ⟨rfl, rfl⟩, ?_, ?_, ?_,
    run_refines hc hh, fun t hct hht hv hct' ops => by rw [run_refines hc hh, run_refines hct hht, hv, hct']⟩⟩
  · -- insert
    intro i v h0 hi
    rw [size_eq] at hi
    obtain ⟨s', he, hct, -⟩ := insert_contents hc hh ⟨h0, hi⟩ v
    exact ⟨s', he, hct⟩
  · -- removeAt
    intro i
    rw [size_eq, ← length_contents]
    split
    · next hi =>
      rw [length_contents] at hi
      obtain ⟨s', he, hel, -⟩ := removeAt_spec hc hi
      exact ⟨s', he, contents_of_elements (g := fun l => l.eraseIdx i.toNat) (fun l => map_eraseIdx _ l _) hel⟩
    · exact ⟨s, removeAt_out true (by rw [← length_contents]; omega), rfl⟩
  · -- takeAt
    intro i
    by_cases hi : 0 ≤ i ∧ i < ((elements s.heap (s.handle h)).length : ℤ)
    · obtain ⟨s₁, v, he, hv, hel, -⟩ := takeAt_spec hc hi
      obtain ⟨s₂, he₂, hel₂, -⟩ := removeAt_spec hc hi
      refine ⟨s₁, v, s₂, he, by rw [hv, at_eq, if_pos hi], he₂, ?_⟩
      rw [contents_eq, contents_eq, hel, hel₂]
    · have hi' : i < 0 ∨ ((elements s.heap (s.handle h)).length : ℤ) ≤ i := by omega
      exact ⟨s, _, s, takeAt_out true hi', by rw [at_eq, if_neg hi], removeAt_out true hi', rfl⟩
  · -- replace
    intro i v h0 hi hv
    rw [size_eq] at hi
    obtain ⟨s', he, hel, -⟩ := replace_spec hc ⟨h0, hi⟩ hv
    exact ⟨s', he, contents_of_elements (g := fun l => l.set i.toNat v.rt) (fun l => by rw [List.map_set]; rfl) hel⟩

/-- One null handle: appending Null shows `[Null]`. -/
theorem contents_laws_init :
    (Store.init 1).Counted [] ∧ 0 < (Store.init 1).handles.length ∧
      ∃ s', insert true (Store.init 1) 0 0 .null = .ok s' ∧ contents s'.heap (s'.handle 0) = [.null] := by
  have hc := counted_init 1
  have hh : 0 < (Store.init 1).handles.length := by decide
  obtain ⟨s', he, hel⟩ := (contents_laws.2 (Store.init 1) 0 hc hh).1 0 .null (by decide) (by decide)
  exact ⟨hc, hh, s', he, by rw [hel]; rfl⟩

end QJsonArray

end QtJsonArray
