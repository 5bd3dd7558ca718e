import QtJsonArray.Cow.Lifetime

/-!
# Arrays built from a list

`QJsonArray(std::initializer_list<QJsonValue> args)` and `QJsonArray::fromStringList(list)` both
start from a null array and `append` the values one by one. Nothing but the array being built
holds its backend: the first `append` gives the null array a new backend, of count one, and
every later `append` finds the count one and edits in place. So building an array never clones,
and a failed clone allocation cannot stop it.

## What is proved

* `Builds s₀ s h`: what appending to a handle that was null in `s₀` keeps from `s₀`; it holds at
  the start (`Builds.init`) and one `append` keeps it, whichever way allocation goes
  (`Builds.append`).
* `appendEach_builds`: the whole loop, by induction on the values.
* `ofInitializerList_spec` and `fromStringList_spec`: both succeed whichever allocations fail,
  with exact counts, the values as contents (Undefined as Null), every other variable and every
  backend as it was, and one backend allocated, none for an empty list, which leaves the array
  null.
* `ofInitializerList_refines`: after any program in scope, the array built from value variables
  shows the private list of their trees, and every other variable what it showed.
-/

namespace QtJsonArray

open Store QJsonArray

namespace QJsonArray

/-- The loop of `QJsonArray(std::initializer_list<QJsonValue>)`: each value is appended in turn
to handle `h`, the `m`-th `append` finding its clone allocation succeed as `alloc m` says; the
first fault ends it. -/
def appendEach (alloc : ℕ → Bool) (s : Store) (h : ℕ) : List QJsonValue → Except Fault Store
  | [] => .ok s
  | v :: vs =>
    match append (alloc 0) s h v with
    | .ok s₁ => appendEach (fun m => alloc (m + 1)) s₁ h vs
    | .error e => .error e

/-- `QJsonArray(std::initializer_list<QJsonValue> args)`: a new array, its `a` null, declared as
the store's next handle, then `for (const auto & arg : args) append(arg);`. -/
def ofInitializerList (alloc : ℕ → Bool) (s : Store) (args : List QJsonValue) : Except Fault Store :=
  appendEach alloc (s.pushHandle ⟨none⟩) s.handles.length args

/-- `QJsonArray::fromStringList(list)`: `QJsonArray array;`, then `array.append(QJsonValue(*it))`
for each string, and `return array`, the store's next handle. -/
def fromStringList (alloc : ℕ → Bool) (s : Store) (list : List String) : Except Fault Store :=
  appendEach alloc (s.pushHandle ⟨none⟩) s.handles.length (list.map fun t => ⟨.scalar (.string t)⟩)

end QJsonArray

namespace Store

variable {s : Store} {h : ℕ} {q : Ptr} {b : Backend}

theorem read_setElements_ne (s : Store) {p q : Ptr} (hne : q ≠ p) (xs : List QCborValue) :
    (s.setElements q xs).heap.read p = s.heap.read p := by
  unfold setElements
  split <;> simp [Heap.read_set_ne _ _ hne]

/-- An insertion into a backend that was not live in `H` keeps every backend of `H`. -/
theorem keeps_insertAt {H : Heap} (hk : H.Keeps s.heap) (hq : H.read q = none) (idx : ℕ) (x : QCborValue) :
    H.Keeps (s.insertAt q idx x).heap := by
  intro p b hb
  have hne : q ≠ p := by rintro rfl; rw [hq] at hb; cases hb
  obtain ⟨b', hb', he⟩ := (hk.trans (keeps_retain s x.container)) p b hb
  exact ⟨b', by rw [Store.insertAt, read_setElements_ne _ hne]; exact hb', he⟩

/-- Inserting a value that does not hold `q` into `q` keeps `q` held alone. -/
theorem Owns.insertAt (ho : s.Owns h q) (hb : s.heap.read q = some b) {idx : ℕ} (hi : idx ≤ b.elements.length)
    {x : QCborValue} (hx : x.container ≠ some q) : (s.insertAt q idx x).Owns h q := by
  obtain ⟨b', hb', he⟩ := read_retain_of_read x.container hb
  have ho' := (s.retain x.container).occ_setElements hb' (b.elements.insertIdx idx x) q
  have hx₀ : x.container.toList.count q = 0 := List.count_eq_zero.mpr fun hm => hx (by simpa using hm)
  rw [he, count_children_insertIdx x hi, occ_retain, ho.2] at ho'
  exact ⟨by rw [handle_insertAt]; exact ho.1, by rw [insertAt_eq hb]; omega⟩

end Store

/-! ### The array under construction -/

/-- What appending to handle `h`, null in `s₀`, keeps from `s₀`: exact counts; `h` still null with
nothing allocated, or the only holder of the one backend allocated since, at `s₀`'s next address;
every other handle, every value and every backend live in `s₀` as they were. -/
structure Builds (s₀ s : Store) (h : ℕ) : Prop where
  counted : s.Counted []
  owner : ((s.handle h).a = none ∧ s.heap.length = s₀.heap.length) ∨
    (s.Owns h s₀.heap.length ∧ s.heap.length = s₀.heap.length + 1)
  keeps : s₀.heap.Keeps s.heap
  handles : ∀ h', h' ≠ h → s.handle h' = s₀.handle h'
  length : s.handles.length = s₀.handles.length
  values : s.values = s₀.values

namespace Builds

variable {s₀ s : Store} {h : ℕ}

theorem init (hc : s.Counted []) (hp : (s.handle h).a = none) : Builds s s h :=
  ⟨hc, .inl ⟨hp, rfl⟩, Heap.Keeps.refl _, fun _ _ => rfl, rfl, rfl⟩

/-- The first step of `append` clones nothing: it creates the backend for a null handle, and keeps
the one the handle holds alone. -/
theorem detachOrCreate (hb : Builds s₀ s h) (hh : h < s₀.handles.length) (alloc : Bool) :
    Detached s (detachOrCreate alloc s h) h s₀.heap.length ∧
      (detachOrCreate alloc s h).heap.length = s₀.heap.length + 1 := by
  rcases hb.owner with ⟨hp, hl⟩ | ⟨ho, hl⟩
  · rw [← hl]
    exact ⟨detached_create hb.counted (hb.length ▸ hh) hp alloc, by simp [QJsonArray.detachOrCreate, hp]⟩
  · obtain ⟨b, hbq⟩ := read_of_handle hb.counted ho.1
    have h1 : b.ref = 1 := by simpa [ho.2] using hb.counted.live hbq
    have hd : QJsonArray.detachOrCreate alloc s h = s := by
      simp [QJsonArray.detachOrCreate, ho.1, detach_of_ref_one alloc ho.1 hbq h1]
    rw [hd]
    exact ⟨detached_self hb.counted ho, hl⟩

/-- **One `append` keeps the array under construction**, whichever way allocation goes, and puts
the value's reading at the end of the contents. -/
theorem append (hb : Builds s₀ s h) (hh : h < s₀.handles.length) (alloc : Bool) {v : QJsonValue}
    (hv : ∀ c, v.value.container = some c → s₀.heap.read c ≠ none) :
    ∃ s', QJsonArray.append alloc s h v = .ok s' ∧ Builds s₀ s' h ∧
      contents s'.heap (s'.handle h) = contents s.heap (s.handle h) ++ [v.norm.rt] := by
  obtain ⟨hd, hl⟩ := hb.detachOrCreate hh alloc
  obtain ⟨b, hbq, hel⟩ := hd.read
  generalize hx : (if v.type = .undefined then QCborValue.scalar .null else .fromJsonValue v) = x
  have hx₀ : ∀ c, x.container = some c → s₀.heap.read c ≠ none := by
    rw [← hx]; split
    · intro c hc; cases hc
    · exact hv
  have hxq : x.container ≠ some s₀.heap.length := fun hc => hx₀ _ hc (Heap.read_eq_none_of_le le_rfl)
  have hi : (elements s.heap (s.handle h)).length ≤ b.elements.length := (congrArg List.length hel).ge
  obtain ⟨b', hb', he'⟩ := read_insertAt_self hbq (elements s.heap (s.handle h)).length x
  refine ⟨_, ?_, ⟨?_, .inr ⟨hd.owns.insertAt hbq hi hxq, by simp [hl]⟩, keeps_insertAt (hb.keeps.trans hd.keeps)
    (Heap.read_eq_none_of_le le_rfl) _ _, fun h' hne => ?_, by simp [hd.length, hb.length],
    by simp [hd.values, hb.values]⟩, ?_⟩
  · rw [QJsonArray.append, size_eq, insert_of_detached hd.owns.1 hd.elements, if_pos (by omega), hx, Int.toNat_ofNat]
  · exact hd.counted.insertAt hbq hi fun c hc => (hb.keeps.trans hd.keeps).live (hx₀ c hc)
  · rw [handle_insertAt, hd.handles h' hne, hb.handles h' hne]
  · refine contents_of_elements (f := (· ++ [x])) (g := (· ++ [v.norm.rt])) (fun l => by simp [← hx, QJsonValue.fromTrustedCbor_stored]) ?_
    rw [handle_insertAt, elements_of_a hd.owns.1, Heap.backend_of_read hb', he', ← hel, List.insertIdx_length_self]

end Builds

namespace QJsonArray

variable {s₀ s : Store} {h : ℕ}

/-- **The loop of appends keeps the array under construction**, whichever allocations fail, and
puts the values' readings at the end of the contents, in order. -/
theorem appendEach_builds (hb : Builds s₀ s h) (hh : h < s₀.handles.length) (vs : List QJsonValue)
    (hv : ∀ v ∈ vs, ∀ c, v.value.container = some c → s₀.heap.read c ≠ none) (alloc : ℕ → Bool) :
    ∃ s', appendEach alloc s h vs = .ok s' ∧ Builds s₀ s' h ∧
      contents s'.heap (s'.handle h) = contents s.heap (s.handle h) ++ vs.map fun v => v.norm.rt := by
  induction vs generalizing s alloc with
  | nil => exact ⟨s, rfl, hb, by simp⟩
  | cons v vs ih =>
    obtain ⟨s₁, he₁, hb₁, hc₁⟩ := hb.append hh (alloc 0) (hv v (.head _))
    obtain ⟨s', he', hb', hc'⟩ := ih hb₁ (fun w hw => hv w (.tail _ hw)) fun m => alloc (m + 1)
    exact ⟨s', by rw [appendEach, he₁]; exact he', hb', by simp [hc', hc₁]⟩

/-- The constructor's array is built from a new null handle. -/
theorem ofInitializerList_builds (hc : s.Counted []) (args : List QJsonValue)
    (hargs : ∀ v ∈ args, ∀ c, v.value.container = some c → s.heap.read c ≠ none) (alloc : ℕ → Bool) :
    ∃ s', ofInitializerList alloc s args = .ok s' ∧ Builds (s.pushHandle ⟨none⟩) s' s.handles.length ∧
      contents s'.heap (s'.handle s.handles.length) = args.map fun v => v.norm.rt := by
  have hb := Builds.init (s := s.pushHandle ⟨none⟩) (h := s.handles.length)
    (Counted.pushHandle (x := ⟨none⟩) (P := []) hc) (by simp [handle_pushHandle])
  obtain ⟨s', he, hb', hc'⟩ := appendEach_builds hb (by simp [Store.pushHandle]) args hargs alloc
  refine ⟨s', he, hb', ?_⟩
  rw [hc', handle_pushHandle, if_pos rfl, contents_eq]
  rfl

/-- **The initializer-list constructor never fails.** From exact counts, and values whose arrays are
live, `QJsonArray(args)` succeeds whichever clone allocations fail, as it never clones. Its array
shows the values, Undefined as Null; counts stay exact; every other handle, every value and every
backend is as it was. An empty list allocates nothing and leaves the array null; any other
allocates one backend, held alone by the new array. -/
theorem ofInitializerList_spec (hc : s.Counted []) (args : List QJsonValue)
    (hargs : ∀ v ∈ args, ∀ c, v.value.container = some c → s.heap.read c ≠ none) (alloc : ℕ → Bool) :
    ∃ s', ofInitializerList alloc s args = .ok s' ∧
      contents s'.heap (s'.handle s.handles.length) = args.map (fun v => v.norm.rt) ∧
      s'.Counted [] ∧ s.heap.Keeps s'.heap ∧ s'.handles.length = s.handles.length + 1 ∧
      (∀ h < s.handles.length, s'.handle h = s.handle h) ∧ s'.values = s.values ∧
      ((args = [] ∧ (s'.handle s.handles.length).a = none ∧ s'.heap.length = s.heap.length) ∨
        (args ≠ [] ∧ s'.Owns s.handles.length s.heap.length ∧ s'.heap.length = s.heap.length + 1)) := by
  obtain ⟨s', he, hb, hc'⟩ := ofInitializerList_builds hc args hargs alloc
  refine ⟨s', he, hc', hb.counted, hb.keeps, by simp [hb.length, Store.pushHandle], fun h' hh => ?_, hb.values, ?_⟩
  · rw [hb.handles h' hh.ne, handle_pushHandle, if_neg hh.ne]
  · rcases args with _ | ⟨v, vs⟩
    · cases he
      exact .inl ⟨rfl, by simp [handle_pushHandle], rfl⟩
    · refine .inr ⟨List.cons_ne_nil v vs, hb.owner.resolve_left fun ⟨hnone, _⟩ => ?_⟩
      rw [contents_eq, elements, hnone] at hc'
      cases hc'

/-- `QJsonArray{1, Undefined}` on an empty store, with every allocation failing. -/
theorem ofInitializerList_spec_undefined :
    (Store.init 0).Counted [] ∧
      (∀ v ∈ [(⟨.scalar (.integer 1)⟩ : QJsonValue), .undefined], ∀ c, v.value.container = some c →
        (Store.init 0).heap.read c ≠ none) ∧
      ∃ s', ofInitializerList (fun _ => false) (Store.init 0) [⟨.scalar (.integer 1)⟩, .undefined] = .ok s' ∧
        contents s'.heap (s'.handle (Store.init 0).handles.length) =
          [(⟨.scalar (.integer 1)⟩ : QJsonValue), .undefined].map (fun v => v.norm.rt) ∧
        s'.Counted [] ∧ (Store.init 0).heap.Keeps s'.heap ∧ s'.handles.length = (Store.init 0).handles.length + 1 ∧
        (∀ h < (Store.init 0).handles.length, s'.handle h = (Store.init 0).handle h) ∧ s'.values = (Store.init 0).values ∧
        (([(⟨.scalar (.integer 1)⟩ : QJsonValue), .undefined] = [] ∧ (s'.handle (Store.init 0).handles.length).a = none ∧
            s'.heap.length = (Store.init 0).heap.length) ∨
          ([(⟨.scalar (.integer 1)⟩ : QJsonValue), .undefined] ≠ [] ∧
            s'.Owns (Store.init 0).handles.length (Store.init 0).heap.length ∧
            s'.heap.length = (Store.init 0).heap.length + 1)) :=
  ⟨counted_init 0, by simp [QJsonValue.undefined], ofInitializerList_spec (counted_init 0) _ (by simp [QJsonValue.undefined]) _⟩

/-- **`fromStringList` never fails.** From exact counts, whichever clone allocations fail, it
returns an array that shows the strings, in order; counts stay exact, and every other handle,
every value and every backend is as it was. -/
theorem fromStringList_spec (hc : s.Counted []) (list : List String) (alloc : ℕ → Bool) :
    ∃ s', fromStringList alloc s list = .ok s' ∧
      contents s'.heap (s'.handle s.handles.length) = list.map (fun t => ⟨.scalar (.string t)⟩) ∧
      s'.Counted [] ∧ s.heap.Keeps s'.heap ∧ (∀ h < s.handles.length, s'.handle h = s.handle h) ∧
      s'.values = s.values := by
  obtain ⟨s', he, hb, hc'⟩ := ofInitializerList_builds hc (list.map fun t => ⟨.scalar (.string t)⟩) (by simp) alloc
  refine ⟨s', he, ?_, hb.counted, hb.keeps, fun h' hh => ?_, hb.values⟩
  · rw [hc', List.map_map]
    rfl
  · rw [hb.handles h' hh.ne, handle_pushHandle, if_neg hh.ne]

/-- `fromStringList({"a", "b"})` on an empty store, with every allocation failing. -/
theorem fromStringList_spec_two :
    (Store.init 0).Counted [] ∧
      ∃ s', fromStringList (fun _ => false) (Store.init 0) ["a", "b"] = .ok s' ∧
        contents s'.heap (s'.handle (Store.init 0).handles.length) =
          ["a", "b"].map (fun t => ⟨.scalar (.string t)⟩) ∧
        s'.Counted [] ∧ (Store.init 0).heap.Keeps s'.heap ∧
        (∀ h < (Store.init 0).handles.length, s'.handle h = (Store.init 0).handle h) ∧ s'.values = (Store.init 0).values :=
  ⟨counted_init 0, fromStringList_spec (counted_init 0) _ _⟩

/-! ### Over a program's value variables -/

theorem values_detachOrCreate (alloc : Bool) (s : Store) (h : ℕ) : (detachOrCreate alloc s h).values = s.values := by
  unfold detachOrCreate detach detachBackend
  split <;> (try split) <;> (try split_ifs) <;> simp [values_reset, values_retainAll]

theorem values_of_append {alloc : Bool} {v : QJsonValue} {s' : Store} (he : append alloc s h v = .ok s') :
    s'.values = s.values := by
  obtain ⟨q, idx, x, -, rfl⟩ := insert_ok_cases he
  rw [values_insertAt, values_detachOrCreate]

/-- Over value variables, the loop is a run of `append` statements. -/
theorem appendEach_map_value (alloc : ℕ → Bool) (s : Store) (h : ℕ) (ks : List ℕ) :
    appendEach alloc s h (ks.map s.value) = s.runAlloc alloc (ks.map (Op.append h)) := by
  induction ks generalizing s alloc with
  | nil => rfl
  | cons k ks ih =>
    simp only [List.map_cons, appendEach, Store.runAlloc_cons, Store.execAlloc]
    cases he : append (alloc 0) s h (s.value k) with
    | error e => rfl
    | ok s₁ =>
      have hv : s₁.value = s.value := funext fun k => by simp only [Store.value, values_of_append he]
      dsimp only
      rw [← hv]
      exact ih _ _

end QJsonArray

theorem Op.allInScope_appends {nh nv h : ℕ} (hh : h < nh) {ks : List ℕ} (hks : ∀ k ∈ ks, k < nv) :
    Op.allInScope nh nv (ks.map (Op.append h)) = true := by
  induction ks with
  | nil => rfl
  | cons k ks ih =>
    simp [Op.allInScope, Op.inScope, Op.newHandles, Op.newValues, hh, hks k (.head _), ih fun k hk => hks k (.tail _ hk)]

/-- On private lists, appends to a new handle build its list. -/
theorem AStore.run_appends (A : AStore) (ts : List Json) (ks : List ℕ) :
    (A.pushHandle ts).run (ks.map (Op.append A.handles.length)) =
      .ok (A.pushHandle (ts ++ ks.map fun k => (A.value k).norm)) := by
  induction ks generalizing ts with
  | nil => simp
  | cons k ks ih =>
    have hn : (A.pushHandle ts).handle A.handles.length = ts := by simp [AStore.handle_pushHandle]
    rw [List.map_cons, AStore.run_cons, AStore.exec, AStore.insertAt, hn, if_pos (by omega)]
    dsimp only
    have hp : (A.pushHandle ts).setHandle A.handles.length (ts.insertIdx (ts.length : ℤ).toNat (A.value k).norm) =
        A.pushHandle (ts ++ [(A.value k).norm]) := by
      simp [AStore.pushHandle, AStore.setHandle, List.insertIdx_length_self]
    rw [show (A.pushHandle ts).value k = A.value k from rfl, hp, ih]
    simp

/-- **Building an array from variables refines private lists.** From `n` default-constructed arrays,
after any program in scope, whichever clone allocations fail, `QJsonArray b = {v₁, ..., vₘ}` over
declared value variables succeeds, whichever allocations fail in it; counts stay exact, `b` shows
the trees of the `vᵢ`, Undefined as Null, and every other variable shows what it showed. -/
theorem ofInitializerList_refines (n : ℕ) (pre : List Op) (hs : Op.allInScope n 0 pre = true)
    (alloc alloc' : ℕ → Bool) (ks : List ℕ) :
    ∀ s, (Store.init n).runAlloc alloc pre = .ok s → (∀ k ∈ ks, k < s.values.length) →
      ∃ A s', (AStore.init n).run pre = .ok A ∧ QJsonArray.ofInitializerList alloc' s (ks.map s.value) = .ok s' ∧
        s'.Counted [] ∧ Observes s' (A.pushHandle (ks.map fun k => (A.value k).norm)) := by
  intro s hpre hks
  obtain ⟨A, hA, hr⟩ := Rep.of_runAlloc hs hpre
  have hr₀ : Rep (s.pushHandle ⟨none⟩) (A.pushHandle []) :=
    ⟨Counted.pushHandle (x := ⟨none⟩) (P := []) hr.counted, hr.mirrors.pushHandle .null⟩
  obtain ⟨s', he, -⟩ := ofInitializerList_builds hr.counted (ks.map s.value)
    (by simp only [List.mem_map]; rintro _ ⟨k, -, rfl⟩; exact hr.counted.live_value k) alloc'
  have hrun : QJsonArray.ofInitializerList alloc' s (ks.map s.value) =
      (s.pushHandle ⟨none⟩).runAlloc alloc' (ks.map (Op.append s.handles.length)) :=
    appendEach_map_value alloc' (s.pushHandle ⟨none⟩) s.handles.length ks
  have hs₀ : Op.allInScope (s.pushHandle ⟨none⟩).handles.length (s.pushHandle ⟨none⟩).values.length
      (ks.map (Op.append s.handles.length)) = true :=
    Op.allInScope_appends (by simp [Store.pushHandle]) hks
  rcases runAlloc_refines hr₀ hs₀ alloc' with h | ⟨he', -⟩
  · rw [← hrun, he, hr.mirrors.handles_length, AStore.run_appends, List.nil_append] at h
    exact ⟨A, s', hA, he, h.counted, h.observes⟩
  · rw [← hrun, he] at he'; cases he'

/-- `QJsonArray b = {v, QJsonValue(a)}` after `a.append(1)`, every allocation of the constructor
failing: `b` shares `a`'s backend as an element. -/
theorem ofInitializerList_refines_shared :
    Op.allInScope 1 0 [.scalar (.integer 1), .append 0 0, .ofArray 0] = true ∧
      ∀ s, (Store.init 1).runAlloc (fun _ => true) [.scalar (.integer 1), .append 0 0, .ofArray 0] = .ok s →
        (∀ k ∈ [0, 1], k < s.values.length) →
        ∃ A s', (AStore.init 1).run [.scalar (.integer 1), .append 0 0, .ofArray 0] = .ok A ∧
          QJsonArray.ofInitializerList (fun _ => false) s ([0, 1].map s.value) = .ok s' ∧
          s'.Counted [] ∧ Observes s' (A.pushHandle ([0, 1].map fun k => (A.value k).norm)) :=
  ⟨by decide, ofInitializerList_refines 1 _ (by decide) _ _ _⟩

end QtJsonArray
