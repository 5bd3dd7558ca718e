import QtJsonArray.Value.Cbor
import Mathlib.Data.List.Perm.Basic
import Mathlib.Data.List.InsertIdx

/-!
# The backend store

The `QCborContainerPrivate` objects that `QJsonArray` handles share, and the variables of a
program that hold them: its `QJsonArray`s and its `QJsonValue`s.

## The model

A backend is its elements and its reference count. The heap maps addresses to backends;
allocation appends, so an address is never reused, and a freed backend leaves `none`. A store
is the heap together with the program's handles and values.

The references to a backend are counted by `Store.occ`: the handles pointing to it, the values
holding it, and the container elements of live backends holding it. What makes sharing safe is
that a backend's `ref` is this number (`Store.Counted s []`). While an operation runs, the count
and the references it has already retained or already dropped may differ by a list of pending
addresses; `Counted s pending` keeps track of that, and each primitive of the store has one
lemma saying how it moves the ledger.
-/

namespace QtJsonArray

/-! ### Counting references in a list -/

theorem count_filterMap_cons {α : Type} (f : α → Option Ptr) (a : α) (l : List α) (p : Ptr) :
    ((a :: l).filterMap f).count p = (f a).toList.count p + (l.filterMap f).count p := by
  cases h : f a with
  | none => simp [List.filterMap_cons, h]
  | some q => simp [List.filterMap_cons, h, List.count_cons]; omega

theorem count_filterMap_set {α : Type} (f : α → Option Ptr) (l : List α) {i : ℕ} (d x : α)
    (hi : i < l.length) (p : Ptr) :
    ((l.set i x).filterMap f).count p + (f (l.getD i d)).toList.count p =
      (l.filterMap f).count p + (f x).toList.count p := by
  induction l generalizing i with
  | nil => simp at hi
  | cons a l ih =>
    cases i with
    | zero => simp only [List.set_cons_zero, count_filterMap_cons, List.getD_cons_zero]; omega
    | succ i =>
      have := ih (by simpa using hi)
      simp only [List.set_cons_succ, count_filterMap_cons, List.getD_cons_succ]
      omega

theorem count_filterMap_concat {α : Type} (f : α → Option Ptr) (l : List α) (x : α) (p : Ptr) :
    ((l ++ [x]).filterMap f).count p = (l.filterMap f).count p + (f x).toList.count p := by
  cases h : f x <;> simp [List.filterMap_append, h]

/-- A `QCborContainerPrivate` as the array uses it. -/
structure Backend where
  /-- `elements`, each as the value it encodes. -/
  elements : List QCborValue
  /-- `ref`, the reference count (`QSharedData::ref`). -/
  ref : ℕ
  deriving DecidableEq, Repr

/-- `QCborContainerPrivate::valueAt(idx)`. A string element is read out as it is stored; Qt's
hands out a value referring to the backend, where the characters are. -/
def Backend.valueAt (b : Backend) (idx : ℕ) : QCborValue := b.elements.getD idx (.scalar .undefined)

/-- The backends the elements `xs` hold references to, one per container element. -/
def children (xs : List QCborValue) : List Ptr := xs.filterMap QCborValue.container

@[simp] theorem children_nil : children [] = [] := rfl

@[simp] theorem children_cons (x : QCborValue) (xs : List QCborValue) :
    children (x :: xs) = x.container.toList ++ children xs := by
  cases x with
  | scalar s => rfl
  | array c => cases c <;> rfl

@[simp] theorem children_append (xs ys : List QCborValue) :
    children (xs ++ ys) = children xs ++ children ys := List.filterMap_append _ _ _

theorem count_children_insertIdx {l : List QCborValue} {i : ℕ} (x : QCborValue) (hi : i ≤ l.length)
    (p : Ptr) : (children (l.insertIdx i x)).count p = (children l).count p + x.container.toList.count p := by
  induction l generalizing i with
  | nil => simp at hi; subst hi; simp [List.insertIdx]
  | cons a l ih =>
    cases i with
    | zero => simp [List.insertIdx]; omega
    | succ i => simp [List.insertIdx_succ_cons, ih (by simpa using hi)]; omega

theorem count_children_eraseIdx {l : List QCborValue} {i : ℕ} (hi : i < l.length) (u : QCborValue)
    (p : Ptr) :
    (children (l.eraseIdx i)).count p + (l.getD i u).container.toList.count p = (children l).count p := by
  induction l generalizing i with
  | nil => simp at hi
  | cons a l ih =>
    cases i with
    | zero => simp; omega
    | succ i => have := ih (by simpa using hi); simp at this ⊢; omega

theorem count_children_set {l : List QCborValue} {i : ℕ} (hi : i < l.length) (u x : QCborValue)
    (p : Ptr) :
    (children (l.set i x)).count p + (l.getD i u).container.toList.count p =
      (children l).count p + x.container.toList.count p :=
  count_filterMap_set QCborValue.container l u x hi p

/-- The backends by address; `none` where one was freed. -/
abbrev Heap := List (Option Backend)

namespace Heap

/-- The backend at `p`, if it is live. -/
def read (H : Heap) (p : Ptr) : Option Backend := H.getD p none

/-- The backend at `p`, read as an empty one where there is none. -/
def backend (H : Heap) (p : Ptr) : Backend := (H.read p).getD ⟨[], 0⟩

/-- The references a heap cell holds to `p`. -/
def cellRefs (ob : Option Backend) (p : Ptr) : ℕ :=
  match ob with
  | some b => (children b.elements).count p
  | none => 0

/-- The references the elements of live backends hold to `p`. -/
def refs : Heap → Ptr → ℕ
  | [], _ => 0
  | ob :: H, p => cellRefs ob p + refs H p

@[simp] theorem read_nil (p : Ptr) : read [] p = none := rfl

@[simp] theorem read_cons_zero (ob : Option Backend) (H : Heap) : read (ob :: H) 0 = ob := rfl

@[simp] theorem read_cons_succ (ob : Option Backend) (H : Heap) (p : Ptr) :
    read (ob :: H) (p + 1) = read H p := rfl

theorem backend_of_read {H : Heap} {p : Ptr} {b : Backend} (h : H.read p = some b) :
    H.backend p = b := by
  simp [backend, h]

theorem lt_of_read {H : Heap} {p : Ptr} {b : Backend} (h : H.read p = some b) : p < H.length := by
  induction H generalizing p with
  | nil => simp at h
  | cons ob H ih => cases p <;> simp_all

theorem read_set_self {H : Heap} {p : Ptr} (ob : Option Backend) (h : p < H.length) :
    read (H.set p ob) p = ob := by
  induction H generalizing p with
  | nil => simp at h
  | cons c H ih => cases p <;> simp_all

theorem read_set_ne (H : Heap) {p q : Ptr} (ob : Option Backend) (h : q ≠ p) :
    read (H.set q ob) p = H.read p := by
  induction H generalizing p q with
  | nil => rfl
  | cons c H ih => cases p <;> cases q <;> simp_all

theorem read_append_lt (H : Heap) (ob : Option Backend) {p : Ptr} (h : p < H.length) :
    read (H ++ [ob]) p = H.read p := by
  induction H generalizing p with
  | nil => simp at h
  | cons c H ih => cases p <;> simp_all

theorem read_append_length (H : Heap) (ob : Option Backend) : read (H ++ [ob]) H.length = ob := by
  induction H <;> simp_all

theorem read_eq_none_of_le {H : Heap} {p : Ptr} (h : H.length ≤ p) : H.read p = none := by
  induction H generalizing p with
  | nil => rfl
  | cons c H ih => cases p <;> simp_all

theorem refs_set (H : Heap) (q : Ptr) (ob : Option Backend) (p : Ptr) (hq : q < H.length) :
    refs (H.set q ob) p + cellRefs (read H q) p = H.refs p + cellRefs ob p := by
  induction H generalizing q with
  | nil => simp at hq
  | cons c H ih =>
    cases q with
    | zero => simp [refs]; omega
    | succ q => have := ih q (by simpa using hq); simp [refs]; omega

theorem refs_append (H : Heap) (ob : Option Backend) (p : Ptr) :
    refs (H ++ [ob]) p = H.refs p + cellRefs ob p := by
  induction H with
  | nil => simp [refs]
  | cons c H ih => simp [refs, ih]; omega

/-- Every live backend of the first heap is live in the second, with the same elements. -/
def Keeps (H H' : Heap) : Prop :=
  ∀ p b, H.read p = some b → ∃ b', H'.read p = some b' ∧ b'.elements = b.elements

theorem Keeps.refl (H : Heap) : H.Keeps H := fun _ b hb => ⟨b, hb, rfl⟩

theorem Keeps.trans {H₁ H₂ H₃ : Heap} (h₁ : H₁.Keeps H₂) (h₂ : H₂.Keeps H₃) : H₁.Keeps H₃ := by
  intro p b hb
  obtain ⟨b₂, hb₂, he₂⟩ := h₁ p b hb
  obtain ⟨b₃, hb₃, he₃⟩ := h₂ p b₂ hb₂
  exact ⟨b₃, hb₃, he₃.trans he₂⟩

theorem Keeps.live {H H' : Heap} (hk : H.Keeps H') {p : Ptr} (hp : H.read p ≠ none) : H'.read p ≠ none := by
  obtain ⟨b, hb⟩ := Option.ne_none_iff_exists'.mp hp
  obtain ⟨b', hb', -⟩ := hk p b hb
  simp [hb']

theorem keeps_of_elements {H H' : Heap}
    (he : ∀ p, (H'.read p).map Backend.elements = (H.read p).map Backend.elements) : H.Keeps H' := by
  intro p b hb
  have := he p
  rw [hb] at this
  cases hb' : H'.read p <;> simp_all

end Heap

/-- The backends and the variables of a program holding them. -/
structure Store where
  /-- The backends. -/
  heap : Heap
  /-- The program's `QJsonArray` variables. -/
  handles : List QJsonArray
  /-- The program's `QJsonValue` variables. -/
  values : List QJsonValue
  deriving DecidableEq, Repr

namespace Store

/-- The handle `h`. -/
def handle (s : Store) (h : ℕ) : QJsonArray := s.handles.getD h ⟨none⟩

/-- The value `k`. -/
def value (s : Store) (k : ℕ) : QJsonValue := s.values.getD k .undefined

/-- Assigns the handle `h`'s pointer, with no reference bookkeeping. -/
def setHandle (s : Store) (h : ℕ) (x : QJsonArray) : Store := { s with handles := s.handles.set h x }

/-- A new handle. -/
def pushHandle (s : Store) (x : QJsonArray) : Store := { s with handles := s.handles ++ [x] }

/-- Assigns the value `k`, with no reference bookkeeping. -/
def setValue (s : Store) (k : ℕ) (v : QJsonValue) : Store := { s with values := s.values.set k v }

/-- A new value. -/
def pushValue (s : Store) (v : QJsonValue) : Store := { s with values := s.values ++ [v] }

/-- Writes a heap cell. -/
def write (s : Store) (p : Ptr) (ob : Option Backend) : Store := { s with heap := s.heap.set p ob }

/-- `new QCborContainerPrivate`: a backend at a fresh address. -/
def alloc (s : Store) (b : Backend) : Store × Ptr := ({ s with heap := s.heap ++ [some b] }, s.heap.length)

/-- `ref.ref()` on a live backend; nothing for a null pointer. -/
def retain (s : Store) : Option Ptr → Store
  | none => s
  | some p =>
    match s.heap.read p with
    | some b => s.write p (some { b with ref := b.ref + 1 })
    | none => s

/-- Retains each address of `ps`, in order. -/
def retainAll (s : Store) (ps : List Ptr) : Store := ps.foldl (fun s p => s.retain (some p)) s

/-- Replaces a live backend's elements. -/
def setElements (s : Store) (p : Ptr) (xs : List QCborValue) : Store :=
  match s.heap.read p with
  | some b => s.write p (some { b with elements := xs })
  | none => s

/-- The references the program's variables hold to `p`: handles pointing to it, values holding it. -/
def rootRefs (s : Store) (p : Ptr) : ℕ :=
  (s.handles.filterMap QJsonArray.a).count p + (s.values.filterMap (·.value.container)).count p

/-- All references to `p`: the variables', and those of container elements of live backends. -/
def occ (s : Store) (p : Ptr) : ℕ := s.rootRefs p + s.heap.refs p

/-- **The ledger.** Each live backend's count is the number of references to it plus those of
`pending` (retained and not yet stored, or dropped and not yet released); nothing refers to, or
is pending for, an address without a backend. -/
def Counted (s : Store) (pending : List Ptr) : Prop :=
  ∀ p, match s.heap.read p with
    | some b => b.ref = s.occ p + pending.count p
    | none => s.occ p + pending.count p = 0

/-- A program's start: `n` default-constructed arrays, and no values and no backends. -/
def init (n : ℕ) : Store := ⟨[], List.replicate n ⟨none⟩, []⟩

theorem counted_init (n : ℕ) : (init n).Counted [] := by
  intro p
  simp [init, occ, rootRefs, Heap.refs, List.filterMap_replicate]

/-! ### What each primitive does to the heap -/

@[simp] theorem heap_setHandle (s : Store) (h : ℕ) (x : QJsonArray) : (s.setHandle h x).heap = s.heap := rfl

@[simp] theorem heap_pushHandle (s : Store) (x : QJsonArray) : (s.pushHandle x).heap = s.heap := rfl

@[simp] theorem heap_setValue (s : Store) (k : ℕ) (v : QJsonValue) : (s.setValue k v).heap = s.heap := rfl

@[simp] theorem heap_pushValue (s : Store) (v : QJsonValue) : (s.pushValue v).heap = s.heap := rfl

@[simp] theorem handles_write (s : Store) (p : Ptr) (ob : Option Backend) :
    (s.write p ob).handles = s.handles := rfl

@[simp] theorem values_write (s : Store) (p : Ptr) (ob : Option Backend) :
    (s.write p ob).values = s.values := rfl

@[simp] theorem heap_write (s : Store) (p : Ptr) (ob : Option Backend) :
    (s.write p ob).heap = s.heap.set p ob := rfl

@[simp] theorem handles_alloc (s : Store) (b : Backend) : (s.alloc b).1.handles = s.handles := rfl

@[simp] theorem values_alloc (s : Store) (b : Backend) : (s.alloc b).1.values = s.values := rfl

@[simp] theorem heap_alloc (s : Store) (b : Backend) : (s.alloc b).1.heap = s.heap ++ [some b] := rfl

@[simp] theorem alloc_snd (s : Store) (b : Backend) : (s.alloc b).2 = s.heap.length := rfl

theorem handles_retain (s : Store) (x : Option Ptr) : (s.retain x).handles = s.handles := by
  unfold retain; split <;> [rfl; split <;> rfl]

theorem values_retain (s : Store) (x : Option Ptr) : (s.retain x).values = s.values := by
  unfold retain; split <;> [rfl; split <;> rfl]

theorem handles_setElements (s : Store) (p : Ptr) (xs : List QCborValue) :
    (s.setElements p xs).handles = s.handles := by
  unfold setElements; split <;> rfl

theorem values_setElements (s : Store) (p : Ptr) (xs : List QCborValue) :
    (s.setElements p xs).values = s.values := by
  unfold setElements; split <;> rfl

@[simp] theorem handle_setHandle_self (s : Store) {h : ℕ} (x : QJsonArray) (hh : h < s.handles.length) :
    (s.setHandle h x).handle h = x := by
  simp [handle, setHandle, List.getD_eq_getElem?_getD, hh]

theorem handle_setHandle_ne (s : Store) {h h' : ℕ} (x : QJsonArray) (hne : h ≠ h') :
    (s.setHandle h x).handle h' = s.handle h' := by
  simp [handle, setHandle, List.getD_eq_getElem?_getD, List.getElem?_set, hne]

@[simp] theorem handle_write (s : Store) (p : Ptr) (ob : Option Backend) (h : ℕ) :
    (s.write p ob).handle h = s.handle h := rfl

@[simp] theorem handle_alloc (s : Store) (b : Backend) (h : ℕ) : (s.alloc b).1.handle h = s.handle h := rfl

@[simp] theorem handle_retain (s : Store) (x : Option Ptr) (h : ℕ) : (s.retain x).handle h = s.handle h := by
  simp [handle, handles_retain]

@[simp] theorem handle_setElements (s : Store) (p : Ptr) (xs : List QCborValue) (h : ℕ) :
    (s.setElements p xs).handle h = s.handle h := by
  simp [handle, handles_setElements]

@[simp] theorem retain_none (s : Store) : s.retain none = s := rfl

theorem retain_some {s : Store} {q : Ptr} {b : Backend} (hb : s.heap.read q = some b) :
    s.retain (some q) = s.write q (some { b with ref := b.ref + 1 }) := by
  simp [retain, hb]

theorem retain_dead {s : Store} {q : Ptr} (hb : s.heap.read q = none) : s.retain (some q) = s := by
  simp [retain, hb]

/-- Retaining changes counts only: every backend keeps its elements. -/
theorem elements_retain (s : Store) (x : Option Ptr) (p : Ptr) :
    ((s.retain x).heap.read p).map Backend.elements = (s.heap.read p).map Backend.elements := by
  rcases x with _ | q
  · rfl
  cases hb : s.heap.read q with
  | none => rw [retain_dead hb]
  | some b =>
    rw [retain_some hb, heap_write]
    by_cases hq : q = p
    · subst hq; simp [Heap.read_set_self _ (Heap.lt_of_read hb), hb]
    · rw [Heap.read_set_ne _ _ hq]

theorem read_retain_self {s : Store} {q : Ptr} {b : Backend} (hb : s.heap.read q = some b) :
    (s.retain (some q)).heap.read q = some { b with ref := b.ref + 1 } := by
  rw [retain_some hb, heap_write, Heap.read_set_self _ (Heap.lt_of_read hb)]

theorem read_retain_of_read {s : Store} (x : Option Ptr) {p : Ptr} {b : Backend} (hb : s.heap.read p = some b) :
    ∃ b', (s.retain x).heap.read p = some b' ∧ b'.elements = b.elements := by
  have := elements_retain s x p
  rw [hb] at this
  cases h' : (s.retain x).heap.read p <;> simp_all

theorem read_setElements_self {s : Store} {p : Ptr} {b : Backend} (hb : s.heap.read p = some b)
    (xs : List QCborValue) : (s.setElements p xs).heap.read p = some { b with elements := xs } := by
  simp [setElements, hb, Heap.read_set_self _ (Heap.lt_of_read hb)]

theorem lt_of_handle {s : Store} {h : ℕ} {p : Ptr} (hp : (s.handle h).a = some p) : h < s.handles.length := by
  by_contra hh
  simp [handle, List.getD_eq_getElem?_getD, List.getElem?_eq_none (Nat.le_of_not_lt hh)] at hp

theorem rootRefs_pos_of_handle {s : Store} {h : ℕ} {p : Ptr} (hp : (s.handle h).a = some p) :
    0 < s.rootRefs p := by
  have hh := lt_of_handle hp
  have : p ∈ s.handles.filterMap QJsonArray.a :=
    List.mem_filterMap.mpr ⟨s.handles[h], List.getElem_mem hh, by
      simpa [handle, List.getD_eq_getElem?_getD, hh] using hp⟩
  have := List.count_pos_iff.mpr this
  simp only [rootRefs]; omega

theorem rootRefs_pos_of_value {s : Store} {v : QJsonValue} (hv : v ∈ s.values) {p : Ptr}
    (hp : v.value.container = some p) : 0 < s.rootRefs p := by
  have : p ∈ s.values.filterMap (·.value.container) := List.mem_filterMap.mpr ⟨v, hv, hp⟩
  have := List.count_pos_iff.mpr this
  simp only [rootRefs]; omega

theorem Heap.cellRefs_le_refs {H : Heap} {p : Ptr} {b : Backend} (hb : H.read p = some b) (q : Ptr) :
    (children b.elements).count q ≤ H.refs q := by
  induction H generalizing p with
  | nil => simp at hb
  | cons c H ih =>
    cases p with
    | zero => simp at hb; subst hb; simp [Heap.refs, Heap.cellRefs]
    | succ p => have := ih (by simpa using hb); simp [Heap.refs]; omega

/-- A container an element of a live backend holds is referenced. -/
theorem occ_pos_of_child {s : Store} {p q : Ptr} {b : Backend} (hb : s.heap.read p = some b)
    (hq : q ∈ children b.elements) : 0 < s.occ q := by
  have := Heap.cellRefs_le_refs hb q
  have := List.count_pos_iff.mpr hq
  simp only [occ]; omega

theorem occ_pos_of_rootRefs {s : Store} {p : Ptr} (hp : 0 < s.rootRefs p) : 0 < s.occ p := by
  simp only [occ]; omega

/-! ### How each primitive moves the references -/

theorem occ_retain (s : Store) (x : Option Ptr) (p : Ptr) : (s.retain x).occ p = s.occ p := by
  rcases x with _ | q
  · rfl
  cases hb : s.heap.read q with
  | none => rw [retain_dead hb]
  | some b =>
    have := s.heap.refs_set q (some { b with ref := b.ref + 1 }) p (Heap.lt_of_read hb)
    simp only [hb, Heap.cellRefs] at this
    simp only [retain_some hb, occ, rootRefs, heap_write, handles_write, values_write]
    omega

theorem occ_setElements (s : Store) {q : Ptr} {b : Backend} (hb : s.heap.read q = some b)
    (xs : List QCborValue) (p : Ptr) :
    (s.setElements q xs).occ p + (children b.elements).count p = s.occ p + (children xs).count p := by
  have := s.heap.refs_set q (some { b with elements := xs }) p (Heap.lt_of_read hb)
  simp only [hb, Heap.cellRefs] at this
  simp only [setElements, hb, occ, rootRefs, heap_write, handles_write, values_write]
  omega

theorem occ_alloc (s : Store) (b : Backend) (p : Ptr) :
    (s.alloc b).1.occ p = s.occ p + (children b.elements).count p := by
  simp only [occ, rootRefs, handles_alloc, values_alloc, heap_alloc, Heap.refs_append, Heap.cellRefs]
  omega

theorem occ_setHandle (s : Store) {h : ℕ} (hh : h < s.handles.length) (x : QJsonArray) (p : Ptr) :
    (s.setHandle h x).occ p + (s.handle h).a.toList.count p = s.occ p + x.a.toList.count p := by
  have := count_filterMap_set QJsonArray.a s.handles ⟨none⟩ x hh p
  simp only [occ, rootRefs, setHandle, handle] at this ⊢
  omega

theorem occ_pushHandle (s : Store) (x : QJsonArray) (p : Ptr) :
    (s.pushHandle x).occ p = s.occ p + x.a.toList.count p := by
  simp only [occ, rootRefs, pushHandle, count_filterMap_concat]
  omega

theorem occ_setValue (s : Store) {k : ℕ} (hk : k < s.values.length) (v : QJsonValue) (p : Ptr) :
    (s.setValue k v).occ p + (s.value k).value.container.toList.count p =
      s.occ p + v.value.container.toList.count p := by
  have := count_filterMap_set (·.value.container) s.values .undefined v hk p
  simp only [occ, rootRefs, setValue, value] at this ⊢
  omega

theorem occ_pushValue (s : Store) (v : QJsonValue) (p : Ptr) :
    (s.pushValue v).occ p = s.occ p + v.value.container.toList.count p := by
  simp only [occ, rootRefs, pushValue, count_filterMap_concat]
  omega

theorem occ_write (s : Store) {q : Ptr} (hq : q < s.heap.length) (ob : Option Backend) (p : Ptr) :
    (s.write q ob).occ p + Heap.cellRefs (s.heap.read q) p = s.occ p + Heap.cellRefs ob p := by
  have := s.heap.refs_set q ob p hq
  simp only [occ, rootRefs, heap_write, handles_write, values_write]
  omega

/-! ### The ledger, primitive by primitive -/

theorem Counted.live {s : Store} {P : List Ptr} (h : s.Counted P) {p : Ptr} {b : Backend}
    (hb : s.heap.read p = some b) : b.ref = s.occ p + P.count p := by
  simpa [hb] using h p

theorem Counted.dead {s : Store} {P : List Ptr} (h : s.Counted P) {p : Ptr}
    (hb : s.heap.read p = none) : s.occ p + P.count p = 0 := by
  simpa [hb] using h p

theorem counted_of {s : Store} {P : List Ptr}
    (hl : ∀ p b, s.heap.read p = some b → b.ref = s.occ p + P.count p)
    (hd : ∀ p, s.heap.read p = none → s.occ p + P.count p = 0) : s.Counted P := by
  intro p
  cases hb : s.heap.read p with
  | none => exact hd p hb
  | some b => exact hl p b hb

/-- What is referenced or pending is live. -/
theorem Counted.read_ne_none {s : Store} {P : List Ptr} (h : s.Counted P) {p : Ptr}
    (hp : 0 < s.occ p + P.count p) : s.heap.read p ≠ none := fun hb => by
  have := h.dead hb; omega

theorem Counted.perm {s : Store} {P P' : List Ptr} (h : s.Counted P) (hP : P.Perm P') : s.Counted P' :=
  counted_of (fun p _ hb => hP.count_eq p ▸ h.live hb) (fun p hb => hP.count_eq p ▸ h.dead hb)

theorem Counted.retain {s : Store} {P : List Ptr} (h : s.Counted P) {x : Option Ptr}
    (hx : ∀ q, x = some q → s.heap.read q ≠ none) : (s.retain x).Counted (x.toList ++ P) := by
  rcases x with _ | q
  · simpa using h
  obtain ⟨b, hb⟩ := Option.ne_none_iff_exists'.mp (hx q rfl)
  have hocc := occ_retain s (some q)
  rw [retain_some hb] at hocc ⊢
  apply counted_of
  · intro p b' hb'
    by_cases hq : q = p
    · subst hq
      rw [heap_write, Heap.read_set_self _ (Heap.lt_of_read hb)] at hb'
      cases hb'
      have := h.live hb
      simp only [hocc, Option.toList_some, List.singleton_append, List.count_cons_self]
      omega
    · rw [heap_write, Heap.read_set_ne _ _ hq] at hb'
      simp [hocc, h.live hb', List.count_cons, hq]
  · intro p hb'
    by_cases hq : q = p
    · subst hq; simp [Heap.read_set_self _ (Heap.lt_of_read hb)] at hb'
    · rw [heap_write, Heap.read_set_ne _ _ hq] at hb'
      simp [hocc, h.dead hb', List.count_cons, hq]

theorem Counted.setHandle {s : Store} {P : List Ptr} {h : ℕ} {x : QJsonArray}
    (hc : s.Counted (x.a.toList ++ P)) (hh : h < s.handles.length) :
    (s.setHandle h x).Counted ((s.handle h).a.toList ++ P) := by
  have hd := s.occ_setHandle hh x
  apply counted_of
  · intro p b hb
    have := hc.live hb; have := hd p; simp only [List.count_append] at *; omega
  · intro p hb
    have := hc.dead hb; have := hd p; simp only [List.count_append] at *; omega

theorem Counted.pushHandle {s : Store} {P : List Ptr} {x : QJsonArray}
    (hc : s.Counted (x.a.toList ++ P)) : (s.pushHandle x).Counted P := by
  apply counted_of
  · intro p b hb
    have := hc.live hb; simp only [occ_pushHandle, List.count_append] at *; omega
  · intro p hb
    have := hc.dead hb; simp only [occ_pushHandle, List.count_append] at *; omega

theorem Counted.setValue {s : Store} {P : List Ptr} {k : ℕ} {v : QJsonValue}
    (hc : s.Counted (v.value.container.toList ++ P)) (hk : k < s.values.length) :
    (s.setValue k v).Counted ((s.value k).value.container.toList ++ P) := by
  have hd := s.occ_setValue hk v
  apply counted_of
  · intro p b hb
    have := hc.live hb; have := hd p; simp only [List.count_append] at *; omega
  · intro p hb
    have := hc.dead hb; have := hd p; simp only [List.count_append] at *; omega

theorem Counted.pushValue {s : Store} {P : List Ptr} {v : QJsonValue}
    (hc : s.Counted (v.value.container.toList ++ P)) : (s.pushValue v).Counted P := by
  apply counted_of
  · intro p b hb
    have := hc.live hb; simp only [occ_pushValue, List.count_append] at *; omega
  · intro p hb
    have := hc.dead hb; simp only [occ_pushValue, List.count_append] at *; omega

/-- Setting a backend's elements: the references the old elements held and those still pending
balance the new elements' references and the new pending ones. -/
theorem Counted.setElements {s : Store} {P P' : List Ptr} {q : Ptr} {b : Backend}
    (hb : s.heap.read q = some b) {xs : List QCborValue} (hc : s.Counted P)
    (hP : ∀ p, (children b.elements).count p + P.count p = (children xs).count p + P'.count p) :
    (s.setElements q xs).Counted P' := by
  have hd := s.occ_setElements hb xs
  have hw : s.setElements q xs = s.write q (some { b with elements := xs }) := by
    unfold Store.setElements; rw [hb]
  rw [hw] at hd ⊢
  apply counted_of
  · intro p b' hb'
    by_cases hq : q = p
    · subst hq
      rw [heap_write, Heap.read_set_self _ (Heap.lt_of_read hb)] at hb'
      cases hb'
      show b.ref = _
      have := hc.live hb; have := hd q; have := hP q; omega
    · rw [heap_write, Heap.read_set_ne _ _ hq] at hb'
      have := hc.live hb'; have := hd p; have := hP p; omega
  · intro p hb'
    by_cases hq : q = p
    · subst hq; rw [heap_write, Heap.read_set_self _ (Heap.lt_of_read hb)] at hb'; cases hb'
    · rw [heap_write, Heap.read_set_ne _ _ hq] at hb'
      have := hc.dead hb'; have := hd p; have := hP p; omega

/-- A fresh backend starts with no references (`QSharedData` counts from zero). -/
theorem Counted.alloc {s : Store} {P : List Ptr} {xs : List QCborValue}
    (hc : s.Counted (children xs ++ P)) : (s.alloc ⟨xs, 0⟩).1.Counted P := by
  have hd := occ_alloc s ⟨xs, 0⟩
  apply counted_of
  · intro p b hb
    rw [heap_alloc] at hb
    rcases lt_trichotomy p s.heap.length with hp | rfl | hp
    · rw [Heap.read_append_lt _ _ hp] at hb
      have := hc.live hb; have := hd p; simp only [List.count_append] at *; omega
    · rw [Heap.read_append_length] at hb
      cases hb
      have := hc.dead (Heap.read_eq_none_of_le le_rfl); have := hd s.heap.length
      simp only [List.count_append] at *; omega
    · have hl : (s.heap ++ [some (Backend.mk xs 0)]).length ≤ p := by
        rw [List.length_append, List.length_singleton]; exact hp
      rw [Heap.read_eq_none_of_le hl] at hb; cases hb
  · intro p hb
    rw [heap_alloc] at hb
    have hdead : s.heap.read p = none := by
      rcases lt_trichotomy p s.heap.length with hp | rfl | hp
      · rwa [Heap.read_append_lt _ _ hp] at hb
      · simp [Heap.read_append_length] at hb
      · exact Heap.read_eq_none_of_le hp.le
    have := hc.dead hdead; have := hd p; simp only [List.count_append] at *; omega

theorem keeps_retain (s : Store) (x : Option Ptr) : s.heap.Keeps (s.retain x).heap :=
  Heap.keeps_of_elements (elements_retain s x)

theorem keeps_alloc (s : Store) (b : Backend) : s.heap.Keeps (s.alloc b).1.heap :=
  fun _ b' hb => ⟨b', by rw [heap_alloc, Heap.read_append_lt _ _ (Heap.lt_of_read hb), hb], rfl⟩

theorem keeps_write {s : Store} {q : Ptr} {b : Backend} (hb : s.heap.read q = some b) (b' : Backend)
    (he : b'.elements = b.elements) : s.heap.Keeps (s.write q (some b')).heap := by
  intro p c hc
  by_cases hq : q = p
  · subst hq; rw [hb] at hc; cases hc
    exact ⟨b', by rw [heap_write, Heap.read_set_self _ (Heap.lt_of_read hb)], he⟩
  · exact ⟨c, by rw [heap_write, Heap.read_set_ne _ _ hq, hc], rfl⟩

theorem read_retain_ne_none {s : Store} {x : Option Ptr} {p : Ptr} :
    (s.retain x).heap.read p ≠ none ↔ s.heap.read p ≠ none := by
  have := elements_retain s x p
  cases h1 : (s.retain x).heap.read p <;> cases h2 : s.heap.read p <;> simp_all

@[simp] theorem retainAll_nil (s : Store) : s.retainAll [] = s := rfl

@[simp] theorem retainAll_cons (s : Store) (q : Ptr) (ps : List Ptr) :
    s.retainAll (q :: ps) = (s.retain (some q)).retainAll ps := rfl

theorem handles_retainAll (s : Store) (ps : List Ptr) : (s.retainAll ps).handles = s.handles := by
  induction ps generalizing s with
  | nil => rfl
  | cons q ps ih => rw [retainAll_cons, ih, handles_retain]

@[simp] theorem handle_retainAll (s : Store) (ps : List Ptr) (h : ℕ) :
    (s.retainAll ps).handle h = s.handle h := by
  simp [handle, handles_retainAll]

theorem values_retainAll (s : Store) (ps : List Ptr) : (s.retainAll ps).values = s.values := by
  induction ps generalizing s with
  | nil => rfl
  | cons q ps ih => rw [retainAll_cons, ih, values_retain]

theorem elements_retainAll (s : Store) (ps : List Ptr) (p : Ptr) :
    ((s.retainAll ps).heap.read p).map Backend.elements = (s.heap.read p).map Backend.elements := by
  induction ps generalizing s with
  | nil => rfl
  | cons q ps ih => rw [retainAll_cons, ih, elements_retain]

@[simp] theorem length_retain (s : Store) (x : Option Ptr) : (s.retain x).heap.length = s.heap.length := by
  rcases x with _ | q
  · rfl
  cases hb : s.heap.read q with
  | none => rw [retain_dead hb]
  | some b => simp [retain_some hb]

@[simp] theorem length_retainAll (s : Store) (ps : List Ptr) :
    (s.retainAll ps).heap.length = s.heap.length := by
  induction ps generalizing s with
  | nil => rfl
  | cons q ps ih => rw [retainAll_cons, ih, length_retain]

theorem occ_retainAll (s : Store) (ps : List Ptr) (p : Ptr) : (s.retainAll ps).occ p = s.occ p := by
  induction ps generalizing s with
  | nil => rfl
  | cons q ps ih => rw [retainAll_cons, ih, occ_retain]

theorem keeps_retainAll (s : Store) (ps : List Ptr) : s.heap.Keeps (s.retainAll ps).heap :=
  Heap.keeps_of_elements (elements_retainAll s ps)

theorem Counted.retainAll {s : Store} {P : List Ptr} (hc : s.Counted P) {ps : List Ptr}
    (hps : ∀ q ∈ ps, s.heap.read q ≠ none) : (s.retainAll ps).Counted (ps ++ P) := by
  induction ps generalizing s P with
  | nil => simpa using hc
  | cons q ps ih =>
    have h1 := @Counted.retain _ _ hc (some q) (fun q' hq' => by cases hq'; exact hps q (by simp))
    have h2 := ih h1 (fun q' hq' => read_retain_ne_none.mpr (hps q' (by simp [hq'])))
    exact h2.perm (by simp [List.perm_middle])

end Store

end QtJsonArray
