import QtJsonArray.Cow.Refinement
import QtJsonArray.Array.Compare

/-!
# Array equality is equality of private lists

`comparesEqual` decides array equality by fast paths (the same backend, a null handle against
an empty one, different sizes) and otherwise by `QCborValue ==` on the stored elements. Under
copy-on-write, arrays share backends, and a nested array is a backend of its own. None of this
shows: on a store related to private lists (`Rep`), two arrays compare equal exactly when their
private lists of JSON trees are equal, provided `QCborValue ==` descends as deep as the trees
nest (`Json.depth`); below that depth the model compares nested arrays by identity.

## What is proved

* `cborEqual_iff`: on decoded values, `QCborValue ==` at a depth the trees do not exceed is
  equality of the trees; `elementwise_iff` lifts an element comparison of that kind to lists.
* `Rep.comparesEqual_iff`: on a related store, `a == b` is equality of the private lists.
* `comparesEqual_answers_equality`: the same in every store a program in scope reaches,
  whichever clone allocations fail.
-/

namespace QtJsonArray

open Store QJsonArray

mutual

/-- How deep a tree nests arrays: a value with no array is at depth zero. -/
def Json.depth : Json → ℕ
  | .scalar _ => 0
  | .array ts => Json.depthAll ts + 1

/-- The deepest of the trees `ts`. -/
def Json.depthAll : List Json → ℕ
  | [] => 0
  | t :: ts => max t.depth (Json.depthAll ts)

end

section Decoded

variable {H : Heap}

/-- Pairwise comparison of decoded lists is equality of the lists, when the element comparison is
equality of the trees. -/
theorem elementwise_iff {eq : QCborValue → QCborValue → Bool} {d : ℕ}
    (heq : ∀ {x y : QCborValue} {t u : Json}, Decodes H x t → Decodes H y u → t.depth ≤ d → u.depth ≤ d →
      (eq x y = true ↔ t = u)) :
    ∀ {xs ys : List QCborValue} {ts us : List Json}, DecodesAll H xs ts → DecodesAll H ys us →
      Json.depthAll ts ≤ d → Json.depthAll us ≤ d → (elementwise eq xs ys = true ↔ ts = us) := by
  intro xs
  induction xs with
  | nil => intro ys ts us hxs hys _ _; cases hxs; cases hys <;> simp [elementwise]
  | cons x xs ih =>
    intro ys ts us hxs hys ht hu
    cases hxs with
    | cons hx hxs =>
      cases hys with
      | nil => simp [elementwise]
      | cons hy hys =>
        simp only [Json.depthAll, Nat.max_le] at ht hu
        simp only [elementwise, Bool.and_eq_true, List.cons.injEq, heq hx hy ht.1 hu.1, ih hxs hys ht.2 hu.2]

/-- **`QCborValue ==` on decoded values is equality of the trees**, at a depth the trees do not
exceed. -/
theorem cborEqual_iff (d : ℕ) : ∀ {x y : QCborValue} {t u : Json}, Decodes H x t → Decodes H y u →
    t.depth ≤ d → u.depth ≤ d → (cborEqual H d x y = true ↔ t = u) := by
  induction d with
  | zero =>
    intro x y t u hx hy ht hu
    cases hx <;> cases hy <;> simp_all [Json.depth, cborEqual]
  | succ d ih =>
    intro x y t u hx hy ht hu
    cases x with
    | scalar a => cases hx; cases hy <;> simp [cborEqual]
    | array c =>
      cases y with
      | scalar b => cases hx <;> cases hy <;> simp [cborEqual]
      | array c' =>
        obtain ⟨ts, rfl⟩ : ∃ ts, t = .array ts := by cases hx <;> exact ⟨_, rfl⟩
        obtain ⟨us, rfl⟩ : ∃ us, u = .array us := by cases hy <;> exact ⟨_, rfl⟩
        simp only [Json.depth, Nat.add_le_add_iff_right] at ht hu
        rw [cborEqual, elementwise_iff ih (decodes_handle (x := ⟨c⟩) hx) (decodes_handle (x := ⟨c'⟩) hy) ht hu,
          Json.array.injEq]

end Decoded

variable {s : Store} {A : AStore}

/-- On a store related to private lists, `a == b` is equality of the private lists of `a` and `b`,
when `QCborValue ==` descends as deep as their trees nest. -/
theorem Rep.comparesEqual_iff (hr : Rep s A) (a b : ℕ) {d : ℕ} (ha : Json.depthAll (A.handle a) ≤ d)
    (hb : Json.depthAll (A.handle b) ≤ d) :
    comparesEqual (cborEqual s.heap d) s.heap (s.handle a) (s.handle b) = true ↔ A.handle a = A.handle b := by
  rw [comparesEqual_eq_elementwise (cborEqual_refl s.heap d)]
  exact elementwise_iff (cborEqual_iff d) (decodes_handle (hr.mirrors.handle a)) (decodes_handle (hr.mirrors.handle b))
    ha hb

/-- **Array equality answers equality of private lists.** From `n` default-constructed arrays, in
every store a program in scope reaches, whichever clone allocations fail, `a == b` holds for two
handles exactly when their private lists of JSON trees are equal, with `QCborValue ==` descending as
deep as the trees nest: sharing, null handles and the fast paths of `comparesEqual` never show. -/
theorem comparesEqual_answers_equality (n : ℕ) (ops : List Op) (hs : Op.allInScope n 0 ops = true)
    (alloc : ℕ → Bool) :
    ∀ s, (Store.init n).runAlloc alloc ops = .ok s → ∃ A, (AStore.init n).run ops = .ok A ∧
      ∀ a b d, Json.depthAll (A.handle a) ≤ d → Json.depthAll (A.handle b) ≤ d →
        (comparesEqual (cborEqual s.heap d) s.heap (s.handle a) (s.handle b) = true ↔ A.handle a = A.handle b) := by
  intro s hx
  obtain ⟨A, hA, hr⟩ := Rep.of_runAlloc hs hx
  exact ⟨A, hA, fun a b d ha hb => hr.comparesEqual_iff a b ha hb⟩

/-- `a.append(1)` and `b.append(1)` on two arrays, with every allocation succeeding: two backends,
equal arrays. -/
theorem comparesEqual_answers_equality_two :
    Op.allInScope 2 0 [.scalar (.integer 1), .append 0 0, .append 1 0] = true ∧
      ∀ s, (Store.init 2).runAlloc (fun _ => true) [.scalar (.integer 1), .append 0 0, .append 1 0] = .ok s →
        ∃ A, (AStore.init 2).run [.scalar (.integer 1), .append 0 0, .append 1 0] = .ok A ∧
          ∀ a b d, Json.depthAll (A.handle a) ≤ d → Json.depthAll (A.handle b) ≤ d →
            (comparesEqual (cborEqual s.heap d) s.heap (s.handle a) (s.handle b) = true ↔ A.handle a = A.handle b) :=
  ⟨by decide, comparesEqual_answers_equality 2 _ (by decide) _⟩

end QtJsonArray
