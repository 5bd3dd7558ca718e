import QtJsonArray.Array.Contents

/-!
# Undefined elements and failed detaches

Two places where what a member stores or dereferences is not what its documentation suggests.

`insert` stores an Undefined value as Null, so that Undefined stays the sentinel `at` returns out
of range; `replace` stores the value as it is (`replace_stores_undefined`). Every other call
keeps the array free of Undefined elements (`run_keeps_defined`), and so does `replace` with a
value that is not Undefined when the call is made.

`QJsonArray::detach` sets `a` to what `QCborContainerPrivate::detach` returns, null when the
clone cannot be allocated, and the members go on to dereference it: a failed detach drops the
handle's backend and ends in a null dereference (`removeAt_after_failed_detach`).
-/

namespace QtJsonArray

open Store QJsonArray

/-! ### Undefined elements -/

/-- `append(1)` on a new array, then `replace(0, Undefined)`: the array has one element, and it
reads as Undefined. -/
theorem replace_stores_undefined :
    ∃ s, ((append true (Store.init 1) 0 ⟨.scalar (.integer 1)⟩).bind fun s₁ =>
        replace true s₁ 0 0 .undefined) = .ok s ∧
      (s.handle 0).size s.heap = 1 ∧ ((s.handle 0).at s.heap 0).type = .undefined := by
  refine ⟨⟨[some ⟨[.scalar .undefined], 1⟩], [⟨some 0⟩], []⟩, ?_, rfl, rfl⟩
  simp [QJsonArray.append, QJsonArray.insert, detachOrCreate, Store.init, Store.reset, Store.handle, Store.alloc,
    Store.retain, Store.setHandle, Store.insertAt, Store.setElements, Heap.read, Heap.backend, size, QJsonValue.type,
    QCborValue.type, QCborValue.fromJsonValue, Store.write, bind, Except.bind, replace, detach, detachBackend,
    Store.replaceAt, Backend.valueAt, QJsonValue.undefined]

theorem QJsonValue.type_norm_rt (v : QJsonValue) : v.norm.rt.type ≠ .undefined := by
  unfold QJsonValue.norm QJsonValue.rt
  split <;> simp_all [QJsonValue.null, QJsonValue.type, QCborValue.type]

namespace ArrayOp

/-- A call that cannot store Undefined, given the values `vals` the program holds when it is made:
any call but `replace`, and `replace` with a declared value that is not Undefined. -/
def StoresDefined (vals : List QJsonValue) : ArrayOp → Prop
  | .replace _ k => k < vals.length ∧ (vals.getD k .undefined).type ≠ .undefined
  | _ => True

/-- One call, read on the contents, keeps Undefined out of them. -/
theorem spec_defined {c vals : List QJsonValue} {op : ArrayOp} (hc : ∀ v ∈ c, v.type ≠ .undefined)
    (hop : StoresDefined vals op) {r : List QJsonValue × List QJsonValue × QJsonValue}
    (hr : spec c vals op = .ok r) : ∀ v ∈ r.1, v.type ≠ .undefined := by
  cases op with
  | insert i k =>
    simp only [spec] at hr
    split at hr
    · next hi =>
      cases hr
      intro v hv
      rcases (List.mem_insertIdx (by omega)).mp hv with rfl | hv
      · exact QJsonValue.type_norm_rt _
      · exact hc v hv
    · cases hr
  | append k =>
    cases hr
    exact List.forall_mem_append.mpr ⟨hc, List.forall_mem_singleton.mpr (QJsonValue.type_norm_rt _)⟩
  | prepend k =>
    cases hr
    exact List.forall_mem_cons.mpr ⟨QJsonValue.type_norm_rt _, hc⟩
  | removeAt i =>
    cases hr
    intro v hv
    split at hv
    · exact hc v (List.mem_of_mem_eraseIdx hv)
    · exact hc v hv
  | takeAt i =>
    simp only [spec] at hr
    split at hr <;> cases hr
    · exact fun v hv => hc v (List.mem_of_mem_eraseIdx hv)
    · exact hc
  | replace i k =>
    simp only [spec] at hr
    split at hr
    · cases hr
      intro v hv
      rcases List.mem_or_eq_of_mem_set hv with hv | rfl
      · exact hc v hv
      · exact hop.2
    · cases hr

variable {s : Store} {h : ℕ}

/-- One call on the store keeps Undefined out of the handle's contents. -/
theorem apply_defined (hc : s.Counted []) (hh : h < s.handles.length)
    (hdef : ∀ v ∈ contents s.heap (s.handle h), v.type ≠ .undefined) {op : ArrayOp}
    (hop : StoresDefined s.values op) {r : Store × QJsonValue} (ha : op.apply s h = .ok r) :
    ∀ v ∈ contents r.1.heap (r.1.handle h), v.type ≠ .undefined := by
  have hspec := (apply_spec hc hh op).1
  rw [ha] at hspec
  exact spec_defined hdef hop hspec.symm

/-- A run keeps Undefined out of the handle's contents when each `replace` stores a defined value
of those the program holds at that call. -/
theorem run_defined (hc : s.Counted []) (hh : h < s.handles.length)
    (hdef : ∀ v ∈ contents s.heap (s.handle h), v.type ≠ .undefined) {ops : List ArrayOp}
    (hops : ∀ pre op post, ops = pre ++ op :: post → ∀ r, run s h pre = .ok r → StoresDefined r.1.values op)
    {r : Store × List QJsonValue} (hr : run s h ops = .ok r) :
    ∀ v ∈ contents r.1.heap (r.1.handle h), v.type ≠ .undefined := by
  induction ops generalizing s r with
  | nil => cases hr; exact hdef
  | cons op ops ih =>
    cases ha : op.apply s h with
    | error f => simp [run, ha] at hr
    | ok r₁ =>
      obtain ⟨s₁, v₁⟩ := r₁
      cases hr₁ : run s₁ h ops with
      | error f => simp [run, ha, hr₁] at hr
      | ok r₂ =>
        simp only [run, ha, hr₁] at hr
        cases hr
        obtain ⟨hc₁, hh₁⟩ := (apply_spec hc hh op).2 _ ha
        refine ih (r := r₂) hc₁ hh₁ (apply_defined hc hh hdef (hops [] op ops rfl (s, []) rfl) ha) ?_ hr₁
        rintro pre op' post rfl ⟨s', vs⟩ hpre
        exact hops (op :: pre) op' post rfl (s', v₁ :: vs) (by simp only [run, ha, hpre])

end ArrayOp

/-- **Undefined stays out of range**: over any run of `insert`, `append`, `prepend`, `removeAt`,
`takeAt`, and `replace` with a value that is not Undefined when the call is made (one the program
declared, or took out of the array earlier in the run), an array with no Undefined element never
gets one: every in-range `at(i)` is defined. -/
theorem run_keeps_defined {s : Store} {h : ℕ} (hc : s.Counted []) (hh : h < s.handles.length)
    (hdef : ∀ v ∈ contents s.heap (s.handle h), v.type ≠ .undefined) {ops : List ArrayOp}
    (hops : ∀ pre op post, ops = pre ++ op :: post → ∀ r, ArrayOp.run s h pre = .ok r →
      ArrayOp.StoresDefined r.1.values op)
    {r : Store × List QJsonValue} (hr : ArrayOp.run s h ops = .ok r) (i : ℤ)
    (hi : 0 ≤ i ∧ i < (r.1.handle h).size r.1.heap) :
    ((r.1.handle h).at r.1.heap i).type ≠ .undefined := by
  have hmem := ArrayOp.run_defined hc hh hdef hops hr
  rw [at_eq_contents, if_pos hi]
  rw [size_eq, ← length_contents] at hi
  have hlt : i.toNat < (contents r.1.heap (r.1.handle h)).length := by omega
  rw [List.getD_eq_getElem?_getD, List.getElem?_eq_getElem hlt, Option.getD_some]
  exact hmem _ (List.getElem_mem hlt)

/-- A new array, `append`ed the value of a variable that does not exist (Undefined), reads `Null`. -/
theorem run_keeps_defined_append :
    ArrayOp.run (Store.init 1) 0 [.append 0] = .ok (⟨[some ⟨[.scalar .null], 1⟩], [⟨some 0⟩], []⟩, [.undefined]) ∧
      ((⟨some 0⟩ : QJsonArray).at [some ⟨[.scalar .null], 1⟩] 0).type ≠ .undefined := by
  have hrun : ArrayOp.run (Store.init 1) 0 [.append 0] =
      .ok (⟨[some ⟨[.scalar .null], 1⟩], [⟨some 0⟩], []⟩, [.undefined]) := by
    simp [ArrayOp.run, ArrayOp.apply, QJsonArray.append, QJsonArray.insert, detachOrCreate, Store.init,
      Store.reset, Store.handle, Store.alloc, Store.retain, Store.setHandle, Store.insertAt, Store.setElements,
      Heap.read, Heap.backend, size, QJsonValue.type, QCborValue.type, Store.write, Except.map, Store.value,
      QJsonValue.undefined]
  refine ⟨hrun, run_keeps_defined (counted_init 1) (by decide) (by simp [contents, Store.init, size, Store.handle])
    (fun pre op post he _ _ => ?_) hrun 0 (by decide)⟩
  rcases pre with _ | ⟨p, pre⟩
  · cases he; trivial
  · simp at he

/-! ### Failed detaches -/

/-- `a.append(Null)` on a new array, `b = a`, and `a.removeAt(0)` with the clone's allocation
failing: the call dereferences a null backend, and `a` has lost its element. -/
theorem removeAt_after_failed_detach :
    (append true (Store.init 2) 0 .null).map (fun s => s.reset 1 (s.handle 0).a) =
        .ok ⟨[some ⟨[.scalar .null], 2⟩], [⟨some 0⟩, ⟨some 0⟩], []⟩ ∧
      contents [some ⟨[.scalar .null], 2⟩] ⟨some 0⟩ = [.null] ∧
      removeAt false ⟨[some ⟨[.scalar .null], 2⟩], [⟨some 0⟩, ⟨some 0⟩], []⟩ 0 0 = .error .nullDereference ∧
      contents (detach false ⟨[some ⟨[.scalar .null], 2⟩], [⟨some 0⟩, ⟨some 0⟩], []⟩ 0).1.heap
        ((detach false ⟨[some ⟨[.scalar .null], 2⟩], [⟨some 0⟩, ⟨some 0⟩], []⟩ 0).1.handle 0) = [] := by
  refine ⟨?_, rfl, ?_, ?_⟩
  · simp [QJsonArray.append, QJsonArray.insert, detachOrCreate, Store.init, Store.reset, Store.handle, Store.alloc,
      Store.retain, Store.setHandle, Store.insertAt, Store.setElements, Heap.read, Heap.backend, size,
      QJsonValue.type, QCborValue.type, QCborValue.fromJsonValue, Store.write, Except.map, QJsonValue.null]
  · simp [QJsonArray.removeAt, detach, detachBackend, Store.handle, Heap.backend, Heap.read, Store.reset,
      Store.setHandle, handles_release]
  · simp [detach, detachBackend, Store.handle, Heap.backend, Heap.read, Store.reset, Store.setHandle, contents,
      size, handles_release]

end QtJsonArray
