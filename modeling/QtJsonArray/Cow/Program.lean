import QtJsonArray.Cow.Decode

/-!
# Client programs

A client of `QJsonArray` as a straight-line program over variables: handle variables
`QJsonArray a, b, ...` and value variables `QJsonValue v, ...`, each numbered in the order it is
declared. A statement copies, moves, assigns or destroys a handle, calls a member on one, or
converts between arrays and values; one that declares a variable appends it.

The program has two meanings.

* `Store.exec` runs a statement on the store, through the members of `QJsonArray` and the
  special members the source declares (`QJsonArray(const QJsonArray &) = default`, the move
  constructor, `operator=(const QJsonArray &) = default`, `~QJsonArray() = default`), with
  allocation succeeding. What a failed allocation does is the subject of `Array.Faults`.
* `AStore.exec` runs it on private lists: every handle owns a list of JSON trees, every value is
  a tree, a copy duplicates a list and a member edits only the list of its own handle.

## The model

The conversions a program needs to put an array into an array are those of `QJsonValue` the
array's source calls or relies on: `QJsonValue(const QJsonArray &)` shares the array's backend,
`QJsonValue::toArray()` shares the value's, and `at` and `takeAt` hand out an element holding
its own reference. A value variable is destroyed by `~QJsonValue`, which drops that reference.
Strings are kept inline, with no container of their own (`Op.isString`).
A statement names only variables declared before it (`Op.allInScope`), as a compiler checks.
-/

namespace QtJsonArray

/-- A statement of a client program. `h` names a handle variable, `k` a value variable. -/
inductive Op where
  /-- `QJsonArray b(a)`: declares a handle sharing `a`'s backend. -/
  | copy (h : ℕ)
  /-- `a = b`. -/
  | assign (h src : ℕ)
  /-- `QJsonArray b(std::move(a))`: declares a handle taking `a`'s backend; `a` becomes null. -/
  | move (h : ℕ)
  /-- `a` goes out of scope: `~QJsonArray`. Its variable stays, as a null handle. -/
  | destroy (h : ℕ)
  /-- `a.insert(i, v)`. -/
  | insert (h : ℕ) (i : ℤ) (k : ℕ)
  /-- `a.append(v)`. -/
  | append (h : ℕ) (k : ℕ)
  /-- `a.prepend(v)`. -/
  | prepend (h : ℕ) (k : ℕ)
  /-- `a.removeAt(i)`. -/
  | removeAt (h : ℕ) (i : ℤ)
  /-- `QJsonValue w = a.takeAt(i)`. -/
  | takeAt (h : ℕ) (i : ℤ)
  /-- `a.replace(i, v)`. -/
  | replace (h : ℕ) (i : ℤ) (k : ℕ)
  /-- `QJsonValue w(a)`. -/
  | ofArray (h : ℕ)
  /-- `QJsonValue w = a.at(i)`. -/
  | «at» (h : ℕ) (i : ℤ)
  /-- `QJsonArray b = v.toArray()`. -/
  | toArray (k : ℕ)
  /-- `QJsonValue w(x)` for a value with no array. -/
  | scalar (x : Scalar)
  /-- `v` goes out of scope: `~QJsonValue`. Its variable stays, as Undefined. -/
  | destroyValue (k : ℕ)
  deriving Repr

namespace Op

/-- The handle variables a statement declares. -/
def newHandles : Op → ℕ
  | copy _ | move _ | toArray _ => 1
  | _ => 0

/-- The value variables a statement declares. -/
def newValues : Op → ℕ
  | takeAt _ _ | ofArray _ | «at» _ _ | scalar _ => 1
  | _ => 0

/-- The statement names only the first `nh` handle and `nv` value variables. -/
def inScope (nh nv : ℕ) : Op → Bool
  | copy h | move h | destroy h | removeAt h _ | takeAt h _ | ofArray h | «at» h _ => h < nh
  | assign h src => h < nh && src < nh
  | insert h _ k | append h k | prepend h k | replace h _ k => h < nh && k < nv
  | toArray k | destroyValue k => k < nv
  | scalar _ => true

/-- Each statement of a program names only variables declared before it. -/
def allInScope (nh nv : ℕ) : List Op → Bool
  | [] => true
  | op :: ops => op.inScope nh nv && allInScope (nh + op.newHandles) (nv + op.newValues) ops

/-- The statement declares a string value, the only way a string enters a program. Qt keeps a
string's characters in a container's byte data: a new `QJsonValue(QString)` allocates a
container, a string `at` reads out of an array holds a reference to the array's backend, and
`takeAt` of a string element allocates a container for it (`extractAt_complex`). The store keeps
every scalar inline and allocates only arrays' backends, so its backends and allocations are
Qt's on programs without strings. -/
def isString : Op → Bool
  | scalar (.string _) => true
  | _ => false

/-- The handle a member is called on: the one whose backend the statement may edit. -/
def target : Op → Option ℕ
  | insert h _ _ | append h _ | prepend h _ | removeAt h _ | takeAt h _ | replace h _ _ => some h
  | _ => none

end Op

/-! ### On the store -/

namespace Store

/-- A statement, run on the store; `alloc` says whether the clone a `detach` makes can be
allocated. A string is a scalar here, held inline in a value or an element: `at` and `takeAt`
of a string element and `QJsonValue(QString)` take no reference and allocate no container,
where Qt's do (`Op.isString`). -/
def execAlloc (alloc : Bool) (s : Store) : Op → Except Fault Store
  | .copy h => .ok ((s.retain (s.handle h).a).pushHandle (s.handle h))
  | .assign h src => .ok (s.reset h (s.handle src).a)
  | .move h => .ok (((s.retain (s.handle h).a).pushHandle (s.handle h)).reset h none)
  | .destroy h => .ok (s.reset h none)
  | .insert h i k => QJsonArray.insert alloc s h i (s.value k)
  | .append h k => QJsonArray.append alloc s h (s.value k)
  | .prepend h k => QJsonArray.prepend alloc s h (s.value k)
  | .removeAt h i => QJsonArray.removeAt alloc s h i
  | .takeAt h i => (QJsonArray.takeAt alloc s h i).map fun r => r.1.pushValue r.2
  | .replace h i k => QJsonArray.replace alloc s h i (s.value k)
  | .ofArray h => .ok ((s.retain (s.handle h).a).pushValue (.ofArray (s.handle h)))
  | .at h i =>
    let v := (s.handle h).at s.heap i
    .ok ((s.retain v.value.container).pushValue v)
  | .toArray k =>
    let x := (s.value k).toArray
    .ok ((s.retain x.a).pushHandle x)
  | .scalar x => .ok (s.pushValue ⟨.scalar x⟩)
  | .destroyValue k => .ok ((s.setValue k .undefined).release (s.value k).value.container.toList)

/-- A statement, run on the store with allocation succeeding. -/
def exec (s : Store) (op : Op) : Except Fault Store := s.execAlloc true op

/-- A program, run on the store: the statements in order, up to the first fault. -/
def run (s : Store) : List Op → Except Fault Store
  | [] => .ok s
  | op :: ops =>
    match s.exec op with
    | .ok s' => s'.run ops
    | .error e => .error e

/-- A program, run on the store with the `m`-th statement's allocation succeeding as `alloc m`
says. -/
def runAlloc (alloc : ℕ → Bool) (s : Store) : List Op → Except Fault Store
  | [] => .ok s
  | op :: ops =>
    match s.execAlloc (alloc 0) op with
    | .ok s' => s'.runAlloc (fun m => alloc (m + 1)) ops
    | .error e => .error e

@[simp] theorem run_nil (s : Store) : s.run [] = .ok s := rfl

theorem run_cons (s : Store) (op : Op) (ops : List Op) :
    s.run (op :: ops) = match s.exec op with
      | .ok s' => s'.run ops
      | .error e => .error e := rfl

@[simp] theorem runAlloc_nil (alloc : ℕ → Bool) (s : Store) : s.runAlloc alloc [] = .ok s := rfl

theorem runAlloc_cons (alloc : ℕ → Bool) (s : Store) (op : Op) (ops : List Op) :
    s.runAlloc alloc (op :: ops) = match s.execAlloc (alloc 0) op with
      | .ok s' => s'.runAlloc (fun m => alloc (m + 1)) ops
      | .error e => .error e := rfl

/-- With every allocation succeeding, a run is the plain run. -/
theorem run_eq_runAlloc (s : Store) (ops : List Op) : s.run ops = s.runAlloc (fun _ => true) ops := by
  induction ops generalizing s with
  | nil => rfl
  | cons op ops ih =>
    rw [run_cons, runAlloc_cons]
    show (match s.execAlloc true op with | .ok s' => s'.run ops | .error e => .error e) = _
    cases s.execAlloc true op with
    | ok s' => exact ih s'
    | error e => rfl

end Store

/-! ### On private lists -/

/-- The program's variables as private values: a list of trees for each handle, a tree for each
value. -/
structure AStore where
  handles : List (List Json)
  values : List Json
  deriving Repr

/-- `QJsonValue::Type::Undefined` is stored as Null by `insert`. -/
def Json.norm : Json → Json
  | .scalar .undefined => .scalar .null
  | t => t

/-- `QJsonValue::toArray()` on a tree: its items, or an empty array. -/
def Json.toArray : Json → List Json
  | .array ts => ts
  | .scalar _ => []

/-- `at(i)` on a private list: Undefined out of range. -/
def listAt (ts : List Json) (i : ℤ) : Json :=
  if 0 ≤ i ∧ i < ts.length then ts.getD i.toNat .undefined else .undefined

namespace AStore

/-- The list of handle variable `h`; an undeclared one is empty. -/
def handle (A : AStore) (h : ℕ) : List Json := A.handles.getD h []

/-- The tree of value variable `k`; an undeclared one is Undefined. -/
def value (A : AStore) (k : ℕ) : Json := A.values.getD k .undefined

def setHandle (A : AStore) (h : ℕ) (ts : List Json) : AStore := { A with handles := A.handles.set h ts }

def pushHandle (A : AStore) (ts : List Json) : AStore := { A with handles := A.handles ++ [ts] }

def setValue (A : AStore) (k : ℕ) (t : Json) : AStore := { A with values := A.values.set k t }

def pushValue (A : AStore) (t : Json) : AStore := { A with values := A.values ++ [t] }

/-- `n` empty handles and no values. -/
def init (n : ℕ) : AStore := ⟨List.replicate n [], []⟩

/-- `insert(i, v)` on the private list of handle `h`: the assertion on `i`, then the tree goes in. -/
def insertAt (A : AStore) (h : ℕ) (i : ℤ) (t : Json) : Except Fault AStore :=
  if 0 ≤ i ∧ i ≤ (A.handle h).length then .ok (A.setHandle h ((A.handle h).insertIdx i.toNat t.norm))
  else .error .assertion

/-- A statement, run on private lists. -/
def exec (A : AStore) : Op → Except Fault AStore
  | .copy h => .ok (A.pushHandle (A.handle h))
  | .assign h src => .ok (A.setHandle h (A.handle src))
  | .move h => .ok ((A.pushHandle (A.handle h)).setHandle h [])
  | .destroy h => .ok (A.setHandle h [])
  | .insert h i k => A.insertAt h i (A.value k)
  | .append h k => A.insertAt h (A.handle h).length (A.value k)
  | .prepend h k => A.insertAt h 0 (A.value k)
  | .removeAt h i =>
    .ok (if 0 ≤ i ∧ i < (A.handle h).length then A.setHandle h ((A.handle h).eraseIdx i.toNat) else A)
  | .takeAt h i =>
    .ok ((if 0 ≤ i ∧ i < (A.handle h).length then A.setHandle h ((A.handle h).eraseIdx i.toNat) else A).pushValue
      (listAt (A.handle h) i))
  | .replace h i k =>
    if 0 ≤ i ∧ i < (A.handle h).length then .ok (A.setHandle h ((A.handle h).set i.toNat (A.value k)))
    else .error .assertion
  | .ofArray h => .ok (A.pushValue (.array (A.handle h)))
  | .at h i => .ok (A.pushValue (listAt (A.handle h) i))
  | .toArray k => .ok (A.pushHandle (A.value k).toArray)
  | .scalar x => .ok (A.pushValue (.scalar x))
  | .destroyValue k => .ok (A.setValue k .undefined)

/-- A program, run on private lists. -/
def run (A : AStore) : List Op → Except Fault AStore
  | [] => .ok A
  | op :: ops =>
    match A.exec op with
    | .ok A' => A'.run ops
    | .error e => .error e

@[simp] theorem run_nil (A : AStore) : A.run [] = .ok A := rfl

theorem run_cons (A : AStore) (op : Op) (ops : List Op) :
    A.run (op :: ops) = match A.exec op with
      | .ok A' => A'.run ops
      | .error e => .error e := rfl

/-! ### Variables -/

@[simp] theorem handles_length_setHandle (A : AStore) (h : ℕ) (ts : List Json) :
    (A.setHandle h ts).handles.length = A.handles.length := by
  simp [setHandle]

@[simp] theorem handles_length_pushHandle (A : AStore) (ts : List Json) :
    (A.pushHandle ts).handles.length = A.handles.length + 1 := by
  simp [pushHandle]

@[simp] theorem values_length_setValue (A : AStore) (k : ℕ) (t : Json) :
    (A.setValue k t).values.length = A.values.length := by
  simp [setValue]

@[simp] theorem values_length_pushValue (A : AStore) (t : Json) :
    (A.pushValue t).values.length = A.values.length + 1 := by
  simp [pushValue]

@[simp] theorem values_setHandle (A : AStore) (h : ℕ) (ts : List Json) : (A.setHandle h ts).values = A.values :=
  rfl

@[simp] theorem values_pushHandle (A : AStore) (ts : List Json) : (A.pushHandle ts).values = A.values := rfl

@[simp] theorem handles_setValue (A : AStore) (k : ℕ) (t : Json) : (A.setValue k t).handles = A.handles := rfl

@[simp] theorem handles_pushValue (A : AStore) (t : Json) : (A.pushValue t).handles = A.handles := rfl

theorem handle_setHandle (A : AStore) {h : ℕ} (hh : h < A.handles.length) (ts : List Json) (h' : ℕ) :
    (A.setHandle h ts).handle h' = if h' = h then ts else A.handle h' := by
  unfold handle setHandle
  by_cases he : h' = h
  · subst he; simp [hh]
  · simp [he, List.getElem?_set_ne (Ne.symm he)]

@[simp] theorem handle_setHandle_ne (A : AStore) {h h' : ℕ} (hne : h' ≠ h) (ts : List Json) :
    (A.setHandle h ts).handle h' = A.handle h' := by
  simp [handle, setHandle, List.getElem?_set_ne (Ne.symm hne)]

@[simp] theorem handle_pushValue (A : AStore) (t : Json) (h : ℕ) : (A.pushValue t).handle h = A.handle h := rfl

@[simp] theorem value_setHandle (A : AStore) (h : ℕ) (ts : List Json) (k : ℕ) : (A.setHandle h ts).value k = A.value k :=
  rfl

theorem handle_pushHandle (A : AStore) (ts : List Json) (h : ℕ) :
    (A.pushHandle ts).handle h = if h = A.handles.length then ts else A.handle h := by
  unfold handle pushHandle
  rcases lt_trichotomy h A.handles.length with hh | rfl | hh
  · simp [List.getElem?_append_left hh, hh.ne]
  · simp
  · have hl : (A.handles ++ [ts]).length ≤ h := by rw [List.length_append, List.length_singleton]; omega
    simp [List.getElem?_eq_none hl, List.getElem?_eq_none hh.le, hh.ne']

theorem value_setValue (A : AStore) {k : ℕ} (hk : k < A.values.length) (t : Json) (k' : ℕ) :
    (A.setValue k t).value k' = if k' = k then t else A.value k' := by
  unfold value setValue
  by_cases he : k' = k
  · subst he; simp [hk]
  · simp [he, List.getElem?_set_ne (Ne.symm he)]

theorem value_pushValue (A : AStore) (t : Json) (k : ℕ) :
    (A.pushValue t).value k = if k = A.values.length then t else A.value k := by
  unfold value pushValue
  rcases lt_trichotomy k A.values.length with hk | rfl | hk
  · simp [List.getElem?_append_left hk, hk.ne]
  · simp
  · have hl : (A.values ++ [t]).length ≤ k := by rw [List.length_append, List.length_singleton]; omega
    simp [List.getElem?_eq_none hl, List.getElem?_eq_none hk.le, hk.ne']

/-- **A statement declares what it says**: a run in scope keeps the private store's variables
in step with the declarations. -/
theorem exec_lengths {A A' : AStore} {op : Op} (hs : op.inScope A.handles.length A.values.length = true)
    (he : A.exec op = .ok A') :
    A'.handles.length = A.handles.length + op.newHandles ∧ A'.values.length = A.values.length + op.newValues := by
  cases op <;> simp only [exec, insertAt, Op.newHandles, Op.newValues] at he ⊢ <;>
    (try split_ifs at he) <;> cases he <;> simp

/-- **A member touches only its own list**: called on `h`, it leaves every other handle's list and
every value declared before it. -/
theorem exec_member {A A' : AStore} {op : Op} {h : ℕ} (ht : op.target = some h) (he : A.exec op = .ok A') :
    (∀ h', h' ≠ h → A'.handle h' = A.handle h') ∧ ∀ k, k < A.values.length → A'.value k = A.value k := by
  cases op <;> simp only [Op.target, Option.some.injEq, reduceCtorEq] at ht <;> subst ht <;>
    simp only [exec, insertAt] at he <;> (try split_ifs at he) <;> cases he <;>
    exact ⟨fun h' hne => by simp [hne], fun k hk => by simp [value_pushValue, hk.ne]⟩

/-- On private lists a statement fails only at the assertion on an index. -/
theorem exec_fault {A : AStore} {op : Op} {e : Fault} (he : A.exec op = .error e) : e = .assertion := by
  cases op <;> simp only [exec, insertAt] at he <;> (try split_ifs at he) <;> cases he <;> rfl

theorem run_fault {A : AStore} {ops : List Op} {e : Fault} (he : A.run ops = .error e) : e = .assertion := by
  induction ops generalizing A with
  | nil => cases he
  | cons op ops ih =>
    rw [run_cons] at he
    cases hx : A.exec op with
    | ok A' => rw [hx] at he; exact ih he
    | error e' => rw [hx] at he; cases he; exact exec_fault hx

end AStore

end QtJsonArray
