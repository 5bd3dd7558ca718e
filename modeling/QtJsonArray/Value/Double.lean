import Mathlib.Algebra.Group.Nat.Basic

/-!
# Doubles as `QJsonValue` compares them

A `QJsonValue` number is a CBOR integer (a `qint64`) or a CBOR double. `QJsonValue`'s
equality compares two numbers of which at least one is a double as C++ doubles
(`lhs.toDouble() == rhs.toDouble()`), converting an integer with `double(qint64)`.
This module models both operations on IEEE 754 binary64 bit patterns, which is how a
`QCborValue` keeps a double: `==` treats every NaN as unequal to everything and `-0.0`
as equal to `0.0`; the conversion rounds to nearest, ties to even.
-/

namespace QtJsonArray

/-- A binary64 NaN: exponent all ones, fraction not zero. -/
def isNaN (bits : UInt64) : Bool :=
  (bits >>> 52) &&& 0x7FF == 0x7FF && bits &&& 0xFFFFFFFFFFFFF != 0

/-- C++ `==` on two doubles. -/
def doubleEq (x y : UInt64) : Bool :=
  !isNaN x && !isNaN y && (x == y || (x <<< 1 == 0 && y <<< 1 == 0))

/-- `double(qint64)`: the binary64 nearest to `n`, ties to even. `m` has `e + 1` bits, of
which the significand keeps 53. -/
def int64ToDouble (n : ℤ) : UInt64 :=
  let m := n.natAbs
  if m = 0 then 0 else
  let e := Nat.log2 m
  let (sig, e) :=
    if e ≤ 52 then (m * 2 ^ (52 - e), e)
    else
      let k := e - 52
      let q := m / 2 ^ k
      let r := m % 2 ^ k
      let q := if 2 ^ k < 2 * r ∨ (2 * r = 2 ^ k ∧ q % 2 = 1) then q + 1 else q
      if q = 2 ^ 53 then (2 ^ 52, e + 1) else (q, e)
  UInt64.ofNat ((if n < 0 then 2 ^ 63 else 0) + (e + 1023) * 2 ^ 52 + (sig - 2 ^ 52))

/-- The integer `1` converts to the bits of `1.0`; `Nat.log2` does not reduce by `decide`. -/
theorem int64ToDouble_one : int64ToDouble 1 = 0x3FF0000000000000 := by
  simp [int64ToDouble, Nat.log2]

/-- `-0.0` equals `0.0` although their bits differ. -/
example : doubleEq 0x8000000000000000 0 = true := by decide

end QtJsonArray
