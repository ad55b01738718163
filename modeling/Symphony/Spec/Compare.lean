import Symphony.Kernel.Compare

/-!
# Order of strings

Strings are ordered lexicographically by their bytes as unsigned numbers. `Agree` says that the
three comparisons tell this order.
-/

namespace Symphony

/-- The bytes at the first index where two strings differ, the NUL behind the shorter one
included. -/
def firstDifference : List UInt8 → List UInt8 → Option (UInt8 × UInt8)
  | [], [] => none
  | [], y :: _ => some (0, y)
  | x :: _, [] => some (x, 0)
  | x :: a, y :: b => if x = y then firstDifference a b else some (x, y)

/-- The sign of a value tells how two strings are ordered. -/
structure Orders (v : Int) (a b : List UInt8) : Prop where
  /-- A negative value. -/
  neg : v < 0 ↔ a < b
  /-- Zero. -/
  zero : v = 0 ↔ a = b
  /-- A positive value. -/
  pos : 0 < v ↔ b < a

/-- The comparisons agree on two strings. -/
structure Agree (a b : CString) : Prop where
  /-- `strcmp` has the sign of `memcmp` over the shorter string and its NUL. -/
  bytes : ∀ n : UInt64, n.toNat = min a.bytes.length b.bytes.length + 1 →
    ∃ v w, strcmp a b = .ok v ∧ memcmp a.get b.get n = .ok w ∧ v.sign = w.sign
  /-- `strcmp` tells the order. -/
  order : ∃ v, strcmp a b = .ok v ∧ Orders v a.bytes b.bytes
  /-- `strncmp` tells the order of the first characters. -/
  first : ∀ n : UInt64, ∃ v, strncmp a b n = .ok v ∧
    Orders v (a.bytes.take n.toNat) (b.bytes.take n.toNat)
  /-- `strncmp` has the sign of `strcmp` where it gets as far as a NUL. -/
  beyond : ∀ n : UInt64, min a.bytes.length b.bytes.length < n.toNat →
    ∃ v w, strncmp a b n = .ok v ∧ strcmp a b = .ok w ∧ v.sign = w.sign

end Symphony
