import Symphony.Kernel.Print

/-!
# Comparisons of the kernel's C library

The comparison functions of `string.c`. `memcmp` gets two objects as what can be read of them
byte by byte, `strcmp` and `strncmp` get strings.
-/

namespace Symphony

/-- Loop of `memcmp`: `left` bytes from index `i` on. -/
def memcmpGo (p1 p2 : Nat → Except Fault UInt8) (i : Nat) : Nat → Except Fault Int
  | 0 => .ok 0
  | left + 1 => do
    let b1 ← p1 i
    let b2 ← p2 i
    if b1 ≠ b2 then .ok (if b1 < b2 then -1 else 1) else memcmpGo p1 p2 (i + 1) left

/-- `memcmp`. -/
def memcmp (p1 p2 : Nat → Except Fault UInt8) (n : UInt64) : Except Fault Int :=
  memcmpGo p1 p2 0 n.toNat

/-- Loop of `strcmp` from index `i` on. -/
def strcmpGo (s1 s2 : CString) (i : Nat) : Nat → Except Fault Int
  | 0 => .error .diverges
  | fuel + 1 => do
    let c1 ← s1.get i
    let c2 ← s2.get i
    if c1 ≠ 0 ∧ c2 ≠ 0 ∧ c1 = c2 then strcmpGo s1 s2 (i + 1) fuel
    else .ok (intOfChar c1 - intOfChar c2)

/-- `strcmp`. The loop ends with the first string. -/
def strcmp (s1 s2 : CString) : Except Fault Int := strcmpGo s1 s2 0 (s1.bytes.length + 1)

/-- Loop of `strncmp`: `n` characters from index `i` on. -/
def strncmpGo (s1 s2 : CString) (i : Nat) : Nat → Except Fault Int
  | 0 => .ok 0
  | n + 1 => do
    let c1 ← s1.get i
    let c2 ← s2.get i
    if c1 ≠ 0 ∧ c2 ≠ 0 ∧ c1 = c2 then strncmpGo s1 s2 (i + 1) n
    else .ok (intOfChar c1 - intOfChar c2)

/-- `strncmp`. -/
def strncmp (s1 s2 : CString) (n : UInt64) : Except Fault Int := strncmpGo s1 s2 0 n.toNat

end Symphony
