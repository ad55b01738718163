import Symphony.Library.Memory

/-!
# Memory functions of the kernel's C library

The byte loops of `string.c` over the memory of the machine.
-/

namespace Symphony

/-- Loop of `memset`: `left` bytes from index `i` on. -/
def memsetGo (s : UInt64) (c : UInt8) (i : Nat) : Nat → Memory → Memory
  | 0, m => m
  | left + 1, m => memsetGo s c (i + 1) left (m.store8 (s + UInt64.ofNat i) c)

/-- `memset`. -/
def memset (m : Memory) (s : UInt64) (c : UInt8) (n : UInt64) : Memory := memsetGo s c 0 n.toNat m

/-- Ascending loop of `memmove`: `left` bytes from index `i` on. -/
def copyUp (dest src : UInt64) (i : Nat) : Nat → Memory → Memory
  | 0, m => m
  | left + 1, m =>
    copyUp dest src (i + 1) left
      (m.store8 (dest + UInt64.ofNat i) (m.byte (src + UInt64.ofNat i)))

/-- Descending loop of `memmove` from index `i` down to index one; it copies the byte in front
of its index. -/
def copyDown (dest src : UInt64) : Nat → Memory → Memory
  | 0, m => m
  | i + 1, m =>
    copyDown dest src i (m.store8 (dest + UInt64.ofNat i) (m.byte (src + UInt64.ofNat i)))

/-- `memmove` returns its first argument. -/
def memmove (m : Memory) (dest src n : UInt64) : UInt64 × Memory :=
  if src > dest then (dest, copyUp dest src 0 n.toNat m)
  else if src < dest then (dest, copyDown dest src n.toNat m)
  else (dest, m)

/-- The loop writes its part of the span. -/
theorem memsetGo_writes (s : UInt64) (c : UInt8) (i left : Nat) (m : Memory)
    (fits : i + left ≤ 2 ^ 64) : (m.Writes (Span s (i + left))) (memsetGo s c i left m) := by
  induction left generalizing i m with
  | zero => exact Memory.Writes.refl
  | succ left ih =>
    have rest := ih (i + 1) (m.store8 (s + UInt64.ofNat i) c) (by omega)
    refine ((m.store8_writes _ c).mono ?_).trans (rest.mono fun a inside => ?_)
    · rintro a here
      have distance := (eq_add_ofNat_iff (by omega)).mp here
      unfold Span
      omega
    · rwa [show i + (left + 1) = i + 1 + left by omega]

/-- The loop sets exactly the bytes from its index on. -/
theorem memsetGo_byte (s : UInt64) (c : UInt8) (i left : Nat) (m : Memory) (a : UInt64)
    (fits : i + left ≤ 2 ^ 64) :
    (memsetGo s c i left m).byte a =
      if i ≤ (a - s).toNat ∧ (a - s).toNat < i + left then c else m.byte a := by
  induction left generalizing i m with
  | zero =>
    rw [if_neg (by omega)]
    rfl
  | succ left ih =>
    have here : a = s + UInt64.ofNat i ↔ (a - s).toNat = i := eq_add_ofNat_iff (by omega)
    change (memsetGo s c (i + 1) left (m.store8 (s + UInt64.ofNat i) c)).byte a = _
    rw [ih (i + 1) _ (by omega)]
    by_cases at_index : (a - s).toNat = i
    · rw [if_neg (by omega), if_pos (by omega)]
      exact if_pos (here.mpr at_index)
    · have elsewhere : (m.store8 (s + UInt64.ofNat i) c).byte a = m.byte a :=
        if_neg fun same => at_index (here.mp same)
      rw [elsewhere]
      exact if_congr (by omega) rfl rfl

/-- `memset` writes its span only. -/
theorem memset_writes (m : Memory) (s : UInt64) (c : UInt8) (n : UInt64) :
    m.Writes (Span s n.toNat) (memset m s c n) := by
  have := n.toNat_lt
  simpa [memset] using memsetGo_writes s c 0 n.toNat m (by omega)

/-- `memset` sets exactly the bytes of its span. -/
theorem memset_byte (m : Memory) (s : UInt64) (c : UInt8) (n a : UInt64) :
    (memset m s c n).byte a = if Span s n.toNat a then c else m.byte a := by
  have := n.toNat_lt
  rw [memset, memsetGo_byte s c 0 n.toNat m a (by omega)]
  exact if_congr (by simp [Span]) rfl rfl

end Symphony
