import Symphony.Kernel.Strings

/-!
# Overlapping moves

`memmove` copies upwards when the source lies behind the destination and downwards when it lies
in front of it. In either direction a byte is stored only where no byte is read later, so every
byte that is read is the one that was there before the call.
-/

namespace Symphony

variable {dest src : UInt64}

/-- Bytes behind a store of one byte. -/
theorem store8_byte (m : Memory) (a : UInt64) (v : UInt8) (x : UInt64) :
    (m.store8 a v).byte x = if x = a then v else m.byte x := rfl

/-- Upwards, no byte is stored where a later one is read. -/
theorem copyUp_byte {i left : Nat} (m : Memory) (a : UInt64) (fits : i + left ≤ 2 ^ 64)
    (unread : ∀ j k, j < k → k < i + left → src + UInt64.ofNat k ≠ dest + UInt64.ofNat j) :
    (copyUp dest src i left m).byte a =
      if i ≤ (a - dest).toNat ∧ (a - dest).toNat < i + left then m.byte (src + (a - dest))
      else m.byte a := by
  induction left generalizing i m with
  | zero =>
    rw [if_neg (by omega)]
    rfl
  | succ left ih =>
    have here : a = dest + UInt64.ofNat i ↔ (a - dest).toNat = i := eq_add_ofNat_iff (by omega)
    have distance : UInt64.ofNat (a - dest).toNat = a - dest := UInt64.ofNat_toNat
    rw [copyUp, ih _ (by omega) fun j k order small => unread j k order (by omega), store8_byte,
      store8_byte]
    by_cases first : (a - dest).toNat = i
    · rw [if_neg (by omega), if_pos (here.mpr first), if_pos (by omega), ← distance, first]
    · rw [if_neg (mt here.mp first)]
      by_cases later : i + 1 ≤ (a - dest).toNat ∧ (a - dest).toNat < i + 1 + left
      · have kept := unread i (a - dest).toNat (by omega) (by omega)
        rw [distance] at kept
        rw [if_pos later, if_neg kept, if_pos (by omega)]
      · rw [if_neg later, if_neg (by omega)]

/-- Downwards, no byte is stored where one in front of it is read. -/
theorem copyDown_byte {i : Nat} (m : Memory) (a : UInt64) (fits : i ≤ 2 ^ 64)
    (unread : ∀ j k, k < j → j < i → src + UInt64.ofNat k ≠ dest + UInt64.ofNat j) :
    (copyDown dest src i m).byte a =
      if (a - dest).toNat < i then m.byte (src + (a - dest)) else m.byte a := by
  induction i generalizing m with
  | zero =>
    rw [if_neg (Nat.not_lt_zero _)]
    rfl
  | succ i ih =>
    have here : a = dest + UInt64.ofNat i ↔ (a - dest).toNat = i := eq_add_ofNat_iff (by omega)
    have distance : UInt64.ofNat (a - dest).toNat = a - dest := UInt64.ofNat_toNat
    rw [copyDown, ih _ (by omega) fun j k order small => unread j k order (by omega), store8_byte,
      store8_byte]
    by_cases last : (a - dest).toNat = i
    · rw [if_neg (by omega), if_pos (here.mpr last), if_pos (by omega), ← distance, last]
    · rw [if_neg (mt here.mp last)]
      by_cases earlier : (a - dest).toNat < i
      · have kept := unread i (a - dest).toNat (by omega) (by omega)
        rw [distance] at kept
        rw [if_pos earlier, if_neg kept, if_pos (by omega)]
      · rw [if_neg earlier, if_neg (by omega)]

/-- An address of a range that does not wrap. -/
theorem toNat_add_index {start : UInt64} {n i : Nat} (fits : start.toNat + n ≤ 2 ^ 64) (inside : i < n) :
    (start + UInt64.ofNat i).toNat = start.toNat + i := by
  have index : (UInt64.ofNat i).toNat = i := toNat_ofNat_of_fits (by omega)
  rw [toNat_add_of_fits (by omega), index]

/-- Every byte behind `memmove`, for ranges that do not wrap. -/
theorem memmove_byte (m : Memory) {n : UInt64} (destFits : dest.toNat + n.toNat ≤ 2 ^ 64)
    (srcFits : src.toNat + n.toNat ≤ 2 ^ 64) (a : UInt64) :
    (memmove m dest src n).2.byte a =
      if (a - dest).toNat < n.toNat then m.byte (src + (a - dest)) else m.byte a := by
  have size := n.toNat_lt
  unfold memmove
  by_cases behind : src > dest
  · have order : dest.toNat < src.toNat := UInt64.lt_iff_toNat_lt.mp behind
    rw [if_pos behind]
    have copied : (copyUp dest src 0 n.toNat m).byte a =
        if 0 ≤ (a - dest).toNat ∧ (a - dest).toNat < 0 + n.toNat then m.byte (src + (a - dest))
        else m.byte a := copyUp_byte m a (by omega) fun j k less small same => by
      have addresses := congrArg UInt64.toNat same
      rw [toNat_add_index srcFits (by omega), toNat_add_index destFits (by omega)] at addresses
      omega
    rw [copied]
    exact if_congr (by omega) rfl rfl
  · rw [if_neg behind]
    by_cases front : src < dest
    · have order : src.toNat < dest.toNat := UInt64.lt_iff_toNat_lt.mp front
      rw [if_pos front]
      exact copyDown_byte m a (by omega) fun j k less small same => by
        have addresses := congrArg UInt64.toNat same
        rw [toNat_add_index srcFits (by omega), toNat_add_index destFits (by omega)] at addresses
        omega
    · have same : src = dest := by
        rw [gt_iff_lt, UInt64.lt_iff_toNat_lt] at behind
        rw [UInt64.lt_iff_toNat_lt] at front
        exact UInt64.toNat_inj.mp (by omega)
      rw [if_neg front, same, show dest + (a - dest) = a by grind, ite_self]

/-- For every memory, destination, source and length with ranges that do not wrap, the bytes at the
destination are those that were at the source, and all other bytes are unchanged. -/
theorem memmove_moves (m : Memory) {dest src n : UInt64} (destFits : dest.toNat + n.toNat ≤ 2 ^ 64)
    (srcFits : src.toNat + n.toNat ≤ 2 ^ 64) :
    (memmove m dest src n).1 = dest ∧
    (∀ i, i < n.toNat → (memmove m dest src n).2.byte (dest + UInt64.ofNat i) =
      m.byte (src + UInt64.ofNat i)) ∧
    ∀ a, ¬ (dest.toNat ≤ a.toNat ∧ a.toNat < dest.toNat + n.toNat) →
      (memmove m dest src n).2.byte a = m.byte a := by
  have size := n.toNat_lt
  refine ⟨?_, fun i inside => ?_, fun a outside => ?_⟩
  · unfold memmove
    simp only [apply_ite Prod.fst, ite_self]
  · have distance : dest + UInt64.ofNat i - dest = UInt64.ofNat i := by grind
    rw [memmove_byte m destFits srcFits, distance, toNat_ofNat_of_fits (by omega), if_pos inside]
  · rw [memmove_byte m destFits srcFits, if_neg]
    exact fun inside => outside ((span_iff destFits).mp inside)

/-- A memory whose bytes are the low bytes of their addresses. -/
def countingMemory : Memory := ⟨fun a => a.toUInt8, []⟩

/-- Four bytes moved up by one, over themselves. -/
theorem memmove_moves_overlap :
    (memmove countingMemory 0x1001 0x1000 4).1 = 0x1001 ∧
    (∀ i, i < (4 : UInt64).toNat →
      (memmove countingMemory 0x1001 0x1000 4).2.byte (0x1001 + UInt64.ofNat i) =
        countingMemory.byte (0x1000 + UInt64.ofNat i)) ∧
    ∀ a, ¬ ((0x1001 : UInt64).toNat ≤ a.toNat ∧ a.toNat < (0x1001 : UInt64).toNat + (4 : UInt64).toNat) →
      (memmove countingMemory 0x1001 0x1000 4).2.byte a = countingMemory.byte a :=
  memmove_moves countingMemory (by decide) (by decide)

end Symphony
