import Mathlib.Algebra.Group.Nat.Defs

/-!
# Constants and macros of the memory managers

The definitions of `mm.h` that the managers share.
-/

namespace Symphony

/-- `PAGE_SIZE`. -/
def pageSize : UInt64 := 4096

/-- `KHEAP_INIT_PAGES`. -/
def kheapInitPages : Int32 := 16

/-- `VMM_PRESENT`. -/
def vmmPresent : Int32 := 1

/-- `VMM_RW`. -/
def vmmRw : Int32 := (1 : Int32) <<< 1

/-- `VMM_EXEC`. -/
def vmmExec : Int32 := (1 : Int32) <<< 2

/-- `VMM_RWX`. -/
def vmmRwx : Int32 := vmmRw ||| vmmExec

/-- `VMM_USER`. -/
def vmmUser : Int32 := (1 : Int32) <<< 3

/-- `ALIGN_UP` at a 64-bit unsigned type; the sum wraps. -/
def alignUp (x alignment : UInt64) : UInt64 :=
  if x % alignment = 0 then x else x + (alignment - x % alignment)

/-- Rounding up to a positive alignment is the natural rounding modulo the word size. -/
theorem toNat_alignUp {x alignment : UInt64} (positive : 0 < alignment.toNat) :
    (alignUp x alignment).toNat =
      ((x.toNat + alignment.toNat - 1) / alignment.toNat * alignment.toNat) % 2 ^ 64 := by
  have hx := x.toNat_lt
  have remainder := Nat.mod_lt x.toNat positive
  have split := Nat.div_add_mod' x.toNat alignment.toNat
  have next (q : Nat) : (q + 1) * alignment.toNat = q * alignment.toNat + alignment.toNat :=
    Nat.succ_mul q alignment.toNat
  have first := next (x.toNat / alignment.toNat)
  have second := next (x.toNat / alignment.toNat + 1)
  have zero : x % alignment = 0 ↔ x.toNat % alignment.toNat = 0 := by
    rw [← UInt64.toNat_inj, UInt64.toNat_mod]
    rfl
  unfold alignUp
  by_cases aligned : x % alignment = 0
  · have whole := zero.mp aligned
    have quotient : (x.toNat + alignment.toNat - 1) / alignment.toNat =
        x.toNat / alignment.toNat := Nat.div_eq_of_lt_le (by omega) (by omega)
    rw [if_pos aligned, quotient]
    omega
  · have part : x.toNat % alignment.toNat ≠ 0 := fun whole => aligned (zero.mpr whole)
    have quotient : (x.toNat + alignment.toNat - 1) / alignment.toNat =
        x.toNat / alignment.toNat + 1 := Nat.div_eq_of_lt_le (by omega) (by omega)
    rw [if_neg aligned, quotient, UInt64.toNat_add, UInt64.toNat_sub, UInt64.toNat_mod]
    have ha := alignment.toNat_lt
    omega

end Symphony
