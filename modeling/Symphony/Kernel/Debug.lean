import Mathlib.Algebra.Group.Int.Defs
import Mathlib.Algebra.Group.Nat.Defs

/-!
# Stopping the kernel

The kernel stops by `debug_panic` or by a failed `assert`, both of which halt the
processor for ever. A run of kernel code therefore returns a value or ends in a
`Fault`. The texts printed on the way to the halt are kept in the fault; the other
output of the code modelled here is not observed.
-/

namespace Symphony

/-- Ways in which kernel code ends without returning. -/
inductive Fault where
  /-- `__debug_assert` found its condition zero, logged it and halted. -/
  | assertion (func message : String)
  /-- `debug_panic` logged its message and halted. -/
  | panic (message : String)
  /-- C leaves the behaviour undefined: an `int` overflow or a read outside an object. -/
  | undefined
  /-- A loop or a recursion never ends. -/
  | diverges
deriving DecidableEq, Repr

/-- A C comparison yields the `int` one or zero. -/
def intOfBool (b : Bool) : Int32 := if b then 1 else 0

/-- Conversion of a 64-bit unsigned value to `int` keeps the low 32 bits. -/
def intOfWord (w : UInt64) : Int32 := w.toUInt32.toInt32

/-- A word that is narrowed keeps its residue. -/
theorem toInt_intOfWord (w : UInt64) : (intOfWord w).toInt = Int.bmod w.toNat (2 ^ 32) := by
  rw [intOfWord, Int32.toInt, BitVec.toInt_eq_toNat_bmod]
  have narrow : w.toUInt32.toInt32.toBitVec.toNat = w.toNat % 2 ^ 32 := UInt64.toNat_toUInt32 w
  rw [narrow, Int.natCast_emod]
  exact Int.emod_bmod w.toNat (2 ^ 32)

/-- Conversion of an `int` to a 64-bit unsigned type sign-extends. -/
def wordOfInt (n : Int32) : UInt64 := n.toInt64.toUInt64

/-- `int` addition, undefined where the sum does not fit. -/
def addInt (a b : Int32) : Except Fault Int32 :=
  if -2 ^ 31 ≤ a.toInt + b.toInt ∧ a.toInt + b.toInt < 2 ^ 31 then .ok (a + b)
  else .error .undefined

/-- A sum that fits. -/
theorem addInt_of_fits {a b : Int32} (lower : -2 ^ 31 ≤ a.toInt + b.toInt)
    (upper : a.toInt + b.toInt < 2 ^ 31) :
    addInt a b = .ok (a + b) ∧ (a + b).toInt = a.toInt + b.toInt := by
  refine ⟨if_pos ⟨lower, upper⟩, ?_⟩
  rw [Int32.toInt_add, Int.bmod_eq_of_le (by omega) (by omega)]

/-- `int` multiplication, undefined where the product does not fit. -/
def mulInt (a b : Int32) : Except Fault Int32 :=
  if -2 ^ 31 ≤ a.toInt * b.toInt ∧ a.toInt * b.toInt < 2 ^ 31 then .ok (a * b)
  else .error .undefined

/-- `__debug_assert`, reached through the macro `assert`: the condition is an `int`. -/
def debugAssert (cond : Int32) (message func : String) : Except Fault Unit :=
  if cond = 0 then .error (.assertion func message) else .ok ()

/-- `debug_panic`. -/
def debugPanic {α : Type} (message : String) : Except Fault α := .error (.panic message)

/-- An assertion on a comparison passes exactly when the comparison holds. -/
theorem debugAssert_intOfBool (p : Prop) [Decidable p] (message func : String) :
    debugAssert (intOfBool (decide p)) message func =
      if p then .ok () else .error (.assertion func message) := by
  by_cases holds : p
  · simp [debugAssert, intOfBool, holds]
  · simp [debugAssert, intOfBool, holds]

end Symphony
