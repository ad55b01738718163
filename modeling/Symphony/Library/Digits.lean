import Mathlib.Data.Nat.Digits.Lemmas

/-!
# Positional representation

The digits of a number with the most significant one first, where zero has one digit, and the
way of printing a number through its reversal: the digits are collected from the lowest one
up into a number, from which the same count of digits is peeled off again.
-/

namespace Symphony

variable {b : Nat}

/-- Digits of a number, the most significant one first; zero has the digit zero. -/
def digitsOf (b n : Nat) : List Nat := if n = 0 then [0] else (Nat.digits b n).reverse

/-- Value of a sequence of digits, the most significant one first. -/
def valueOf (b : Nat) (digits : List Nat) : Nat := digits.foldl (fun value d => value * b + d) 0

/-- The `count` lowest digits of a number, the lowest one first. -/
def lowDigits (b : Nat) : Nat → Nat → List Nat
  | 0, _ => []
  | count + 1, n => n % b :: lowDigits b count (n / b)

/-- The number with the digits in the opposite order. -/
def reversal (b n : Nat) : Nat := Nat.ofDigits b (digitsOf b n)

/-- A number below the base is its own digit. -/
theorem digitsOf_of_lt (two : 2 ≤ b) {n : Nat} (small : n / b = 0) : digitsOf b n = [n % b] := by
  have below : n < b := (Nat.div_eq_zero_iff_lt (by omega)).mp small
  rw [Nat.mod_eq_of_lt below, digitsOf]
  by_cases zero : n = 0
  · rw [if_pos zero, zero]
  · rw [if_neg zero, Nat.digits_of_lt b n zero below]
    rfl

/-- The lowest digit of another number comes last. -/
theorem digitsOf_of_ge (two : 2 ≤ b) {n : Nat} (large : n / b ≠ 0) :
    digitsOf b n = digitsOf b (n / b) ++ [n % b] := by
  have positive : 0 < n := by
    refine Nat.pos_of_ne_zero fun zero => large ?_
    rw [zero, Nat.zero_div]
  rw [digitsOf, if_neg positive.ne', digitsOf, if_neg large, Nat.digits_def' two positive,
    List.reverse_cons]

/-- There is a digit. -/
theorem digitsOf_length_pos (b n : Nat) : 0 < (digitsOf b n).length := by
  unfold digitsOf
  by_cases zero : n = 0
  · rw [if_pos zero]
    exact Nat.one_pos
  · rw [if_neg zero, List.length_reverse]
    exact List.length_pos_of_ne_nil (Nat.digits_ne_nil_iff_ne_zero.mpr zero)

/-- The digits are below the base. -/
theorem lt_of_mem_digitsOf (two : 2 ≤ b) {n d : Nat} (member : d ∈ digitsOf b n) : d < b := by
  unfold digitsOf at member
  by_cases zero : n = 0
  · rw [if_pos zero, List.mem_singleton] at member
    omega
  · rw [if_neg zero, List.mem_reverse] at member
    exact Nat.digits_lt_base two member

/-- Reading the digits gives the number back. -/
theorem valueOf_digitsOf (two : 2 ≤ b) (n : Nat) : valueOf b (digitsOf b n) = n := by
  induction n using Nat.strongRecOn with
  | ind n ih =>
    by_cases small : n / b = 0
    · have below : n < b := (Nat.div_eq_zero_iff_lt (by omega)).mp small
      rw [digitsOf_of_lt two small, Nat.mod_eq_of_lt below]
      change 0 * b + n = n
      omega
    · have less : n / b < n := Nat.div_lt_self (Nat.pos_of_ne_zero fun zero => small (by
        rw [zero, Nat.zero_div])) two
      have rest := ih (n / b) less
      unfold valueOf at *
      rw [digitsOf_of_ge two small, List.foldl_append, rest]
      exact Nat.div_add_mod' n b

/-- Below the base the reversal is the number. -/
theorem reversal_of_lt (two : 2 ≤ b) {n : Nat} (small : n / b = 0) : reversal b n = n % b := by
  rw [reversal, digitsOf_of_lt two small, Nat.ofDigits_singleton]

/-- The lowest digit becomes the highest one. -/
theorem reversal_of_ge (two : 2 ≤ b) {n : Nat} (large : n / b ≠ 0) :
    reversal b n = reversal b (n / b) + b ^ (digitsOf b (n / b)).length * (n % b) := by
  rw [reversal, digitsOf_of_ge two large, Nat.ofDigits_append, Nat.ofDigits_singleton]
  rfl

/-- The reversal has as many digits at most. -/
theorem reversal_lt (two : 2 ≤ b) (n : Nat) : reversal b n < b ^ (digitsOf b n).length := by
  apply Nat.ofDigits_lt_base_pow_length two
  intro d member
  exact lt_of_mem_digitsOf two member

/-- A number below a power of the base has no more digits than the exponent says. -/
theorem length_digitsOf_le (two : 2 ≤ b) {n k : Nat} (some : 0 < k) (small : n < b ^ k) :
    (digitsOf b n).length ≤ k := by
  unfold digitsOf
  by_cases zero : n = 0
  · rw [if_pos zero]
    exact some
  · rw [if_neg zero, List.length_reverse, Nat.digits_length_le_iff two]
    exact small

/-- As many low digits as asked for. -/
@[simp] theorem length_lowDigits (b count n : Nat) : (lowDigits b count n).length = count := by
  induction count generalizing n with
  | zero => rfl
  | succ count ih => rw [lowDigits, List.length_cons, ih]

/-- Low digits are below the base. -/
theorem lt_of_mem_lowDigits (positive : 0 < b) {count n d : Nat} (member : d ∈ lowDigits b count n) :
    d < b := by
  induction count generalizing n with
  | zero => cases member
  | succ count ih =>
    rw [lowDigits, List.mem_cons] at member
    cases member with
    | inl here =>
      rw [here]
      exact Nat.mod_lt n positive
    | inr later => exact ih later

/-- The low digits have the value of the number modulo a power of the base. -/
theorem ofDigits_lowDigits (b count n : Nat) : Nat.ofDigits b (lowDigits b count n) = n % b ^ count := by
  induction count generalizing n with
  | zero => rw [pow_zero, Nat.mod_one, lowDigits, Nat.ofDigits_nil]
  | succ count ih =>
    rw [lowDigits, Nat.ofDigits_cons, ih, Nat.pow_succ', Nat.mod_mul]

/-- Digits are the low digits of their number. -/
theorem lowDigits_ofDigits {digits : List Nat} (below : ∀ d ∈ digits, d < b) :
    lowDigits b digits.length (Nat.ofDigits b digits) = digits := by
  induction digits with
  | nil => rfl
  | cons d digits ih =>
    have small := below d List.mem_cons_self
    rw [List.length_cons, lowDigits, Nat.ofDigits_cons, Nat.add_mul_mod_self_left,
      Nat.mod_eq_of_lt small, Nat.add_mul_div_left _ _ (by omega), Nat.div_eq_of_lt small,
      Nat.zero_add, ih fun e later => below e (List.mem_cons_of_mem d later)]

/-- Peeling the digits off a number that is not above the reversal yields the digits of the
original number exactly when the number is the reversal. -/
theorem lowDigits_eq_digitsOf (two : 2 ≤ b) {n w : Nat} (bound : w ≤ reversal b n) :
    lowDigits b (digitsOf b n).length w = digitsOf b n ↔ w = reversal b n := by
  have top := reversal_lt two n
  constructor
  · intro same
    have value := congrArg (Nat.ofDigits b) same
    rw [ofDigits_lowDigits, Nat.mod_eq_of_lt (by omega)] at value
    exact value
  · intro same
    rw [same, reversal]
    exact lowDigits_ofDigits fun d member => lt_of_mem_digitsOf two member

end Symphony
