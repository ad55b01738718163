import Mathlib.Algebra.Group.Nat.Defs
import Mathlib.Tactic.Common

/-!
# Fallible runs and counted loops

`Meets` states what a run that may fail guarantees of its value and of its error.
`forLoop` is the counted loop of an imperative language over a fallible body; its
rule carries an invariant from one index to the next, and an error of the body ends
the loop with that error.
-/

namespace Symphony

variable {α β σ ε : Type}

/-- Every value of the run satisfies `value` and every error of it satisfies `fault`. -/
def Meets (run : Except ε α) (value : α → Prop) (fault : ε → Prop) : Prop :=
  match run with
  | .ok a => value a
  | .error e => fault e

/-- A run that returned shows its value. -/
theorem Meets.of_ok {run : Except ε α} {value : α → Prop} {fault : ε → Prop}
    (meets : Meets run value fault) {a : α} (returned : run = .ok a) : value a := by
  subst returned
  exact meets

/-- A run that failed shows its error. -/
theorem Meets.of_error {run : Except ε α} {value : α → Prop} {fault : ε → Prop}
    (meets : Meets run value fault) {e : ε} (failed : run = .error e) : fault e := by
  subst failed
  exact meets

/-- A run that cannot fail returns. -/
theorem Meets.returns {run : Except ε α} {value : α → Prop}
    (meets : Meets run value fun _ => False) : ∃ a, run = .ok a ∧ value a := by
  cases run with
  | ok a => exact ⟨a, rfl, meets⟩
  | error e => exact meets.elim

/-- Guarantees may be weakened. -/
theorem Meets.mono {run : Except ε α} {value wider : α → Prop} {fault wilder : ε → Prop}
    (meets : Meets run value fault) (values : ∀ a, value a → wider a)
    (faults : ∀ e, fault e → wilder e) : Meets run wider wilder := by
  cases run with
  | ok a => exact values a meets
  | error e => exact faults e meets

/-- What a run guarantees of its value may rest on the fact that it returned it. -/
theorem Meets.of_returned {run : Except ε α} {value better : α → Prop} {fault : ε → Prop}
    (meets : Meets run value fault) (values : ∀ a, run = .ok a → value a → better a) :
    Meets run better fault := by
  cases returned : run with
  | ok a => exact values a returned (meets.of_ok returned)
  | error e => exact meets.of_error returned

/-- A run that returned a value is known to have done so. -/
theorem Meets.returned {run : Except ε α} {value : α → Prop} {fault : ε → Prop}
    (meets : Meets run value fault) : Meets run (fun a => run = .ok a ∧ value a) fault :=
  meets.of_returned fun _ => And.intro

/-- The guarantee of a first run starts the second. -/
theorem Meets.bind {first : Except ε α} {next : α → Except ε β} {middle : α → Prop}
    {value : β → Prop} {fault : ε → Prop} (head : Meets first middle fault)
    (tail : ∀ a, middle a → Meets (next a) value fault) : Meets (first >>= next) value fault := by
  cases first with
  | ok a => exact tail a head
  | error e => exact head

/-- The run returns a value that passes a test. -/
def passes (test : α → Bool) : Except ε α → Bool
  | .ok a => test a
  | .error _ => false

/-- A run that passes a test returned such a value. -/
theorem exists_of_passes {run : Except ε α} {test : α → Bool} (passed : passes test run = true) :
    ∃ a, run = .ok a ∧ test a = true := by
  cases run with
  | ok a => exact ⟨a, rfl, passed⟩
  | error e => exact absurd passed Bool.false_ne_true

/-- A value is handed to the rest of a sequence. -/
theorem ok_bind (a : α) (next : α → Except ε β) : (Except.ok a >>= next) = next a := rfl

/-- A sequence returns when its first run returns and so does the rest. -/
theorem bind_eq_ok {first : Except ε α} {next : α → Except ε β} {b : β} :
    (first >>= next) = .ok b ↔ ∃ a, first = .ok a ∧ next a = .ok b := by
  cases first with
  | ok a => simp [bind, Except.bind]
  | error e => simp [bind, Except.bind]

/-- Run a body for `count` successive indices from a first one. -/
def forLoop (body : Nat → σ → Except ε σ) : Nat → Nat → σ → Except ε σ
  | _, 0, s => .ok s
  | i, count + 1, s => body i s >>= forLoop body (i + 1) count

/-- The invariant rule of a counted loop. -/
theorem forLoop_meets {body : Nat → σ → Except ε σ} {first count : Nat} {s : σ}
    (invariant : Nat → σ → Prop) {fault : ε → Prop}
    (step : ∀ i s, first ≤ i → i < first + count → invariant i s →
      Meets (body i s) (invariant (i + 1)) fault)
    (start : invariant first s) :
    Meets (forLoop body first count s) (invariant (first + count)) fault := by
  induction count generalizing first s with
  | zero => exact start
  | succ count ih =>
    refine (step first s (Nat.le_refl first) (by omega) start).bind fun next holds => ?_
    rw [show first + (count + 1) = first + 1 + count by omega]
    exact ih (fun i s lower upper => step i s (by omega) (by omega)) holds

/-- A loop over a richer state, seen through a projection of it. -/
theorem forLoop_map {τ : Type} {body : Nat → σ → Except ε σ} {richer : Nat → τ → Except ε τ}
    (view : τ → σ) (same : ∀ i t, (richer i t).map view = body i (view t)) (first count : Nat) (t : τ) :
    (forLoop richer first count t).map view = forLoop body first count (view t) := by
  induction count generalizing first t with
  | zero => rfl
  | succ count ih =>
    rw [forLoop, forLoop, ← same first t]
    cases richer first t with
    | error e => rfl
    | ok next => exact ih (first + 1) next

/-- A loop that does nothing returns its state. -/
theorem forLoop_ok (first count : Nat) (s : σ) :
    forLoop (fun _ s => (.ok s : Except ε σ)) first count s = .ok s := by
  induction count generalizing first with
  | zero => rfl
  | succ count ih => exact ih (first + 1)

/-- An error of the first turn ends a loop. -/
theorem forLoop_error {body : Nat → σ → Except ε σ} {first count : Nat} {s : σ} {e : ε}
    (failed : body first s = .error e) : forLoop body first (count + 1) s = .error e := by
  rw [forLoop, failed]
  rfl

/-- `for (i = first; i < stop; i++)` over a 64-bit index. -/
def forRange (body : UInt64 → σ → Except ε σ) (first stop : UInt64) (s : σ) : Except ε σ :=
  forLoop (fun i => body (UInt64.ofNat i)) first.toNat (stop.toNat - first.toNat) s

/-- `for (; i < stop; i += step)` over a 64-bit index; the index wraps. A loop that
is still running when the fuel is gone ends in `ends`. -/
def forStep (ends : ε) (body : UInt64 → σ → Except ε σ) (step stop : UInt64) :
    Nat → UInt64 → σ → Except ε σ
  | 0, i, s => if i < stop then .error ends else .ok s
  | fuel + 1, i, s =>
    if i < stop then body i s >>= forStep ends body step stop fuel (i + step) else .ok s

/-- The invariant rule of a loop with a step, where the index cannot wrap: the invariant
holds at the first index that is not below the bound. -/
theorem forStep_meets {ends : ε} {body : UInt64 → σ → Except ε σ} {step stop : UInt64}
    (invariant : Nat → σ → Prop) {fault : ε → Prop} (positive : 0 < step.toNat)
    (fits : stop.toNat + step.toNat ≤ 2 ^ 64)
    (run : ∀ i s, i.toNat < stop.toNat → invariant i.toNat s →
      Meets (body i s) (invariant (i.toNat + step.toNat)) fault)
    {fuel : Nat} {i : UInt64} {s : σ} (enough : stop.toNat ≤ i.toNat + fuel)
    (start : invariant i.toNat s) :
    Meets (forStep ends body step stop fuel i s)
      (fun s => ∃ k, stop.toNat ≤ k ∧ k ≤ max i.toNat (stop.toNat + step.toNat) ∧ invariant k s)
      fault := by
  induction fuel generalizing i s with
  | zero =>
    rw [forStep, if_neg (by rw [UInt64.lt_iff_toNat_lt]; omega)]
    exact ⟨i.toNat, by omega, by omega, start⟩
  | succ fuel ih =>
    rw [forStep]
    by_cases below : i < stop
    · rw [if_pos below]
      rw [UInt64.lt_iff_toNat_lt] at below
      have next : (i + step).toNat = i.toNat + step.toNat := by
        rw [UInt64.toNat_add, Nat.mod_eq_of_lt (by omega)]
      refine (run i s below start).bind fun t holds => ?_
      refine (ih (by omega) (by rwa [next])).mono ?_ fun _ => id
      rintro t ⟨k, lower, upper, holds⟩
      exact ⟨k, lower, by omega, holds⟩
    · rw [if_neg below]
      rw [UInt64.lt_iff_toNat_lt] at below
      exact ⟨i.toNat, by omega, by omega, start⟩

/-- A loop whose index always stays below the bound does not return. -/
theorem forStep_never {ends : ε} {body : UInt64 → σ → Except ε σ} {step stop : UInt64}
    (inside : UInt64 → Prop) (below : ∀ i, inside i → i < stop)
    (next : ∀ i, inside i → inside (i + step)) {fuel : Nat} {i : UInt64} {s t : σ}
    (start : inside i) : forStep ends body step stop fuel i s ≠ .ok t := by
  induction fuel generalizing i s with
  | zero =>
    rw [forStep, if_pos (below i start)]
    exact fun returned => nomatch returned
  | succ fuel ih =>
    rw [forStep, if_pos (below i start), ne_eq, bind_eq_ok]
    rintro ⟨u, -, rest⟩
    exact ih (next i start) rest

end Symphony
