import Mathlib.Logic.Relation
import Mathlib.Logic.Function.Iterate
import Mathlib.Data.List.Basic
import Mathlib.Tactic.Common

/-!
# Programmed input and output

A driver writes bytes to the ports of a device and polls ports until a bit is set. Between its
instructions the device moves on its own, as often as it likes. A poll that finds no bit set
changes nothing, so it is no step of its own. What the moves of the device keep may be used between
two instructions of the driver.
-/

namespace Symphony

/-- A device behind ports of a byte. -/
structure PortDevice (D : Type) where
  /-- Effect of a write. -/
  write : UInt16 → UInt8 → D → D
  /-- Values that a read may yield. -/
  Reads : UInt16 → D → UInt8 → Prop
  /-- What the device does on its own. -/
  Moves : D → D → Prop

/-- Instructions of a driver. -/
inductive PortOp where
  /-- Write a byte. -/
  | outb (port : UInt16) (data : UInt8)
  /-- Read until a bit of the mask is set. -/
  | await (port : UInt16) (mask : UInt8)

/-- The bytes that instructions write to a port. -/
def bytesTo (port : UInt16) (ops : List PortOp) : List UInt8 :=
  ops.filterMap fun
    | .outb p data => if p = port then some data else none
    | .await _ _ => none

/-- The bytes of instructions one after the other. -/
@[simp] theorem bytesTo_append (port : UInt16) (ops more : List PortOp) :
    bytesTo port (ops ++ more) = bytesTo port ops ++ bytesTo port more :=
  List.filterMap_append

namespace PortDevice

variable {D : Type} {dev : PortDevice D} {P Q R : D → Prop} {ops more rest : List PortOp}
  {port : UInt16} {data mask : UInt8} {d d' : D}

/-! ## Steps -/

/-- A step of the driver, with the instructions that it has left, or of the device. -/
inductive Advance (dev : PortDevice D) : List PortOp × D → List PortOp × D → Prop
  /-- The device moves. -/
  | move {ops : List PortOp} {d d' : D} (moves : dev.Moves d d') : Advance dev (ops, d) (ops, d')
  /-- The driver writes. -/
  | outb {ops : List PortOp} {port : UInt16} {data : UInt8} {d : D} :
    Advance dev (.outb port data :: ops, d) (ops, dev.write port data d)
  /-- The driver finds a bit set. -/
  | ready {ops : List PortOp} {port : UInt16} {mask v : UInt8} {d : D}
    (reads : dev.Reads port d v) (set : v &&& mask ≠ 0) :
    Advance dev (.await port mask :: ops, d) (ops, d)

/-- Runs of the driver and the device. -/
def Run (dev : PortDevice D) : List PortOp × D → List PortOp × D → Prop :=
  Relation.ReflTransGen dev.Advance

/-- A predicate of the driver and the device that every step keeps holds throughout a run. -/
theorem Run.invariant {I : List PortOp × D → Prop} {x y : List PortOp × D} (run : dev.Run x y)
    (keeps : ∀ x y, I x → dev.Advance x y → I y) (start : I x) : I y := by
  induction run with
  | refl => exact start
  | tail _ step ih => exact keeps _ _ ih step

/-- A run of instructions one after the other is in the first ones, or it has run these. -/
theorem Run.append_cases (run : dev.Run (ops ++ more, d) (rest, d')) :
    (∃ left, left ≠ [] ∧ rest = left ++ more ∧ dev.Run (ops, d) (left, d')) ∨
      ∃ between, dev.Run (ops, d) ([], between) ∧ dev.Run (more, between) (rest, d') := by
  generalize target : (rest, d') = y at run
  induction run generalizing rest d' with
  | refl =>
    cases target
    cases ops with
    | nil => exact Or.inr ⟨d, .refl, .refl⟩
    | cons op ops => exact Or.inl ⟨op :: ops, List.cons_ne_nil op ops, rfl, .refl⟩
  | @tail z y _ step ih =>
    obtain ⟨left, e⟩ := z
    subst target
    cases ih rfl with
    | inr second =>
      obtain ⟨between, first, later⟩ := second
      exact Or.inr ⟨between, first, later.tail step⟩
    | inl first =>
      obtain ⟨left, isLeft, rfl, earlier⟩ := first
      -- The step is one of the instructions that are left of the first ones.
      have within : ∃ left', rest = left' ++ more ∧ dev.Run (ops, d) (left', d') := by
        cases left with
        | nil => exact absurd rfl isLeft
        | cons op left =>
          cases step with
          | move moves => exact ⟨op :: left, rfl, earlier.tail (.move moves)⟩
          | outb => exact ⟨left, rfl, earlier.tail .outb⟩
          | ready reads set => exact ⟨left, rfl, earlier.tail (.ready reads set)⟩
      obtain ⟨left', same, ran⟩ := within
      cases left' with
      | nil =>
        subst same
        exact Or.inr ⟨d', ran, .refl⟩
      | cons op left' => exact Or.inl ⟨op :: left', List.cons_ne_nil op left', same, ran⟩

/-! ## Rules for instructions under interference -/

/-- What the moves of the device keep. -/
def Stable (dev : PortDevice D) (P : D → Prop) : Prop := ∀ d d', P d → dev.Moves d d' → P d'

/-- Whenever the instructions are run from a device with the first property, the device has the
second one in the end. -/
def Triple (dev : PortDevice D) (P : D → Prop) (ops : List PortOp) (Q : D → Prop) : Prop :=
  ∀ d d', P d → dev.Run (ops, d) ([], d') → Q d'

namespace Triple

/-- A property that is stable holds when nothing is left to do. -/
theorem nil (stable : dev.Stable P) : dev.Triple P [] P := by
  intro d d' start run
  have holds := run.invariant (I := fun x => x.1 = [] ∧ P x.2) (fun x y inv step => by
    obtain ⟨none, holds⟩ := inv
    cases step with
    | move moves => exact ⟨none, stable _ _ holds moves⟩
    | outb => cases none
    | ready reads set => cases none) ⟨rfl, start⟩
  exact holds.2

/-- A write takes one property to the next. -/
theorem outb (stable : dev.Stable P) (writes : ∀ d, P d → R (dev.write port data d))
    (later : dev.Triple R ops Q) : dev.Triple P (.outb port data :: ops) Q := by
  intro d d' start run
  have first : ∃ e, P e ∧ dev.Run (ops, dev.write port data e) ([], d') := by
    generalize source : (PortOp.outb port data :: ops, d) = x at run
    induction run using Relation.ReflTransGen.head_induction_on generalizing d with
    | refl => cases source
    | head step rest ih =>
      subst source
      cases step with
      | move moves => exact ih _ (stable _ _ start moves) rfl
      | outb => exact ⟨d, start, rest⟩
  obtain ⟨e, holds, rest⟩ := first
  exact later _ _ (writes e holds) rest

end Triple

/-! ## Runs that end -/

/-- If every step decreases a measure and steps are possible until the goal, a run leads there. -/
theorem exists_run (measure : List PortOp × D → Nat) (goal I : List PortOp × D → Prop)
    (keeps : ∀ x y, I x → dev.Advance x y → I y)
    (decreases : ∀ x y, dev.Advance x y → measure y < measure x)
    (progress : ∀ x, I x → goal x ∨ ∃ y, dev.Advance x y) (x : List PortOp × D) (start : I x) :
    ∃ y, dev.Run x y ∧ goal y := by
  induction size : measure x using Nat.strongRecOn generalizing x with
  | ind n ih =>
    subst size
    cases progress x start with
    | inl reached => exact ⟨x, .refl, reached⟩
    | inr possible =>
      obtain ⟨y, step⟩ := possible
      obtain ⟨z, run, reached⟩ := ih (measure y) (decreases x y step) y (keeps x y start step) rfl
      exact ⟨z, run.head step, reached⟩

/-- An endless sequence of states in which polls may find no bit set as often as they like, but
in which a step is taken at last whenever one is possible. -/
structure FairRun (dev : PortDevice D) (f : Nat → List PortOp × D) : Prop where
  /-- From one state to the next there is a step, or nothing changes. -/
  steps : ∀ n, f (n + 1) = f n ∨ dev.Advance (f n) (f (n + 1))
  /-- If a step is possible, one is taken at last. -/
  fair : ∀ n, (∃ y, dev.Advance (f n) y) → ∃ m, n ≤ m ∧ dev.Advance (f m) (f (m + 1))

/-- The states of a fair run are reached from the first one. -/
theorem FairRun.reached {f : Nat → List PortOp × D} (run : dev.FairRun f) (n : Nat) :
    dev.Run (f 0) (f n) := by
  induction n with
  | zero => exact .refl
  | succ n ih =>
    cases run.steps n with
    | inl same => rwa [same]
    | inr step => exact ih.tail step

/-- If every step decreases a measure, a fair run comes to an end. -/
theorem FairRun.ends {f : Nat → List PortOp × D} (run : dev.FairRun f)
    (measure : List PortOp × D → Nat)
    (decreases : ∀ x y, dev.Advance x y → measure y < measure x) :
    ∃ n, ∀ y, ¬ dev.Advance (f n) y := by
  have monotone (m n : Nat) (le : m ≤ n) : measure (f n) ≤ measure (f m) := by
    induction le with
    | refl => exact Nat.le_refl _
    | step _ ih =>
      apply Nat.le_trans _ ih
      cases run.steps _ with
      | inl same => exact Nat.le_of_eq (congrArg measure same)
      | inr step => exact Nat.le_of_lt (decreases _ _ step)
  by_contra endless
  have possible (n : Nat) : ∃ y, dev.Advance (f n) y := by
    by_contra stuck
    exact endless ⟨n, fun y step => stuck ⟨y, step⟩⟩
  have smaller (bound n : Nat) (small : measure (f n) ≤ bound) : False := by
    induction bound generalizing n with
    | zero =>
      obtain ⟨y, step⟩ := possible n
      have less := decreases _ _ step
      omega
    | succ bound ih =>
      obtain ⟨m, later, step⟩ := run.fair n (possible n)
      have less := decreases _ _ step
      have kept := monotone n m later
      exact ih (m + 1) (by omega)
  exact smaller _ 0 (Nat.le_refl _)

/-- Fair runs exist. -/
theorem exists_fairRun (dev : PortDevice D) (x : List PortOp × D) : ∃ f, f 0 = x ∧ dev.FairRun f := by
  classical
  let next (x : List PortOp × D) : List PortOp × D :=
    if possible : ∃ y, dev.Advance x y then possible.choose else x
  have goes (x : List PortOp × D) (possible : ∃ y, dev.Advance x y) : dev.Advance x (next x) := by
    simp only [next, dif_pos possible]
    exact possible.choose_spec
  refine ⟨fun n => next^[n] x, rfl, fun n => ?_, fun n possible => ⟨n, Nat.le_refl n, ?_⟩⟩
  · rw [Function.iterate_succ_apply']
    by_cases possible : ∃ y, dev.Advance (next^[n] x) y
    · exact Or.inr (goes _ possible)
    · exact Or.inl (by simp only [next, dif_neg possible])
  · rw [Function.iterate_succ_apply']
    exact goes _ possible

end PortDevice

end Symphony
