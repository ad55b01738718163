import Symphony.Library.Loop

/-!
# Recorded reads

A run that may fail, together with the places that it read, in their order. The record grows
along a sequence of runs, and what was read in front of a failure stays in it. `Guards` adds
to the guarantees of a run that all its reads are allowed.
-/

namespace Symphony

variable {ι ε α β : Type}

/-- The result of a run and the places that it read. -/
structure Recorded (ι ε α : Type) where
  /-- Result. -/
  result : Except ε α
  /-- Places read, the first one first. -/
  reads : List ι

namespace Recorded

/-- A run that reads nothing. -/
def done (a : α) : Recorded ι ε α := ⟨.ok a, []⟩

/-- A run followed by another one, unless it fails. -/
def andThen (first : Recorded ι ε α) (next : α → Recorded ι ε β) : Recorded ι ε β :=
  match first.result with
  | .ok a => ⟨(next a).result, first.reads ++ (next a).reads⟩
  | .error e => ⟨.error e, first.reads⟩

instance : Monad (Recorded ι ε) where
  pure := done
  bind := andThen

/-- The result of a sequence is the sequence of the results. -/
theorem bind_result (first : Recorded ι ε α) (next : α → Recorded ι ε β) :
    (first >>= next).result = first.result >>= fun a => (next a).result := by
  change (first.andThen next).result = _
  unfold andThen
  cases first.result with
  | ok a => rfl
  | error e => rfl

/-- All reads of a run are allowed, and its result meets a guarantee. -/
structure Guards (run : Recorded ι ε α) (allowed : ι → Prop) (value : α → Prop)
    (fault : ε → Prop) : Prop where
  /-- The reads. -/
  reads : ∀ i ∈ run.reads, allowed i
  /-- The result. -/
  result : Meets run.result value fault

namespace Guards

variable {allowed : ι → Prop} {value wider : α → Prop} {fault : ε → Prop}

/-- Nothing is read, and the value is right. -/
theorem pure {a : α} (holds : value a) : (Pure.pure a : Recorded ι ε α).Guards allowed value fault :=
  ⟨(fun _ member => nomatch member), holds⟩

/-- Guarantees may be weakened. -/
theorem mono {run : Recorded ι ε α} (guards : run.Guards allowed value fault)
    (values : ∀ a, value a → wider a) : run.Guards allowed wider fault :=
  ⟨guards.reads, guards.result.mono values fun _ => id⟩

/-- The guarantee of a first run starts the second. -/
theorem bind {first : Recorded ι ε α} {next : α → Recorded ι ε β} {final : β → Prop}
    (head : first.Guards allowed value fault)
    (tail : ∀ a, value a → (next a).Guards allowed final fault) :
    (first >>= next).Guards allowed final fault := by
  obtain ⟨result, reads⟩ := first
  cases result with
  | ok a =>
    have rest := tail a head.result
    refine ⟨fun i member => ?_, rest.result⟩
    rcases List.mem_append.mp member with early | late
    · exact head.reads i early
    · exact rest.reads i late
  | error e => exact ⟨head.reads, head.result⟩

end Guards

end Recorded

end Symphony
