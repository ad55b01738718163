import Symphony.Kernel.ArchMm
import Symphony.Library.Release

/-!
# Accesses of a destruction

`arch_vmm_destroy_pt` with a record of the tables that it reads and the frames that it
releases, in their order. Without the record it is the function itself.
-/

namespace Symphony

/-- A machine with the accesses recorded so far. -/
structure Watched where
  /-- The machine. -/
  machine : Machine
  /-- Frames that were read as tables, and frames that were released. -/
  events : List (Event Nat)

/-- `freeTable` with its access. -/
def watchFree (boot : Boot) (table : UInt64) (w : Watched) : Except Fault Watched :=
  (freeTable boot table w.machine).map fun s => ⟨s, w.events ++ [.free (frameOf boot table)]⟩

/-- `destroyEntry` with its accesses. -/
def watchEntry (boot : Boot) (below : UInt64 → Watched → Except Fault Watched) (table : UInt64)
    (i : Nat) (w : Watched) : Except Fault Watched :=
  let entry := w.machine.mem.entry table (UInt64.ofNat i)
  let w := { w with events := w.events ++ [.read (frameOf boot table)] }
  if entry.present then
    let child := entry.narrowBase + bootProtoHhdmOffset boot
    below child w >>= watchFree boot child
  else .ok w

/-- `destroyBelow` with its accesses. -/
def watchBelow (boot : Boot) (below : UInt64 → Watched → Except Fault Watched) (table : UInt64)
    (w : Watched) : Except Fault Watched :=
  forLoop (fun i w => if table ≠ 0 then watchEntry boot below table i w else .ok w) 0 512 w

/-- The inner loops of that many levels. -/
def destroyLevels (boot : Boot) : Nat → UInt64 → Machine → Except Fault Machine
  | 0 => fun _ s => .ok s
  | depth + 1 => destroyBelow boot (destroyLevels boot depth)

/-- `destroyLevels` with its accesses. -/
def watchLevels (boot : Boot) : Nat → UInt64 → Watched → Except Fault Watched
  | 0 => fun _ w => .ok w
  | depth + 1 => watchBelow boot (watchLevels boot depth)

/-- `arch_vmm_destroy_pt` with its accesses. -/
def watchDestroyPt (boot : Boot) (pageTable : UInt64) (s : Machine) : Except Fault Watched :=
  forLoop (watchEntry boot (watchLevels boot 3) pageTable) 0 256 ⟨s, []⟩ >>= watchFree boot pageTable

variable {boot : Boot}

/-- Without its access it is the release. -/
theorem watchFree_machine (table : UInt64) (w : Watched) :
    (watchFree boot table w).map Watched.machine = freeTable boot table w.machine := by
  unfold watchFree
  cases freeTable boot table w.machine with
  | error e => rfl
  | ok s => rfl

/-- Without its accesses it is the turn of the loop. -/
theorem watchEntry_machine {below : UInt64 → Machine → Except Fault Machine}
    {watched : UInt64 → Watched → Except Fault Watched}
    (same : ∀ table w, (watched table w).map Watched.machine = below table w.machine)
    (table : UInt64) (i : Nat) (w : Watched) :
    (watchEntry boot watched table i w).map Watched.machine =
      destroyEntry boot below table i w.machine := by
  unfold watchEntry destroyEntry
  dsimp only
  by_cases present : (w.machine.mem.entry table (UInt64.ofNat i)).present = true
  · rw [if_pos present, if_pos present]
    generalize (w.machine.mem.entry table (UInt64.ofNat i)).narrowBase +
      bootProtoHhdmOffset boot = child
    have inner := same child { w with events := w.events ++ [.read (frameOf boot table)] }
    dsimp only at inner
    rw [← inner]
    cases watched child { w with events := w.events ++ [.read (frameOf boot table)] } with
    | error e => rfl
    | ok next => exact watchFree_machine child next
  · rw [if_neg present, if_neg present]
    rfl

/-- Without its accesses it is the inner loop. -/
theorem watchBelow_machine {below : UInt64 → Machine → Except Fault Machine}
    {watched : UInt64 → Watched → Except Fault Watched}
    (same : ∀ table w, (watched table w).map Watched.machine = below table w.machine)
    (table : UInt64) (w : Watched) :
    (watchBelow boot watched table w).map Watched.machine = destroyBelow boot below table w.machine := by
  apply forLoop_map
  intro i w
  by_cases null : table ≠ 0
  · rw [if_pos null, if_pos null]
    exact watchEntry_machine same table i w
  · rw [if_neg null, if_neg null]
    rfl

/-- Without their accesses they are the inner loops. -/
theorem watchLevels_machine (depth : Nat) (table : UInt64) (w : Watched) :
    (watchLevels boot depth table w).map Watched.machine =
      destroyLevels boot depth table w.machine := by
  induction depth generalizing table w with
  | zero => rfl
  | succ depth ih => exact watchBelow_machine ih table w

/-- Without its accesses it is the function of the source. -/
theorem watchDestroyPt_machine (pageTable : UInt64) (s : Machine) :
    (watchDestroyPt boot pageTable s).map Watched.machine = archVmmDestroyPt boot pageTable s := by
  have turn : ∀ i w, (watchEntry boot (watchLevels boot 3) pageTable i w).map Watched.machine =
      destroyEntry boot (destroyLevels boot 3) pageTable i w.machine :=
    watchEntry_machine (watchLevels_machine 3) pageTable
  have loop := forLoop_map Watched.machine turn 0 256 ⟨s, []⟩
  have code : archVmmDestroyPt boot pageTable s =
      forLoop (destroyEntry boot (destroyLevels boot 3) pageTable) 0 256 s >>=
        freeTable boot pageTable := rfl
  rw [code, watchDestroyPt, ← loop]
  cases forLoop (watchEntry boot (watchLevels boot 3) pageTable) 0 256 ⟨s, []⟩ with
  | error e => rfl
  | ok w => exact watchFree_machine pageTable w

end Symphony
