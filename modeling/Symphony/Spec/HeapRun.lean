import Symphony.Spec.Heap

/-!
# Runs of the heap

Sequences of calls to the kernel heap, together with writes by the owners of allocations.
A session records the heap, the allocations that are live, the pointers that were released
since the last allocation, and for every byte of a live allocation what its owner last
wrote there. `HeapRun` says which sessions can be reached.
-/

namespace Symphony

/-- A live allocation. -/
structure Allocation where
  /-- Pointer that was returned. -/
  pointer : UInt64
  /-- Bytes that were requested. -/
  size : UInt64
deriving DecidableEq

/-- The address lies in the requested bytes. -/
def Allocation.Has (x : Allocation) (a : UInt64) : Prop := Span x.pointer x.size.toNat a

instance (x : Allocation) : DecidablePred x.Has :=
  fun a => inferInstanceAs (Decidable (Span x.pointer x.size.toNat a))

/-- State of a run. -/
structure Session where
  /-- The heap. -/
  heap : Kheap
  /-- Live allocations, the latest first. -/
  live : List Allocation
  /-- Pointers released since the last allocation. -/
  freed : List UInt64
  /-- What the owners last wrote to live allocations. -/
  contents : UInt64 → Option UInt8

/-- What happens in a run. -/
inductive HeapCall where
  /-- A call of `kmalloc`. -/
  | kmalloc (size : UInt64)
  /-- A call of `kzalloc`. -/
  | kzalloc (size : UInt64)
  /-- A call of `kfree`. -/
  | kfree (ptr : UInt64)
  /-- An owner writes a byte. -/
  | write (a : UInt64) (v : UInt8)

namespace HeapCall

/-- Requests of at most 2^42 bytes; releases of `NULL`, of live pointers and of pointers
released since the last allocation; writes to live allocations. -/
def Allowed (s : Session) : HeapCall → Prop
  | kmalloc size => size.toNat ≤ 2 ^ 42
  | kzalloc size => size.toNat ≤ 2 ^ 42
  | kfree ptr => ptr = 0 ∨ ptr ∈ s.live.map Allocation.pointer ∨ ptr ∈ s.freed
  | write a _ => ∃ x ∈ s.live, x.Has a

/-- The call is one of the allocator's. -/
def OfAllocator : HeapCall → Prop
  | write _ _ => False
  | _ => True

/-- The session after a call. -/
def perform (boot : Boot) (source : PageSource) : HeapCall → Session → Except Fault Session
  | kmalloc size, s => do
    let (ptr, h) ← Symphony.kmalloc boot source size s.heap
    .ok ⟨h, ⟨ptr, size⟩ :: s.live, [], s.contents⟩
  | kzalloc size, s => do
    let (ptr, h) ← Symphony.kzalloc boot source size s.heap
    .ok ⟨h, ⟨ptr, size⟩ :: s.live, [], s.contents⟩
  | kfree ptr, s =>
    .ok
      { heap := Symphony.kfree ptr s.heap
        live := s.live.filter fun x => x.pointer ≠ ptr
        freed := if ptr = 0 then s.freed else ptr :: s.freed
        contents := fun a =>
          if ∃ x ∈ s.live, x.pointer = ptr ∧ x.Has a then none else s.contents a }
  | write a v, s =>
    .ok
      { s with
        heap := s.heap.withMem (s.heap.mem.store8 a v)
        contents := fun b => if b = a then some v else s.contents b }

end HeapCall

/-- Sessions that start with `kheap_init` and go on with allowed calls. -/
inductive HeapRun (boot : Boot) (source : PageSource) (machine : Machine) : Session → Prop
  /-- The heap is initialised. -/
  | init (h : Kheap) (run : kheapInit boot source machine = .ok h) :
    HeapRun boot source machine ⟨h, [], [], fun _ => none⟩
  /-- A call returns. -/
  | call (s s' : Session) (c : HeapCall) (before : HeapRun boot source machine s)
    (allowed : c.Allowed s) (run : c.perform boot source s = .ok s') :
    HeapRun boot source machine s'

variable {boot : Boot} {source : PageSource} {machine : Machine} {s : Session}

/-- Runs with the sessions before each call, the latest first. -/
inductive HeapTrace (boot : Boot) (source : PageSource) (machine : Machine) :
    List (Session × HeapCall) → Session → Prop
  /-- The heap is initialised. -/
  | init (h : Kheap) (run : kheapInit boot source machine = .ok h) :
    HeapTrace boot source machine [] ⟨h, [], [], fun _ => none⟩
  /-- A call returns. -/
  | call (calls : List (Session × HeapCall)) (s s' : Session) (c : HeapCall)
    (before : HeapTrace boot source machine calls s) (allowed : c.Allowed s)
    (run : c.perform boot source s = .ok s') : HeapTrace boot source machine ((s, c) :: calls) s'

/-- A run with its history is a run. -/
theorem HeapTrace.run {calls : List (Session × HeapCall)} (trace : HeapTrace boot source machine calls s) :
    HeapRun boot source machine s := by
  induction trace with
  | init h returned => exact .init h returned
  | call calls s s' c _ allowed returned ih => exact ih.call s s' c allowed returned

/-- Every run has a history. -/
theorem HeapRun.trace (run : HeapRun boot source machine s) :
    ∃ calls, HeapTrace boot source machine calls s := by
  induction run with
  | init h returned => exact ⟨[], .init h returned⟩
  | call s s' c _ allowed returned ih =>
    obtain ⟨calls, trace⟩ := ih
    exact ⟨_, .call calls s s' c trace allowed returned⟩

/-- The used payload of a live allocation: the bytes of its block, as many as the header says. -/
def Allocation.InBlock (h : Kheap) (x : Allocation) (a : UInt64) : Prop :=
  Span x.pointer (h.mem.blockSize (x.pointer - headerSize)).toNat a

end Symphony
