import Symphony.Spec.Vectors
import Symphony.Verif.Entries
import Symphony.Verif.Gdt

/-!
# Vectors in every run

The functions that change the tables may be called in any order, between them programs run that
do not write to the tables, and every time the processor takes a vector to the stub that was set
for it last. The task that the boot loader left stays loaded: no function loads that of the kernel.
-/

namespace Symphony

variable {p : Statics} {m m' : Memory} {c c' : Core} {v : Vectors} {task : TableRegister}

/-! ## Parts of the tables -/

/-- Stores elsewhere leave the gates. -/
theorem gateAt_of_outside {area : UInt64 → Prop} (writes : m.Writes area m')
    (outside : ∀ a, Span p.idt 4096 a → ¬ area a) (vector : UInt8) :
    gateAt p m' vector = gateAt p m vector := by
  have small := vector.toNat_lt
  rw [gateAt, gateAt, load64_of_outside writes outside (by omega) (by decide),
    load64_of_outside writes outside (by omega) (by decide)]

/-- Stores elsewhere leave the segment table. -/
theorem wordAt_of_outside {area : UInt64 → Prop} (writes : m.Writes area m')
    (outside : ∀ a, Span p.gdt 56 a → ¬ area a) {i : Nat} (inside : i < 7) :
    wordAt p m' i = wordAt p m i :=
  load64_of_outside writes outside (by omega) (by decide)

/-- Stores elsewhere leave the segment table loaded. -/
theorem Core.Loaded.of_outside {area : UInt64 → Prop} {c' : Core} (loaded : c.Loaded p)
    (gdtr : c'.gdtr = c.gdtr) (writes : c.mem.Writes area c'.mem)
    (outside : ∀ a, Span p.gdt 56 a → ¬ area a) : c'.Loaded p := by
  have kept {i : Nat} (inside : i < 7) := wordAt_of_outside (p := p) writes outside inside
  refine ⟨gdtr.trans loaded.gdtr, ?_, ?_, ?_⟩
  · rw [kept (by decide), loaded.code]
  · rw [kept (by decide), loaded.task]
  · rw [kept (by decide), loaded.upper]

/-- Stores elsewhere leave the stack of the kernel. -/
theorem stack_of_outside {area : UInt64 → Prop} (writes : m.Writes area m')
    (outside : ∀ a, Span p.tss 104 a → ¬ area a) : m'.load64 (p.tss + 4) = m.load64 (p.tss + 4) :=
  load64_of_outside (k := 4) writes outside (by decide) (by decide)

/-- `arch_set_kernel_stack` writes to the task state only. -/
theorem archSetKernelStack_writes (p : Statics) (stack : UInt64) (c : Core) :
    c.mem.Writes (Span p.tss 104) (archSetKernelStack p stack c).mem :=
  (c.mem.store64_writes (p.tss + 4) stack).mono fun a inside =>
    span_of_part (k := 4) (by decide) (by decide) inside

/-- The number of a stub as a vector. -/
theorem ofNat_eq_iff (i j : Fin 32) : UInt8.ofNat i.val = UInt8.ofNat j.val ↔ i = j := by
  constructor
  · intro same
    have numbers := congrArg UInt8.toNat same
    rw [UInt8.toNat_ofNat', UInt8.toNat_ofNat'] at numbers
    apply Fin.ext
    omega
  · rintro rfl
    rfl

/-- The stubs get their entries, in any order and with repetitions. -/
theorem gateAt_stubs (stubs : List (Fin 32)) (m : Memory) (i : Fin 32) :
    gateAt p (stubs.foldl
      (fun m (i : Fin 32) => archIdtSetEntry p (UInt8.ofNat i.val) (p.isr i) intGate m) m)
      (UInt8.ofNat i.val) =
      if i ∈ stubs then gateOf (p.isr i) intGate else gateAt p m (UInt8.ofNat i.val) := by
  induction stubs generalizing m with
  | nil => simp
  | cons j stubs ih =>
    rw [List.foldl_cons, ih, gateAt_archIdtSetEntry]
    by_cases same : i = j
    · subst same
      simp
    · simp only [List.mem_cons, same, false_or, mt (ofNat_eq_iff i j).mp same, if_false]

/-- The other vectors keep their gates. -/
theorem gateAt_stubs_beyond (stubs : List (Fin 32)) (m : Memory) {vector : UInt8}
    (beyond : 32 ≤ vector.toNat) :
    gateAt p (stubs.foldl
      (fun m (i : Fin 32) => archIdtSetEntry p (UInt8.ofNat i.val) (p.isr i) intGate m) m) vector =
      gateAt p m vector := by
  induction stubs generalizing m with
  | nil => rfl
  | cons j stubs ih =>
    rw [List.foldl_cons, ih, gateAt_archIdtSetEntry, if_neg]
    rintro rfl
    rw [UInt8.toNat_ofNat'] at beyond
    omega

/-- `arch_interrupt_init` writes to the interrupt table only. -/
theorem stubs_writes (stubs : List (Fin 32)) (m : Memory) :
    m.Writes (Span p.idt 4096) (stubs.foldl
      (fun m (i : Fin 32) => archIdtSetEntry p (UInt8.ofNat i.val) (p.isr i) intGate m) m) := by
  induction stubs generalizing m with
  | nil => exact .refl
  | cons j stubs ih => exact (archIdtSetEntry_writes p _ _ _ m).trans (ih _)

/-! ## The tables represent what was set -/

/-- The gate that stands for what was set. -/
def Vectors.gate (v : Vectors) (vector : UInt8) : Gate :=
  ((v.gates vector).map fun gate => gateOf gate.1 gate.2).getD (Gate.ofWords 0 0)

/-- The tables in the memory and their registers say what was set. -/
structure Represents (p : Statics) (c : Core) (v : Vectors) : Prop where
  /-- Gates. -/
  gates : ∀ vector, gateAt p c.mem vector = v.gate vector
  /-- Stack. -/
  stack : c.mem.load64 (p.tss + 4) = v.stack
  /-- The reserved field of the task is zero. -/
  reserved : (wordAt p c.mem 6).toNat < 2 ^ 32
  /-- Segment table. -/
  segments : v.segments = true → c.Loaded p
  /-- Register of the interrupt table. -/
  loaded : v.loaded = true → c.idtr = ⟨p.idt, 4095⟩

namespace Represents

/-- Static objects are zero when the kernel starts. -/
theorem blank (zero : ∀ a, p.Tables a → c.mem.byte a = 0) : Represents p c .blank := by
  have word {base : UInt64} {size k : Nat} (fits : k + 8 ≤ size) (small : size ≤ 2 ^ 63)
      (inside : ∀ a, Span base size a → c.mem.byte a = 0) :
      c.mem.load64 (base + UInt64.ofNat k) = 0 := by
    have zeros : c.mem.loadLE (base + UInt64.ofNat k) 8 = 0 :=
      loadLE_zero (by decide) fun a within => inside a (span_of_part fits small within)
    rw [Memory.load64, zeros]
    rfl
  have gdt := word (k := 48) (by decide) (by decide) fun a inside => zero a (Or.inl inside)
  have tss := word (k := 4) (by decide) (by decide) fun a inside => zero a (Or.inr (Or.inl inside))
  refine ⟨fun vector => ?_, tss, ?_, fun on => absurd on Bool.false_ne_true,
    fun on => absurd on Bool.false_ne_true⟩
  · have small := vector.toNat_lt
    have idt {k : Nat} (fits : k + 8 ≤ 4096) : c.mem.load64 (p.idt + UInt64.ofNat k) = 0 :=
      word fits (by decide) fun a inside => zero a (Or.inr (Or.inr inside))
    rw [gateAt, idt (by omega), idt (by omega)]
    rfl
  · change (c.mem.load64 (p.gdt + UInt64.ofNat 48)).toNat < _
    rw [gdt]
    decide

/-- Stores elsewhere leave everything. -/
theorem elsewhere (represents : Represents p c v) {area : UInt64 → Prop} {mem : Memory}
    (writes : c.mem.Writes area mem) (outside : ∀ a, p.Tables a → ¬ area a)
    (cs ss data : UInt16) : Represents p { c with mem, cs, ss, data } v := by
  have idt : ∀ a, Span p.idt 4096 a → ¬ area a := fun a inside => outside a (Or.inr (Or.inr inside))
  have tss : ∀ a, Span p.tss 104 a → ¬ area a := fun a inside => outside a (Or.inr (Or.inl inside))
  have gdt : ∀ a, Span p.gdt 56 a → ¬ area a := fun a inside => outside a (Or.inl inside)
  refine ⟨fun vector => ?_, ?_, ?_, fun on => ?_, represents.loaded⟩
  · rw [gateAt_of_outside writes idt, represents.gates]
  · rw [stack_of_outside writes tss, represents.stack]
  · rw [wordAt_of_outside writes gdt (by decide)]
    exact represents.reserved
  · have loaded := represents.segments on
    exact loaded.of_outside rfl writes gdt

/-- `arch_load_gdt`. -/
theorem loadGdt (represents : Represents p c v) (returned : archLoadGdt p c = some c') :
    Represents p c' { v with segments := true } := by
  obtain ⟨d, same, loaded, idtr, -, writes⟩ := archLoadGdt_returns represents.reserved
  rw [returned, Option.some.injEq] at same
  subst same
  have reserved : (wordAt p c'.mem 6).toNat < 2 ^ 32 := by
    have small := p.tss.toNat_lt
    rw [loaded.upper]
    omega
  refine ⟨fun vector => ?_, ?_, reserved, fun _ => loaded, fun on => ?_⟩
  · rw [gateAt_of_outside writes fun a inIdt inGdt => p.gdt_idt a inGdt inIdt, represents.gates]
    rfl
  · rw [stack_of_outside writes fun a inTss inGdt => p.gdt_tss a inGdt inTss, represents.stack]
  · rw [idtr, represents.loaded on]

/-- `arch_set_kernel_stack`. -/
theorem setKernelStack (represents : Represents p c v) (stack : UInt64) :
    Represents p (archSetKernelStack p stack c) { v with stack } := by
  have writes := archSetKernelStack_writes p stack c
  refine ⟨fun vector => ?_, c.mem.load64_store64 _ stack, ?_, fun on => ?_, represents.loaded⟩
  · rw [gateAt_of_outside writes fun a inIdt inTss => p.tss_idt a inTss inIdt, represents.gates]
    rfl
  · rw [wordAt_of_outside writes p.gdt_tss (by decide)]
    exact represents.reserved
  · have loaded := represents.segments on
    exact loaded.of_outside rfl writes p.gdt_tss

/-- Changes of the interrupt table leave the other parts. -/
theorem of_gates (represents : Represents p c v) (v' : Vectors) {mem : Memory}
    {idtr : TableRegister} (writes : c.mem.Writes (Span p.idt 4096) mem)
    (stack : v'.stack = v.stack) (segments : v'.segments = v.segments)
    (loaded : v'.loaded = true → idtr = ⟨p.idt, 4095⟩)
    (gates : ∀ vector, gateAt p mem vector = v'.gate vector) :
    Represents p { c with mem, idtr } v' := by
  refine ⟨gates, ?_, ?_, fun on => ?_, loaded⟩
  · rw [stack_of_outside writes p.tss_idt, represents.stack, stack]
  · rw [wordAt_of_outside writes p.gdt_idt (by decide)]
    exact represents.reserved
  · have before := represents.segments (segments ▸ on)
    exact before.of_outside rfl writes p.gdt_idt

/-- `arch_idt_set_entry`. -/
theorem setEntry (represents : Represents p c v) (entry : UInt8) (isr : UInt64) (type : UInt8) :
    Represents p { c with mem := archIdtSetEntry p entry isr type c.mem }
      (v.setEntry entry isr type) := by
  apply represents.of_gates (v.setEntry entry isr type)
    (archIdtSetEntry_writes p entry isr type c.mem) rfl rfl represents.loaded
  intro vector
  rw [gateAt_archIdtSetEntry, Vectors.gate, Vectors.setEntry]
  by_cases same : vector = entry
  · simp [same]
  · simp only [if_neg same, represents.gates, Vectors.gate]

/-- `arch_interrupt_init`. -/
theorem interruptInit (represents : Represents p c v) :
    Represents p (archInterruptInit p c) (v.interruptInit p.isr) := by
  apply represents.of_gates (v.interruptInit p.isr) (stubs_writes (List.finRange 32) c.mem) rfl rfl
    fun _ => rfl
  intro vector
  rw [Vectors.gate, Vectors.interruptInit]
  by_cases exception : vector.toNat < 32
  · have number : vector = UInt8.ofNat vector.toNat := UInt8.ofNat_toNat.symm
    have stub := gateAt_stubs (p := p) (List.finRange 32) c.mem ⟨vector.toNat, exception⟩
    rw [← number, if_pos (List.mem_finRange _)] at stub
    simp only [dif_pos exception, stub]
    rfl
  · simp only [dif_neg exception, gateAt_stubs_beyond _ _ (Nat.le_of_not_lt exception),
      represents.gates, Vectors.gate]

end Represents

/-! ## What the processor does -/

/-- The type of a gate. -/
theorem gateOf_kind (isr : UInt64) (type : UInt8) (k : BitVec 5) :
    (gateOf isr type).kind = k ↔ type.toNat % 32 = k.toNat := by
  rw [← BitVec.toNat_inj, gateOf, BitVec.extractLsb'_toNat, Nat.shiftRight_zero]
  rfl

/-- Whether a gate masks interrupts. -/
theorem gateOf_masks (isr : UInt64) (type : UInt8) :
    (gateOf isr type).masks = decide (type.toNat % 32 = 14) := by
  rw [Gate.masks]
  exact decide_eq_decide.mpr (gateOf_kind isr type 0xe)

/-- The gate of a stub leads somewhere if its type admits. -/
theorem gateOf_admits (isr : UInt64) (type : UInt8) (level : Nat) (software : Bool) :
    ((gateOf isr type).usable = true ∧ (software = true → level ≤ (gateOf isr type).dpl.toNat)) ↔
      Vectors.Admits type level software := by
  have small := type.toNat_lt
  have present : (gateOf isr type).present = true ↔ 128 ≤ type.toNat := by
    change type.toNat.testBit 7 = true ↔ _
    rw [Nat.testBit_eq_decide_div_mod_eq, decide_eq_true_iff]
    omega
  have dpl : (gateOf isr type).dpl.toNat = type.toNat / 32 % 4 := by
    rw [gateOf, BitVec.extractLsb'_toNat, Nat.shiftRight_eq_div_pow]
    rfl
  rw [Gate.usable, dpl, Vectors.Admits]
  simp only [Bool.and_eq_true, Bool.or_eq_true, decide_eq_true_iff, gateOf_kind, present, and_assoc]
  rfl

/-- The code segment of the kernel is code of the kernel's level. -/
theorem kernelCode_level (level : Nat) :
    (if (Descriptor.ofWord (plainEntry 0x9b 0xa).encode).conforming then level
      else (Descriptor.ofWord (plainEntry 0x9b 0xa).encode).dpl.toNat) = 0 := by
  rw [if_neg (by decide +kernel)]
  decide +kernel

/-- The processor goes on where the tables say. -/
theorem Represents.enter_eq (represents : Represents p c v) (segments : v.segments = true)
    (loaded : v.loaded = true) (level : Nat) (software : Bool) (vector : UInt8) :
    c.enter level software vector = v.enter c.kernelStack level software vector := by
  have small := vector.toNat_lt
  have table := represents.loaded loaded
  have segment := represents.segments segments
  have within : 16 * vector.toNat + 15 ≤ c.idtr.limit := by
    rw [table]
    change 16 * vector.toNat + 15 ≤ 4095
    omega
  have gate : Gate.ofWords (c.mem.load64 (c.idtr.base + UInt64.ofNat (16 * vector.toNat)))
      (c.mem.load64 (c.idtr.base + UInt64.ofNat (16 * vector.toNat + 8))) = v.gate vector := by
    rw [← represents.gates, table]
    rfl
  rw [Core.enter, gate, Vectors.enter, Vectors.gate]
  cases v.gates vector with
  | none => exact if_neg fun usable => absurd usable.2.1 (by decide)
  | some set =>
    obtain ⟨isr, type⟩ := set
    change (if 16 * vector.toNat + 15 ≤ c.idtr.limit ∧ (gateOf isr type).usable = true ∧
      (software = true → level ≤ (gateOf isr type).dpl.toNat) then _ else none) = ite _ _ _
    by_cases admits : Vectors.Admits type level software
    · rw [if_pos ⟨within, (gateOf_admits isr type level software).mpr admits⟩, if_pos admits]
      have word := segment_eq 0x08 (i := 1) segment.gdtr rfl rfl (by decide) (by decide)
      rw [segment.code] at word
      change (c.segment 0x08 >>= fun word => _) = _
      rw [word]
      change (if (Descriptor.ofWord (plainEntry 0x9b 0xa).encode).isCode = true ∧
        (Descriptor.ofWord (plainEntry 0x9b 0xa).encode).dpl.toNat ≤ level then
          c.taskStack (Core.stackPlace 0 level (ite _ _ _)) >>= _
        else none) = _
      have kernel : (Descriptor.ofWord (plainEntry 0x9b 0xa).encode).dpl.toNat = 0 := by
        decide +kernel
      rw [if_pos ⟨by decide +kernel, kernel ▸ Nat.zero_le _⟩, kernelCode_level, c.taskStack_kernel]
      have selector : (0x08 : UInt16) &&& 0xfffc ||| UInt16.ofNat 0 = 0x08 := by decide
      change Option.bind _ (fun stack => some (Core.Entry.mk isr (0x08 &&& 0xfffc ||| UInt16.ofNat 0) 0
        (gateOf isr type).masks stack)) = _
      rw [gateOf_masks, selector]
      cases (if level = 0 then some none else c.kernelStack.map some) <;> rfl
    · rw [if_neg fun usable => admits ((gateOf_admits isr type level software).mp usable.2),
        if_neg admits]

/-! ## Runs -/

/-- The tables from the start of the kernel on, with the task that the boot loader left: the functions
of the kernel are called in any order, and between them programs run that change segments and
memory, but not the tables. -/
inductive TablesRun (p : Statics) (task : TableRegister) : Core → Vectors → Prop
  /-- The static objects are zero. -/
  | start {c : Core} (zero : ∀ a, p.Tables a → c.mem.byte a = 0) (loaded : c.task = task) :
      TablesRun p task c .blank
  /-- `arch_load_gdt` returns. -/
  | loadGdt {c c' : Core} {v : Vectors} (run : TablesRun p task c v)
      (returned : archLoadGdt p c = some c') : TablesRun p task c' { v with segments := true }
  /-- `arch_set_kernel_stack`. -/
  | setKernelStack {c : Core} {v : Vectors} (run : TablesRun p task c v) (stack : UInt64) :
      TablesRun p task (archSetKernelStack p stack c) { v with stack }
  /-- `arch_idt_set_entry`. -/
  | setEntry {c : Core} {v : Vectors} (run : TablesRun p task c v) (entry : UInt8) (isr : UInt64)
      (type : UInt8) : TablesRun p task { c with mem := archIdtSetEntry p entry isr type c.mem }
        (v.setEntry entry isr type)
  /-- `arch_interrupt_init`. -/
  | interruptInit {c : Core} {v : Vectors} (run : TablesRun p task c v) :
      TablesRun p task (archInterruptInit p c) (v.interruptInit p.isr)
  /-- Something else runs. -/
  | elsewhere {c : Core} {v : Vectors} {mem : Memory} {area : UInt64 → Prop}
      (run : TablesRun p task c v) (writes : c.mem.Writes area mem)
      (outside : ∀ a, p.Tables a → ¬ area a) (cs ss data : UInt16) :
      TablesRun p task { c with mem, cs, ss, data } v

/-- In every run the tables represent what was set. -/
theorem TablesRun.represents (run : TablesRun p task c v) : Represents p c v := by
  induction run with
  | start zero => exact .blank zero
  | loadGdt _ returned ih => exact ih.loadGdt returned
  | setKernelStack _ stack ih => exact ih.setKernelStack stack
  | setEntry _ entry isr type ih => exact ih.setEntry entry isr type
  | interruptInit _ ih => exact ih.interruptInit
  | elsewhere _ writes outside cs ss data ih => exact ih.elsewhere writes outside cs ss data

/-- In every run the task of the boot loader stays loaded. -/
theorem TablesRun.task_eq (run : TablesRun p task c v) : c.task = task := by
  induction run with
  | start _ loaded => exact loaded
  | loadGdt run returned ih =>
    obtain ⟨d, same, -, -, kept, -⟩ := archLoadGdt_returns run.represents.reserved
    rw [returned, Option.some.injEq] at same
    rw [same, kept, ih]
  | setKernelStack _ _ ih | setEntry _ _ _ _ ih | interruptInit _ ih | elsewhere _ _ _ _ _ _ ih =>
    exact ih

/-- With the task of the kernel the processor takes the stack that was set last. -/
theorem Represents.loadTask (represents : Represents p c v) (segments : v.segments = true) :
    ∃ c', c.loadTask 0x28 = some c' ∧ c'.kernelStack = some v.stack := by
  obtain ⟨c', returned, writes, task⟩ := (represents.segments segments).loadTask
  refine ⟨c', returned, ?_⟩
  have stack := stack_of_outside writes fun a inTss inGdt => p.gdt_tss a inGdt inTss
  rw [represents.stack] at stack
  rw [Core.kernelStack, task]
  exact congrArg some stack

/-- In every run `arch_load_gdt` returns and the task of the boot loader stays loaded. With the tables
loaded the processor goes on where the kernel said last, for each vector, each level and each
cause, and from a lower level on the stack of that task; the task of the kernel, which is not
loaded, has the stack that was set last. -/
theorem entry_exact (run : TablesRun p task c v) :
    (∃ c', archLoadGdt p c = some c') ∧ c.task = task ∧
      (v.segments = true → v.loaded = true → ∀ level software vector,
        c.enter level software vector = v.enter c.kernelStack level software vector) ∧
      (v.segments = true → ∃ c', c.loadTask 0x28 = some c' ∧ c'.kernelStack = some v.stack) := by
  obtain ⟨c', returned, -⟩ := archLoadGdt_returns run.represents.reserved
  exact ⟨⟨c', returned⟩, run.task_eq, run.represents.enter_eq, run.represents.loadTask⟩

/-- Objects on pages of their own. -/
def pagedStatics : Statics where
  gdt := 0x1000
  tss := 0x2000
  idt := 0x3000
  isr i := 0x8000 + UInt64.ofNat (16 * i.val)
  gdt_tss a inGdt inTss := by
    rw [span_iff (by decide)] at inGdt inTss
    have gdt : (0x1000 : UInt64).toNat = 0x1000 := rfl
    have tss : (0x2000 : UInt64).toNat = 0x2000 := rfl
    omega
  gdt_idt a inGdt inIdt := by
    rw [span_iff (by decide)] at inGdt inIdt
    have gdt : (0x1000 : UInt64).toNat = 0x1000 := rfl
    have idt : (0x3000 : UInt64).toNat = 0x3000 := rfl
    omega
  tss_idt a inTss inIdt := by
    rw [span_iff (by decide)] at inTss inIdt
    have tss : (0x2000 : UInt64).toNat = 0x2000 := rfl
    have idt : (0x3000 : UInt64).toNat = 0x3000 := rfl
    omega

/-- A processor that starts with zeros everywhere. -/
def zeroCore : Core := ⟨⟨fun _ => 0, []⟩, ⟨0, 0⟩, ⟨0, 0⟩, ⟨0, 0⟩, 0, 0, 0⟩

/-- On a processor with zeros the kernel starts. -/
theorem zeroCore_started : TablesRun pagedStatics ⟨0, 0⟩ zeroCore .blank := .start (fun _ _ => rfl) rfl

/-- A page fault of the kernel goes to its stub on the stack of the kernel. Where the boot loader left
no task, one of a user program goes nowhere, though the stack for it was set. -/
theorem entry_exact_paged : ∃ c v, TablesRun pagedStatics ⟨0, 0⟩ c v ∧ v.stack = 0x9000 ∧
    c.enter 0 false 14 = some ⟨pagedStatics.isr 14, 0x08, 0, true, none⟩ ∧
    c.enter 3 false 14 = none := by
  obtain ⟨c, returned⟩ := (entry_exact zeroCore_started).1
  have run := ((zeroCore_started.loadGdt returned).interruptInit).setKernelStack 0x9000
  obtain ⟨-, task, enters, -⟩ := entry_exact run
  have none : (archSetKernelStack pagedStatics 0x9000 (archInterruptInit pagedStatics c)).kernelStack =
      none := by
    rw [Core.kernelStack, task]
    rfl
  have kernel := enters rfl rfl 0 false 14
  have user := enters rfl rfl 3 false 14
  rw [none] at user
  exact ⟨_, _, run, rfl, kernel, user⟩

end Symphony
