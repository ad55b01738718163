import Symphony.Library.Descriptors

/-!
# Segment and interrupt tables

The functions of `gdt.c`, and those of `interrupt.c` that build the interrupt table. The functions
for a segment descriptor and for a gate assign every field, so the old contents do not matter; the
fields are kept in the order of the packed structures. There is one processor, with index zero.
-/

namespace Symphony

/-- Static objects of the kernel and its stubs. -/
structure Statics where
  /-- `gdt[0]`. -/
  gdt : UInt64
  /-- `tss[0]`. -/
  tss : UInt64
  /-- `idt`. -/
  idt : UInt64
  /-- `isr0` to `isr31`. -/
  isr : Fin 32 → UInt64
  /-- The segment table and the task state do not overlap. -/
  gdt_tss : ∀ a, Span gdt 56 a → ¬ Span tss 104 a
  /-- The segment table and the interrupt table do not overlap. -/
  gdt_idt : ∀ a, Span gdt 56 a → ¬ Span idt 4096 a
  /-- The task state and the interrupt table do not overlap. -/
  tss_idt : ∀ a, Span tss 104 a → ¬ Span idt 4096 a

/-! ## Segment table -/

/-- `struct gdt_entry`, and the first half of `struct gdt_system_entry`. -/
structure GdtEntry where
  limit0 : UInt16
  base0 : UInt16
  base1 : UInt8
  access : UInt8
  limit1 : BitVec 4
  flags : BitVec 4
  base2 : UInt8

/-- The word of an entry. -/
def GdtEntry.encode (e : GdtEntry) : UInt64 :=
  .ofBitVec (e.base2.toBitVec ++ e.flags ++ e.limit1 ++ e.access.toBitVec ++ e.base1.toBitVec ++
    e.base0.toBitVec ++ e.limit0.toBitVec)

/-- The entry that `gdt_set_entry` makes. -/
def plainEntry (access flags : UInt8) : GdtEntry where
  access := access
  flags := flags.toBitVec.setWidth 4
  base0 := 0
  base1 := 0
  base2 := 0
  limit0 := 0
  limit1 := 0

/-- `gdt_set_entry`. -/
def gdtSetEntry (entry : UInt64) (access flags : UInt8) (m : Memory) : Memory :=
  m.store64 entry (plainEntry access flags).encode

/-- The first half of the entry that `gdt_set_system_entry` makes. -/
def systemEntry (access flags : UInt8) (base : UInt64) (limit : UInt32) : GdtEntry where
  access := access
  flags := flags.toBitVec.setWidth 4
  base0 := (base &&& 0xffff).toUInt16
  base1 := ((base >>> 16) &&& 0xff).toUInt8
  base2 := ((base >>> 24) &&& 0xff).toUInt8
  limit0 := (limit &&& 0xffff).toUInt16
  limit1 := ((limit >>> 16) &&& 0xf).toBitVec.setWidth 4

/-- `gdt_set_system_entry`; the reserved field is not assigned. -/
def gdtSetSystemEntry (entry : UInt64) (access flags : UInt8) (base : UInt64) (limit : UInt32)
    (m : Memory) : Memory :=
  (m.store64 entry (systemEntry access flags base limit).encode).storeLE (entry + 8)
    ((base >>> 32) &&& 0xffffffff).toNat 4

/-- The places of the entries in `struct gdt`. -/
def gdtEntry (p : Statics) (i : Nat) : UInt64 := p.gdt + UInt64.ofNat (8 * i)

/-- The stores of `arch_load_gdt`; the size of `struct tss` is 104. -/
def gdtStores (p : Statics) (m : Memory) : Memory :=
  let m := gdtSetEntry (gdtEntry p 0) 0 0 m
  let m := gdtSetEntry (gdtEntry p 1) 0x9a 0xa m
  let m := gdtSetEntry (gdtEntry p 2) 0x92 0xc m
  let m := gdtSetEntry (gdtEntry p 3) 0xfa 0xa m
  let m := gdtSetEntry (gdtEntry p 4) 0xf2 0xc m
  gdtSetSystemEntry (gdtEntry p 5) 0xe9 0x0 p.tss 104 m

/-- `arch_load_gdt`. Its assembly takes the return address of the function from the stack, and
`retfq` returns there: the `ltr` in the next statement is not reached. -/
def archLoadGdt (p : Statics) (c : Core) : Option Core :=
  let c := { c with mem := gdtStores p c.mem, gdtr := ⟨p.gdt, 56 - 1⟩ }
  c.loadData 0x10 >>= Core.loadCode 0x08

/-- `arch_set_kernel_stack`: `rsp[0]` stands behind four reserved bytes. -/
def archSetKernelStack (p : Statics) (stack : UInt64) (c : Core) : Core :=
  { c with mem := c.mem.store64 (p.tss + 4) stack }

/-! ## Interrupt table -/

/-- `struct idt_entry`. -/
structure IdtEntry where
  offset0 : UInt16
  seg : UInt16
  ist : UInt8
  pdplGateType : UInt8
  offset1 : UInt16
  offset2 : UInt32
  reserved : UInt32

/-- The lower word of an entry. -/
def IdtEntry.low (e : IdtEntry) : UInt64 :=
  .ofBitVec (e.offset1.toBitVec ++ e.pdplGateType.toBitVec ++ e.ist.toBitVec ++ e.seg.toBitVec ++
    e.offset0.toBitVec)

/-- The upper word of an entry. -/
def IdtEntry.high (e : IdtEntry) : UInt64 := .ofBitVec (e.reserved.toBitVec ++ e.offset2.toBitVec)

/-- `INT_GATE`. -/
def intGate : UInt8 := 0x8e

/-- The entry that `arch_idt_set_entry` makes. -/
def idtEntry (isr : UInt64) (pdplGateType : UInt8) : IdtEntry where
  offset0 := (isr &&& 0xffff).toUInt16
  offset1 := ((isr >>> 16) &&& 0xffff).toUInt16
  offset2 := ((isr >>> 32) &&& 0xffffffff).toUInt32
  ist := 0
  seg := 0x08
  pdplGateType := pdplGateType
  reserved := 0

/-- `arch_idt_set_entry`. -/
def archIdtSetEntry (p : Statics) (entry : UInt8) (isr : UInt64) (pdplGateType : UInt8)
    (m : Memory) : Memory :=
  let place := p.idt + UInt64.ofNat (16 * entry.toNat)
  let e := idtEntry isr pdplGateType
  (m.store64 place e.low).store64 (place + 8) e.high

/-- `arch_interrupt_init`: the stubs get their entries one after the other. -/
def archInterruptInit (p : Statics) (c : Core) : Core :=
  let stubs := List.finRange 32
  { c with
    idtr := ⟨p.idt, 16 * 256 - 1⟩
    mem := stubs.foldl
      (fun m (i : Fin 32) => archIdtSetEntry p (UInt8.ofNat i.val) (p.isr i) intGate m) c.mem }

end Symphony
