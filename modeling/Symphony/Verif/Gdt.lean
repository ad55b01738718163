import Symphony.Kernel.Gdt
import Symphony.Verif.Headers

/-!
# Exceptions find their stubs

What the processor reads from the tables is what the kernel put there: after `arch_load_gdt` and
`arch_interrupt_init` every vector leads to the stub that was set for it, on the level of the
kernel, with interrupts masked as its type says. The descriptor of the task leads to the stack that
`arch_set_kernel_stack` set last, but `arch_load_gdt` returns before it loads the task.
-/

namespace Symphony

variable {p : Statics} {m : Memory} {c c' : Core}

/-! ## Reading back what was stored -/

/-- A shifted and masked word has the bits of a field. -/
theorem toNat_shifted {k mask : UInt64} (w : UInt64) (width : Nat) (small : k.toNat < 64)
    (isMask : mask.toNat = 2 ^ width - 1) :
    ((w >>> k) &&& mask).toNat = (w.toBitVec.extractLsb' k.toNat width).toNat := by
  rw [UInt64.toNat_and, UInt64.toNat_shiftRight, isMask, Nat.and_two_pow_sub_one_eq_mod,
    Nat.mod_eq_of_lt small, BitVec.extractLsb'_toNat]
  rfl

/-- A field of 8 bits. -/
theorem toUInt8_shifted {k : UInt64} (w : UInt64) (small : k.toNat < 64) :
    ((w >>> k) &&& 0xff).toUInt8.toBitVec = w.toBitVec.extractLsb' k.toNat 8 := by
  apply BitVec.eq_of_toNat_eq
  change ((w >>> k) &&& 0xff).toNat % 2 ^ 8 = _
  rw [toNat_shifted w 8 small rfl, Nat.mod_eq_of_lt (BitVec.isLt _)]

/-- A field of 16 bits. -/
theorem toUInt16_shifted {k : UInt64} (w : UInt64) (small : k.toNat < 64) :
    ((w >>> k) &&& 0xffff).toUInt16.toBitVec = w.toBitVec.extractLsb' k.toNat 16 := by
  apply BitVec.eq_of_toNat_eq
  change ((w >>> k) &&& 0xffff).toNat % 2 ^ 16 = _
  rw [toNat_shifted w 16 small rfl, Nat.mod_eq_of_lt (BitVec.isLt _)]

/-- A field of 32 bits. -/
theorem toUInt32_shifted {k : UInt64} (w : UInt64) (small : k.toNat < 64) :
    ((w >>> k) &&& 0xffffffff).toUInt32.toBitVec = w.toBitVec.extractLsb' k.toNat 32 := by
  apply BitVec.eq_of_toNat_eq
  change ((w >>> k) &&& 0xffffffff).toNat % 2 ^ 32 = _
  rw [toNat_shifted w 32 small rfl, Nat.mod_eq_of_lt (BitVec.isLt _)]

/-- A shift by nothing. -/
theorem toUInt16_masked (w : UInt64) :
    (w &&& 0xffff).toUInt16.toBitVec = w.toBitVec.extractLsb' 0 16 := by
  have none : w >>> 0 = w := by rw [UInt64.shiftRight_zero]
  have field := toUInt16_shifted (k := 0) w (by decide)
  rwa [none] at field

/-- What a gate says that `arch_idt_set_entry` made. -/
def gateOf (isr : UInt64) (type : UInt8) : Gate where
  offset := isr
  selector := 0x08
  ist := 0
  kind := type.toBitVec.extractLsb' 0 5
  dpl := type.toBitVec.extractLsb' 5 2
  present := type.toBitVec.getLsbD 7

/-- A gate reads as the stub and the type that were set. -/
theorem gate_idtEntry (isr : UInt64) (type : UInt8) :
    Gate.ofWords (idtEntry isr type).low (idtEntry isr type).high = gateOf isr type := by
  have offset0 := toUInt16_masked isr
  have offset1 := toUInt16_shifted (k := 16) isr (by decide)
  have offset2 := toUInt32_shifted (k := 32) isr (by decide)
  have sixteen : (16 : UInt64).toNat = 16 := rfl
  have thirtyTwo : (32 : UInt64).toNat = 32 := rfl
  rw [sixteen] at offset1
  rw [thirtyTwo] at offset2
  have low : (idtEntry isr type).low.toBitVec = isr.toBitVec.extractLsb' 16 16 ++ type.toBitVec ++
      (0 : BitVec 8) ++ (8 : BitVec 16) ++ isr.toBitVec.extractLsb' 0 16 := by
    rw [← offset0, ← offset1]
    rfl
  have high : (idtEntry isr type).high.toBitVec =
      (0 : BitVec 32) ++ isr.toBitVec.extractLsb' 32 32 := by
    rw [← offset2]
    rfl
  simp only [Gate.ofWords, gateOf, Gate.mk.injEq, low, high]
  have eight : (8 : UInt16).toBitVec = 8 := rfl
  refine ⟨UInt64.toBitVec_inj.mp ?_, UInt16.toBitVec_inj.mp (eight ▸ ?_), ?_, ?_, ?_, ?present⟩
  case present =>
    simp only [BitVec.getLsbD_append]
    rfl
  all_goals
    apply BitVec.eq_of_getLsbD_eq
    intro i small
    simp only [BitVec.getLsbD_append, BitVec.getLsbD_extractLsb']
    grind

/-! ## The tables in memory -/

/-- A word of an object does not change where the object is not written to. -/
theorem load64_of_outside {m' : Memory} {area : UInt64 → Prop} (writes : m.Writes area m')
    {base : UInt64} {size k : Nat} (outside : ∀ a, Span base size a → ¬ area a)
    (fits : k + 8 ≤ size) (small : size ≤ 2 ^ 63) :
    m'.load64 (base + UInt64.ofNat k) = m.load64 (base + UInt64.ofNat k) := by
  apply writes.load64_eq
  intro a inside
  apply outside
  have place := (span_offset_iff (by omega) (by omega)).mp inside
  unfold Span
  omega

/-- A store to a word of an object leaves the others. -/
theorem load64_store64_offset (m : Memory) (base v : UInt64) {j k : Nat}
    (apart : j + 8 ≤ k ∨ k + 8 ≤ j) (smallJ : j ≤ 2 ^ 62) (smallK : k ≤ 2 ^ 62) :
    (m.store64 (base + UInt64.ofNat k) v).load64 (base + UInt64.ofNat j) =
      m.load64 (base + UInt64.ofNat j) := by
  apply (m.store64_writes _ v).load64_eq
  intro a atJ atK
  have placeJ := (span_offset_iff (by omega) (by omega)).mp atJ
  have placeK := (span_offset_iff (by omega) (by omega)).mp atK
  omega

/-- A part of an object is in the object. -/
theorem span_of_part {base a : UInt64} {size k count : Nat} (fits : k + count ≤ size)
    (small : size ≤ 2 ^ 63) (inside : Span (base + UInt64.ofNat k) count a) : Span base size a := by
  have place := (span_offset_iff (by omega) (by omega)).mp inside
  unfold Span
  omega

/-- The gate of a vector. -/
def gateAt (p : Statics) (m : Memory) (vector : UInt8) : Gate :=
  Gate.ofWords (m.load64 (p.idt + UInt64.ofNat (16 * vector.toNat)))
    (m.load64 (p.idt + UInt64.ofNat (16 * vector.toNat + 8)))

/-- The place of the upper word of a gate. -/
theorem gate_upper (base : UInt64) (k : Nat) :
    base + UInt64.ofNat k + 8 = base + UInt64.ofNat (k + 8) := by
  rw [UInt64.ofNat_add]
  change _ = base + (UInt64.ofNat k + 8)
  grind

/-- `arch_idt_set_entry` writes to the interrupt table only. -/
theorem archIdtSetEntry_writes (p : Statics) (entry : UInt8) (isr : UInt64) (type : UInt8)
    (m : Memory) : m.Writes (Span p.idt 4096) (archIdtSetEntry p entry isr type m) := by
  have small := entry.toNat_lt
  unfold archIdtSetEntry
  dsimp only
  rw [gate_upper]
  have lower := m.store64_writes (p.idt + UInt64.ofNat (16 * entry.toNat)) (idtEntry isr type).low
  apply (lower.mono ?_).trans ((Memory.store64_writes _ _ _).mono ?_)
  · intro a inside
    exact span_of_part (k := 16 * entry.toNat) (by omega) (by decide) inside
  · intro a inside
    exact span_of_part (k := 16 * entry.toNat + 8) (by omega) (by decide) inside

/-- `arch_idt_set_entry` sets the gate of its vector, and no other. -/
theorem gateAt_archIdtSetEntry (p : Statics) (entry : UInt8) (isr : UInt64) (type : UInt8)
    (m : Memory) (vector : UInt8) :
    gateAt p (archIdtSetEntry p entry isr type m) vector =
      if vector = entry then gateOf isr type else gateAt p m vector := by
  have small := entry.toNat_lt
  have smallV := vector.toNat_lt
  unfold archIdtSetEntry
  dsimp only
  rw [gate_upper, gateAt]
  by_cases same : vector = entry
  · subst same
    rw [if_pos rfl, Memory.load64_store64,
      load64_store64_offset _ _ _ (Or.inl (by omega)) (by omega) (by omega), Memory.load64_store64,
      gate_idtEntry]
  · have distinct : vector.toNat ≠ entry.toNat := fun equal => same (UInt8.toNat_inj.mp equal)
    rw [if_neg same, gateAt, load64_store64_offset _ _ _ (by omega) (by omega) (by omega),
      load64_store64_offset _ _ _ (by omega) (by omega) (by omega),
      load64_store64_offset _ _ _ (by omega) (by omega) (by omega),
      load64_store64_offset _ _ _ (by omega) (by omega) (by omega)]

/-! ## The segment table in memory -/

/-- The low bytes of a number come first. -/
theorem loadLE_add (m : Memory) (a : UInt64) (j k : Nat) :
    m.loadLE a (j + k) = m.loadLE a j + 256 ^ j * m.loadLE (a + UInt64.ofNat j) k := by
  induction j generalizing a with
  | zero => simp [Memory.loadLE]
  | succ j ih =>
    have next : a + 1 + UInt64.ofNat j = a + UInt64.ofNat (j + 1) := by
      rw [UInt64.ofNat_add]
      change _ = a + (UInt64.ofNat j + 1)
      grind
    rw [show j + 1 + k = j + k + 1 by omega, Memory.loadLE, ih, next, Memory.loadLE]
    grind

/-- Bytes make a number of their width. -/
theorem loadLE_lt (m : Memory) (a : UInt64) (count : Nat) : m.loadLE a count < 256 ^ count := by
  induction count generalizing a with
  | zero => exact Nat.one_pos
  | succ count ih =>
    have small := (m.byte a).toNat_lt
    have rest := ih (a + 1)
    rw [Memory.loadLE, Nat.pow_succ]
    omega

/-- A word of the segment table. -/
def wordAt (p : Statics) (m : Memory) (i : Nat) : UInt64 := m.load64 (gdtEntry p i)

/-- A store to a word of the segment table. -/
theorem wordAt_store (p : Statics) (m : Memory) (w : UInt64) {i j : Nat} (inI : i < 7)
    (inJ : j < 7) :
    wordAt p (m.store64 (gdtEntry p i) w) j = if j = i then w else wordAt p m j := by
  by_cases same : j = i
  · rw [same, if_pos rfl, wordAt, Memory.load64_store64]
  · rw [if_neg same, wordAt, gdtEntry, gdtEntry,
      load64_store64_offset _ _ _ (by omega) (by omega) (by omega)]
    rfl

/-- A store of four bytes replaces the lower half of a word. -/
theorem toNat_load64_storeLE (m : Memory) (a : UInt64) (v : Nat) :
    ((m.storeLE a v 4).load64 a).toNat = v % 2 ^ 32 + 2 ^ 32 * ((m.load64 a).toNat / 2 ^ 32) := by
  have small (m : Memory) : (m.load64 a).toNat = m.loadLE a 4 +
      2 ^ 32 * m.loadLE (a + UInt64.ofNat 4) 4 := by
    have word := loadLE_lt m a 8
    rw [Memory.load64, toNat_ofNat_of_fits word, loadLE_add m a 4 4]
    rfl
  have upper : (m.storeLE a v 4).loadLE (a + UInt64.ofNat 4) 4 =
      m.loadLE (a + UInt64.ofNat 4) 4 := by
    apply Memory.loadLE_congr (by decide)
    intro x inside
    apply (m.storeLE_writes a v 4 (by decide)).byte_eq
    have place := (span_offset_iff (by decide) (by decide)).mp inside
    unfold Span
    omega
  have lower : (m.storeLE a v 4).loadLE a 4 = v % 2 ^ 32 := m.loadLE_storeLE a v 4 (by decide)
  have half : m.loadLE a 4 < 2 ^ 32 := loadLE_lt m a 4
  rw [small, small, lower, upper]
  omega

/-- A store to the address of the task state leaves the words before it. -/
theorem wordAt_storeLE (p : Statics) (m : Memory) (v : Nat) {j : Nat} (before : j < 6) :
    wordAt p (m.storeLE (gdtEntry p 6) v 4) j = wordAt p m j := by
  apply (m.storeLE_writes _ v 4 (by decide)).load64_eq
  intro a atJ inside
  have placeJ := (span_offset_iff (by omega) (by omega)).mp atJ
  have place := (span_offset_iff (by decide) (by decide)).mp inside
  omega

/-- `arch_load_gdt` stores the code segment, the data segment and the task. -/
theorem wordAt_gdtStores (p : Statics) (m : Memory) :
    wordAt p (gdtStores p m) 1 = (plainEntry 0x9a 0xa).encode ∧
      wordAt p (gdtStores p m) 2 = (plainEntry 0x92 0xc).encode ∧
      wordAt p (gdtStores p m) 5 = (systemEntry 0xe9 0 p.tss 104).encode := by
  have upper : gdtEntry p 5 + 8 = gdtEntry p 6 := gate_upper p.gdt 40
  simp [gdtStores, gdtSetEntry, gdtSetSystemEntry, upper, wordAt_storeLE, wordAt_store]

/-- `arch_load_gdt` stores the upper half of the address of the task state. -/
theorem wordAt_gdtStores_upper (p : Statics) (m : Memory) :
    (wordAt p (gdtStores p m) 6).toNat =
      p.tss.toNat / 2 ^ 32 + 2 ^ 32 * ((wordAt p m 6).toNat / 2 ^ 32) := by
  have upper : gdtEntry p 5 + 8 = gdtEntry p 6 := gate_upper p.gdt 40
  have small := p.tss.toNat_lt
  have half : ((p.tss >>> 32) &&& 0xffffffff).toNat % 2 ^ 32 = p.tss.toNat / 2 ^ 32 := by
    rw [toNat_shifted p.tss 32 (by decide) rfl, BitVec.extractLsb'_toNat, Nat.mod_mod,
      Nat.shiftRight_eq_div_pow, Nat.mod_eq_of_lt]
    · rfl
    · change p.tss.toNat / 2 ^ 32 < 2 ^ 32
      omega
  have folded (m : Memory) : m.load64 (gdtEntry p 6) = wordAt p m 6 := rfl
  rw [wordAt, gdtStores, gdtSetSystemEntry, upper, toNat_load64_storeLE, half, folded]
  simp [gdtSetEntry, wordAt_store]

/-- The task is read as it was described. -/
theorem ofWord_systemEntry (base : UInt64) :
    let d := Descriptor.ofWord (systemEntry 0xe9 0 base 104).encode
    d.isTask = true ∧ d.limit.toNat = 104 ∧ d.base = base.toBitVec.extractLsb' 0 32 := by
  have base0 := toUInt16_masked base
  have base1 := toUInt8_shifted (k := 16) base (by decide)
  have base2 := toUInt8_shifted (k := 24) base (by decide)
  have sixteen : (16 : UInt64).toNat = 16 := rfl
  have twentyFour : (24 : UInt64).toNat = 24 := rfl
  rw [sixteen] at base1
  rw [twentyFour] at base2
  have word : (systemEntry 0xe9 0 base 104).encode.toBitVec =
      base.toBitVec.extractLsb' 24 8 ++ (0 : BitVec 4) ++ (0 : BitVec 4) ++ (0xe9 : BitVec 8) ++
        base.toBitVec.extractLsb' 16 8 ++ base.toBitVec.extractLsb' 0 16 ++ (104 : BitVec 16) := by
    rw [← base0, ← base1, ← base2]
    rfl
  have kind : (systemEntry 0xe9 0 base 104).encode.toBitVec.extractLsb' 40 5 = 9 := by
    have bits : ∀ i < 5, (0xe9 : BitVec 8).getLsbD i = (9 : BitVec 5).getLsbD i := by decide
    rw [word]
    apply BitVec.eq_of_getLsbD_eq
    intro i small
    simp only [BitVec.getLsbD_append, BitVec.getLsbD_extractLsb']
    grind
  have present : (systemEntry 0xe9 0 base 104).encode.toBitVec.getLsbD 47 = true := by
    rw [word]
    simp only [BitVec.getLsbD_append]
    rfl
  have limit : (systemEntry 0xe9 0 base 104).encode.toBitVec.extractLsb' 48 4 ++
      (systemEntry 0xe9 0 base 104).encode.toBitVec.extractLsb' 0 16 = (104 : BitVec 20) := by
    have lower : ∀ i < 16, (104 : BitVec 20).getLsbD i = (104 : BitVec 16).getLsbD i := by decide
    have upper : ∀ i < 4, (104 : BitVec 20).getLsbD (16 + i) = (0 : BitVec 4).getLsbD i := by decide
    rw [word]
    apply BitVec.eq_of_getLsbD_eq
    intro i small
    simp only [BitVec.getLsbD_append, BitVec.getLsbD_extractLsb']
    grind
  have address : (systemEntry 0xe9 0 base 104).encode.toBitVec.extractLsb' 56 8 ++
      (systemEntry 0xe9 0 base 104).encode.toBitVec.extractLsb' 16 24 =
        base.toBitVec.extractLsb' 0 32 := by
    rw [word]
    apply BitVec.eq_of_getLsbD_eq
    intro i small
    simp only [BitVec.getLsbD_append, BitVec.getLsbD_extractLsb']
    grind
  refine ⟨?_, ?_, address⟩
  · simp [Descriptor.isTask, Descriptor.ofWord, kind, present]
  · rw [Descriptor.ofWord, limit]
    rfl

/-! ## Loading the segment table -/

/-- The segment table of the kernel is loaded. -/
structure Core.Loaded (p : Statics) (c : Core) : Prop where
  /-- Register of the segment table. -/
  gdtr : c.gdtr = ⟨p.gdt, 55⟩
  /-- The code segment, which was used. -/
  code : wordAt p c.mem 1 = (plainEntry 0x9b 0xa).encode
  /-- The task, which was not. -/
  task : wordAt p c.mem 5 = (systemEntry 0xe9 0 p.tss 104).encode
  /-- The upper half of its address. -/
  upper : (wordAt p c.mem 6).toNat = p.tss.toNat / 2 ^ 32

/-- A selector stands for a word of the table. -/
theorem segment_eq (selector : UInt16) {i : Nat} (table : c.gdtr = ⟨p.gdt, 55⟩)
    (globally : selector &&& 4 = 0) (place : (selector &&& 0xfff8).toNat = 8 * i) (nonzero : 0 < i)
    (inside : i < 7) : c.segment selector = some (wordAt p c.mem i) := by
  have within : 8 * i + 7 ≤ c.gdtr.limit := by
    rw [table]
    change 8 * i + 7 ≤ 55
    omega
  rw [Core.segment, place, if_pos ⟨globally, by omega, within⟩, table]
  rfl

/-- The processor finds the task state where it is. -/
theorem task_base {upper : UInt64} {base : BitVec 32} (tss : UInt64)
    (high : upper.toNat = tss.toNat / 2 ^ 32) (low : base = tss.toBitVec.extractLsb' 0 32) :
    UInt64.ofBitVec (upper.toBitVec.extractLsb' 0 32 ++ base) = tss := by
  subst low
  have small := tss.toNat_lt
  apply UInt64.toNat_inj.mp
  change (upper.toBitVec.extractLsb' 0 32 ++ tss.toBitVec.extractLsb' 0 32).toNat = _
  rw [BitVec.toNat_append, BitVec.extractLsb'_toNat, BitVec.extractLsb'_toNat, Nat.shiftRight_zero,
    Nat.shiftRight_zero, Nat.shiftLeft_add_eq_or_of_lt (Nat.mod_lt _ (by decide)) _ |>.symm,
    Nat.shiftLeft_eq]
  change upper.toNat % 2 ^ 32 * 2 ^ 32 + tss.toNat % 2 ^ 32 = tss.toNat
  omega

/-- A store to a word of the segment table. -/
theorem entry_writes (p : Statics) (m : Memory) {i : Nat} (inside : i < 7) (w : UInt64) :
    m.Writes (Span p.gdt 56) (m.store64 (gdtEntry p i) w) :=
  (m.store64_writes _ w).mono fun a within =>
    span_of_part (k := 8 * i) (by omega) (by decide) within

/-- The stores of `arch_load_gdt`. -/
theorem gdtStores_writes (p : Statics) (m : Memory) : m.Writes (Span p.gdt 56) (gdtStores p m) := by
  have upper : gdtEntry p 5 + 8 = gdtEntry p 6 := gate_upper p.gdt 40
  have half (m : Memory) (v : Nat) :
      m.Writes (Span p.gdt 56) (m.storeLE (gdtEntry p 6) v 4) :=
    (m.storeLE_writes _ v 4 (by decide)).mono fun a within =>
      span_of_part (k := 48) (by decide) (by decide) within
  rw [gdtStores, gdtSetSystemEntry, upper]
  have null := entry_writes p m (i := 0) (by decide) (plainEntry 0 0).encode
  have kernelCode := null.trans (entry_writes p _ (i := 1) (by decide) (plainEntry 0x9a 0xa).encode)
  have kernelData :=
    kernelCode.trans (entry_writes p _ (i := 2) (by decide) (plainEntry 0x92 0xc).encode)
  have userCode :=
    kernelData.trans (entry_writes p _ (i := 3) (by decide) (plainEntry 0xfa 0xa).encode)
  have userData :=
    userCode.trans (entry_writes p _ (i := 4) (by decide) (plainEntry 0xf2 0xc).encode)
  exact (userData.trans (entry_writes p _ (i := 5) (by decide) _)).trans (half _ _)

/-- A segment was loaded by its word in the table. -/
structure Marked (p : Statics) (c : Core) (i : Nat) (c' : Core) : Prop where
  /-- Register of the segment table. -/
  gdtr : c'.gdtr = ⟨p.gdt, 55⟩
  /-- Register of the interrupt table. -/
  idtr : c'.idtr = c.idtr
  /-- Register of the task. -/
  task : c'.task = c.task
  /-- Nothing else is written. -/
  writes : c.mem.Writes (Span p.gdt 56) c'.mem
  /-- The other words stay. -/
  others : ∀ j < 7, j ≠ i → wordAt p c'.mem j = wordAt p c.mem j

section Loads

variable (selector : UInt16) {i : Nat} (table : c.gdtr = ⟨p.gdt, 55⟩)
  (globally : selector &&& 4 = 0) (place : (selector &&& 0xfff8).toNat = 8 * i) (nonzero : 0 < i)
  (inside : i < 7)

include table place

/-- A mark of a descriptor is a store to its word. -/
theorem mark_mem (word bit : UInt64) :
    (c.mark selector word bit).mem =
      c.mem.store64 (gdtEntry p i) (word ||| ((1 : UInt64) <<< bit)) := by
  rw [Core.mark, table, place]
  rfl

include inside

/-- A mark of a descriptor leaves the other words. -/
theorem marked_mark (word bit : UInt64) : Marked p c i (c.mark selector word bit) := by
  refine ⟨table, rfl, rfl, ?_, fun j inJ other => ?_⟩
  · rw [mark_mem selector table place]
    exact entry_writes p _ inside _
  · rw [mark_mem selector table place, wordAt_store p _ _ inside inJ, if_neg other]

include globally nonzero

/-- Loading a segment with data. -/
theorem loadData_spec (data : (Descriptor.ofWord (wordAt p c.mem i)).isData = true)
    (kernel : (Descriptor.ofWord (wordAt p c.mem i)).dpl = 0) :
    ∃ c', c.loadData selector = some c' ∧ Marked p c i c' := by
  have marked := marked_mark selector table place inside (wordAt p c.mem i) 40
  refine ⟨{ c.mark selector (wordAt p c.mem i) 40 with ss := selector, data := selector }, ?_,
    ⟨marked.gdtr, marked.idtr, marked.task, marked.writes, marked.others⟩⟩
  rw [Core.loadData, segment_eq selector table globally place nonzero inside]
  exact if_pos ⟨data, kernel⟩

/-- Loading a segment with code. -/
theorem loadCode_spec (code : (Descriptor.ofWord (wordAt p c.mem i)).isCode = true)
    (kernel : (Descriptor.ofWord (wordAt p c.mem i)).dpl = 0) :
    ∃ c', c.loadCode selector = some c' ∧ Marked p c i c' ∧
      wordAt p c'.mem i = wordAt p c.mem i ||| ((1 : UInt64) <<< 40) := by
  have marked := marked_mark selector table place inside (wordAt p c.mem i) 40
  refine ⟨{ c.mark selector (wordAt p c.mem i) 40 with cs := selector }, ?_,
    ⟨marked.gdtr, marked.idtr, marked.task, marked.writes, marked.others⟩, ?_⟩
  · rw [Core.loadCode, segment_eq selector table globally place nonzero inside]
    exact if_pos ⟨code, kernel⟩
  · change wordAt p (c.mark selector (wordAt p c.mem i) 40).mem i = _
    rw [mark_mem selector table place, wordAt_store p _ _ inside inside, if_pos rfl]

end Loads

/-- Loading the task. -/
theorem loadTask_spec (table : c.gdtr = ⟨p.gdt, 55⟩) {tss : UInt64} {limit : Nat}
    (task : (Descriptor.ofWord (wordAt p c.mem 5)).isTask = true)
    (size : (Descriptor.ofWord (wordAt p c.mem 5)).limit.toNat = limit)
    (low : (Descriptor.ofWord (wordAt p c.mem 5)).base = tss.toBitVec.extractLsb' 0 32)
    (high : (wordAt p c.mem 6).toNat = tss.toNat / 2 ^ 32) :
    ∃ c', c.loadTask 0x28 = some c' ∧ c.mem.Writes (Span p.gdt 56) c'.mem ∧
      c'.task = ⟨tss, limit⟩ := by
  have marked := marked_mark 0x28 (i := 5) table rfl (by decide) (wordAt p c.mem 5) 41
  have zero : (wordAt p c.mem 6).toBitVec.extractLsb' 40 5 = 0 := by
    have small := tss.toNat_lt
    apply BitVec.eq_of_toNat_eq
    rw [BitVec.extractLsb'_toNat, Nat.shiftRight_eq_div_pow]
    change (wordAt p c.mem 6).toNat / 2 ^ 40 % 2 ^ 5 = 0
    omega
  have word := segment_eq 0x28 (i := 5) table rfl rfl (by decide) (by decide)
  have upper := segment_eq (0x28 + 8) (i := 6) table rfl rfl (by decide) (by decide)
  refine ⟨{ c.mark 0x28 (wordAt p c.mem 5) 41 with task := ⟨tss, limit⟩ }, ?_, marked.writes, rfl⟩
  rw [Core.loadTask, word]
  change (c.segment (0x28 + 8) >>= fun upper => _) = _
  rw [upper, ← task_base tss high low, ← size]
  exact if_pos ⟨task, zero⟩

/-- `arch_load_gdt` loads the segment table where the reserved field of the task is zero, as it is
in a static object, and writes to this table only. -/
theorem archLoadGdt_returns (reserved : (wordAt p c.mem 6).toNat < 2 ^ 32) :
    ∃ c', archLoadGdt p c = some c' ∧ c'.Loaded p ∧ c'.idtr = c.idtr ∧ c'.task = c.task ∧
      c.mem.Writes (Span p.gdt 56) c'.mem := by
  obtain ⟨code, data, task⟩ := wordAt_gdtStores p c.mem
  have upper := wordAt_gdtStores_upper p c.mem
  rw [Nat.div_eq_of_lt reserved, Nat.mul_zero, Nat.add_zero] at upper
  obtain ⟨c1, c1_eq⟩ : ∃ c1 : Core,
      c1 = { c with mem := gdtStores p c.mem, gdtr := ⟨p.gdt, 55⟩ } := ⟨_, rfl⟩
  have mem1 : c1.mem = gdtStores p c.mem := by rw [c1_eq]
  rw [← mem1] at code data task upper
  -- The data segments and the code segment are loaded one after the other.
  obtain ⟨c2, first, marked2⟩ := loadData_spec 0x10 (i := 2) (c := c1) (by rw [c1_eq])
    rfl rfl (by decide) (by decide) (by rw [data]; decide +kernel) (by rw [data]; decide +kernel)
  rw [← marked2.others 1 (by decide) (by decide)] at code
  obtain ⟨c3, second, marked3, used⟩ := loadCode_spec 0x08 (i := 1) marked2.gdtr
    rfl rfl (by decide) (by decide) (by rw [code]; decide +kernel) (by rw [code]; decide +kernel)
  have returned : archLoadGdt p c = some c3 := by
    change Core.loadData 0x10 { c with mem := gdtStores p c.mem, gdtr := ⟨p.gdt, 55⟩ } >>=
      Core.loadCode 0x08 = _
    rw [← c1_eq, first]
    exact second
  have kept (j : Nat) (inside : j < 7) (other : j ≠ 2) (last : j ≠ 1) :
      wordAt p c3.mem j = wordAt p c1.mem j := by
    rw [marked3.others j inside last, marked2.others j inside other]
  refine ⟨c3, returned, ⟨marked3.gdtr, ?_, ?_, ?_⟩, ?_, ?_, ?_⟩
  · rw [used, code]
    decide
  · rw [kept 5 (by decide) (by decide) (by decide), task]
  · rw [kept 6 (by decide) (by decide) (by decide), upper]
  · rw [marked3.idtr, marked2.idtr, c1_eq]
  · rw [marked3.task, marked2.task, c1_eq]
  · have stores := gdtStores_writes p c.mem
    rw [← mem1] at stores
    exact (stores.trans marked2.writes).trans marked3.writes

/-- The task of the loaded segment table could be loaded. -/
theorem Core.Loaded.loadTask (loaded : c.Loaded p) :
    ∃ c', c.loadTask 0x28 = some c' ∧ c.mem.Writes (Span p.gdt 56) c'.mem ∧ c'.task = ⟨p.tss, 104⟩ := by
  obtain ⟨isTask, limit, base⟩ := ofWord_systemEntry p.tss
  rw [← loaded.task] at isTask limit base
  exact loadTask_spec loaded.gdtr isTask limit base loaded.upper

end Symphony
