import Symphony.Spec.Translation
import Symphony.Verif.Ownership

/-!
# Page table entries in memory

Every byte of a page table lies in the frame of the table, so tables in different frames
do not disturb each other: a store to one entry changes that entry only, a zeroed frame
is an empty table, and a write that stays out of a frame keeps its entries.
-/

namespace Symphony

variable {boot : Boot} {m m' : Memory} {frame : Nat} {i : Fin 512}

/-- A table pointer leads to its frame. -/
theorem tablePointer_sub (boot : Boot) (frame : Nat) :
    tablePointer boot frame - boot.offset = UInt64.ofNat (4096 * frame) := by
  unfold tablePointer
  grind

/-- The frame of a table. -/
theorem frameOf_tablePointer (boot : Boot) {frame : Nat} (small : frame < 2 ^ 52) :
    frameOf boot (tablePointer boot frame) = frame := by
  rw [frameOf, tablePointer_sub, toNat_ofNat_of_fits (by omega), Nat.mul_div_cancel_left _ (by decide)]

/-- The bytes of a table are the bytes of its frame. -/
theorem table_span_iff (small : frame < 2 ^ 52) (a : UInt64) :
    Span (tablePointer boot frame) 4096 a ↔ frameOf boot a = frame := by
  have start : (UInt64.ofNat (4096 * frame)).toNat = 4096 * frame := toNat_ofNat_of_fits (by omega)
  have inside : Span (UInt64.ofNat (4096 * frame)) 4096 (a - boot.offset) ↔ _ :=
    span_iff (by omega)
  rw [Span, show a - tablePointer boot frame = a - boot.offset - UInt64.ofNat (4096 * frame) by
    unfold tablePointer; grind]
  rw [Span, start] at inside
  rw [inside, frameOf]
  omega

/-- The bytes of an entry are eight bytes of the frame of its table. -/
theorem entry_span_iff (small : frame < 2 ^ 52) (a : UInt64) :
    Span (entryPointer (tablePointer boot frame) (UInt64.ofNat i)) 8 a ↔
      frameOf boot a = frame ∧ (a - boot.offset).toNat / 8 % 512 = i := by
  have below := i.isLt
  have start : (UInt64.ofNat (4096 * frame + 8 * i)).toNat = 4096 * frame + 8 * i :=
    toNat_ofNat_of_fits (by omega)
  have inside : Span (UInt64.ofNat (4096 * frame + 8 * i)) 8 (a - boot.offset) ↔ _ :=
    span_iff (by omega)
  have split : UInt64.ofNat (4096 * frame + 8 * i) =
      UInt64.ofNat (4096 * frame) + 8 * UInt64.ofNat i := by
    rw [UInt64.ofNat_add, UInt64.ofNat_mul 8]
    rfl
  rw [Span, show a - entryPointer (tablePointer boot frame) (UInt64.ofNat i) =
    a - boot.offset - (UInt64.ofNat (4096 * frame) + 8 * UInt64.ofNat i) by
      unfold entryPointer tablePointer; grind, ← split]
  rw [Span, start] at inside
  rw [inside, frameOf]
  omega

/-- Equal bytes in a frame are equal entries. -/
theorem entryAt_congr (small : frame < 2 ^ 52)
    (same : ∀ a, frameOf boot a = frame → m'.byte a = m.byte a) :
    entryAt boot m' frame i = entryAt boot m frame i := by
  have word : m'.load64 (entryPointer (tablePointer boot frame) (UInt64.ofNat i)) =
      m.load64 (entryPointer (tablePointer boot frame) (UInt64.ofNat i)) :=
    Memory.load64_congr fun a inside => same a ((entry_span_iff small a).mp inside).1
  rw [entryAt, entryAt, Memory.entry, Memory.entry, word]

/-- The memory after a store to one entry. -/
theorem entryAt_store {g : Nat} {j : Fin 512} (small : frame < 2 ^ 52) (smallG : g < 2 ^ 52)
    (e : PageTableEntry) :
    entryAt boot (m.store64 (entryPointer (tablePointer boot frame) (UInt64.ofNat i)) e.encode) g j =
      if g = frame ∧ j = i then e else entryAt boot m g j := by
  have writes := m.store64_writes (entryPointer (tablePointer boot frame) (UInt64.ofNat i)) e.encode
  by_cases here : g = frame ∧ j = i
  · obtain ⟨rfl, rfl⟩ := here
    rw [if_pos ⟨rfl, rfl⟩, entryAt, Memory.entry, Memory.load64_store64, PageTableEntry.decode_encode]
  · rw [if_neg here]
    have word := writes.load64_eq (a := entryPointer (tablePointer boot g) (UInt64.ofNat j)) (by
      intro a inside stored
      obtain ⟨inG, atJ⟩ := (entry_span_iff smallG a).mp inside
      obtain ⟨inFrame, atI⟩ := (entry_span_iff small a).mp stored
      exact here ⟨inG.symm.trans inFrame, Fin.ext (atJ.symm.trans atI)⟩)
    rw [entryAt, entryAt, Memory.entry, Memory.entry, word]

/-- A store to an entry writes bytes of its frame only. -/
theorem store_byte (small : frame < 2 ^ 52) (e : PageTableEntry) {a : UInt64}
    (elsewhere : frameOf boot a ≠ frame) :
    (m.store64 (entryPointer (tablePointer boot frame) (UInt64.ofNat i)) e.encode).byte a =
      m.byte a := by
  apply (m.store64_writes _ e.encode).byte_eq
  intro inside
  exact elsewhere ((entry_span_iff small a).mp inside).1

/-- Zero bytes load as zero. -/
theorem loadLE_zero {a : UInt64} {count : Nat} (fits : count ≤ 2 ^ 64)
    (zero : ∀ x, Span a count x → m.byte x = 0) : m.loadLE a count = 0 := by
  induction count generalizing a with
  | zero => rfl
  | succ count ih =>
    have head := zero a ((span_succ (by omega)).mpr (Or.inl rfl))
    have tail := ih (a := a + 1) (by omega) fun x inside =>
      zero x ((span_succ (by omega)).mpr (Or.inr inside))
    rw [Memory.loadLE, head, tail]
    rfl

/-- An entry of zero bytes. -/
def PageTableEntry.empty : PageTableEntry :=
  ⟨false, false, false, false, false, false, false, false, 0, 0, false⟩

/-- The memory after a frame was zeroed. -/
theorem entryAt_memset {g : Nat} {j : Fin 512} (small : frame < 2 ^ 52) (smallG : g < 2 ^ 52) :
    entryAt boot (memset m (tablePointer boot frame) 0 4096) g j =
      if g = frame then .empty else entryAt boot m g j := by
  have size : (4096 : UInt64).toNat = 4096 := rfl
  by_cases here : g = frame
  · obtain rfl := here
    have zero : (memset m (tablePointer boot g) 0 4096).loadLE
        (entryPointer (tablePointer boot g) (UInt64.ofNat j)) 8 = 0 := by
      apply loadLE_zero (by decide)
      intro a inside
      have inTable := (table_span_iff smallG a).mpr ((entry_span_iff smallG a).mp inside).1
      rw [memset_byte, size, if_pos inTable]
    rw [if_pos rfl, entryAt, Memory.entry, Memory.load64, zero]
    rfl
  · rw [if_neg here]
    apply entryAt_congr smallG
    intro a inG
    rw [memset_byte, size, if_neg]
    intro inside
    exact here (inG.symm.trans ((table_span_iff small a).mp inside))

/-- A zeroed frame changes no byte of another frame. -/
theorem memset_table_byte (small : frame < 2 ^ 52) {a : UInt64} (elsewhere : frameOf boot a ≠ frame) :
    (memset m (tablePointer boot frame) 0 4096).byte a = m.byte a := by
  rw [memset_byte, if_neg]
  intro inside
  exact elsewhere ((table_span_iff small a).mp inside)

/-! ## Addresses in entries -/

/-- The base of an entry whose address field is a frame number is the table in that frame. -/
theorem base_eq_tablePointer {e : PageTableEntry} (small : e.addr.toNat < 2 ^ 40) :
    e.base + boot.offset = tablePointer boot e.frame := by
  have value : e.base = UInt64.ofNat (4096 * e.frame) := by
    rw [← UInt64.toNat_inj, toNat_ofNat_of_fits (by unfold PageTableEntry.frame; omega),
      PageTableEntry.base, UInt64.toNat_shiftLeft, PageTableEntry.frame]
    change (e.addr.setWidth 64).toNat <<< 12 % 2 ^ 64 = _
    rw [BitVec.toNat_setWidth, Nat.shiftLeft_eq]
    omega
  rw [value, tablePointer]

/-- The address field that the code computes for a frame. -/
theorem addrOfWord_toNat (w : UInt64) :
    (PageTableEntry.addrOfWord (w >>> 12)).toNat = w.toNat / 4096 % 2 ^ 51 := by
  have shift : (w >>> 12).toNat = w.toNat / 4096 := by
    rw [UInt64.toNat_shiftRight, Nat.shiftRight_eq_div_pow]
    rfl
  change ((w >>> 12).toBitVec.setWidth 51).toNat = _
  rw [BitVec.toNat_setWidth]
  change (w >>> 12).toNat % 2 ^ 51 = _
  rw [shift]

/-- The page number of an address. -/
theorem toNat_pageNumber (virtAddr : UInt64) :
    (pageNumber virtAddr).toNat = virtAddr.toNat / 4096 % 2 ^ 36 := by
  rw [pageNumber, BitVec.extractLsb'_toNat, Nat.shiftRight_eq_div_pow]
  rfl

/-- Masking keeps the nine bits of an index. -/
theorem nineBits (w : UInt64) : w &&& 0x1ff = UInt64.ofNat (Fin.ofNat 512 w.toNat) := by
  have mask : (0x1ff : UInt64).toNat = 2 ^ 9 - 1 := rfl
  rw [← UInt64.toNat_inj, UInt64.toNat_and, mask, Nat.and_two_pow_sub_one_eq_mod, Fin.val_ofNat,
    toNat_ofNat_of_fits (by omega)]

/-- `page_index` computes the indices of the page. -/
theorem pageIndex_eq (virtAddr : UInt64) : ∃ i j k : Fin 512,
    upperPath (pageNumber virtAddr) = [i, j, k] ∧
    pageIndex virtAddr = ⟨UInt64.ofNat (lastIndex (pageNumber virtAddr)), UInt64.ofNat k,
      UInt64.ofNat j, UInt64.ofNat i⟩ := by
  have shift (w : UInt64) (k : UInt64) (n : Nat) (amount : k.toNat % 64 = n) :
      (w >>> k).toNat = w.toNat / 2 ^ n := by
    rw [UInt64.toNat_shiftRight, amount, Nat.shiftRight_eq_div_pow]
  refine ⟨_, _, _, rfl, ?_⟩
  simp only [pageIndex, nineBits, lastIndex, toNat_pageNumber, shift _ 12 12 rfl, shift _ 9 9 rfl,
    PageIndex.mk.injEq]
  refine ⟨?_, ?_, ?_, ?_⟩
  all_goals
    congr 1
    simp only [Fin.val_ofNat]
    omega

end Symphony
