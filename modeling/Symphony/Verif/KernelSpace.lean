import Symphony.Spec.KernelSpace
import Symphony.Verif.Entries

/-!
# The kernel's address space

The address space that `vmm_init` is meant to build, page by page: what the direct map and
the kernel show, that one entry of the memory map does not disturb another, and that the
kernel and the direct map stay apart.
-/

namespace Symphony

variable {boot : Boot}

/-! ## Page numbers -/

/-- Page number of a sum with a page-aligned address. -/
theorem toNat_pageNumber_add {base : UInt64} (aligned : 4096 ∣ base.toNat) (w : UInt64) :
    (pageNumber (base + w)).toNat = (base.toNat / 4096 + w.toNat / 4096) % 2 ^ 36 := by
  rw [toNat_pageNumber, UInt64.toNat_add]
  omega

/-- Page number of a frame in the direct map. -/
theorem toNat_pageNumber_direct (aligned : 4096 ∣ boot.offset.toNat) {p : Nat} (small : p < 2 ^ 52) :
    (pageNumber (tablePointer boot p)).toNat = (boot.offset.toNat / 4096 + p) % 2 ^ 36 := by
  rw [tablePointer, UInt64.add_comm, toNat_pageNumber_add aligned, toNat_ofNat_of_fits (by omega)]
  omega

/-- Different frames have different pages in the direct map. -/
theorem direct_injective (aligned : 4096 ∣ boot.offset.toNat) {p q : Nat} (smallP : p < 2 ^ 35)
    (smallQ : q < 2 ^ 35) (same : pageNumber (tablePointer boot p) = pageNumber (tablePointer boot q)) :
    p = q := by
  have equal := congrArg BitVec.toNat same
  rw [toNat_pageNumber_direct aligned (by omega), toNat_pageNumber_direct aligned (by omega)] at equal
  omega

/-! ## Ranges -/

/-- A kernel page is mapped. -/
theorem Space.map_kernel (space : Space) (page : BitVec 36) (frame : Nat) :
    space.map page frame (vmmPresent ||| vmmRwx) = Function.update space page (kernelLeaf frame) :=
  rfl

/-- The frame and the flags of a mapped page do not depend on its leaf before. -/
theorem Space.map_flags (space : Space) (page : BitVec 36) (frame : Nat) (flags : Int32) :
    space.map page frame flags = Function.update space page (flagLeaf frame flags) :=
  rfl

/-- A page after a range was mapped: a page of the range, or unchanged. -/
theorem Space.mapRange_cases (space : Space) (physAddr virtAddr : UInt64) (flags : Int32)
    (count : Nat) (page : BitVec 36) :
    (space.mapRange physAddr virtAddr flags count page = space page ∧
      ∀ j < count, page ≠ pageNumber (virtAddr + UInt64.ofNat (4096 * j))) ∨
    ∃ j < count, page = pageNumber (virtAddr + UInt64.ofNat (4096 * j)) ∧
      space.mapRange physAddr virtAddr flags count page =
        flagLeaf (physFrame (physAddr + UInt64.ofNat (4096 * j))) flags := by
  induction count with
  | zero => exact Or.inl ⟨rfl, fun j below => absurd below (Nat.not_lt_zero j)⟩
  | succ count ih =>
    rw [mapRange, map_flags]
    by_cases last : page = pageNumber (virtAddr + UInt64.ofNat (4096 * count))
    · exact Or.inr ⟨count, Nat.lt_succ_self count, last, by rw [← last, Function.update_self]⟩
    · rw [Function.update_of_ne last]
      cases ih with
      | inl kept =>
        refine Or.inl ⟨kept.1, fun j below => ?_⟩
        by_cases here : j = count
        · rw [here]
          exact last
        · exact kept.2 j (by omega)
      | inr mapped =>
        obtain ⟨j, below, same, value⟩ := mapped
        exact Or.inr ⟨j, Nat.lt_succ_of_lt below, same, value⟩

/-- A page after a range was mapped for the kernel. -/
theorem Space.mapKernel_cases (space : Space) (physAddr virtAddr size : UInt64)
    (page : BitVec 36) :
    (space.mapKernel physAddr virtAddr size page = space page ∧
      ∀ j < pageCount size, page ≠ pageNumber (virtAddr + UInt64.ofNat (4096 * j))) ∨
    ∃ j < pageCount size, page = pageNumber (virtAddr + UInt64.ofNat (4096 * j)) ∧
      space.mapKernel physAddr virtAddr size page =
        kernelLeaf (physFrame (physAddr + UInt64.ofNat (4096 * j))) :=
  space.mapRange_cases physAddr virtAddr (vmmPresent ||| vmmRwx) (pageCount size) page

/-! ## Entries of the memory map -/

/-- The range of an entry without page zero. -/
theorem dropPageZero_cases (entry : LimineMemmapEntry) :
    (entry.base.toNat = 0 ∧ entry.toBootProto.dropPageZero.base.toNat = 4096 ∧
      entry.toBootProto.dropPageZero.length.toNat = entry.length.toNat - 4096) ∨
    (entry.base.toNat ≠ 0 ∧ entry.toBootProto.dropPageZero.base.toNat = entry.base.toNat ∧
      entry.toBootProto.dropPageZero.length.toNat = entry.length.toNat) := by
  have page : pageSize.toNat = 4096 := rfl
  unfold BootProtoMemmapEntry.dropPageZero LimineMemmapEntry.toBootProto
  by_cases zero : entry.base = 0
  · rw [if_pos zero]
    have first : ((0 : UInt64) + pageSize).toNat = 4096 := rfl
    have start : entry.base.toNat = 0 := by rw [zero]; rfl
    dsimp only
    refine Or.inl ⟨start, by rw [zero, first], ?_⟩
    by_cases pages : entry.length ≥ pageSize
    · rw [if_pos pages, UInt64.toNat_sub_of_le _ _ pages, page]
    · rw [if_neg pages]
      rw [ge_iff_le, UInt64.le_iff_toNat_le, page] at pages
      change 0 = _
      omega
  · rw [if_neg zero]
    exact Or.inr ⟨fun eq => zero (UInt64.toNat_inj.mp eq), rfl, rfl⟩

section Direct

variable {top : Nat} (layout : boot.Layout top)

include layout in
/-- The pages that an entry maps hold bytes of it and go to their place in the direct map. -/
theorem Boot.Layout.mapEntry_cases (space : Space) {entry : LimineMemmapEntry}
    (inMap : entry ∈ boot.entries) (page : BitVec 36) :
    (space.mapEntry boot entry page = space page ∧ ∀ p, 4096 ∣ entry.base.toNat →
      entry.HasPage p → p ≠ 0 → page ≠ pageNumber (tablePointer boot p)) ∨
    ∃ p, entry.Touches p ∧ 4096 * p < top ∧ page = pageNumber (tablePointer boot p) ∧
      space.mapEntry boot entry page = kernelLeaf p := by
  have low := layout.low
  have upper := layout.entries entry inMap
  have range := dropPageZero_cases entry
  unfold LimineMemmapEntry.stop at upper
  unfold Space.mapEntry
  generalize entry.toBootProto.dropPageZero.base = base at *
  generalize entry.toBootProto.dropPageZero.length = length at *
  -- Turn `j` of the loop maps the page of the byte at `base + 4096 * j`.
  have turn (j : Nat) (below : 4096 * j < length.toNat) :
      physFrame (base + UInt64.ofNat (4096 * j)) = (base.toNat + 4096 * j) / 4096 ∧
      pageNumber (base + boot.offset + UInt64.ofNat (4096 * j)) =
        pageNumber (tablePointer boot ((base.toNat + 4096 * j) / 4096)) := by
    have sum : (base + UInt64.ofNat (4096 * j)).toNat = base.toNat + 4096 * j := by
      rw [toNat_add_of_fits, toNat_ofNat_of_fits (by omega)]
      rw [toNat_ofNat_of_fits (by omega)]
      omega
    have order : base + boot.offset + UInt64.ofNat (4096 * j) =
        boot.offset + (base + UInt64.ofNat (4096 * j)) := by grind
    refine ⟨by rw [physFrame_of_lt (by omega), sum], ?_⟩
    rw [order]
    apply BitVec.eq_of_toNat_eq
    rw [toNat_pageNumber_add layout.offset, toNat_pageNumber_direct layout.offset (by omega), sum]
  cases space.mapKernel_cases base (base + boot.offset) length page with
  | inl kept =>
    refine Or.inl ⟨kept.1, fun p aligned has nonzero => ?_⟩
    unfold LimineMemmapEntry.HasPage LimineMemmapEntry.stop at has
    have below : 4096 * (p - base.toNat / 4096) < length.toNat := by omega
    have differs := kept.2 (p - base.toNat / 4096) (by unfold pageCount; omega)
    rw [(turn _ below).2] at differs
    rwa [show (base.toNat + 4096 * (p - base.toNat / 4096)) / 4096 = p by omega] at differs
  | inr mapped =>
    obtain ⟨j, inside, same, value⟩ := mapped
    have below : 4096 * j < length.toNat := by
      unfold pageCount at inside
      omega
    rw [(turn j below).2] at same
    rw [(turn j below).1] at value
    refine Or.inr ⟨_, ⟨base.toNat + 4096 * j, ?_, ?_, rfl⟩, by omega, same, value⟩
    · omega
    · unfold LimineMemmapEntry.stop
      omega

include layout in
/-- What the direct map shows stays there. -/
theorem Boot.Layout.mapEntry_keeps {space : Space} {entry : LimineMemmapEntry}
    (inMap : entry ∈ boot.entries) {p : Nat} (small : p < 2 ^ 35)
    (mapped : space (pageNumber (tablePointer boot p)) = kernelLeaf p) :
    space.mapEntry boot entry (pageNumber (tablePointer boot p)) = kernelLeaf p := by
  cases layout.mapEntry_cases space inMap (pageNumber (tablePointer boot p)) with
  | inl kept => rw [kept.1, mapped]
  | inr new =>
    obtain ⟨q, -, below, same, value⟩ := new
    have low := layout.low
    rw [value, direct_injective layout.offset small (by omega) same]

/-- Every page of the direct map holds a byte of some entry. -/
def DirectOrSame (boot : Boot) (top : Nat) (before after : Space) : Prop :=
  ∀ page, after page = before page ∨ ∃ p, (∃ entry ∈ boot.entries, entry.Touches p) ∧
    4096 * p < top ∧ page = pageNumber (tablePointer boot p) ∧ after page = kernelLeaf p

include layout in
/-- The loop over the memory map changes pages of the direct map only. -/
theorem Boot.Layout.foldl_cases {entries : List LimineMemmapEntry}
    (inMap : ∀ entry ∈ entries, entry ∈ boot.entries) (space : Space) :
    DirectOrSame boot top space (entries.foldl (Space.mapEntry boot) space) := by
  induction entries generalizing space with
  | nil => exact fun page => Or.inl rfl
  | cons entry entries ih =>
    have here := inMap entry List.mem_cons_self
    intro page
    rw [List.foldl_cons]
    cases ih (fun e later => inMap e (List.mem_cons_of_mem entry later)) (space.mapEntry boot entry)
      page with
    | inr new => exact Or.inr new
    | inl kept =>
      rw [kept]
      cases layout.mapEntry_cases space here page with
      | inl same => exact Or.inl same.1
      | inr new =>
        obtain ⟨p, touches, new⟩ := new
        exact Or.inr ⟨p, ⟨entry, here, touches⟩, new⟩

include layout in
/-- What the direct map shows stays there during the loop. -/
theorem Boot.Layout.foldl_keeps {entries : List LimineMemmapEntry}
    (inMap : ∀ entry ∈ entries, entry ∈ boot.entries) {space : Space} {p : Nat} (small : p < 2 ^ 35)
    (mapped : space (pageNumber (tablePointer boot p)) = kernelLeaf p) :
    entries.foldl (Space.mapEntry boot) space (pageNumber (tablePointer boot p)) = kernelLeaf p := by
  induction entries generalizing space with
  | nil => exact mapped
  | cons entry entries ih =>
    apply ih fun e later => inMap e (List.mem_cons_of_mem entry later)
    exact layout.mapEntry_keeps (inMap entry List.mem_cons_self) small mapped

include layout in
/-- The direct map shows the pages of an aligned entry, page zero apart. -/
theorem Boot.Layout.foldl_maps {entries : List LimineMemmapEntry}
    (inMap : ∀ entry ∈ entries, entry ∈ boot.entries) (space : Space) {entry : LimineMemmapEntry}
    (here : entry ∈ entries) (aligned : 4096 ∣ entry.base.toNat) {p : Nat} (has : entry.HasPage p)
    (nonzero : p ≠ 0) :
    entries.foldl (Space.mapEntry boot) space (pageNumber (tablePointer boot p)) = kernelLeaf p := by
  have low := layout.low
  have upper := layout.entries entry (inMap entry here)
  have small : p < 2 ^ 35 := by
    have stop := has.2
    omega
  induction entries generalizing space with
  | nil => cases here
  | cons first entries ih =>
    have later : ∀ e ∈ entries, e ∈ boot.entries := fun e is => inMap e (List.mem_cons_of_mem first is)
    rw [List.foldl_cons]
    cases here with
    | tail _ here => exact ih later _ here
    | head =>
      apply layout.foldl_keeps later small
      cases layout.mapEntry_cases space (inMap entry List.mem_cons_self)
        (pageNumber (tablePointer boot p)) with
      | inl kept => exact absurd rfl (kept.2 p aligned has nonzero)
      | inr new =>
        obtain ⟨q, -, below, same, value⟩ := new
        rw [value, direct_injective layout.offset small (by omega) same]

/-! ## The kernel's own pages -/

include layout in
/-- The kernel is smaller than the virtual address space. -/
theorem Boot.Layout.kernelSize_lt : boot.kernelSize.toNat < 2 ^ 48 := by
  by_contra large
  have apart := layout.apart 0 ((boot.offset.toNat + 2 ^ 48 - boot.virtualBase.toNat % 2 ^ 48) % 2 ^ 48)
    layout.positive (by omega)
  omega

include layout in
/-- Every page of the kernel is mapped to the frame at its place. -/
theorem Boot.Layout.kernel_inside (space : Space) {o : UInt64} (inside : o < boot.kernelSize) :
    space.mapKernel boot.physicalBase boot.virtualBase boot.kernelSize
      (pageNumber (boot.virtualBase + o)) = kernelLeaf (physFrame (boot.physicalBase + o)) := by
  have size := layout.kernelSize_lt
  have physical := layout.physicalBase
  rw [UInt64.lt_iff_toNat_lt] at inside
  have number (w : UInt64) := toNat_pageNumber_add layout.virtualBase w
  cases space.mapKernel_cases boot.physicalBase boot.virtualBase boot.kernelSize
    (pageNumber (boot.virtualBase + o)) with
  | inl kept =>
    refine absurd ?_ (kept.2 (o.toNat / 4096) (by unfold pageCount; omega))
    apply BitVec.eq_of_toNat_eq
    rw [number, number, toNat_ofNat_of_fits (by omega)]
    omega
  | inr mapped =>
    obtain ⟨j, below, same, value⟩ := mapped
    unfold pageCount at below
    have equal := congrArg BitVec.toNat same
    rw [number, number, toNat_ofNat_of_fits (by omega)] at equal
    have place : o.toNat / 4096 = j := by omega
    rw [value, physFrame, physFrame, UInt64.toNat_add, UInt64.toNat_add,
      toNat_ofNat_of_fits (by omega), ← place]
    congr 1
    omega

/-- A page outside the kernel keeps its leaf. -/
theorem kernel_cases (boot : Boot) (space : Space) (page : BitVec 36) :
    space.mapKernel boot.physicalBase boot.virtualBase boot.kernelSize page = space page ∨
    ∃ o : UInt64, o < boot.kernelSize ∧ page = pageNumber (boot.virtualBase + o) := by
  cases space.mapKernel_cases boot.physicalBase boot.virtualBase boot.kernelSize page with
  | inl kept => exact Or.inl kept.1
  | inr mapped =>
    obtain ⟨j, below, same, -⟩ := mapped
    have size := boot.kernelSize.toNat_lt
    unfold pageCount at below
    refine Or.inr ⟨UInt64.ofNat (4096 * j), ?_, same⟩
    rw [UInt64.lt_iff_toNat_lt, toNat_ofNat_of_fits (by omega)]
    omega

include layout in
/-- The kernel leaves the direct map alone. -/
theorem Boot.Layout.kernel_apart (space : Space) {p : Nat} (below : 4096 * p < top) :
    space.mapKernel boot.physicalBase boot.virtualBase boot.kernelSize
      (pageNumber (tablePointer boot p)) = space (pageNumber (tablePointer boot p)) := by
  cases kernel_cases boot space (pageNumber (tablePointer boot p)) with
  | inl kept => exact kept
  | inr inside =>
    obtain ⟨o, small, same⟩ := inside
    rw [UInt64.lt_iff_toNat_lt] at small
    have low := layout.low
    have offset := layout.offset
    have virtualBase := layout.virtualBase
    have equal := congrArg BitVec.toNat same
    rw [toNat_pageNumber_direct layout.offset (by omega),
      toNat_pageNumber_add layout.virtualBase] at equal
    exact absurd (by omega) (layout.apart (4096 * p) (4096 * (o.toNat / 4096)) below (by omega))

end Direct

end Symphony
