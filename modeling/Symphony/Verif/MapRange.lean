import Symphony.Verif.VmmInit

/-!
# Ranges of pages

`vmm_map_range` makes one turn for every 4096 bytes of the size, counted from the start of
the range. A range whose tail spills into one more page than that keeps the old translation
of its last bytes. `RangeFits` says which ranges are mapped whole, and `MapsRange` holds for
exactly these.
-/

namespace Symphony

variable {boot : Boot} {s t : Machine} {others : Nat → Prop} {spaces : Spaces}

/-! ## The loop -/

/-- The call does not return where its index would wrap before it reaches the size. -/
theorem vmmMapRange_never {pt physAddr virtAddr size : UInt64} {flags : Int32}
    (large : 2 ^ 64 - 4096 < size.toNat) : vmmMapRange boot pt physAddr virtAddr size flags s ≠ .ok t := by
  have page : pageSize.toNat = 4096 := rfl
  apply forStep_never fun i => 4096 ∣ i.toNat
  · intro i aligned
    have small := i.toNat_lt
    rw [UInt64.lt_iff_toNat_lt]
    omega
  · intro i aligned
    rw [UInt64.toNat_add, page]
    omega
  · exact Nat.dvd_zero _

/-- A call that returns has mapped one page in each turn. -/
theorem Mapping.mapRange_returned (limine : boot.Limine) (low : boot.UsableBelow (2 ^ 52))
    (mapping : Mapping boot s others spaces) {pt : UInt64} {space : Space}
    (live : spaces pt = some space) {physAddr virtAddr size : UInt64} {flags : Int32}
    (returned : vmmMapRange boot pt physAddr virtAddr size flags s = .ok t) :
    Mapping boot t others (Function.update spaces pt
      (some (space.mapRange physAddr virtAddr flags (pageCount size)))) := by
  have fits : size.toNat + 4096 ≤ 2 ^ 64 := by
    by_contra large
    exact vmmMapRange_never (by omega) returned
  have loop : Meets (vmmMapRange boot pt physAddr virtAddr size flags s) _ fun _ => True :=
    vmmMapRange_rule fits (fun k t => Mapping boot t others
      (Function.update spaces pt (some (space.mapRange physAddr virtAddr flags k)))) ?_ ?_
  · exact loop.of_ok returned
  · intro k u _ mapped
    have turn := mapped.map_meets limine low (Function.update_self pt _ spaces)
      (physAddr + UInt64.ofNat (4096 * k)) (virtAddr + UInt64.ofNat (4096 * k)) flags
    rw [Function.update_idem] at turn
    exact turn.mono (fun _ next => next.2) fun _ _ => trivial
  · rw [Space.mapRange, ← live, Function.update_eq_self]
    exact mapping

/-! ## Pages of a range -/

/-- Page number of a byte of a range that does not wrap. -/
theorem toNat_pageNumber_byte {virtAddr o : UInt64} (fits : virtAddr.toNat + o.toNat < 2 ^ 64) :
    (pageNumber (virtAddr + o)).toNat =
      (virtAddr.toNat / 4096 + (virtAddr.toNat % 4096 + o.toNat) / 4096) % 2 ^ 36 := by
  rw [toNat_pageNumber, toNat_add_of_fits fits]
  omega

section Range

variable {physAddr virtAddr size : UInt64}

/-- The `j`-th page from the start of a range. -/
theorem toNat_pageNumber_turn (fits : virtAddr.toNat + size.toNat ≤ 2 ^ 64) {j : Nat}
    (inside : j < pageCount size) :
    (pageNumber (virtAddr + UInt64.ofNat (4096 * j))).toNat =
      (virtAddr.toNat / 4096 + j) % 2 ^ 36 := by
  have small := size.toNat_lt
  unfold pageCount at inside
  rw [toNat_pageNumber_byte, toNat_ofNat_of_fits (by omega)]
  · omega
  · rw [toNat_ofNat_of_fits (by omega)]
    omega

/-- The frame that turn `j` of the loop maps. -/
theorem physFrame_turn (fits : physAddr.toNat + size.toNat ≤ 2 ^ 64) {j : Nat}
    (inside : j < pageCount size) :
    physFrame (physAddr + UInt64.ofNat (4096 * j)) = (physAddr.toNat / 4096 + j) % 2 ^ 40 := by
  have small := size.toNat_lt
  unfold pageCount at inside
  rw [physFrame, toNat_add_of_fits, toNat_ofNat_of_fits (by omega)]
  · omega
  · rw [toNat_ofNat_of_fits (by omega)]
    omega

/-- The offset of the last byte. -/
theorem toNat_last (some : 0 < size.toNat) : (size - 1).toNat = size.toNat - 1 :=
  UInt64.toNat_sub_of_le _ _ (UInt64.le_iff_toNat_le.mpr some)

/-- A page of the range after the loop, where the pages of the range are different: its turn
mapped it, or it comes after the last turn. -/
theorem Space.mapRange_page (space : Space) (physFits : physAddr.toNat + size.toNat ≤ 2 ^ 64)
    (virtFits : virtAddr.toNat + size.toNat ≤ 2 ^ 64) (flags : Int32) {i : Nat} {page : BitVec 36}
    (number : page.toNat = (virtAddr.toNat / 4096 + i) % 2 ^ 36) (small : i < 2 ^ 36)
    (few : pageCount size ≤ 2 ^ 36) :
    space.mapRange physAddr virtAddr flags (pageCount size) page =
      if i < pageCount size then flagLeaf ((physAddr.toNat / 4096 + i) % 2 ^ 40) flags
      else space page := by
  by_cases turn : i < pageCount size
  · rw [if_pos turn]
    cases space.mapRange_cases physAddr virtAddr flags (pageCount size) page with
    | inl kept =>
      refine absurd (BitVec.eq_of_toNat_eq ?_) (kept.2 i turn)
      rw [number, toNat_pageNumber_turn virtFits turn]
    | inr mapped =>
      obtain ⟨j, inside, same, value⟩ := mapped
      have equal := congrArg BitVec.toNat same
      rw [number, toNat_pageNumber_turn virtFits inside] at equal
      have this : i = j := by omega
      rw [value, physFrame_turn physFits inside, this]
  · rw [if_neg turn]
    cases space.mapRange_cases physAddr virtAddr flags (pageCount size) page with
    | inl kept => exact kept.1
    | inr mapped =>
      obtain ⟨j, inside, same, -⟩ := mapped
      have equal := congrArg BitVec.toNat same
      rw [number, toNat_pageNumber_turn virtFits inside] at equal
      omega

end Range

/-! ## Whole ranges -/

/-- Translation in terms of the represented address space. -/
theorem Mapping.translates_iff (mapping : Mapping boot s others spaces) {pt : UInt64} {space : Space}
    (live : spaces pt = some space) (virtAddr physAddr : UInt64) (flags : Int32) :
    Translates boot s.mem pt virtAddr physAddr flags ↔
      virtAddr.toNat % 4096 = physAddr.toNat % 4096 ∧
        space (pageNumber virtAddr) = flagLeaf (physAddr.toNat / 4096) flags := by
  rw [Translates, mapping.walk_eq live, Option.some.injEq]
  apply and_congr_right
  intro _
  constructor
  · intro equal
    exact congrArg Translation.leaf equal
  · intro equal
    rw [equal]

/-- The frames of an address space have 40-bit numbers. -/
theorem Mapping.frame_lt (mapping : Mapping boot s others spaces) {pt : UInt64} {space : Space}
    (live : spaces pt = some space) (page : BitVec 36) : (space page).frame < 2 ^ 40 := by
  rw [← mapping.leaves pt space live page, lookup]
  cases follow (childAt boot s.mem) (frameOf boot pt) (upperPath page) with
  | none => exact Nat.two_pow_pos 40
  | some frame => exact Nat.mod_lt _ (Nat.two_pow_pos 40)

section Whole

variable {physAddr virtAddr size : UInt64} {flags : Int32} {space : Space}

/-- Different bytes of a mapped range never share a page number with different frames. -/
theorem Space.touched_le (physFits : physAddr.toNat + size.toNat ≤ 2 ^ 64)
    (virtFits : virtAddr.toNat + size.toNat ≤ 2 ^ 64)
    (leaf : ∀ o : UInt64, o.toNat < size.toNat →
      space (pageNumber (virtAddr + o)) = flagLeaf ((physAddr + o).toNat / 4096) flags) :
    touchedPages virtAddr size ≤ 2 ^ 36 := by
  by_contra many
  unfold touchedPages at many
  have offset : (UInt64.ofNat (2 ^ 48 - virtAddr.toNat % 4096)).toNat =
      2 ^ 48 - virtAddr.toNat % 4096 := toNat_ofNat_of_fits (by omega)
  have inside : (UInt64.ofNat (2 ^ 48 - virtAddr.toNat % 4096)).toNat < size.toNat := by omega
  have zero : (0 : UInt64).toNat = 0 := rfl
  have first := leaf 0 (by omega)
  have again := leaf _ inside
  -- The two bytes are 2^36 pages apart.
  have samePage : pageNumber (virtAddr + 0) =
      pageNumber (virtAddr + UInt64.ofNat (2 ^ 48 - virtAddr.toNat % 4096)) := by
    apply BitVec.eq_of_toNat_eq
    rw [toNat_pageNumber_byte (by omega), toNat_pageNumber_byte (by omega), offset, zero]
    omega
  rw [samePage, again] at first
  have frames := congrArg Leaf.frame first
  change (physAddr + _).toNat / 4096 = (physAddr + 0).toNat / 4096 at frames
  rw [toNat_add_of_fits (by omega), offset, UInt64.add_zero] at frames
  omega

/-- A call that mapped the whole range had a range that fits. -/
theorem Mapping.rangeFits (mapping : Mapping boot s others spaces) {pt : UInt64}
    (live : spaces pt = some space)
    (mapped : Mapping boot t others (Function.update spaces pt
      (some (space.mapRange physAddr virtAddr flags (pageCount size)))))
    (sameOffset : virtAddr.toNat % 4096 = physAddr.toNat % 4096)
    (physFits : physAddr.toNat + size.toNat ≤ 2 ^ 64)
    (virtFits : virtAddr.toNat + size.toNat ≤ 2 ^ 64)
    (maps : MapsRange boot pt physAddr virtAddr size flags s.mem t.mem) :
    RangeFits boot s.mem pt physAddr virtAddr size flags := by
  have liveT := Function.update_self pt
    (some (space.mapRange physAddr virtAddr flags (pageCount size))) spaces
  by_cases empty : size = 0
  · exact Or.inl empty
  right
  have some : 0 < size.toNat :=
    Nat.pos_of_ne_zero fun zero => empty (UInt64.toNat_inj.mp zero)
  have last := toNat_last some
  have leaf (o : UInt64) (inside : o.toNat < size.toNat) :
      space.mapRange physAddr virtAddr flags (pageCount size) (pageNumber (virtAddr + o)) =
        flagLeaf ((physAddr + o).toNat / 4096) flags :=
    ((mapped.translates_iff liveT _ _ flags).mp
      (maps.inside o (UInt64.lt_iff_toNat_lt.mpr inside))).2
  have few := Space.touched_le physFits virtFits leaf
  have page := leaf (size - 1) (by omega)
  have physLast : (physAddr + (size - 1)).toNat = physAddr.toNat + (size.toNat - 1) := by
    rw [toNat_add_of_fits (by omega), last]
  have top : physAddr.toNat + size.toNat ≤ 2 ^ 52 := by
    have bound := mapped.frame_lt liveT (pageNumber (virtAddr + (size - 1)))
    rw [page] at bound
    change (physAddr + (size - 1)).toNat / 4096 < 2 ^ 40 at bound
    omega
  refine ⟨few, top, ?_⟩
  by_cases spills : touchedPages virtAddr size = pageCount size
  · exact Or.inl spills
  · -- The last byte lies in a page that the loop left alone.
    right
    unfold touchedPages at few spills
    unfold pageCount at spills
    rw [space.mapRange_page physFits virtFits flags (toNat_pageNumber_byte (by omega)) (by omega)
      (by unfold pageCount; omega), if_neg (by unfold pageCount; omega)] at page
    rw [mapping.translates_iff live]
    refine ⟨?_, page⟩
    rw [toNat_add_of_fits (by omega), physLast]
    omega

/-- A byte whose page the loop does not reach is in the page of the last byte. -/
theorem pageNumber_eq_last {o : UInt64} (virtFits : virtAddr.toNat + size.toNat ≤ 2 ^ 64)
    (inside : o.toNat < size.toNat)
    (beyond : pageCount size ≤ (virtAddr.toNat % 4096 + o.toNat) / 4096) :
    pageNumber (virtAddr + o) = pageNumber (virtAddr + (size - 1)) := by
  have last := toNat_last (show 0 < size.toNat by omega)
  have same : (virtAddr.toNat % 4096 + o.toNat) / 4096 =
      (virtAddr.toNat % 4096 + (size.toNat - 1)) / 4096 := by
    unfold pageCount at beyond
    omega
  apply BitVec.eq_of_toNat_eq
  rw [toNat_pageNumber_byte (by omega), toNat_pageNumber_byte (by omega), last, same]

/-- Where the loop does not reach the page of a byte, the range touches more pages than there are
turns. -/
theorem touchedPages_ne {o : UInt64} (inside : o.toNat < size.toNat)
    (beyond : pageCount size ≤ (virtAddr.toNat % 4096 + o.toNat) / 4096) :
    touchedPages virtAddr size ≠ pageCount size := by
  unfold touchedPages
  omega

/-- The bytes of a range that fits are mapped. -/
theorem Mapping.mapsRange_inside (mapping : Mapping boot s others spaces) {pt : UInt64}
    (live : spaces pt = some space)
    (mapped : Mapping boot t others (Function.update spaces pt
      (some (space.mapRange physAddr virtAddr flags (pageCount size)))))
    (sameOffset : virtAddr.toNat % 4096 = physAddr.toNat % 4096)
    (physFits : physAddr.toNat + size.toNat ≤ 2 ^ 64)
    (virtFits : virtAddr.toNat + size.toNat ≤ 2 ^ 64)
    (fits : RangeFits boot s.mem pt physAddr virtAddr size flags) {o : UInt64} (inside : o < size) :
    Translates boot t.mem pt (virtAddr + o) (physAddr + o) flags := by
  have liveT := Function.update_self pt
    (some (space.mapRange physAddr virtAddr flags (pageCount size))) spaces
  rw [UInt64.lt_iff_toNat_lt] at inside
  have virtByte : (virtAddr + o).toNat = virtAddr.toNat + o.toNat := toNat_add_of_fits (by omega)
  have physByte : (physAddr + o).toNat = physAddr.toNat + o.toNat := toNat_add_of_fits (by omega)
  have number : (pageNumber (virtAddr + o)).toNat = _ := toNat_pageNumber_byte (by omega)
  rw [mapped.translates_iff liveT, virtByte, physByte]
  refine ⟨by omega, ?_⟩
  rcases fits with empty | ⟨few, top, whole⟩
  · rw [empty] at inside
    exact absurd inside (Nat.not_lt_zero _)
  have reach : (virtAddr.toNat % 4096 + o.toNat) / 4096 < 2 ^ 36 := by
    unfold touchedPages at few
    omega
  have turns : pageCount size ≤ 2 ^ 36 := by
    unfold touchedPages at few
    unfold pageCount
    omega
  rw [space.mapRange_page physFits virtFits flags number reach turns]
  by_cases turn : (virtAddr.toNat % 4096 + o.toNat) / 4096 < pageCount size
  · rw [if_pos turn]
    congr 1
    omega
  · -- The byte lies in the page that the loop does not reach.
    rw [if_neg turn]
    have beyond := Nat.le_of_not_lt turn
    have placed := whole.resolve_left (touchedPages_ne inside beyond)
    have last := toNat_last (show 0 < size.toNat by omega)
    have frame : (physAddr + (size - 1)).toNat / 4096 = (physAddr.toNat + o.toNat) / 4096 := by
      rw [toNat_add_of_fits (by omega), last]
      unfold pageCount at beyond
      omega
    rw [mapping.translates_iff live, frame] at placed
    rw [pageNumber_eq_last virtFits inside beyond]
    exact placed.2

/-- The pages outside a range keep their translation. -/
theorem Mapping.mapsRange_outside (mapping : Mapping boot s others spaces) {pt : UInt64}
    (live : spaces pt = some space)
    (mapped : Mapping boot t others (Function.update spaces pt
      (some (space.mapRange physAddr virtAddr flags (pageCount size))))) {a : UInt64}
    (apart : ∀ o : UInt64, o < size → pageNumber a ≠ pageNumber (virtAddr + o)) :
    walk boot t.mem pt a = walk boot s.mem pt a := by
  have liveT := Function.update_self pt
    (some (space.mapRange physAddr virtAddr flags (pageCount size))) spaces
  rw [mapped.walk_eq liveT, mapping.walk_eq live]
  cases space.mapRange_cases physAddr virtAddr flags (pageCount size) (pageNumber a) with
  | inl kept => rw [kept.1]
  | inr turned =>
    obtain ⟨j, inside, same, -⟩ := turned
    unfold pageCount at inside
    have small := size.toNat_lt
    refine absurd same (apart _ ?_)
    rw [UInt64.lt_iff_toNat_lt, toNat_ofNat_of_fits (by omega)]
    omega

/-- For every page table of every run and every range that does not wrap and has the same offset
in its pages on both sides, a call of `vmm_map_range` that returns has mapped every byte of the
range and left every other page alone exactly where the range fits. -/
theorem mapRange_exact (limine : boot.Limine) (low : boot.UsableBelow (2 ^ 52))
    {ops : List PagingOp} (run : Paged boot ops s others) {pt : UInt64}
    (live : spacesOf ops pt = some space)
    (sameOffset : virtAddr.toNat % 4096 = physAddr.toNat % 4096)
    (physFits : physAddr.toNat + size.toNat ≤ 2 ^ 64)
    (virtFits : virtAddr.toNat + size.toNat ≤ 2 ^ 64)
    (returned : vmmMapRange boot pt physAddr virtAddr size flags s = .ok t) :
    MapsRange boot pt physAddr virtAddr size flags s.mem t.mem ↔
      RangeFits boot s.mem pt physAddr virtAddr size flags := by
  have mapping := run.mapping limine low
  have mapped := mapping.mapRange_returned limine low live returned
  constructor
  · intro maps
    exact mapping.rangeFits live mapped sameOffset physFits virtFits maps
  · intro fits
    constructor
    · exact fun o inside =>
        mapping.mapsRange_inside live mapped sameOffset physFits virtFits fits inside
    · exact fun a apart => mapping.mapsRange_outside live mapped apart

end Whole

/-- On the small memory map a range of 4096 bytes is mapped in a new page table by one turn. -/
theorem smallBoot_mapRange (physAddr virtAddr : UInt64) : ∃ t u pt,
    Paged smallBoot [.newPt pt] t smallBootHeld ∧
    vmmMapRange smallBoot pt physAddr virtAddr 0x1000 (vmmPresent ||| vmmRwx) t = .ok u := by
  obtain ⟨s, t, pt, owned, created, -, spare⟩ := smallBoot_newPt
  have run : Paged smallBoot [.newPt pt] t smallBootHeld := .step (.start owned) (.newPt created)
  have mapping := run.mapping smallBoot_limine smallBoot_low
  have live : spacesOf [.newPt pt] pt = some fun _ => .zero := Function.update_self pt _ _
  have one : pageCount 0x1000 = 1 := rfl
  have inside : ∀ j < pageCount 0x1000,
      upperPath (pageNumber (virtAddr + UInt64.ofNat (4096 * j))) ∈
        ({upperPath (pageNumber virtAddr)} : Finset (List (Fin 512))) := by
    intro j below
    rw [one] at below
    have first : j = 0 := by omega
    rw [first, show UInt64.ofNat (4096 * 0) = 0 from rfl, UInt64.add_zero]
    exact Finset.mem_singleton_self _
  have few := Space.missing_le_card (fun _ => Leaf.zero) {upperPath (pageNumber virtAddr)}
  rw [Finset.card_singleton] at few
  obtain ⟨u, returned, -⟩ := ((mapping.mapRange_meets smallBoot_limine smallBoot_low live physAddr
    virtAddr (by decide) inside).mono (fun _ => id) fun e exhausted =>
      exhausted.2 (spare.mono (by omega))).returns
  exact ⟨t, u, pt, run, returned⟩

/-- A page-aligned page is mapped whole. -/
theorem mapRange_exact_smallBoot : ∃ t u pt,
    vmmMapRange smallBoot pt 0x8000 0x400000 0x1000 (vmmPresent ||| vmmRwx) t = .ok u ∧
    MapsRange smallBoot pt 0x8000 0x400000 0x1000 (vmmPresent ||| vmmRwx) t.mem u.mem := by
  obtain ⟨t, u, pt, run, returned⟩ := smallBoot_mapRange 0x8000 0x400000
  have live : spacesOf [.newPt pt] pt = some fun _ => .zero := Function.update_self pt _ _
  have fits : RangeFits smallBoot t.mem pt 0x8000 0x400000 0x1000 (vmmPresent ||| vmmRwx) :=
    Or.inr ⟨by decide, by decide, Or.inl (by decide)⟩
  exact ⟨t, u, pt, returned, (mapRange_exact smallBoot_limine smallBoot_low run live (by decide)
    (by decide) (by decide) returned).mpr fits⟩

/-- A range of 4096 bytes that starts in the middle of a page holds bytes of two pages, and the
second page is not mapped. -/
theorem mapRange_misses_tail : ∃ t u pt, Paged smallBoot [.newPt pt] t smallBootHeld ∧
    vmmMapRange smallBoot pt 0x8800 0x400800 0x1000 (vmmPresent ||| vmmRwx) t = .ok u ∧
    walk smallBoot u.mem pt (0x400800 + 0x800) = some Leaf.zero.alone ∧
    ¬ MapsRange smallBoot pt 0x8800 0x400800 0x1000 (vmmPresent ||| vmmRwx) t.mem u.mem := by
  obtain ⟨t, u, pt, run, returned⟩ := smallBoot_mapRange 0x8800 0x400800
  have live : spacesOf [.newPt pt] pt = some fun _ => .zero := Function.update_self pt _ _
  have mapped := (run.mapping smallBoot_limine smallBoot_low).mapRange_returned smallBoot_limine
    smallBoot_low live returned
  have missing : walk smallBoot u.mem pt (0x400800 + 0x800) = some Leaf.zero.alone := by
    rw [mapped.walk_eq (Function.update_self pt _ _)]
    rfl
  refine ⟨t, u, pt, run, returned, missing, fun maps => ?_⟩
  have shown := (maps.inside 0x800 (by decide)).2
  rw [missing] at shown
  have present := congrArg (Option.map fun tr => tr.leaf.present) shown
  revert present
  decide

end Symphony
