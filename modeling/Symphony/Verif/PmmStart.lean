import Symphony.Verif.PmmInit

/-!
# Memory maps on which the frame allocator starts

A map with a usable entry that is long enough for the bitmap may still be refused. The
search for the last page skips the first entry of the map, an end at the last 64-bit
address wraps to zero, and the assertions of `pmm_init` see only the low 32 bits of the
bitmap's size and pointer. `Boot.Accepted` excludes these cases, and no others halt.
-/

namespace Symphony

/-- Some usable entry is long enough for the bitmap after page zero was dropped. -/
def Boot.HasRoom (boot : Boot) : Prop := ∃ entry ∈ boot.entries, entry.Room boot.bitmapBytes

/-- A word is zero as an `int` when its low 32 bits are zero. -/
theorem intOfWord_eq_zero (w : UInt64) : intOfWord w = 0 ↔ 2 ^ 32 ∣ w.toNat := by
  have low : w.toUInt32.toNat = w.toNat % 2 ^ 32 := UInt64.toNat_toUInt32 w
  rw [Nat.dvd_iff_mod_eq_zero, ← low]
  unfold intOfWord
  constructor
  · intro zero
    have word := congrArg Int32.toUInt32 zero
    rw [UInt32.toUInt32_toInt32] at word
    rw [word]
    rfl
  · intro zero
    rw [UInt32.toNat_inj.mp (show w.toUInt32.toNat = (0 : UInt32).toNat by rw [zero]; rfl)]
    rfl

/-- An assertion lets its caller go on exactly when its condition is not zero. -/
theorem debugAssert_eq_ok {cond : Int32} {message func : String} :
    debugAssert cond message func = .ok () ↔ cond ≠ 0 := by
  unfold debugAssert
  by_cases zero : cond = 0
  · simp [zero]
  · simp [zero]

/-- The usable memory ends with the last usable entry. -/
theorem usableEnd_of_tail {boot : Boot} {entry : LimineMemmapEntry}
    (last : lastUsable boot.entries.tail = some entry) : boot.usableEnd = entry.stop := by
  rw [Boot.usableEnd, lastUsable_of_tail last]
  rfl

/-- The size that `pmm_init` computes from the end of an entry below the last address. -/
theorem bitmapSize_of_tail {boot : Boot} {entry : LimineMemmapEntry}
    (last : lastUsable boot.entries.tail = some entry) (top : entry.stop < 2 ^ 64) :
    (alignUp entry.endPage 8 / 8).toNat = boot.bitmapBytes := by
  have value := toNat_endPage entry
  rw [Nat.mod_eq_of_lt top] at value
  rw [bitmapSize_eq (by omega), value, Boot.bitmapBytes, usableEnd_of_tail last]

/-- The rest of a map has a last usable entry when it has a usable one. -/
theorem exists_lastUsable {entries : List LimineMemmapEntry} :
    (∃ entry, lastUsable entries = some entry) ↔ ∃ entry ∈ entries, entry.type = .usable := by
  rw [← Option.isSome_iff_exists, lastUsable, List.find?_isSome]
  simp only [List.mem_reverse, decide_eq_true_eq]

/-- A map on which `pmm_init` returns is accepted. -/
theorem accepted_of_returns {boot : Boot} (limine : boot.Limine) {mem : Memory} {s : Machine}
    (returned : pmmInit boot (Machine.start mem) = .ok s) : boot.Accepted := by
  unfold pmmInit at returned
  simp only [bind_eq_ok, placeBitmap_eq, Except.ok.injEq] at returned
  obtain ⟨page, found, _, nonzero, _, rfl, _, placed, -⟩ := returned
  have nonempty : boot.entries.length ≠ 0 := by
    intro empty
    rw [lastTracked_of_empty boot empty] at found
    cases found
  rw [lastTracked_eq boot nonempty] at found
  have value := Except.ok.inj found
  cases last : lastUsable boot.entries.tail with
  | none =>
    rw [last] at value
    rw [← value] at nonzero
    exact absurd rfl (debugAssert_eq_ok.mp nonzero)
  | some entry =>
    rw [last] at value
    change entry.endPage = page at value
    subst value
    have inMap := (limine.stop_le (lastUsable_of_tail last)).1
    have range := limine.range entry inMap
    have top : entry.stop < 2 ^ 64 := by
      refine Nat.lt_of_le_of_ne range fun wraps => ?_
      have zero : entry.endPage = 0 := by
        rw [← UInt64.toNat_inj, toNat_endPage, wraps]
        rfl
      rw [zero] at nonzero
      exact absurd rfl (debugAssert_eq_ok.mp nonzero)
    have size := bitmapSize_of_tail last top
    refine ⟨exists_lastUsable.mp ⟨entry, last⟩, ?_, ?_, ?_⟩
    · rwa [usableEnd_of_tail last]
    · have passed := debugAssert_eq_ok.mp nonzero
      rwa [ne_eq, intOfWord_eq_zero, size] at passed
    · intro place first
      have passed := debugAssert_eq_ok.mp placed
      simp only [size, first] at passed
      rwa [ne_eq, intOfWord_eq_zero] at passed

/-- On an accepted map with room for the bitmap `pmm_init` returns. -/
theorem returns_of_accepted {boot : Boot} (limine : boot.Limine) (mem : Memory)
    (room : boot.HasRoom) (accepted : boot.Accepted) :
    ∃ s, pmmInit boot (Machine.start mem) = .ok s := by
  obtain ⟨final, last⟩ := exists_lastUsable.mpr accepted.later
  have nonempty : boot.entries.length ≠ 0 := by
    intro empty
    rw [List.eq_nil_of_length_eq_zero empty] at last
    cases last
  obtain ⟨inMap, usable, later⟩ := limine.stop_le (lastUsable_of_tail last)
  have top := accepted.top
  rw [usableEnd_of_tail last] at top
  have size := bitmapSize_of_tail last top
  have some_size : ¬ 2 ^ 32 ∣ (alignUp final.endPage 8 / 8).toNat := by
    rw [size]
    exact accepted.size
  have positive : 0 < (alignUp final.endPage 8 / 8).toNat := by
    refine Nat.pos_of_ne_zero fun zero => some_size ?_
    rw [zero]
    exact Nat.dvd_zero _
  obtain ⟨entry, first⟩ : ∃ entry, boot.firstRoom boot.bitmapBytes = some entry := by
    rw [← Option.isSome_iff_exists, Boot.firstRoom, List.find?_isSome]
    obtain ⟨entry, inMap, fits⟩ := room
    exact ⟨entry, inMap, decide_eq_true fits⟩
  have place := accepted.place entry first
  rw [← size] at first
  obtain ⟨entryInMap, isUsable, offers⟩ := limine.firstRoom_offers positive first
  have value : (alignUp final.endPage 8 / 8).toNat = (final.stop / 4096 + 7) / 8 := by
    rw [size, Boot.bitmapBytes, usableEnd_of_tail last]
  obtain ⟨s, returned, -⟩ := (pmmInit_placed_meets limine mem inMap usable top later value positive
    entryInMap isUsable offers).returns
  refine ⟨s, ?_⟩
  unfold pmmInit
  rw [lastTracked_eq boot nonempty, last, ok_bind]
  change (debugAssert (intOfWord (alignUp final.endPage 8 / 8)) _ _ >>= fun _ => _) = _
  rw [debugAssert_eq_ok.mpr (mt (intOfWord_eq_zero _).mp some_size), ok_bind, placeBitmap_eq, ok_bind]
  simp only [first, Option.elim_some]
  rw [debugAssert_eq_ok.mpr (mt (intOfWord_eq_zero _).mp place), ok_bind]
  exact returned

/-- For every memory map with the guarantees of the boot protocol and a usable entry with room
for the bitmap, `pmm_init` returns exactly where the map is accepted. -/
theorem pmmInit_returns_iff {boot : Boot} (limine : boot.Limine) (mem : Memory)
    (room : boot.HasRoom) :
    (∃ s, pmmInit boot (Machine.start mem) = .ok s) ↔ boot.Accepted := by
  constructor
  · intro returns
    obtain ⟨s, returned⟩ := returns
    exact accepted_of_returns limine returned
  · intro accepted
    exact returns_of_accepted limine mem room accepted

/-- The small memory map has room for its bitmap and is accepted, so `pmm_init` returns. -/
theorem pmmInit_returns_iff_smallBoot : smallBoot.HasRoom ∧ smallBoot.Accepted ∧
    ∃ s, pmmInit smallBoot (Machine.start zeroMemory) = .ok s := by
  have room : smallBoot.HasRoom := ⟨⟨0, 0x3000, .usable⟩, by decide, by decide⟩
  have accepted : smallBoot.Accepted := by
    refine ⟨⟨⟨0x8000, 0x8000, .usable⟩, by decide, by decide⟩, by decide, by decide, ?_⟩
    intro entry first
    have value : smallBoot.firstRoom smallBoot.bitmapBytes = some ⟨0, 0x3000, .usable⟩ := by decide
    rw [value] at first
    cases first
    decide
  exact ⟨room, accepted, (pmmInit_returns_iff smallBoot_limine zeroMemory room).mpr accepted⟩

/-- A memory map with a single entry of one usable mebibyte. -/
def singleBoot : Boot where
  offset := 0xffff800000000000
  entries := [⟨0x1000, 0x100000, .usable⟩]
  count_fits := by decide
  physicalBase := 0x4000
  virtualBase := 0xffffffff80000000
  kernelSize := 0x2800

/-- The single entry has room for its bitmap, but the search for the last page does not look
at it: the size of the bitmap is zero and the kernel halts. -/
theorem singleBoot_refused : singleBoot.Limine ∧ 4096 ∣ singleBoot.offset.toNat ∧
    singleBoot.HasRoom ∧ pmmInit singleBoot (Machine.start zeroMemory) =
      .error (.assertion "pmm_init" "Something is wrong with the PMM bitmap size!\n") := by
  refine ⟨⟨by decide, by decide, by decide, by decide⟩, by decide, ?_, rfl⟩
  exact ⟨⟨0x1000, 0x100000, .usable⟩, by decide, by decide⟩

end Symphony
