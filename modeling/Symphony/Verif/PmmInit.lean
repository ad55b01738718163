import Symphony.Verif.FrameSearch

/-!
# The initial bitmap

`pmm_init` passes over the memory map four times: it finds the last page to track,
places the bitmap, clears the bits of the usable pages, and marks the pages of the
bitmap and page zero again. Each pass has its guarantee here; together they say that
the clear bits are exactly the usable pages that are neither page zero nor part of the
bitmap, and that no pass leaves the bitmap's bounds.
-/

namespace Symphony

/-- The bitmap that `pmm_init` leaves behind. -/
structure Boot.Initialised (boot : Boot) (s : Machine) : Prop where
  /-- The bitmap covers the pages up to the end of some usable entry, rounded to a byte. -/
  size : ∃ entry ∈ boot.entries, entry.type = .usable ∧
    s.bitmapSize.toNat = (entry.stop / 4096 + 7) / 8
  /-- Its frames lie in one usable entry and exclude page zero. -/
  placed : ∃ entry ∈ boot.entries, entry.type = .usable ∧
    ∀ p, s.BitmapFrame boot p → entry.HasPage p ∧ p ≠ 0
  /-- The bitmap does not wrap around the physical address space. -/
  fits : (s.bitmap - boot.offset).toNat + s.bitmapSize.toNat ≤ 2 ^ 64
  /-- Every usable page has a bit. -/
  tracked : ∀ p, boot.UsablePage p → s.Tracked p
  /-- The clear bits are the usable pages that are free for allocation. -/
  bits : ∀ p, s.Tracked p →
    (s.Allocated p ↔ ¬ boot.UsablePage p ∨ p = 0 ∨ s.BitmapFrame boot p)

/-! ## The last tracked page -/

/-- The page that the code tracks last for an entry. -/
def LimineMemmapEntry.endPage (entry : LimineMemmapEntry) : UInt64 :=
  (entry.base + entry.length) / pageSize

/-- A usable entry behind others is the last one; another entry changes nothing. -/
theorem lastUsable_concat (entries : List LimineMemmapEntry) (entry : LimineMemmapEntry) :
    lastUsable (entries ++ [entry]) =
      if entry.type = .usable then some entry else lastUsable entries := by
  unfold lastUsable
  rw [List.reverse_append]
  by_cases usable : entry.type = .usable
  · simp [usable]
  · simp [usable]

/-- The loop finds the last usable entry, but never looks at index zero. -/
theorem lastTrackedGo_eq (boot : Boot) (i : Nat) (inside : i < boot.entries.length) :
    pmmBitmapLastTrackedPageGo boot i =
      .ok ((lastUsable (boot.entries.take (i + 1)).tail).elim 0 LimineMemmapEntry.endPage) := by
  induction i with
  | zero =>
    obtain ⟨entry, rest, split⟩ := List.exists_cons_of_length_pos inside
    rw [split]
    rfl
  | succ i ih =>
    have index : (UInt64.ofNat (i + 1)).toNat = i + 1 :=
      toNat_ofNat_of_fits (Nat.lt_trans inside boot.count_fits)
    have found := entryGet_of_lt boot (UInt64.ofNat (i + 1)) (by rwa [index])
    simp only [index] at found
    have nonempty : boot.entries.take (i + 1) ≠ [] := by
      intro empty
      have length := congrArg List.length empty
      rw [List.length_take, List.length_nil] at length
      omega
    rw [pmmBitmapLastTrackedPageGo, found, List.take_succ_eq_append_getElem inside,
      List.tail_append_of_ne_nil nonempty, lastUsable_concat]
    change (if boot.entries[i + 1].type.toBootProto = .usable then _ else _) = _
    simp only [LimineMemmapType.toBootProto_eq_usable]
    by_cases usable : boot.entries[i + 1].type = .usable
    · rw [if_pos usable, if_pos usable]
      rfl
    · rw [if_neg usable, if_neg usable]
      exact ih (by omega)

/-- The usable entry that comes last also ends last. -/
theorem Boot.Limine.stop_le {boot : Boot} (limine : boot.Limine) {entry : LimineMemmapEntry}
    (last : lastUsable boot.entries = some entry) :
    entry ∈ boot.entries ∧ entry.type = .usable ∧
      ∀ other ∈ boot.entries, other.type = .usable → other.stop ≤ entry.stop := by
  obtain ⟨usable, later, earlier, split, others⟩ := List.find?_eq_some_iff_append.mp last
  have order : boot.entries = earlier.reverse ++ [entry] ++ later.reverse := by
    rw [← List.reverse_reverse boot.entries, split]
    simp
  have isUsable := of_decide_eq_true usable
  refine ⟨by rw [order]; simp, isUsable, fun other inMap otherUsable => ?_⟩
  rw [order] at inMap
  simp only [List.mem_append, List.mem_reverse, List.mem_singleton] at inMap
  rcases inMap with (before | rfl) | after
  · have ends := limine.disjoint
    rw [order, List.pairwise_append, List.pairwise_append] at ends
    have apart := ends.1.2.2 other (List.mem_reverse.mpr before) entry (List.mem_singleton_self _)
      (Or.inl otherUsable)
    unfold LimineMemmapEntry.stop at *
    omega
  · exact le_rfl
  · have none := others other after
    simp [otherUsable] at none

/-- The fault of reading an empty memory map. -/
def memmapFault : Fault := .assertion "boot_proto_memmap_entry_get"
  "index greater than the memmap entry count!\n"

/-- An empty memory map stops the first read: the index of the loop wrapped. -/
theorem lastTracked_of_empty (boot : Boot) (empty : boot.entries.length = 0) :
    pmmBitmapLastTrackedPage boot = .error memmapFault := by
  have wrapped : (bootProtoMemmapEntryCount boot - 1).toNat = 18446744073709551614 + 1 := by
    rw [bootProtoMemmapEntryCount, empty]
    rfl
  rw [pmmBitmapLastTrackedPage, wrapped, pmmBitmapLastTrackedPageGo,
    entryGet_of_ge boot _ (by rw [empty]; exact Nat.zero_le _)]
  rfl

/-- The last tracked page of a map with entries, from the entries behind the first. -/
theorem lastTracked_eq (boot : Boot) (some : boot.entries.length ≠ 0) :
    pmmBitmapLastTrackedPage boot =
      .ok ((lastUsable boot.entries.tail).elim 0 LimineMemmapEntry.endPage) := by
  have count := toNat_entryCount boot
  have start : (bootProtoMemmapEntryCount boot - 1).toNat = boot.entries.length - 1 := by
    rw [UInt64.toNat_sub_of_le _ _ (by
      rw [UInt64.le_iff_toNat_le, count]
      exact Nat.one_le_iff_ne_zero.mpr some), count]
    rfl
  rw [pmmBitmapLastTrackedPage, start, lastTrackedGo_eq boot _ (by omega),
    Nat.sub_add_cancel (Nat.one_le_iff_ne_zero.mpr some), List.take_length]

/-- The entry that the code finds is the last usable one of the whole map. -/
theorem lastUsable_of_tail {entries : List LimineMemmapEntry} {entry : LimineMemmapEntry}
    (last : lastUsable entries.tail = some entry) : lastUsable entries = some entry := by
  cases entries with
  | nil => exact last
  | cons head rest =>
    unfold lastUsable at *
    rw [List.tail_cons] at last
    rw [List.reverse_cons, List.find?_append, last]
    rfl

/-- The page number at the end of an entry; an end at the last address wraps to zero. -/
theorem toNat_endPage (entry : LimineMemmapEntry) :
    entry.endPage.toNat = entry.stop % 2 ^ 64 / 4096 := by
  rw [LimineMemmapEntry.endPage, UInt64.toNat_div, UInt64.toNat_add]
  rfl

/-- The last tracked page is zero or the end of the usable entry that ends last. -/
theorem lastTracked_meets {boot : Boot} (limine : boot.Limine) :
    Meets (pmmBitmapLastTrackedPage boot)
      (fun last => last = 0 ∨ ∃ entry ∈ boot.entries, entry.type = .usable ∧
        entry.stop < 2 ^ 64 ∧ last.toNat = entry.stop / 4096 ∧
        ∀ other ∈ boot.entries, other.type = .usable → other.stop ≤ entry.stop)
      (fun e => e = memmapFault) := by
  by_cases empty : boot.entries.length = 0
  · rw [lastTracked_of_empty boot empty]
    exact rfl
  · rw [lastTracked_eq boot empty]
    cases last : lastUsable boot.entries.tail with
    | none => exact Or.inl rfl
    | some entry =>
      obtain ⟨inMap, usable, later⟩ := limine.stop_le (lastUsable_of_tail last)
      have range := limine.range entry inMap
      have value := toNat_endPage entry
      by_cases wraps : entry.stop = 2 ^ 64
      · refine Or.inl (UInt64.toNat_inj.mp ?_)
        change entry.endPage.toNat = _
        rw [value, wraps]
        rfl
      · rw [Nat.mod_eq_of_lt (by omega)] at value
        exact Or.inr ⟨entry, inMap, usable, by omega, value, later⟩

/-! ## The place of the bitmap -/

/-- The range that the search may give to the bitmap inside an entry. -/
structure LimineMemmapEntry.Offers (entry : LimineMemmapEntry) (base size : Nat) : Prop where
  /-- Page zero is not offered. -/
  positive : 0 < base
  /-- The place is page-aligned. -/
  aligned : 4096 ∣ base
  /-- It starts in the entry. -/
  lower : entry.base.toNat ≤ base
  /-- The pages of the bitmap end in the entry. -/
  upper : (base + size + 4095) / 4096 * 4096 ≤ entry.stop

/-- An entry that is long enough after page zero was dropped offers a place. -/
theorem dropPageZero_offers {entry : LimineMemmapEntry} (range : entry.stop ≤ 2 ^ 64)
    (alignedBase : 4096 ∣ entry.base.toNat) (alignedLength : 4096 ∣ entry.length.toNat)
    {size : UInt64} (some : 0 < size.toNat)
    (long : entry.toBootProto.dropPageZero.length ≥ size) :
    entry.Offers entry.toBootProto.dropPageZero.base.toNat size.toNat := by
  have page : pageSize.toNat = 4096 := rfl
  have long := UInt64.le_iff_toNat_le.mp long
  unfold LimineMemmapEntry.stop at range
  unfold BootProtoMemmapEntry.dropPageZero LimineMemmapEntry.toBootProto at *
  by_cases zero : entry.base = 0
  · simp only [zero, ↓reduceIte] at long ⊢
    by_cases pages : entry.length ≥ pageSize
    · rw [if_pos pages, UInt64.toNat_sub_of_le _ _ pages, page] at long
      rw [ge_iff_le, UInt64.le_iff_toNat_le, page] at pages
      have base : ((0 : UInt64) + pageSize).toNat = 4096 := rfl
      have start : entry.base.toNat = 0 := by rw [zero]; rfl
      rw [base]
      refine ⟨by omega, by omega, by omega, ?_⟩
      unfold LimineMemmapEntry.stop
      omega
    · rw [if_neg pages] at long
      exact absurd (Nat.lt_of_lt_of_le some long) (Nat.lt_irrefl 0)
  · simp only [zero, ↓reduceIte] at long ⊢
    have positive : entry.base.toNat ≠ 0 := fun eq => zero (UInt64.toNat_inj.mp eq)
    refine ⟨by omega, alignedBase, le_rfl, ?_⟩
    unfold LimineMemmapEntry.stop
    omega

/-- The search puts the bitmap into the first entry with room, or leaves it alone. -/
theorem placeBitmapGo_eq (boot : Boot) (s : Machine) (i left : Nat)
    (inside : i + left = boot.entries.length) :
    pmmPlaceBitmapGo boot s i left =
      .ok (((boot.entries.drop i).find? fun entry => entry.Room s.bitmapSize.toNat).elim s
        fun entry => { s with bitmap := boot.pointerTo entry }) := by
  induction left generalizing i with
  | zero =>
    rw [List.drop_of_length_le (by omega)]
    rfl
  | succ left ih =>
    have index : (UInt64.ofNat i).toNat = i :=
      toNat_ofNat_of_fits (Nat.lt_of_lt_of_le (by omega) (Nat.le_of_lt boot.count_fits))
    have found := entryGet_of_lt boot (UInt64.ofNat i) (by omega)
    simp only [index] at found
    rw [pmmPlaceBitmapGo, found, List.drop_eq_getElem_cons (by omega), List.find?_cons]
    change (if boot.entries[i].type.toBootProto ≠ .usable then _ else
      if boot.entries[i].toBootProto.dropPageZero.length ≥ s.bitmapSize then Except.ok _ else _) = _
    simp only [ne_eq, LimineMemmapType.toBootProto_eq_usable]
    by_cases usable : boot.entries[i].type = .usable
    · rw [if_neg (not_not.mpr usable)]
      by_cases long : boot.entries[i].toBootProto.dropPageZero.length ≥ s.bitmapSize
      · have room : boot.entries[i].Room s.bitmapSize.toNat :=
          ⟨usable, UInt64.le_iff_toNat_le.mp long⟩
        rw [if_pos long, decide_eq_true room]
        rfl
      · have full : ¬ boot.entries[i].Room s.bitmapSize.toNat :=
          fun room => long (UInt64.le_iff_toNat_le.mpr room.2)
        rw [if_neg long, decide_eq_false full]
        exact ih (i + 1) (by omega)
    · have other : ¬ boot.entries[i].Room s.bitmapSize.toNat := fun room => usable room.1
      rw [if_pos usable, decide_eq_false other]
      exact ih (i + 1) (by omega)

/-- The search of `pmm_init` over the whole map. -/
theorem placeBitmap_eq (boot : Boot) (s : Machine) :
    pmmPlaceBitmapGo boot s 0 (bootProtoMemmapEntryCount boot).toNat =
      .ok ((boot.firstRoom s.bitmapSize.toNat).elim s
        fun entry => { s with bitmap := boot.pointerTo entry }) := by
  rw [placeBitmapGo_eq boot s 0 _ (by rw [toNat_entryCount, Nat.zero_add])]
  rfl

/-- The first entry with room offers a place for the bitmap. -/
theorem Boot.Limine.firstRoom_offers {boot : Boot} (limine : boot.Limine) {size : UInt64}
    (positive : 0 < size.toNat) {entry : LimineMemmapEntry}
    (first : boot.firstRoom size.toNat = some entry) :
    entry ∈ boot.entries ∧ entry.type = .usable ∧
      entry.Offers entry.toBootProto.dropPageZero.base.toNat size.toNat := by
  have inMap := List.mem_of_find?_eq_some first
  have room := List.find?_some
    (p := fun entry : LimineMemmapEntry => decide (entry.Room size.toNat)) first
  obtain ⟨usable, long⟩ : entry.Room size.toNat := of_decide_eq_true room
  have aligned := limine.aligned entry inMap usable
  exact ⟨inMap, usable, dropPageZero_offers (limine.range entry inMap) aligned.1 aligned.2 positive
    (UInt64.le_iff_toNat_le.mpr long)⟩

/-- The frames of a bitmap that is placed at a page boundary and does not wrap. -/
theorem bitmapFrame_iff {boot : Boot} {s : Machine} {base : UInt64}
    (place : s.bitmap = base + boot.offset) (aligned : 4096 ∣ base.toNat)
    (fits : base.toNat + s.bitmapSize.toNat ≤ 2 ^ 64) (p : Nat) :
    s.BitmapFrame boot p ↔ base.toNat ≤ 4096 * p ∧ 4096 * p < base.toNat + s.bitmapSize.toNat := by
  have shift (a : UInt64) : a - (base + boot.offset) = a - boot.offset - base := by grind
  unfold Machine.BitmapFrame Machine.InBitmap frameOf Span
  simp only [place, shift]
  constructor
  · rintro ⟨a, inside, rfl⟩
    have here := (span_iff fits).mp inside
    omega
  · rintro ⟨lower, upper⟩
    refine ⟨UInt64.ofNat (4096 * p) + boot.offset, ?_, ?_⟩
    · rw [show UInt64.ofNat (4096 * p) + boot.offset - boot.offset = UInt64.ofNat (4096 * p) by grind]
      refine (span_iff fits).mpr ?_
      rw [toNat_ofNat_of_fits (by omega)]
      exact ⟨lower, upper⟩
    · rw [show UInt64.ofNat (4096 * p) + boot.offset - boot.offset = UInt64.ofNat (4096 * p) by grind,
        toNat_ofNat_of_fits (by omega)]
      omega

/-! ## The marking loops -/

/-- The page lies in a usable entry before index `i`. -/
def Boot.UsableBefore (boot : Boot) (i p : Nat) : Prop :=
  ∃ j, ∃ bound : j < boot.entries.length, j < i ∧ boot.entries[j].type = .usable ∧
    boot.entries[j].HasPage p

/-- All entries are before the end of the map. -/
theorem usableBefore_length (boot : Boot) (p : Nat) :
    boot.UsableBefore boot.entries.length p ↔ boot.UsablePage p := by
  constructor
  · rintro ⟨j, bound, -, usable, page⟩
    exact ⟨_, List.getElem_mem bound, usable, page⟩
  · rintro ⟨entry, inMap, usable, page⟩
    obtain ⟨j, bound, rfl⟩ := List.mem_iff_getElem.mp inMap
    exact ⟨j, bound, bound, usable, page⟩

/-- The pages of an aligned entry are the pages of the range that its loop clears. -/
theorem LimineMemmapEntry.hasPage_iff {entry : LimineMemmapEntry} (fits : entry.stop < 2 ^ 64)
    (alignedBase : 4096 ∣ entry.base.toNat) (alignedLength : 4096 ∣ entry.length.toNat) (p : Nat) :
    entry.HasPage p ↔ (entry.base >>> 12).toNat ≤ p ∧
      p < ((entry.base + entry.length) >>> 12).toNat := by
  unfold LimineMemmapEntry.stop at fits
  have lower : (entry.base >>> 12).toNat = entry.base.toNat / 4096 := by
    rw [UInt64.toNat_shiftRight, Nat.shiftRight_eq_div_pow]
    rfl
  have upper : ((entry.base + entry.length) >>> 12).toNat =
      (entry.base.toNat + entry.length.toNat) / 4096 := by
    rw [UInt64.toNat_shiftRight, Nat.shiftRight_eq_div_pow, toNat_add_of_fits fits]
    rfl
  rw [lower, upper, LimineMemmapEntry.HasPage, LimineMemmapEntry.stop]
  omega

/-- One turn of the marking loop frees the pages of a usable entry. -/
theorem markUsable_meets {boot : Boot} (limine : boot.Limine) {t : Machine} (sized : t.Sized)
    {i : Nat} (inside : i < boot.entries.length)
    (fits : boot.entries[i].type = .usable → boot.entries[i].stop < 2 ^ 64)
    (tracked : ∀ p, boot.UsablePage p → t.Tracked p) :
    Meets (pmmMarkUsable boot (UInt64.ofNat i) t)
      (fun t' => t.Marks t' fun p =>
        ¬ (boot.entries[i].type = .usable ∧ boot.entries[i].HasPage p) ∧ t.Allocated p)
      fun _ => False := by
  have index : (UInt64.ofNat i).toNat = i := toNat_ofNat_of_fits (Nat.lt_trans inside boot.count_fits)
  have found := entryGet_of_lt boot (UInt64.ofNat i) (by rwa [index])
  simp only [index] at found
  have inMap : boot.entries[i] ∈ boot.entries := List.getElem_mem _
  rw [pmmMarkUsable, found]
  change Meets (if boot.entries[i].type.toBootProto ≠ .usable then _ else _) _ _
  simp only [ne_eq, LimineMemmapType.toBootProto_eq_usable]
  by_cases usable : boot.entries[i].type = .usable
  · have aligned := limine.aligned _ inMap usable
    have pages := LimineMemmapEntry.hasPage_iff (fits usable) aligned.1 aligned.2
    rw [if_neg (not_not.mpr usable)]
    refine (clearRange_meets _ _ sized).mono (fun t' marks => marks.congr fun p _ => ?_) ?_
    · simp only [usable, true_and, pages]
      exact Iff.rfl
    · rintro e ⟨p, lower, upper, untracked⟩
      exact untracked (tracked p ⟨_, inMap, usable, (pages p).mpr ⟨lower, upper⟩⟩)
  · rw [if_pos usable]
    exact (Machine.Marks.refl t).congr fun p _ => by simp only [usable, false_and, not_false_eq_true,
      true_and]

/-- The marking loop frees exactly the usable pages of a full bitmap. -/
theorem markLoop_meets {boot : Boot} (limine : boot.Limine) {s : Machine} (sized : s.Sized)
    (fits : ∀ entry ∈ boot.entries, entry.type = .usable → entry.stop < 2 ^ 64)
    (tracked : ∀ p, boot.UsablePage p → s.Tracked p) (full : ∀ p, s.Tracked p → s.Allocated p) :
    Meets (forRange (pmmMarkUsable boot) 0 (bootProtoMemmapEntryCount boot) s)
      (fun t => s.Marks t fun p => ¬ boot.UsablePage p) fun _ => False := by
  have loop : Meets (forRange (pmmMarkUsable boot) 0 (bootProtoMemmapEntryCount boot) s) _
      fun _ => False :=
    forLoop_meets (fun i t => s.Marks t fun p => ¬ boot.UsableBefore i p) ?_ ?_
  · refine loop.mono (fun t marks => marks.congr fun p _ => ?_) fun _ => id
    rw [← usableBefore_length, toNat_entryCount]
    change ¬ boot.UsableBefore (0 + (boot.entries.length - 0)) p ↔ _
    rw [Nat.sub_zero, Nat.zero_add]
  · intro i t _ below marks
    have inside : i < boot.entries.length := by
      rw [toNat_entryCount] at below
      change i < 0 + (boot.entries.length - 0) at below
      omega
    refine (markUsable_meets limine (by rwa [Machine.Sized, marks.size]) inside
      (fits _ (List.getElem_mem _)) fun p page => (marks.tracked p).mpr (tracked p page)).mono
      (fun u one => (marks.trans one).congr fun p inBounds => ?_) fun _ => id
    rw [marks.bits p inBounds, ← not_or, not_iff_not]
    constructor
    · rintro (⟨usable, page⟩ | ⟨j, bound, before, usable, page⟩)
      · exact ⟨i, inside, Nat.lt_succ_self i, usable, page⟩
      · exact ⟨j, bound, Nat.lt_succ_of_lt before, usable, page⟩
    · rintro ⟨j, bound, before, usable, page⟩
      by_cases here : j = i
      · subst here
        exact Or.inl ⟨usable, page⟩
      · exact Or.inr ⟨j, bound, by omega, usable, page⟩
  · refine (Machine.Marks.refl s).congr fun p inBounds => iff_of_true (full p inBounds) ?_
    rintro ⟨j, bound, before, -⟩
    exact Nat.not_lt_zero j before

/-- The bitmap that `memset` fills has every bit set. -/
theorem allocated_memset {s : Machine} {p : Nat} (sized : s.Sized) (tracked : s.Tracked p) :
    Machine.Allocated { s with mem := memset s.mem s.bitmap 0xff s.bitmapSize } p := by
  have small := Nat.mod_lt p (show 0 < 8 by decide)
  unfold Machine.Sized at sized
  unfold Machine.Tracked at tracked
  have inside : Span s.bitmap s.bitmapSize.toNat (s.bitmap + UInt64.ofNat (p / 8)) := by
    rw [Span, (eq_add_ofNat_iff (by omega)).mp rfl]
    omega
  rw [Machine.Allocated, memset_byte, if_pos inside, and_pageMask_ne_zero small]
  rw [show (0xff : UInt8).toBitVec = BitVec.allOnes 8 by rfl, BitVec.getLsbD_allOnes,
    decide_eq_true_eq]
  omega

/-- The loop that marks the pages of a bitmap placed at `base`. -/
theorem markBitmap_meets {s : Machine} (sized : s.Sized) {base stop : UInt64}
    (alignedBase : 4096 ∣ base.toNat) (alignedStop : 4096 ∣ stop.toNat)
    (order : base.toNat ≤ stop.toNat)
    (tracked : ∀ p, base.toNat ≤ 4096 * p → 4096 * p < stop.toNat → s.Tracked p) :
    Meets (forStep .diverges (fun i => pmmBitmapSet (i / pageSize)) pageSize stop (2 ^ 64) base s)
      (fun t => s.Marks t fun p => base.toNat ≤ 4096 * p ∧ 4096 * p < stop.toNat ∨ s.Allocated p)
      fun _ => False := by
  have page : pageSize.toNat = 4096 := rfl
  have bound := stop.toNat_lt
  refine (forStep_meets (fun k t => 4096 ∣ k ∧ base.toNat ≤ k ∧ k ≤ stop.toNat ∧
    s.Marks t fun p => base.toNat ≤ 4096 * p ∧ 4096 * p < k ∨ s.Allocated p) (by decide) (by omega)
    ?_ (by omega) ⟨alignedBase, le_rfl, order, (Machine.Marks.refl s).congr fun p _ =>
      (or_iff_right (by omega)).symm⟩).mono ?_ fun _ => id
  · rintro i t below ⟨aligned, above, -, marks⟩
    have number : (i / pageSize).toNat = i.toNat / 4096 := UInt64.toNat_div i pageSize
    refine (pmmBitmapSet_meets (i / pageSize) (by rwa [Machine.Sized, marks.size])).mono
      (fun u one => ⟨by omega, by omega, by omega, (marks.trans one).congr fun p inBounds => ?_⟩) ?_
    · rw [marks.bits p inBounds, number, page, ← or_assoc]
      refine or_congr_left ?_
      omega
    · intro e outside
      rw [marks.tracked, number] at outside
      exact outside (tracked _ (by omega) (by omega))
  · rintro t ⟨k, lower, -, -, -, upper, marks⟩
    exact marks.congr fun p _ => by rw [show k = stop.toNat by omega]

/-! ## The whole of `pmm_init` -/

/-- An assertion passes on a condition that is not zero. -/
theorem debugAssert_meets (cond : Int32) (message func : String) :
    Meets (debugAssert cond message func) (fun _ => cond ≠ 0)
      fun e => e = .assertion func message := by
  unfold debugAssert
  by_cases zero : cond = 0
  · rw [if_pos zero]
    exact rfl
  · rw [if_neg zero]
    exact zero

/-- The size of the bitmap in bytes. -/
theorem bitmapSize_eq {last : UInt64} (small : last.toNat < 2 ^ 60) :
    (alignUp last 8 / 8).toNat = (last.toNat + 7) / 8 := by
  have eight : (8 : UInt64).toNat = 8 := rfl
  rw [UInt64.toNat_div, toNat_alignUp (by decide), eight]
  omega

/-- The frames of a bitmap in the place that an entry offers. -/
theorem Boot.Limine.bitmapFrame_hasPage {boot : Boot} (limine : boot.Limine)
    {entry : LimineMemmapEntry} (inMap : entry ∈ boot.entries) (usable : entry.type = .usable)
    {base : UInt64} {size : Nat} (offers : entry.Offers base.toNat size) {p : Nat}
    (lower : base.toNat ≤ 4096 * p) (upper : 4096 * p < (base.toNat + size + 4095) / 4096 * 4096) :
    entry.HasPage p ∧ p ≠ 0 := by
  have aligned := limine.aligned entry inMap usable
  have start := offers.lower
  have stop := offers.upper
  have positive := offers.positive
  unfold LimineMemmapEntry.stop at stop
  unfold LimineMemmapEntry.HasPage LimineMemmapEntry.stop
  omega

/-- The passes after the placement of the bitmap. -/
theorem pmmInit_marking_meets {boot : Boot} (limine : boot.Limine) {s : Machine}
    (sized : s.Sized) (some : 0 < s.bitmapSize.toNat)
    (fits : ∀ entry ∈ boot.entries, entry.type = .usable → entry.stop < 2 ^ 64)
    (tracked : ∀ p, boot.UsablePage p → s.Tracked p)
    {entry : LimineMemmapEntry} (inMap : entry ∈ boot.entries) (usable : entry.type = .usable)
    {base : UInt64} (offers : entry.Offers base.toNat s.bitmapSize.toNat)
    (place : s.bitmap = base + boot.offset)
    (full : ∀ p, s.Tracked p → s.Allocated p) :
    Meets (forRange (pmmMarkUsable boot) 0 (bootProtoMemmapEntryCount boot) s >>= fun s =>
        forStep .diverges (fun i => pmmBitmapSet (i / pageSize)) pageSize
          (s.bitmap - bootProtoHhdmOffset boot + alignUp s.bitmapSize pageSize) (2 ^ 64)
          (s.bitmap - bootProtoHhdmOffset boot) s >>= pmmBitmapSet 0)
      (fun t => s.Marks t fun p => ¬ boot.UsablePage p ∨ p = 0 ∨ s.BitmapFrame boot p)
      fun _ => False := by
  have page : pageSize.toNat = 4096 := rfl
  have physical : s.bitmap - bootProtoHhdmOffset boot = base := by
    rw [place, bootProtoHhdmOffset]
    grind
  have top := fits entry inMap usable
  have end_le := offers.upper
  have stop : (base + alignUp s.bitmapSize pageSize).toNat =
      (base.toNat + s.bitmapSize.toNat + 4095) / 4096 * 4096 := by
    have aligned := offers.aligned
    have size : (alignUp s.bitmapSize pageSize).toNat = _ := toNat_alignUp (by decide)
    rw [page] at size
    rw [toNat_add_of_fits (by omega), size]
    omega
  have frames := bitmapFrame_iff place offers.aligned (by omega)
  refine (markLoop_meets limine sized fits tracked full).bind fun t marked => ?_
  rw [marked.bitmap, marked.size, physical]
  have sizedT : t.Sized := by rwa [Machine.Sized, marked.size]
  have pages : ∀ p, base.toNat ≤ 4096 * p →
      4096 * p < (base + alignUp s.bitmapSize pageSize).toNat → t.Tracked p := by
    intro p lower upper
    rw [stop] at upper
    exact (marked.tracked p).mpr
      (tracked p ⟨entry, inMap, usable, (limine.bitmapFrame_hasPage inMap usable offers lower upper).1⟩)
  refine (markBitmap_meets sizedT offers.aligned (by omega) (by omega) pages).bind fun u bitmap => ?_
  have zero : (0 : UInt64).toNat = 0 := rfl
  refine (pmmBitmapSet_meets 0 (by rwa [Machine.Sized, bitmap.size])).mono (fun v first => ?_) ?_
  · refine ((marked.trans bitmap).trans first).congr fun p inBounds => ?_
    rw [bitmap.bits p ((marked.tracked p).mpr inBounds), marked.bits p inBounds, stop, frames, zero]
    constructor
    · rintro (first | inside | other)
      · exact Or.inr (Or.inl first)
      · exact Or.inr (Or.inr (by omega))
      · exact Or.inl other
    · rintro (other | first | inside)
      · exact Or.inr (Or.inr other)
      · exact Or.inl first
      · exact Or.inr (Or.inl (by omega))
  · intro e outside
    rw [bitmap.tracked, marked.tracked, Machine.Tracked, zero] at outside
    omega

/-- The machine of `pmm_init` after its bitmap was placed and filled. -/
def Machine.placed (boot : Boot) (mem : Memory) (base size : UInt64) : Machine :=
  ⟨memset mem (base + boot.offset) 0xff size, base + boot.offset, size⟩

/-- Behind its two assertions `pmm_init` cannot stop any more. -/
theorem pmmInit_placed_meets {boot : Boot} (limine : boot.Limine) (mem : Memory)
    {final : LimineMemmapEntry} (inMap : final ∈ boot.entries) (usable : final.type = .usable)
    (top : final.stop < 2 ^ 64)
    (later : ∀ other ∈ boot.entries, other.type = .usable → other.stop ≤ final.stop)
    {size : UInt64} (value : size.toNat = (final.stop / 4096 + 7) / 8) (positive : 0 < size.toNat)
    {entry : LimineMemmapEntry} (entryInMap : entry ∈ boot.entries)
    (isUsable : entry.type = .usable) {base : UInt64} (offers : entry.Offers base.toNat size.toNat) :
    Meets (forRange (pmmMarkUsable boot) 0 (bootProtoMemmapEntryCount boot)
        (Machine.placed boot mem base size) >>= fun s =>
          forStep .diverges (fun i => pmmBitmapSet (i / pageSize)) pageSize
            (s.bitmap - bootProtoHhdmOffset boot + alignUp s.bitmapSize pageSize) (2 ^ 64)
            (s.bitmap - bootProtoHhdmOffset boot) s >>= pmmBitmapSet 0)
      boot.Initialised fun _ => False := by
  have fits : ∀ entry ∈ boot.entries, entry.type = .usable → entry.stop < 2 ^ 64 :=
    fun entry inMap usable => Nat.lt_of_le_of_lt (later entry inMap usable) top
  have sized : 8 * size.toNat < 2 ^ 64 := by omega
  have tracked : ∀ p, boot.UsablePage p → p < 8 * size.toNat := by
    rintro p ⟨entry, inMap, usable, -, page⟩
    have := later entry inMap usable
    omega
  have marking := pmmInit_marking_meets limine (s := Machine.placed boot mem base size) sized positive
    fits tracked entryInMap isUsable offers rfl fun p inBounds =>
      allocated_memset (s := ⟨mem, base + boot.offset, size⟩) sized inBounds
  refine marking.mono (fun t marks => ?_) fun _ => False.elim
  have kept : t.bitmapSize = size := marks.size
  have place : t.bitmap = base + boot.offset := marks.bitmap
  have wrap := offers.upper
  have end_lt := fits entry entryInMap isUsable
  have small : base.toNat + t.bitmapSize.toNat ≤ 2 ^ 64 := by
    rw [kept]
    omega
  have frames := bitmapFrame_iff place offers.aligned small
  refine ⟨⟨final, inMap, usable, by rw [kept, value]⟩, ⟨entry, entryInMap, isUsable, ?_⟩, ?_,
    fun p page => (marks.tracked p).mpr (tracked p page), ?_⟩
  · intro p frame
    obtain ⟨lower, upper⟩ := (frames p).mp frame
    rw [kept] at upper
    exact limine.bitmapFrame_hasPage entryInMap isUsable offers lower (by omega)
  · rw [place, show base + boot.offset - boot.offset = base by grind]
    exact small
  · intro p inBounds
    rw [marks.bits p ((marks.tracked p).mp inBounds), marks.bitmapFrame]

/-- The faults of `pmm_init`: an empty memory map, and its own two assertions. -/
def InitFault (e : Fault) : Prop := e = memmapFault ∨ ∃ message, e = .assertion "pmm_init" message

/-- `pmm_init` leaves an initialised bitmap or stops at one of its own checks. -/
theorem pmmInit_meets {boot : Boot} (limine : boot.Limine) (mem : Memory) :
    Meets (pmmInit boot (Machine.start mem)) boot.Initialised InitFault := by
  unfold pmmInit
  refine ((lastTracked_meets limine).mono (fun _ => id) fun e => Or.inl).bind fun last ends => ?_
  refine ((debugAssert_meets _ _ _).mono (fun _ => id) fun e fault =>
    Or.inr ⟨_, fault⟩).bind fun _ nonzero => ?_
  -- The size assertion excludes the case without a tracked page.
  obtain rfl | ⟨final, inMap, usable, top, value, later⟩ := ends
  · exact absurd (show intOfWord (alignUp 0 8 / 8) = 0 by decide) nonzero
  have size : (alignUp last 8 / 8).toNat = (final.stop / 4096 + 7) / 8 := by
    rw [bitmapSize_eq (by omega), value]
  have positive : 0 < (alignUp last 8 / 8).toNat := by
    refine Nat.pos_of_ne_zero fun zero => nonzero ?_
    have none : alignUp last 8 / 8 = 0 := UInt64.toNat_inj.mp zero
    rw [none]
    rfl
  rw [placeBitmap_eq, ok_bind]
  refine ((debugAssert_meets _ _ _).mono (fun _ => id) fun e fault =>
    Or.inr ⟨_, fault⟩).bind fun _ isPlaced => ?_
  -- The second assertion excludes the case without a place for the bitmap.
  cases first : boot.firstRoom (alignUp last 8 / 8).toNat with
  | none =>
    simp only [first] at isPlaced
    exact absurd rfl isPlaced
  | some entry =>
    obtain ⟨entryInMap, isUsable, offers⟩ := limine.firstRoom_offers positive first
    exact (pmmInit_placed_meets limine mem inMap usable top later size positive entryInMap isUsable
      offers).mono (fun _ => id) fun _ => False.elim

/-- Exactness of the initial bitmap: if `pmm_init` returns, the bitmap's frames lie in one
usable entry and exclude page zero, every usable page has a bit, and the clear bits are the
usable pages apart from page zero and the bitmap's frames. If it stops, then at one of its
own checks and never at the bounds assertion of a bit operation. -/
theorem pmmInit_exact {boot : Boot} (limine : boot.Limine) (mem : Memory) :
    (∀ s, pmmInit boot (Machine.start mem) = .ok s →
      (∃ entry ∈ boot.entries, entry.type = .usable ∧
        ∀ p, s.BitmapFrame boot p → entry.HasPage p ∧ p ≠ 0) ∧
      (∀ p, boot.UsablePage p → s.Tracked p) ∧
      ∀ p, s.Tracked p →
        (¬ s.Allocated p ↔ boot.UsablePage p ∧ p ≠ 0 ∧ ¬ s.BitmapFrame boot p)) ∧
    ∀ e, pmmInit boot (Machine.start mem) = .error e → InitFault e := by
  have meets := pmmInit_meets limine mem
  refine ⟨fun s returned => ?_, fun e failed => meets.of_error failed⟩
  have initialised := meets.of_ok returned
  refine ⟨initialised.placed, initialised.tracked, fun p tracked => ?_⟩
  rw [initialised.bits p tracked, not_or, not_or, not_not]

/-- A memory map with a usable entry at address zero. -/
def smallBoot : Boot where
  offset := 0xffff800000000000
  entries := [⟨0, 0x3000, .usable⟩, ⟨0x3000, 0x5000, .reserved⟩, ⟨0x8000, 0x8000, .usable⟩]
  count_fits := by decide
  physicalBase := 0x4000
  virtualBase := 0xffffffff80000000
  kernelSize := 0x2800

/-- The small memory map has the guarantees of the boot protocol. -/
theorem smallBoot_limine : smallBoot.Limine where
  range := by decide
  sorted := by decide
  aligned := by decide
  disjoint := by decide

/-- A memory of zero bytes that was not stored to. -/
def zeroMemory : Memory := ⟨fun _ => 0, []⟩

/-- The frames of the small memory map that `pmm_init` leaves free. -/
def smallBootFree : List Nat := [2, 8, 9, 10, 11, 12, 13, 14, 15]

/-- `pmm_init` returns on the small memory map; the bitmap goes to page one. -/
theorem smallBoot_returns : ∃ s, pmmInit smallBoot (Machine.start zeroMemory) = .ok s ∧
    s.bitmap = 0xffff800000001000 ∧ s.bitmapSize = 2 ∧
    ∀ p ∈ smallBootFree, s.Tracked p ∧ ¬ s.Allocated p := by
  have passed : passes (fun s => decide (s.bitmap = 0xffff800000001000 ∧ s.bitmapSize = 2 ∧
      ∀ p ∈ smallBootFree, s.Tracked p ∧ ¬ s.Allocated p))
      (pmmInit smallBoot (Machine.start zeroMemory)) = true := by decide +kernel
  obtain ⟨s, returned, tested⟩ := exists_of_passes passed
  exact ⟨s, returned, of_decide_eq_true tested⟩

/-- The small memory map has sixteen tracked pages with the bits described. -/
theorem pmmInit_exact_smallBoot : ∃ s, pmmInit smallBoot (Machine.start zeroMemory) = .ok s ∧
    s.bitmap = 0xffff800000001000 ∧ ∀ p, p < 16 →
      (¬ s.Allocated p ↔ smallBoot.UsablePage p ∧ p ≠ 0 ∧ ¬ s.BitmapFrame smallBoot p) := by
  obtain ⟨s, returned, place, size, -⟩ := smallBoot_returns
  have exact_bits := ((pmmInit_exact smallBoot_limine zeroMemory).1 s returned).2.2
  refine ⟨s, returned, place, fun p small => exact_bits p ?_⟩
  rw [Machine.Tracked, size]
  exact small

end Symphony
