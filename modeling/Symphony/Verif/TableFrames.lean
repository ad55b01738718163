import Symphony.Library.Prefixes
import Symphony.Verif.Filling

/-!
# Frames of the tables

The frames that the operations on a page table take from the allocator, at arbitrary addresses
and mixed with any steps of others, are the tables of its tree, each of them once. The paths of
the tree are the prefixes of the paths of the pages touched so far, so there are as many frames
as these have different prefixes, whatever the order of the operations.
-/

namespace Symphony

variable {boot : Boot} {pt : UInt64} {start s s' : Machine} {others others' : Nat → Prop}
  {spaces spaces' : Spaces} {space space' : Space} {taken : List Nat} {touched : List UInt64}

/-! ## Definitions -/

/-- The frames that a step took from the allocator. -/
def Machine.framesTaken (s s' : Machine) : List Nat :=
  (List.range (8 * s.bitmapSize.toNat)).filter fun p => ¬ s.Allocated p ∧ s'.Allocated p

/-- Bits of a virtual address from a position up to bit 47. -/
def bitsFrom (low : Nat) (virtAddr : UInt64) : BitVec (48 - low) :=
  virtAddr.toBitVec.extractLsb' low (48 - low)

/-- Number of different values of these bits among some addresses. -/
def distinctFrom (low : Nat) (touched : List UInt64) : Nat :=
  (touched.toFinset.image (bitsFrom low)).card

/-- The lives of a page table, from its creation in a machine whose page tables represent address
spaces. Its own operations at any addresses are mixed with steps of others; the frames that its
own operations took and the addresses that they touched are collected, the latest first. -/
inductive Touching (boot : Boot) (pt : UInt64) (start : Machine) :
    Machine → (Nat → Prop) → Spaces → List Nat → List UInt64 → Prop
  | new {s : Machine} {others : Nat → Prop} {spaces : Spaces}
    (mapping : Mapping boot start others spaces) (returned : archVmmNewPt boot start = .ok (pt, s)) :
    Touching boot pt start s others (Function.update spaces pt (some fun _ => .zero))
      (start.framesTaken s) []
  | own {s s' : Machine} {others : Nat → Prop} {spaces : Spaces} {taken : List Nat}
    {touched : List UInt64} {space space' : Space} {virtAddr : UInt64}
    (run : Touching boot pt start s others spaces taken touched) (live : spaces pt = some space)
    (step : TableStep boot pt s space virtAddr s' space') :
    Touching boot pt start s' others (Function.update spaces pt (some space'))
      (s.framesTaken s' ++ taken) (virtAddr :: touched)
  | foreign {op : PagingOp} {s s' : Machine} {others others' : Nat → Prop} {spaces : Spaces}
    {taken : List Nat} {touched : List UInt64}
    (run : Touching boot pt start s others spaces taken touched) (other : op.table ≠ some pt)
    (step : PagingStep boot spaces s others op s' others') :
    Touching boot pt start s' others' (spaces.apply op) taken touched

/-- What holds in the life of a page table. -/
structure Accounted (boot : Boot) (pt : UInt64) (s : Machine) (others : Nat → Prop) (spaces : Spaces)
    (taken : List Nat) (touched : List UInt64) : Prop where
  /-- The page tables represent the address spaces. -/
  mapping : Mapping boot s others spaces
  /-- The page table is one of them. -/
  live : ∃ space, spaces pt = some space
  /-- No frame was taken twice. -/
  once : taken.Nodup
  /-- The frames taken are the tables of its tree. -/
  tables : ∀ p, p ∈ taken ↔
    ∃ path, path.length ≤ 3 ∧ follow (childAt boot s.mem) (frameOf boot pt) path = some p
  /-- The paths of the tree are the prefixes of those of the pages touched. -/
  paths : ∀ path, path.length ≤ 3 →
    ((∃ p, follow (childAt boot s.mem) (frameOf boot pt) path = some p) ↔
      path = [] ∨ ∃ a ∈ touched, path <+: upperPath (pageNumber a))

/-! ## Steps -/

/-- The frames taken as a list. -/
theorem mem_framesTaken (s s' : Machine) (p : Nat) : p ∈ s.framesTaken s' ↔ s.Takes s' p := by
  rw [Machine.framesTaken, List.mem_filter, List.mem_range, decide_eq_true_iff]
  rfl

/-- A step takes no frame twice. -/
theorem nodup_framesTaken (s s' : Machine) : (s.framesTaken s').Nodup := List.nodup_range.filter _

/-- A new page table takes the frame of its top-level table. -/
theorem Mapping.accounted_new (limine : boot.Limine) (mapping : Mapping boot s others spaces)
    (returned : archVmmNewPt boot s = .ok (pt, s')) :
    Accounted boot pt s' others (Function.update spaces pt (some fun _ => .zero)) (s.framesTaken s') [] := by
  obtain ⟨-, leaf, taken⟩ := mapping.takes_newPt limine returned
  refine ⟨((mapping.newPt_meets limine).of_ok returned).2.2, ⟨_, Function.update_self pt _ spaces⟩,
    nodup_framesTaken s s', fun p => ?_, fun path _ => ?_⟩
  · simp [mem_framesTaken, taken, follow_leaf_iff leaf]
  · simp [follow_leaf_iff leaf]

/-- An operation at an address accounts for the frames of the tables that it adds. -/
theorem Accounted.own {virtAddr : UInt64} (limine : boot.Limine) (low : boot.UsableBelow (2 ^ 52))
    (accounted : Accounted boot pt s others spaces taken touched) (live : spaces pt = some space)
    (step : TableStep boot pt s space virtAddr s' space') :
    Accounted boot pt s' others (Function.update spaces pt (some space')) (s.framesTaken s' ++ taken)
      (virtAddr :: touched) := by
  obtain ⟨place, mapping', added, frame, whole⟩ := step.effect limine low accounted.mapping live
  have isLive : spaces.Root boot (frameOf boot pt) := Spaces.root_of_some live
  refine ⟨mapping', ⟨space', Function.update_self pt _ spaces⟩, ?_, fun p => ?_, fun path short => ?_⟩
  · refine (nodup_framesTaken s s').append accounted.once fun p isNew old => ?_
    obtain ⟨path, short, reached⟩ := (accounted.tables p).mp old
    have new := ((takes_iff accounted.mapping mapping' place p).mp ((mem_framesTaken s s' p).mp isNew)).2
    exact new ⟨_, path, isLive, short, reached⟩
  · rw [List.mem_append, mem_framesTaken, accounted.tables, or_comm,
      accounted.mapping.takes_own mapping' live place added]
  · rw [added.reached_iff isLive whole short, accounted.paths path short, or_assoc]
    simp only [List.mem_cons, exists_eq_or_imp]
    rw [or_comm (a := ∃ a ∈ touched, _)]

/-- Steps of others change nothing in the account. -/
theorem Accounted.foreign {op : PagingOp} (limine : boot.Limine) (low : boot.UsableBelow (2 ^ 52))
    (accounted : Accounted boot pt s others spaces taken touched) (other : op.table ≠ some pt)
    (step : PagingStep boot spaces s others op s' others') :
    Accounted boot pt s' others' (spaces.apply op) taken touched := by
  obtain ⟨space, live⟩ := accounted.live
  obtain ⟨-, same⟩ := step.foreign limine low accounted.mapping live other
  refine ⟨step.mapping limine low accounted.mapping, ⟨space, ?_⟩, accounted.once, fun p => ?_,
    fun path short => ?_⟩
  · rw [Spaces.apply_foreign other, live]
  · rw [accounted.tables]
    exact exists_congr fun path => and_congr_right fun short => by rw [same path short]
  · rw [same path short, accounted.paths path short]

/-- What holds in every life of a page table. -/
theorem Touching.accounted (limine : boot.Limine) (low : boot.UsableBelow (2 ^ 52))
    (run : Touching boot pt start s others spaces taken touched) :
    Accounted boot pt s others spaces taken touched := by
  induction run with
  | new mapping returned => exact mapping.accounted_new limine returned
  | own _ live step ih => exact ih.own limine low live step
  | foreign _ other step ih => exact ih.foreign limine low other step

/-! ## The count -/

/-- Bits of an address as a number. -/
theorem toNat_bitsFrom (low : Nat) (virtAddr : UInt64) :
    (bitsFrom low virtAddr).toNat = virtAddr.toNat / 2 ^ low % 2 ^ (48 - low) := by
  rw [bitsFrom, BitVec.extractLsb'_toNat, Nat.shiftRight_eq_div_pow]
  rfl

/-- The first indices of two pages are the same exactly where the bits that they come from are. -/
theorem take_upperPath_eq_iff {k : Nat} (level : k < 3) (a b : UInt64) :
    (upperPath (pageNumber a)).take (k + 1) = (upperPath (pageNumber b)).take (k + 1) ↔
      bitsFrom (39 - 9 * k) a = bitsFrom (39 - 9 * k) b := by
  rw [← BitVec.toNat_inj, toNat_bitsFrom, toNat_bitsFrom]
  have cases' : k = 0 ∨ k = 1 ∨ k = 2 := by omega
  rcases cases' with rfl | rfl | rfl
  all_goals
    simp only [upperPath, List.take_succ_cons, List.take_zero, List.cons.injEq, Fin.ext_iff,
      Fin.val_ofNat, toNat_pageNumber, and_true]
    omega

/-- Different prefixes of one length are as many as different values of the bits. -/
theorem card_take_upperPath {k : Nat} (level : k < 3) (touched : List UInt64) :
    ((touched.toFinset.image fun a => upperPath (pageNumber a)).image (List.take (k + 1))).card =
      distinctFrom (39 - 9 * k) touched := by
  rw [Finset.image_image, distinctFrom]
  exact card_image_congr _ fun a _ b _ => take_upperPath_eq_iff level a b

/-- Accounting of the walker: for every page table and every sequence of operations on it, at
whatever addresses and among whatever steps of others, the operations took one frame, and one for
every value of the bits 39 to 47, 30 to 47 and 21 to 47 of the addresses touched; and each of these
frames is reached from the top-level table by exactly one chain of present entries of the tables
above the last level. -/
theorem frames_accounted (limine : boot.Limine) (low : boot.UsableBelow (2 ^ 52))
    (run : Touching boot pt start s others spaces taken touched) :
    taken.length =
        1 + (distinctFrom 39 touched + distinctFrom 30 touched + distinctFrom 21 touched) ∧
      ∀ p ∈ taken, ∃! path, path.length ≤ 3 ∧
        follow (childAt boot s.mem) (frameOf boot pt) path = some p := by
  have accounted := run.accounted limine low
  obtain ⟨space, live⟩ := accounted.live
  have isLive : spaces.Root boot (frameOf boot pt) := Spaces.root_of_some live
  have forest := accounted.mapping.forest
  constructor
  · have full : ∀ p ∈ touched.toFinset.image fun a => upperPath (pageNumber a), p.length = 3 := by
      intro p member
      obtain ⟨a, -, rfl⟩ := Finset.mem_image.mp member
      exact length_upperPath _
    have members (path : List (Fin 512)) :
        path ∈ prefixes 3 (touched.toFinset.image fun a => upperPath (pageNumber a)) ↔
          path.length ≤ 3 ∧ ∃ p, follow (childAt boot s.mem) (frameOf boot pt) path = some p := by
      have image : (∃ p ∈ touched.toFinset.image fun a => upperPath (pageNumber a), path <+: p) ↔
          ∃ a ∈ touched, path <+: upperPath (pageNumber a) := by simp
      rw [mem_prefixes full, image]
      constructor
      · intro listed
        have short : path.length ≤ 3 := by
          rcases listed with rfl | ⟨a, -, isPrefix⟩
          · exact Nat.zero_le 3
          · exact isPrefix.length_le
        exact ⟨short, (accounted.paths path short).mpr listed⟩
      · rintro ⟨short, reached⟩
        exact (accounted.paths path short).mp reached
    rw [forest.length_eq_card isLive accounted.once accounted.tables members, card_prefixes full,
      Finset.sum_range_succ, Finset.sum_range_succ, Finset.sum_range_one,
      card_take_upperPath (by decide), card_take_upperPath (by decide),
      card_take_upperPath (by decide)]
  · intro p member
    obtain ⟨path, short, reached⟩ := (accounted.tables p).mp member
    refine ⟨path, ⟨short, reached⟩, fun path' other => ?_⟩
    exact (forest _ path' _ path p isLive isLive other.1 short other.2 reached).2

/-- A mapping in the lower half and the removal of one in the higher half take seven frames on the
small memory map. -/
theorem frames_accounted_smallBoot : ∃ pt start s spaces taken,
    Touching smallBoot pt start s smallBootHeld spaces taken [0xffff800000000000, 0x1000] ∧
      taken.length = 7 := by
  obtain ⟨start, first, pt, owned, created, -, spare⟩ := smallBoot_newPt
  have begun := Touching.new (owned.owns smallBoot_limine).mapping created
  have fresh := Function.update_self pt (some fun _ => .zero) (fun _ => none : Spaces)
  have mapping := (begun.accounted smallBoot_limine smallBoot_low).mapping
  obtain ⟨second, mapped, uses, -⟩ := ((mapping.map_meets smallBoot_limine smallBoot_low fresh 0x2000
    0x1000 (vmmPresent ||| vmmRw)).mono (fun _ => id) fun e exhausted =>
      exhausted.2 (spare.mono (by decide))).returns
  have run := begun.own fresh (.map mapped)
  have mapping' := (run.accounted smallBoot_limine smallBoot_low).mapping
  have live := Function.update_self pt (some (Space.map (fun _ => .zero) (pageNumber 0x1000)
    (physFrame 0x2000) (vmmPresent ||| vmmRw)))
    (Function.update (fun _ => none : Spaces) pt (some fun _ => .zero))
  have room : second.Spare 4 := uses.spare 4 spare
  obtain ⟨s, unmapped, -⟩ := ((mapping'.unmap_meets smallBoot_limine smallBoot_low live
    0xffff800000000000).mono (fun _ => id) fun e exhausted =>
      exhausted.2 (room.mono (by decide))).returns
  have whole := run.own live (.unmap unmapped)
  refine ⟨pt, start, s, _, _, whole, ?_⟩
  rw [(frames_accounted smallBoot_limine smallBoot_low whole).1]
  decide

end Symphony
