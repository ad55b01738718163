import Symphony.Verif.AddressSpace

/-!
# Where translations come from

`originOf` reads off the steps of a run what last mapped or unmapped a page. The leaf of a
page has the frame of its last mapping, and frame zero if there is none or the page was
unmapped; whether the leaf is present is decided by the latest step on the page, which may
be `arch_vmm_set_flags` alone.
-/

namespace Symphony

variable {boot : Boot} {s : Machine} {others : Nat → Prop}

/-- What happened last to the frame of a page. -/
inductive Origin where
  /-- The page was neither mapped nor unmapped. -/
  | untouched
  /-- It was mapped to a frame. -/
  | mapped (frame : Nat)
  /-- It was unmapped. -/
  | unmapped
deriving DecidableEq

/-- The most recent map-or-unmap of a page; the latest step is the first of the list. -/
def originOf (pt : UInt64) (page : BitVec 36) : List PagingOp → Origin
  | [] => .untouched
  | .newPt pt' :: earlier => if pt' = pt then .untouched else originOf pt page earlier
  | .map pt' physAddr virtAddr _ :: earlier =>
    if pt' = pt ∧ pageNumber virtAddr = page then .mapped (physAddr.toNat / 4096)
    else originOf pt page earlier
  | .unmap pt' virtAddr :: earlier =>
    if pt' = pt ∧ pageNumber virtAddr = page then .unmapped else originOf pt page earlier
  | .setFlags _ _ _ :: earlier => originOf pt page earlier
  | .other :: earlier => originOf pt page earlier

/-- The frame that an origin gives to the leaf. -/
def Origin.frame : Origin → Nat
  | untouched => 0
  | mapped frame => frame
  | unmapped => 0

/-- Presence after the latest step on a page. -/
def shown (pt : UInt64) (page : BitVec 36) : List PagingOp → Bool
  | [] => false
  | .newPt pt' :: earlier => if pt' = pt then false else shown pt page earlier
  | .map pt' _ virtAddr flags :: earlier =>
    if pt' = pt ∧ pageNumber virtAddr = page then flags &&& vmmPresent ≠ 0 else shown pt page earlier
  | .unmap pt' virtAddr :: earlier =>
    if pt' = pt ∧ pageNumber virtAddr = page then false else shown pt page earlier
  | .setFlags pt' virtAddr flags :: earlier =>
    if pt' = pt ∧ pageNumber virtAddr = page then flags &&& vmmPresent ≠ 0 else shown pt page earlier
  | .other :: earlier => shown pt page earlier

/-- The step changes the page, or creates its table. -/
def PagingOp.Touches (pt : UInt64) (page : BitVec 36) : PagingOp → Prop
  | .newPt pt' => pt' = pt
  | .map pt' _ virtAddr _ => pt' = pt ∧ pageNumber virtAddr = page
  | .unmap pt' virtAddr => pt' = pt ∧ pageNumber virtAddr = page
  | .setFlags pt' virtAddr _ => pt' = pt ∧ pageNumber virtAddr = page
  | .other => False

/-- The latest step on the page was an `arch_vmm_set_flags` that gave it the present flag. -/
def Revived (pt : UInt64) (page : BitVec 36) (ops : List PagingOp) : Prop :=
  ∃ later virtAddr flags earlier, ops = later ++ .setFlags pt virtAddr flags :: earlier ∧
    pageNumber virtAddr = page ∧ flags &&& vmmPresent ≠ 0 ∧ ∀ op ∈ later, ¬ op.Touches pt page

/-- A change of one leaf, seen from a page of some address space. -/
theorem Spaces.update_leaf {spaces : Spaces} {pt pt' : UInt64} {space : Space}
    (target : BitVec 36) (change : Leaf → Leaf)
    (after : Function.update spaces pt' ((spaces pt').map fun space =>
      Function.update space target (change (space target))) pt = some space) :
    ∃ before, spaces pt = some before ∧ ∀ page, space page =
      if pt' = pt ∧ target = page then change (before page) else before page := by
  by_cases same : pt' = pt
  · rw [same, Function.update_self] at after
    cases known : spaces pt with
    | none =>
      rw [known] at after
      cases after
    | some before =>
      rw [known, Option.map_some, Option.some.injEq] at after
      refine ⟨before, rfl, fun page => ?_⟩
      rw [← after]
      by_cases samePage : target = page
      · rw [samePage, Function.update_self, if_pos ⟨same, rfl⟩]
      · rw [Function.update_of_ne (Ne.symm samePage), if_neg fun both => samePage both.2]
  · rw [Function.update_of_ne (Ne.symm same)] at after
    exact ⟨space, after, fun page => by rw [if_neg fun both => same both.1]⟩

/-- The leaf of a page after a run: its frame comes from the most recent map-or-unmap, its
presence from the latest step on the page. -/
theorem leaf_of_run {ops : List PagingOp} {pt : UInt64} {space : Space}
    (live : spacesOf ops pt = some space) (page : BitVec 36) :
    (space page).frame = (originOf pt page ops).frame ∧ (space page).present = shown pt page ops := by
  induction ops generalizing space with
  | nil => cases live
  | cons op earlier ih =>
    cases op with
    | newPt pt' =>
      rw [spacesOf, Spaces.apply] at live
      by_cases same : pt' = pt
      · rw [same, Function.update_self, Option.some.injEq] at live
        rw [originOf, shown, if_pos same, if_pos same, ← live]
        exact ⟨rfl, rfl⟩
      · rw [Function.update_of_ne (Ne.symm same)] at live
        rw [originOf, shown, if_neg same, if_neg same]
        exact ih live
    | map pt' physAddr virtAddr flags =>
      obtain ⟨before, known, value⟩ := Spaces.update_leaf (pageNumber virtAddr)
        (fun leaf => Leaf.withFlags { leaf with frame := physAddr.toNat / 4096 } flags) live
      rw [originOf, shown, value page]
      by_cases touched : pt' = pt ∧ pageNumber virtAddr = page
      · rw [if_pos touched, if_pos touched, if_pos touched]
        exact ⟨rfl, rfl⟩
      · rw [if_neg touched, if_neg touched, if_neg touched]
        exact ih known
    | unmap pt' virtAddr =>
      obtain ⟨before, known, value⟩ := Spaces.update_leaf (pageNumber virtAddr)
        (fun leaf => { leaf with present := false, frame := 0 }) live
      rw [originOf, shown, value page]
      by_cases touched : pt' = pt ∧ pageNumber virtAddr = page
      · rw [if_pos touched, if_pos touched, if_pos touched]
        exact ⟨rfl, rfl⟩
      · rw [if_neg touched, if_neg touched, if_neg touched]
        exact ih known
    | setFlags pt' virtAddr flags =>
      obtain ⟨before, known, value⟩ := Spaces.update_leaf (pageNumber virtAddr)
        (fun leaf => leaf.withFlags flags) live
      rw [originOf, shown, value page]
      by_cases touched : pt' = pt ∧ pageNumber virtAddr = page
      · rw [if_pos touched, if_pos touched]
        exact ⟨(ih known).1, rfl⟩
      · rw [if_neg touched, if_neg touched]
        exact ih known
    | other => exact ih live

/-- A step elsewhere keeps the revival of a page. -/
theorem Revived.later {pt : UInt64} {page : BitVec 36} {op : PagingOp} {earlier : List PagingOp}
    (revived : Revived pt page earlier) (elsewhere : ¬ op.Touches pt page) :
    Revived pt page (op :: earlier) := by
  obtain ⟨later, virtAddr, flags, before, split, samePage, present, untouched⟩ := revived
  refine ⟨op :: later, virtAddr, flags, before, by rw [split, List.cons_append], samePage, present,
    fun op' member => ?_⟩
  cases List.mem_cons.mp member with
  | inl same => exact same ▸ elsewhere
  | inr inLater => exact untouched op' inLater

/-- A page that is shown without having been mapped was revived. -/
theorem revived_of_shown {ops : List PagingOp} {pt : UInt64} {page : BitVec 36}
    (isShown : shown pt page ops = true) (notMapped : ∀ frame, originOf pt page ops ≠ .mapped frame) :
    Revived pt page ops := by
  induction ops with
  | nil => cases isShown
  | cons op earlier ih =>
    cases op with
    | newPt pt' =>
      rw [shown] at isShown
      rw [originOf] at notMapped
      by_cases same : pt' = pt
      · rw [if_pos same] at isShown
        cases isShown
      · rw [if_neg same] at isShown notMapped
        exact (ih isShown notMapped).later same
    | map pt' physAddr virtAddr flags =>
      rw [shown] at isShown
      rw [originOf] at notMapped
      by_cases touched : pt' = pt ∧ pageNumber virtAddr = page
      · rw [if_pos touched] at notMapped
        exact absurd rfl (notMapped _)
      · rw [if_neg touched] at isShown notMapped
        exact (ih isShown notMapped).later touched
    | unmap pt' virtAddr =>
      rw [shown] at isShown
      rw [originOf] at notMapped
      by_cases touched : pt' = pt ∧ pageNumber virtAddr = page
      · rw [if_pos touched] at isShown
        cases isShown
      · rw [if_neg touched] at isShown notMapped
        exact (ih isShown notMapped).later touched
    | setFlags pt' virtAddr flags =>
      rw [shown] at isShown
      by_cases touched : pt' = pt ∧ pageNumber virtAddr = page
      · rw [if_pos touched] at isShown
        obtain ⟨rfl, samePage⟩ := touched
        exact ⟨[], virtAddr, flags, earlier, rfl, samePage, of_decide_eq_true isShown,
          fun _ member => absurd member List.not_mem_nil⟩
      · rw [if_neg touched] at isShown
        exact (ih isShown notMapped).later touched
    | other => exact (ih isShown notMapped).later id

/-- Provenance of translations: a present page has the frame of its last mapping, or it has
frame zero, has not been mapped since the table was created or since it was unmapped, and the
latest step on it was an `arch_vmm_set_flags` that gave it the present flag. -/
theorem paged_provenance (limine : boot.Limine) (low : boot.UsableBelow (2 ^ 52))
    {ops : List PagingOp} (run : Paged boot ops s others) {pt virtAddr : UInt64} {space : Space}
    {t : Translation} (live : spacesOf ops pt = some space)
    (walked : walk boot s.mem pt virtAddr = some t) (present : t.leaf.present = true) :
    originOf pt (pageNumber virtAddr) ops = .mapped t.leaf.frame ∨
      t.leaf.frame = 0 ∧ (originOf pt (pageNumber virtAddr) ops = .untouched ∨
        originOf pt (pageNumber virtAddr) ops = .unmapped) ∧
      Revived pt (pageNumber virtAddr) ops := by
  rw [(run.mapping limine low).walk_eq live virtAddr, Option.some.injEq] at walked
  rw [← walked] at present ⊢
  change (space (pageNumber virtAddr)).present = true at present
  change _ = Origin.mapped (space (pageNumber virtAddr)).frame ∨
    (space (pageNumber virtAddr)).frame = 0 ∧ _
  obtain ⟨frame, isShown⟩ := leaf_of_run live (pageNumber virtAddr)
  rw [isShown] at present
  rw [frame]
  cases origin : originOf pt (pageNumber virtAddr) ops with
  | mapped frame => exact Or.inl rfl
  | untouched =>
    refine Or.inr ⟨rfl, Or.inl rfl, revived_of_shown present fun frame absurd => ?_⟩
    rw [origin] at absurd
    cases absurd
  | unmapped =>
    refine Or.inr ⟨rfl, Or.inr rfl, revived_of_shown present fun frame absurd => ?_⟩
    rw [origin] at absurd
    cases absurd

/-- The mapping on the small memory map is the provenance of its translation. -/
theorem paged_provenance_smallBoot : ∃ ops s others pt, Paged smallBoot ops s others ∧
    (walk smallBoot s.mem pt 0x1000).isSome ∧
    originOf pt (pageNumber 0x1000) ops = .mapped 2 := by
  obtain ⟨pt, s, run, -⟩ := smallBoot_maps (show (0x2000 : UInt64).toNat < 2 ^ 52 by decide) 0x1000
    (vmmPresent ||| vmmRw)
  have live := spacesOf_map pt 0x2000 0x1000 (vmmPresent ||| vmmRw)
  have walked := (run.mapping smallBoot_limine smallBoot_low).walk_eq live 0x1000
  rw [Space.map, Function.update_self] at walked
  refine ⟨_, s, _, pt, run, by rw [walked]; rfl, ?_⟩
  cases paged_provenance smallBoot_limine smallBoot_low run live walked rfl with
  | inl mapped => exact mapped
  | inr revived => exact absurd revived.1 (by decide)

/-- A page that was never mapped translates to page zero after `arch_vmm_set_flags` gave it the
present flag; nothing was mapped or unmapped at all. -/
theorem setFlags_reveals_page_zero : ∃ pt s others,
    Paged smallBoot [.setFlags pt 0x1000 vmmPresent, .newPt pt] s others ∧
    walk smallBoot s.mem pt 0x1000 = some (Leaf.alone ⟨0, true, false, false, true⟩) ∧
    originOf pt (pageNumber 0x1000) [.setFlags pt 0x1000 vmmPresent, .newPt pt] = .untouched := by
  obtain ⟨s, t, pt, run, created, -, spare⟩ := smallBoot_newPt
  have first := (Paged.start run).step (.newPt created)
  have mapping := first.mapping smallBoot_limine smallBoot_low
  have live : spacesOf [.newPt pt] pt = some fun _ => .zero := Function.update_self pt _ _
  have flagged := mapping.setFlags_meets smallBoot_limine smallBoot_low live 0x1000 vmmPresent
  obtain ⟨u, returned, -, mappingAfter⟩ := (flagged.mono (fun _ => id) fun e exhausted =>
    exhausted.2 (spare.mono (by decide))).returns
  refine ⟨pt, u, _, first.step (.setFlags live returned), ?_, ?_⟩
  · rw [mappingAfter.walk_eq (Function.update_self pt _ _), Space.setFlags, Function.update_self]
    rfl
  · rw [originOf, originOf, if_pos rfl]

end Symphony
