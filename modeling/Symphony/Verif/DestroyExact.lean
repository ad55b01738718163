import Symphony.Verif.PmmStart
import Symphony.Verif.Teardown

/-!
# Exact destruction

`arch_vmm_destroy_pt` releases the tables and the present pages of an address space and no
other frame, uses no table after its release, and leaves an owner for every frame that stays
allocated. It does so exactly where the loops find each table at the address in its entry, as they
do where the usable memory ends below 2^51.
-/

namespace Symphony

variable {boot : Boot} {start s t : Machine} {others taken : Nat → Prop} {spaces : Spaces}
  {space : Space} {pt : UInt64}

/-- The loops find the tables below the top-level one: their addresses fit into the 51 bits in
which the entry's address is shifted, and those with a present entry do not lie at the null
pointer. -/
structure Destroyable (boot : Boot) (s : Machine) (pt : UInt64) (taken : Nat → Prop) : Prop where
  /-- The addresses fit. -/
  low : ∀ p, taken p → p ≠ frameOf boot pt → p < 2 ^ 39
  /-- The tables are looked at. -/
  nonnull : ∀ p i, taken p → p ≠ frameOf boot pt → (entryAt boot s.mem p i).present = true →
    tablePointer boot p ≠ 0

/-- What a destruction does where it is exact: it releases the given frames and no other, and
frees no table before its last access. -/
structure Exact (boot : Boot) (s : Machine) (pt : UInt64) (own : Nat → Prop) (t : Machine)
    (events : List (Event Nat)) : Prop where
  /-- It returns. -/
  returned : archVmmDestroyPt boot pt s = .ok t
  /-- Its accesses. -/
  accesses : watchDestroyPt boot pt s = .ok ⟨t, events⟩
  /-- The bitmap stays in its place. -/
  place : s.SamePlace t
  /-- The released frames were allocated. -/
  allocated : ∀ p, own p → s.Tracked p ∧ s.Allocated p
  /-- Their bits are cleared, and no other bit changes. -/
  bits : ∀ p, s.Tracked p → (t.Allocated p ↔ s.Allocated p ∧ ¬ own p)
  /-- No frame is read as a table, or released again, after its release. -/
  ordered : Ordered events

/-- No frame is lost: each one that is still allocated is reserved from the start, belongs to
another owner, or is a table of a page table that is still live. -/
def NoLeak (boot : Boot) (start s t : Machine) (others : Nat → Prop) (spaces : Spaces) (pt : UInt64)
    (space : Space) : Prop :=
  ∀ p, s.Tracked p → t.Allocated p →
    (start.Allocated p ∧ ¬ start.Allocatable boot p) ∨ (others p ∧ ¬ LeafFrame space p) ∨
      TableFrame boot s.mem (Function.update spaces pt none) p

/-! ## What the visit frees -/

section Visit

variable (filled : Filled boot pt start s others spaces taken) (live : spaces pt = some space)
  (leaves : OwnLeaves others space)

include filled live leaves in
/-- Only the empty path leads to the top-level table. -/
theorem Filled.path_to_root {path : List (Fin 512)} (short : path.length ≤ 4)
    (reached : follow (childAt boot s.mem) (frameOf boot pt) path = some (frameOf boot pt)) :
    path = [] := by
  have empty : ([] : List (Fin 512)).length ≤ 4 := Nat.zero_le 4
  exact leaves.path_unique filled.mapping live short empty reached rfl

include filled live leaves in
/-- What the visit below the top-level table frees belongs to the address space and is not the
top-level table. -/
theorem Filled.own_of_free {k : Nat} (freed : .free k ∈ visitsOf boot s.mem 4 (frameOf boot pt)) :
    (taken k ∨ LeafFrame space k) ∧ k ≠ frameOf boot pt := by
  obtain ⟨i, path, leads⟩ := free_mem_visits.mp freed
  refine ⟨filled.own_of_path live leads.length_le leads.follow, fun same => ?_⟩
  rw [same] at leads
  cases filled.path_to_root live leaves leads.length_le leads.follow

include filled live leaves in
/-- Where the addresses fit, all of it may be released. -/
theorem Filled.releasable (low : ∀ p, taken p → p ≠ frameOf boot pt → p < 2 ^ 39) {k : Nat}
    (freed : .free k ∈ visitsOf boot s.mem 4 (frameOf boot pt)) : Releasable boot s k := by
  obtain ⟨own, notRoot⟩ := filled.own_of_free live leaves freed
  refine ⟨(filled.own_allocatable live leaves own).1, ?_⟩
  rcases own with table | ⟨page, present, frame⟩
  · exact low k table notRoot
  · exact frame ▸ leaves.low page present

include filled live leaves in
/-- No path is visited twice. -/
theorem Filled.ordered_visitsOf : Ordered (visitsOf boot s.mem 4 (frameOf boot pt)) := by
  apply ordered_visits nodup_tableIndices
  intro path path' m leads leads'
  exact leaves.path_unique filled.mapping live leads.length_le leads'.length_le leads.follow
    leads'.follow

include filled live leaves in
/-- The top-level table is freed last. -/
theorem Filled.ordered_destroyEvents : Ordered (destroyEvents boot s.mem (frameOf boot pt)) := by
  apply List.pairwise_append.mpr
  refine ⟨filled.ordered_visitsOf live leaves, List.pairwise_singleton _ _, ?_⟩
  intro e before e' last m freed
  rw [List.mem_singleton] at last
  subst last freed
  refine ⟨fun other => (nomatch other), fun same => ?_⟩
  rw [Event.free.injEq] at same
  exact (filled.own_of_free live leaves before).2 same.symm

include filled live leaves in
/-- Each index of a path of the address space is visited. -/
theorem Filled.visited (destroyable : Destroyable boot s pt taken) {before after : List (Fin 512)}
    {j : Fin 512} {k m : Nat} (short : (before ++ j :: after).length ≤ 4)
    (reached : follow (childAt boot s.mem) (frameOf boot pt) (before ++ j :: after) = some m)
    (prior : follow (childAt boot s.mem) (frameOf boot pt) before = some k) :
    j ∈ tableIndices boot (4 - before.length) k := by
  rw [List.length_append, List.length_cons] at short
  rw [follow_append, prior, Option.bind_some, follow] at reached
  obtain ⟨c, edge, -⟩ := Option.bind_eq_some_iff.mp reached
  cases before with
  | nil =>
    rw [follow, Option.some.injEq] at prior
    subst prior
    have small := filled.lower j c edge
    rw [tableIndices, if_pos (show 4 - ([] : List (Fin 512)).length = 4 from rfl)]
    exact List.mem_take_iff_getElem.mpr ⟨j, by simpa using small, by simp⟩
  | cons i before =>
    have table : taken k := (filled.tables k).mpr ⟨i :: before, by omega, prior⟩
    have notRoot : k ≠ frameOf boot pt := by
      intro same
      rw [same] at prior
      cases filled.path_to_root live leaves (by omega) prior
    have present : (entryAt boot s.mem k j).present = true := by
      by_contra absent
      rw [childAt, if_neg absent] at edge
      cases edge
    have inner : ¬ 4 - (i :: before).length = 4 := by
      rw [List.length_cons]
      omega
    rw [tableIndices, if_neg inner, if_neg (destroyable.nonnull k j table notRoot present)]
    exact List.mem_finRange j

include filled live leaves in
/-- Where the loops find the tables, all of the address space is freed, and nothing else. -/
theorem Filled.free_mem_iff (destroyable : Destroyable boot s pt taken) (p : Nat) :
    .free p ∈ destroyEvents boot s.mem (frameOf boot pt) ↔ taken p ∨ LeafFrame space p := by
  rw [destroyEvents, List.mem_append, List.mem_singleton, Event.free.injEq]
  constructor
  · rintro (freed | same)
    · exact (filled.own_of_free live leaves freed).1
    · exact Or.inl ((filled.tables p).mpr ⟨[], Nat.zero_le 3, by rw [same]; rfl⟩)
  · intro own
    have found : ∃ path, path.length ≤ 4 ∧
        follow (childAt boot s.mem) (frameOf boot pt) path = some p := by
      rcases own with table | leaf
      · obtain ⟨path, short, reached⟩ := (filled.tables p).mp table
        exact ⟨path, by omega, reached⟩
      · obtain ⟨path, full, reached⟩ := filled.mapping.path_of_leaf live leaf
        exact ⟨path, Nat.le_of_eq full, reached⟩
    obtain ⟨path, short, reached⟩ := found
    cases path with
    | nil => exact Or.inr (Option.some.inj reached).symm
    | cons i path =>
      refine Or.inl (free_mem_visits.mpr ⟨i, path, leads_of_follow short reached ?_⟩)
      intro before j after k split prior
      rw [split] at short reached
      exact filled.visited live leaves destroyable short reached prior

end Visit

/-! ## Frames that no loop releases -/

/-- The bitmap keeps its place, and the frame stays allocated if it was. -/
def Machine.Keeps (p : Nat) (s t : Machine) : Prop := s.SamePlace t ∧ (s.Allocated p → t.Allocated p)

/-- Nothing happened. -/
theorem Machine.Keeps.refl (p : Nat) (s : Machine) : s.Keeps p s := ⟨⟨rfl, rfl⟩, id⟩

/-- Steps that keep the frame compose. -/
theorem Machine.Keeps.trans {p : Nat} {u : Machine} (first : s.Keeps p t) (second : t.Keeps p u) :
    s.Keeps p u :=
  ⟨⟨second.1.1.trans first.1.1, second.1.2.trans first.1.2⟩, fun held => second.2 (first.2 held)⟩

/-- The poison sets every bit of a byte. -/
theorem poison_and_pageMask : ∀ j < 8, (0xff : UInt8) &&& pageMask (UInt8.ofNat j) ≠ 0 := by
  decide

/-- The release of one frame keeps every other frame, even where the poison reaches the bitmap. -/
theorem pmmFree_keeps {base : UInt64} {p : Nat} (sized : s.Sized) (tracked : s.Tracked p)
    (other : p ≠ base.toNat / 4096) :
    Meets (pmmFree boot base 1 s) (s.Keeps p) fun _ => True := by
  have bound := base.toNat_lt
  have first : (base >>> 12).toNat = base.toNat / 4096 := by
    rw [UInt64.toNat_shiftRight, Nat.shiftRight_eq_div_pow]
    rfl
  have stop : (base >>> 12 + wordOfInt 1).toNat = base.toNat / 4096 + 1 := by
    rw [toNat_add_of_fits (by rw [first]; change base.toNat / 4096 + 1 < _; omega), first]
    rfl
  apply ((clearRange_meets _ _ sized).mono (fun _ => id) fun _ _ => trivial).bind
  intro t marks
  apply ((mulInt_meets (show (0 : Int) ≤ (1 : Int32).toInt by decide)).mono (fun _ => id)
    fun _ _ => trivial).bind
  intro length _
  refine ⟨⟨marks.bitmap, marks.size⟩, fun held => ?_⟩
  have cleared : t.Allocated p := by
    rw [marks.bits p tracked, first, stop]
    exact ⟨fun inRange => other (by omega), held⟩
  unfold Machine.Allocated at cleared ⊢
  dsimp only
  rw [memset_byte]
  by_cases poisoned : Span (base + bootProtoHhdmOffset boot) (wordOfInt length).toNat
      (t.bitmap + UInt64.ofNat (p / 8))
  · rw [if_pos poisoned]
    exact poison_and_pageMask (p % 8) (Nat.mod_lt p (by decide))
  · rw [if_neg poisoned]
    exact cleared

/-- A function on tables that releases no frame with a large number but the table. -/
def KeepsHigh (below : UInt64 → Machine → Except Fault Machine) : Prop :=
  ∀ p table s, s.Sized → s.Tracked p → 2 ^ 39 ≤ p → Meets (below table s) (s.Keeps p) fun _ => True

/-- The frame that an entry leads to by the shift in 51 bits has a small number. -/
theorem narrowBase_lt (e : PageTableEntry) : e.narrowBase.toNat / 4096 < 2 ^ 39 := by
  have bound := (e.addr <<< 12).isLt
  have value : e.narrowBase.toNat = (e.addr <<< 12).toNat := by
    change ((e.addr <<< 12).setWidth 64).toNat = _
    rw [BitVec.toNat_setWidth]
    omega
  omega

/-- A turn of a loop keeps the frames with large numbers. -/
theorem destroyEntry_keeps {below : UInt64 → Machine → Except Fault Machine}
    (keeps : KeepsHigh below) (i : Nat) {p : Nat} {table : UInt64} (sized : s.Sized)
    (tracked : s.Tracked p) (high : 2 ^ 39 ≤ p) :
    Meets (destroyEntry boot below table i s) (s.Keeps p) fun _ => True := by
  unfold destroyEntry
  dsimp only
  generalize s.mem.entry table (UInt64.ofNat i) = entry
  by_cases present : entry.present = true
  · rw [if_pos present]
    apply (keeps p (entry.narrowBase + bootProtoHhdmOffset boot) s sized tracked high).bind
    intro t kept
    have base : entry.narrowBase + bootProtoHhdmOffset boot - bootProtoHhdmOffset boot =
        entry.narrowBase := by grind
    have small := narrowBase_lt entry
    rw [freeTable, base]
    apply (pmmFree_keeps (by rwa [Machine.Sized, kept.1.2]) (by rwa [Machine.Tracked, kept.1.2])
      (show p ≠ entry.narrowBase.toNat / 4096 by omega)).mono _ fun _ => id
    intro u kept'
    exact kept.trans kept'
  · rw [if_neg present]
    exact Machine.Keeps.refl p s

/-- So does a loop of turns. -/
theorem keeps_forLoop {body : Nat → Machine → Except Fault Machine} {p count : Nat}
    (turn : ∀ i t, t.Sized → t.Tracked p → Meets (body i t) (t.Keeps p) fun _ => True)
    (sized : s.Sized) (tracked : s.Tracked p) :
    Meets (forLoop body 0 count s) (s.Keeps p) fun _ => True := by
  apply forLoop_meets (fun _ t => s.Keeps p t) _ (Machine.Keeps.refl p s)
  intro i t _ _ kept
  apply (turn i t (by rwa [Machine.Sized, kept.1.2]) (by rwa [Machine.Tracked, kept.1.2])).mono _
    fun _ => id
  intro u kept'
  exact kept.trans kept'

/-- The inner loops keep the frames with large numbers. -/
theorem destroyLevels_keeps (depth : Nat) : KeepsHigh (destroyLevels boot depth) := by
  induction depth with
  | zero => exact fun p _ s _ _ _ => Machine.Keeps.refl p s
  | succ depth ih =>
    intro p table s sized tracked high
    apply keeps_forLoop _ sized tracked
    intro i t sizedT trackedT
    by_cases null : table ≠ 0
    · rw [if_pos null]
      exact destroyEntry_keeps ih i sizedT trackedT high
    · rw [if_neg null]
      exact Machine.Keeps.refl p t

/-- `arch_vmm_destroy_pt` keeps every frame from 2^51 on, except for the top-level table. -/
theorem destroyPt_keeps {p : Nat} (sized : s.Sized) (tracked : s.Tracked p) (high : 2 ^ 39 ≤ p)
    (notRoot : p ≠ frameOf boot pt) :
    Meets (archVmmDestroyPt boot pt s) (s.Keeps p) fun _ => True := by
  change Meets (forLoop (destroyEntry boot (destroyLevels boot 3) pt) 0 256 s >>= freeTable boot pt) _ _
  apply (keeps_forLoop (fun i t sizedT trackedT => destroyEntry_keeps (destroyLevels_keeps 3) i sizedT
    trackedT high) sized tracked).bind
  intro t kept
  apply (pmmFree_keeps (by rwa [Machine.Sized, kept.1.2]) (by rwa [Machine.Tracked, kept.1.2])
    notRoot).mono _ fun _ => id
  intro u kept'
  exact kept.trans kept'

/-! ## Exactness -/

section Destruction

variable (limine : boot.Limine) (filled : Filled boot pt start s others spaces taken)
  (live : spaces pt = some space) (leaves : OwnLeaves others space)

include limine filled live leaves in
/-- Where the addresses fit, the destruction is the visit of the tree. -/
theorem Filled.watchDestroyPt (low : ∀ p, taken p → p ≠ frameOf boot pt → p < 2 ^ 39) :
    Meets (watchDestroyPt boot pt s)
      (Watched.Follows boot s (destroyEvents boot s.mem (frameOf boot pt))) fun _ => False := by
  have owns := filled.mapping.owns
  have root : taken (frameOf boot pt) := (filled.tables _).mpr ⟨[], Nat.zero_le 3, rfl⟩
  have allocatable := (filled.own_allocatable live leaves (Or.inl root)).1
  have visit := watchDestroyPt_meets limine owns.sized owns.tracked allocatable
    (fun k => filled.releasable live leaves low) (filled.ordered_visitsOf live leaves)
  rwa [← filled.mapping.roots pt space live] at visit

include filled live in
/-- A frame that stays allocated without being part of the address space has an owner. -/
theorem Filled.noLeak
    (bits : ∀ p, s.Tracked p → (t.Allocated p ↔ s.Allocated p ∧ ¬ (taken p ∨ LeafFrame space p))) :
    NoLeak boot start s t others spaces pt space := by
  intro p tracked stays
  rw [bits p tracked, filled.mapping.owns.bits p tracked] at stays
  obtain ⟨reserved | other | table, notOwn⟩ := stays
  · have place := filled.place
    have trackedStart : start.Tracked p := by rwa [Machine.Tracked, ← place.2]
    have reservedStart : ¬ start.Allocatable boot p := by
      rw [Machine.Allocatable, Machine.BitmapFrame] at reserved ⊢
      simpa only [Machine.InBitmap, place.1, place.2] using reserved
    exact Or.inl ⟨filled.reserved p trackedStart reservedStart, reservedStart⟩
  · exact Or.inr (Or.inl ⟨other, fun leaf => notOwn (Or.inr leaf)⟩)
  · obtain ⟨root, path, ⟨pt', space', live', here⟩, short, reached⟩ := table
    have different : pt' ≠ pt := by
      intro same
      subst same here
      exact notOwn (Or.inl ((filled.tables p).mpr ⟨path, short, reached⟩))
    refine Or.inr (Or.inr ⟨root, path, ⟨pt', space', ?_, here⟩, short, reached⟩)
    rwa [Function.update_of_ne different]

include limine filled live leaves in
/-- Where the loops find the tables, the destruction is exact. -/
theorem Filled.exact (destroyable : Destroyable boot s pt taken) :
    ∃ t events, Exact boot s pt (fun p => taken p ∨ LeafFrame space p) t events := by
  obtain ⟨⟨t, events⟩, accesses, same, freed⟩ :=
    (filled.watchDestroyPt limine live leaves destroyable.low).returns
  dsimp only at same freed
  have returned : archVmmDestroyPt boot pt s = .ok t := by
    rw [← watchDestroyPt_machine, accesses]
    rfl
  refine ⟨t, events, returned, accesses, ⟨freed.bitmap, freed.size⟩,
    fun p own => (filled.own_allocatable live leaves own).2, fun p tracked => ?_, ?_⟩
  · rw [freed.bits p tracked, filled.free_mem_iff live leaves destroyable]
  · rw [same]
    exact filled.ordered_destroyEvents live leaves

include filled live leaves in
/-- An exact destruction reaches no table with an address that does not fit. -/
theorem Filled.low_of_exact {events : List (Event Nat)}
    (exact : Exact boot s pt (fun p => taken p ∨ LeafFrame space p) t events) {p : Nat}
    (table : taken p) (notRoot : p ≠ frameOf boot pt) : p < 2 ^ 39 := by
  by_contra high
  obtain ⟨-, tracked, allocated⟩ := filled.own_allocatable live leaves (Or.inl table)
  have kept := (destroyPt_keeps filled.mapping.owns.sized tracked (Nat.le_of_not_lt high)
    notRoot).of_ok exact.returned
  exact ((exact.bits p tracked).mp (kept.2 allocated)).2 (Or.inl table)

include limine filled live leaves in
/-- An exact destruction skips no table with a present entry. -/
theorem Filled.nonnull_of_exact {events : List (Event Nat)}
    (exact : Exact boot s pt (fun p => taken p ∨ LeafFrame space p) t events) {p : Nat} {i : Fin 512}
    (table : taken p) (notRoot : p ≠ frameOf boot pt)
    (present : (entryAt boot s.mem p i).present = true) : tablePointer boot p ≠ 0 := by
  intro null
  have low := fun q table notRoot => filled.low_of_exact live leaves exact (p := q) table notRoot
  have visit := (filled.watchDestroyPt limine live leaves low).of_ok exact.accesses
  obtain ⟨path, short, reached⟩ := (filled.tables p).mp table
  have edge : childAt boot s.mem p i = some (entryAt boot s.mem p i).frame := by
    rw [childAt, if_pos present]
  generalize (entryAt boot s.mem p i).frame = c at edge
  have leads : follow (childAt boot s.mem) (frameOf boot pt) (path ++ [i]) = some c := by
    rw [follow_concat, reached, Option.bind_some, edge]
  have longer : (path ++ [i]).length ≤ 4 := by
    rw [List.length_append, List.length_singleton]
    omega
  have own := filled.own_of_path live longer leads
  -- What the entry leads to was released, so that the entry was visited.
  obtain ⟨-, tracked, allocated⟩ := filled.own_allocatable live leaves own
  have freed : .free c ∈ destroyEvents boot s.mem (frameOf boot pt) := by
    by_contra spared
    have stays := (visit.freed.bits c tracked).mpr ⟨allocated, spared⟩
    exact ((exact.bits c tracked).mp stays).2 own
  rw [destroyEvents, List.mem_append, List.mem_singleton, Event.free.injEq] at freed
  rcases freed with below | same
  · obtain ⟨j, rest, visited⟩ := free_mem_visits.mp below
    have split := leaves.path_unique filled.mapping live visited.length_le longer visited.follow leads
    rw [split] at visited
    have index := visited.visited reached
    have inner : ¬ 4 - path.length = 4 := by
      intro top
      have empty : path = [] := List.length_eq_zero_iff.mp (by omega)
      rw [empty] at reached
      exact notRoot (Option.some.inj reached).symm
    rw [tableIndices, if_neg inner, if_pos null] at index
    cases index
  · rw [same] at leads
    have empty := filled.path_to_root live leaves longer leads
    cases List.append_eq_nil_iff.mp empty |>.2

end Destruction

/-- An address space with one page, in the frame that is held on the small memory map. -/
def onePage : Space :=
  Space.map (fun _ => .zero) (pageNumber 0x1000) (physFrame 0x2000) (vmmPresent ||| vmmRw)

/-- Its page. -/
theorem onePage_present {page : BitVec 36} :
    (onePage page).present = true ↔ page = pageNumber 0x1000 := by
  constructor
  · intro present
    by_contra different
    rw [onePage, Space.map, Function.update_of_ne different] at present
    cases present
  · intro same
    rw [same, onePage, Space.map, Function.update_self]
    rfl

/-- The frame of its page. -/
theorem onePage_frame : (onePage (pageNumber 0x1000)).frame = 2 := by
  rw [onePage, Space.map, Function.update_self]
  rfl

/-- Its page has a frame of its own. -/
theorem onePage_ownLeaves : OwnLeaves smallBootHeld onePage := by
  refine ⟨fun page present => ?_, fun page present => ?_, fun page page' present present' _ => ?_⟩
  · rw [onePage_present.mp present, onePage_frame]
    exact Or.inr ⟨by decide, by decide⟩
  · rw [onePage_present.mp present, onePage_frame]
    decide
  · rw [onePage_present.mp present, onePage_present.mp present']

/-- In every life of a page table in the lower half whose present pages have distinct frames
below 2^51 that the caller holds, the destruction is exact and loses no frame if and only if
the loops find its tables. -/
theorem destroy_exact (limine : boot.Limine) (low : boot.UsableBelow (2 ^ 52))
    (run : Filling boot pt start s others spaces taken) (live : spaces pt = some space)
    (leaves : OwnLeaves others space) :
    (∃ t events, Exact boot s pt (fun p => taken p ∨ LeafFrame space p) t events ∧
      NoLeak boot start s t others spaces pt space) ↔ Destroyable boot s pt taken := by
  have filled := run.filled limine low
  constructor
  · rintro ⟨t, events, exact, -⟩
    exact ⟨fun p => filled.low_of_exact live leaves exact,
      fun p i => filled.nonnull_of_exact limine live leaves exact⟩
  · intro destroyable
    obtain ⟨t, events, exact⟩ := filled.exact limine live leaves destroyable
    exact ⟨t, events, exact, filled.noLeak live exact.bits⟩

/-- In every life of a page table in the lower half whose present pages have distinct frames that the
caller holds, on a machine whose usable memory ends below 2^51 and is shown by the direct map without
wrapping around, the destruction is exact and loses no frame. -/
theorem destroy_releases (limine : boot.Limine) (low : boot.UsableBelow (2 ^ 51))
    (direct : boot.Direct) (run : Filling boot pt start s others spaces taken)
    (live : spaces pt = some space) (leaves : OwnLeaves others space) :
    ∃ t events, Exact boot s pt (fun p => taken p ∨ LeafFrame space p) t events ∧
      NoLeak boot start s t others spaces pt space := by
  have filled := run.filled limine (low.mono (by decide))
  have allocatable {p : Nat} (table : taken p) : s.Allocatable boot p :=
    (filled.own_allocatable live leaves (Or.inl table)).1
  apply (destroy_exact limine (low.mono (by decide)) run live leaves).mpr
  exact ⟨fun p table _ => low.lt_39 (allocatable table).1,
    fun p _ table _ _ => direct.visible p (allocatable table)⟩

/-- On the small memory map an address space gets a page in a frame of its own. -/
theorem smallBoot_filling : ∃ pt start s spaces taken,
    Filling smallBoot pt start s smallBootHeld spaces taken ∧ spaces pt = some onePage := by
  obtain ⟨start, first, pt, owned, created, -, spare⟩ := smallBoot_newPt
  have begun := Filling.new (owned.owns smallBoot_limine).mapping created
  have mapping := (begun.filled smallBoot_limine smallBoot_low).mapping
  have fresh := Function.update_self pt (some fun _ => .zero) (fun _ => none : Spaces)
  obtain ⟨s, returned, -⟩ := ((mapping.map_meets smallBoot_limine smallBoot_low fresh 0x2000 0x1000
    (vmmPresent ||| vmmRw)).mono (fun _ => id) fun e exhausted =>
      exhausted.2 (spare.mono (by decide))).returns
  have run := begun.own fresh (.map (show InLowerHalf 0x1000 by rfl) returned)
  exact ⟨pt, start, s, _, _, run, Function.update_self pt (some onePage)
    (Function.update (fun _ => none : Spaces) pt (some fun _ => .zero))⟩

/-- The direct map of the small memory map does not wrap around. -/
theorem smallBoot_direct : smallBoot.Direct := by
  intro p usable
  have small := smallBoot_lt usable
  have offset : smallBoot.offset.toNat = 0xffff800000000000 := rfl
  omega

/-- On the small memory map the destruction of an address space with a page releases its tables and
the frame of the page. -/
theorem destroy_releases_smallBoot : ∃ pt start s spaces taken t events,
    Filling smallBoot pt start s smallBootHeld spaces taken ∧ spaces pt = some onePage ∧
    Exact smallBoot s pt (fun p => taken p ∨ LeafFrame onePage p) t events ∧
    NoLeak smallBoot start s t smallBootHeld spaces pt onePage := by
  obtain ⟨pt, start, s, spaces, taken, run, live⟩ := smallBoot_filling
  obtain ⟨t, events, exact, noLeak⟩ := destroy_releases smallBoot_limine smallBoot_low_51
    smallBoot_direct run live onePage_ownLeaves
  exact ⟨pt, start, s, spaces, taken, t, events, run, live, exact, noLeak⟩

/-!
## Memory above 2^51

A direct map of four-level page tables ends below 2^47, so the boot loader shows the kernel no
such memory. The section is about the bound of the loops themselves: their shift keeps 51 bits.
-/

/-- A memory map with usable memory above 2^51 only, as no boot loader shows it. -/
def highBoot : Boot where
  offset := 0xff00000000000000
  entries := [⟨0, 0x100000, .reserved⟩, ⟨0x8000000001000, 0x2000000000, .usable⟩,
    ⟨0x8002000001000, 0x8000, .usable⟩]
  count_fits := by decide
  physicalBase := 0x4000
  virtualBase := 0xffffffff80000000
  kernelSize := 0x2800

/-- It has the guarantees of the boot protocol. -/
theorem highBoot_limine : highBoot.Limine where
  range := by decide
  sorted := by decide
  aligned := by decide
  disjoint := by decide

/-- Its usable memory ends below 2^52. -/
theorem highBoot_low : highBoot.UsableBelow (2 ^ 52) := by
  unfold Boot.UsableBelow
  decide

/-- Its usable pages. -/
theorem highBoot_le {p : Nat} (usable : highBoot.UsablePage p) : 2 ^ 39 ≤ p := by
  have above : ∀ entry ∈ highBoot.entries, entry.type = .usable → 2 ^ 51 ≤ entry.base.toNat := by
    decide
  obtain ⟨entry, inMap, isUsable, lower, -⟩ := usable
  have := above entry inMap isUsable
  omega

/-- `pmm_init` returns on it and leaves eight free frames in the entry without the bitmap. -/
theorem highBoot_returns : ∃ s, Owned highBoot s (fun _ => False) ∧ s.Spare 8 := by
  have room : highBoot.HasRoom := ⟨⟨0x8000000001000, 0x2000000000, .usable⟩, by decide, by decide⟩
  have accepted : highBoot.Accepted := by
    refine ⟨⟨⟨0x8002000001000, 0x8000, .usable⟩, by decide, by decide⟩, by decide, by decide, ?_⟩
    intro entry first
    have value : highBoot.firstRoom highBoot.bitmapBytes =
        some ⟨0x8000000001000, 0x2000000000, .usable⟩ := by decide
    rw [value] at first
    cases first
    decide
  obtain ⟨s, returned⟩ := returns_of_accepted highBoot_limine zeroMemory room accepted
  obtain ⟨⟨place, inMap, isUsable, inside⟩, tracked, bits⟩ :=
    (pmmInit_exact highBoot_limine zeroMemory).1 s returned
  -- Whichever entry holds the bitmap, the start of the other one is free.
  have spare (entry : LimineMemmapEntry) (known : entry ∈ highBoot.entries)
      (usable : entry.type = .usable) (long : 0x8000 ≤ entry.length.toNat)
      (apart : ∀ p, entry.HasPage p → ¬ place.HasPage p) : s.Spare 8 := by
    have aligned := (highBoot_limine.aligned entry known usable).1
    refine ⟨List.range' (entry.base.toNat / 4096) 8, List.nodup_range', by simp, fun p member => ?_⟩
    rw [List.mem_range'_1] at member
    have page : entry.HasPage p := by
      unfold LimineMemmapEntry.HasPage LimineMemmapEntry.stop
      omega
    have isPage : highBoot.UsablePage p := ⟨entry, known, usable, page⟩
    have high := highBoot_le isPage
    exact ⟨tracked p isPage, (bits p (tracked p isPage)).mpr ⟨isPage, by omega,
      fun frame => apart p page (inside p frame).1⟩⟩
  refine ⟨s, Owned.init returned, ?_⟩
  have first : (0x8000000001000 : UInt64).toNat + (0x2000000000 : UInt64).toNat =
      (0x8002000001000 : UInt64).toNat := by decide
  simp only [highBoot, List.mem_cons, List.not_mem_nil, or_false] at inMap
  rcases inMap with rfl | rfl | rfl
  · cases isUsable
  · apply spare ⟨0x8002000001000, 0x8000, .usable⟩ (by decide) rfl (by decide)
    intro p inSecond inFirst
    have start := inSecond.1
    have stop : 4096 * (p + 1) ≤ (0x8002000001000 : UInt64).toNat := first ▸ inFirst.2
    dsimp only at start
    omega
  · apply spare ⟨0x8000000001000, 0x2000000000, .usable⟩ (by decide) rfl (by decide)
    intro p inFirst inSecond
    have start := inSecond.1
    have stop : 4096 * (p + 1) ≤ (0x8002000001000 : UInt64).toNat := first ▸ inFirst.2
    dsimp only at start
    omega

/-- The tables of an address space above 2^51 stay allocated when it is destroyed: there is a
life of a page table without a present page after which no destruction clears the bit of a
table that was taken. -/
theorem destroy_keeps_table : ∃ pt start s spaces taken space,
    Filling highBoot pt start s (fun _ => False) spaces taken ∧ spaces pt = some space ∧
    OwnLeaves (fun _ => False) space ∧
    ∃ p, taken p ∧ s.Allocated p ∧ ∀ t, archVmmDestroyPt highBoot pt s = .ok t → t.Allocated p := by
  obtain ⟨start, owned, spare⟩ := highBoot_returns
  have atStart := (owned.owns highBoot_limine).mapping
  obtain ⟨⟨pt, first⟩, created, -, uses, mapping⟩ := ((atStart.newPt_meets highBoot_limine).mono
    (fun _ => id) fun e exhausted => exhausted.2 (spare.mono (by decide))).returns
  have begun := Filling.new atStart created
  have fresh := Function.update_self pt (some fun _ => .zero) (fun _ => none : Spaces)
  have left : first.Spare 3 := (uses.spare 7 spare).mono (by decide)
  obtain ⟨s, returned, -⟩ := ((mapping.unmap_meets highBoot_limine highBoot_low fresh 0).mono
    (fun _ => id) fun e exhausted => exhausted.2 left).returns
  have run := begun.own fresh (.unmap (show InLowerHalf 0 by rfl) returned)
  have filled := run.filled highBoot_limine highBoot_low
  have live := Function.update_self pt (some (Space.unmap (fun _ => .zero) (pageNumber 0)))
    (Function.update (fun _ => none : Spaces) pt (some fun _ => .zero))
  have absent (page : BitVec 36) :
      ¬ (Space.unmap (fun _ => .zero) (pageNumber 0) page).present = true := by
    rw [Space.unmap]
    by_cases same : page = pageNumber 0
    · rw [same, Function.update_self]
      exact Bool.false_ne_true
    · rw [Function.update_of_ne same]
      exact Bool.false_ne_true
  have leaves : OwnLeaves (fun _ => False) (Space.unmap (fun _ => .zero) (pageNumber 0)) :=
    ⟨fun page present => (absent page present).elim, fun page present => (absent page present).elim,
      fun page _ present => (absent page present).elim⟩
  -- The table below the top-level one was taken by the operation.
  obtain ⟨-, frame, reached⟩ := mapping.changePage highBoot_limine highBoot_low fresh returned
  obtain ⟨pdp, _, edge, -⟩ := exists_of_follow_three (i := 0) (j := 0) (k := 0) reached
  have path : follow (childAt highBoot s.mem) (frameOf highBoot pt) [0] = some pdp := by
    rw [follow, edge]
    rfl
  have table := (filled.tables pdp).mpr ⟨[0], by decide, path⟩
  obtain ⟨allocatable, tracked, allocated⟩ := filled.own_allocatable live leaves (Or.inl table)
  have notRoot : pdp ≠ frameOf highBoot pt := by
    intro same
    rw [same] at path
    cases filled.path_to_root live leaves (by decide) path
  refine ⟨pt, start, s, _, _, _, run, live, leaves, pdp, table, allocated, fun t destroyed => ?_⟩
  have kept := (destroyPt_keeps filled.mapping.owns.sized tracked (highBoot_le allocatable.1)
    notRoot).of_ok destroyed
  exact kept.2 allocated

end Symphony
