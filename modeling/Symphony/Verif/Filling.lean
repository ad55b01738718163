import Symphony.Verif.Destroy

/-!
# Filling an address space

A page table is created by `arch_vmm_new_pt` and filled by operations on lower-half addresses,
in between any steps of others. The frames that its own operations took from the allocator are
at every time the tables of its tree, and all of them lie in the lower half.
-/

namespace Symphony

variable {boot : Boot} {s s' : Machine} {others others' : Nat → Prop} {spaces spaces' : Spaces}
  {pt : UInt64} {space : Space}

/-! ## What an operation adds to the tables -/

/-- A write to the entry of a page adds no table. -/
theorem Mapping.updateEntry_extends (limine : boot.Limine) (mapping : Mapping boot s others spaces)
    {frame : Nat} {page : BitVec 36} (live : spaces pt = some space)
    (reached : follow (childAt boot s.mem) (frameOf boot pt) (upperPath page) = some frame)
    {change : PageTableEntry → PageTableEntry} {m : Memory}
    (updated : m = s.mem.updateEntry (entryPointer (tablePointer boot frame)
      (UInt64.ofNat (lastIndex page))) change) (root : Nat) (path : List (Fin 512)) :
    Extends (childAt boot s.mem) (childAt boot m) (spaces.Root boot) 3 root path := by
  have isLive : spaces.Root boot (frameOf boot pt) := Spaces.root_of_some live
  have full := length_upperPath page
  have table : TableFrame boot s.mem spaces frame := ⟨_, _, isLive, Nat.le_of_eq full, reached⟩
  have small := limine.usable_lt (mapping.owns.allocatable frame (Or.inr table)).1
  apply Extends.of_edges
  intro g j inner
  have smallG := limine.usable_lt (mapping.owns.allocatable g (Or.inr inner.within)).1
  apply childAt_congr
  rw [updated, Memory.updateEntry, entryAt_store small smallG, if_neg]
  intro both
  rw [both.1] at inner
  exact mapping.not_inner isLive full reached inner

/-- An operation that changes the entry of a page adds tables on the path of the page only, and
all tables of this path exist afterwards. -/
theorem Mapping.changePage (limine : boot.Limine) (low : boot.UsableBelow (2 ^ 52))
    (mapping : Mapping boot s others spaces) (live : spaces pt = some space) {virtAddr : UInt64}
    {change : PageTableEntry → PageTableEntry}
    (returned : (pageFromIndex boot pt (pageIndex virtAddr) s >>= fun r =>
      .ok { r.2 with mem := r.2.mem.updateEntry r.1 change }) = .ok s') :
    Extends (childAt boot s.mem) (childAt boot s'.mem) (spaces.Root boot) 3 (frameOf boot pt)
      (upperPath (pageNumber virtAddr)) ∧
    ∃ frame, follow (childAt boot s'.mem) (frameOf boot pt) (upperPath (pageNumber virtAddr)) =
      some frame := by
  rw [bind_eq_ok] at returned
  obtain ⟨⟨pte, t⟩, walked, rest⟩ := returned
  have found := (mapping.pageFromIndex_meets limine low live virtAddr).of_ok walked
  obtain ⟨-, mappingT, frame, reached, rfl, extendsT⟩ := found
  cases rest
  dsimp only
  have extendsS := mappingT.updateEntry_extends limine live reached
    (m := t.mem.updateEntry (entryPointer (tablePointer boot frame)
      (UInt64.ofNat (lastIndex (pageNumber virtAddr)))) change)
    rfl (frameOf boot pt) (upperPath (pageNumber virtAddr))
  have short := Nat.le_of_eq (length_upperPath (pageNumber virtAddr))
  exact ⟨extendsT.trans extendsS, frame, extendsS.stays _ _ _ (Spaces.root_of_some live) short reached⟩

/-- `arch_vmm_map` adds tables on the path of its page only, and all of them exist afterwards. -/
theorem Mapping.map_extends (limine : boot.Limine) (low : boot.UsableBelow (2 ^ 52))
    (mapping : Mapping boot s others spaces) (live : spaces pt = some space)
    {physAddr virtAddr : UInt64} {flags : Int32}
    (returned : archVmmMap boot pt physAddr virtAddr flags s = .ok s') :
    Extends (childAt boot s.mem) (childAt boot s'.mem) (spaces.Root boot) 3 (frameOf boot pt)
      (upperPath (pageNumber virtAddr)) ∧
    ∃ frame, follow (childAt boot s'.mem) (frameOf boot pt) (upperPath (pageNumber virtAddr)) =
      some frame := by
  rw [archVmmMap, bind_eq_ok] at returned
  obtain ⟨r, walked, rest⟩ := returned
  have found := (mapping.pageFromIndex_meets limine low live virtAddr).of_ok walked
  obtain ⟨pte, t⟩ := r
  obtain ⟨-, mappingT, frame, reached, rfl, extendsT⟩ := found
  obtain ⟨e, -, updated⟩ := mappingT.updateEntry limine live reached
    (fun entry => { entry with addr := PageTableEntry.addrOfWord (physAddr >>> 12) })
  obtain ⟨-, mappingU, -⟩ := updated _ rfl
  obtain ⟨extendsU, whole⟩ := mappingU.changePage limine low (Function.update_self pt _ spaces) rest
  rw [Spaces.root_update live] at extendsU
  have extendsM := mappingT.updateEntry_extends limine live reached
    (m := t.mem.updateEntry (entryPointer (tablePointer boot frame) (UInt64.ofNat
      (lastIndex (pageNumber virtAddr)))) fun entry =>
        { entry with addr := PageTableEntry.addrOfWord (physAddr >>> 12) })
    rfl (frameOf boot pt) (upperPath (pageNumber virtAddr))
  exact ⟨(extendsT.trans extendsM).trans extendsU, whole⟩

/-! ## Steps of others -/

/-- The page table that an operation works on. -/
def PagingOp.table : PagingOp → Option UInt64
  | .newPt pt => some pt
  | .map pt _ _ _ => some pt
  | .unmap pt _ => some pt
  | .setFlags pt _ _ => some pt
  | .other => none

/-- Operations on other page tables keep an address space. -/
theorem Spaces.apply_foreign {op : PagingOp} (foreign : op.table ≠ some pt) :
    spaces.apply op pt = spaces pt := by
  cases op with
  | newPt pt' => exact Function.update_of_ne (fun same => foreign (congrArg some same.symm)) _ _
  | map pt' _ _ _ => exact Function.update_of_ne (fun same => foreign (congrArg some same.symm)) _ _
  | unmap pt' _ => exact Function.update_of_ne (fun same => foreign (congrArg some same.symm)) _ _
  | setFlags pt' _ _ => exact Function.update_of_ne (fun same => foreign (congrArg some same.symm)) _ _
  | other => rfl

/-- The bitmap stays in its place. -/
def Machine.SamePlace (s s' : Machine) : Prop :=
  s'.bitmap = s.bitmap ∧ s'.bitmapSize = s.bitmapSize

/-- Steps of others keep the tree of a page table. -/
theorem PagingStep.foreign {op : PagingOp} (limine : boot.Limine) (low : boot.UsableBelow (2 ^ 52))
    (step : PagingStep boot spaces s others op s' others') (mapping : Mapping boot s others spaces)
    (live : spaces pt = some space) (other : op.table ≠ some pt) :
    s.SamePlace s' ∧ ∀ path, path.length ≤ 3 →
      follow (childAt boot s'.mem) (frameOf boot pt) path =
        follow (childAt boot s.mem) (frameOf boot pt) path := by
  have isLive : spaces.Root boot (frameOf boot pt) := Spaces.root_of_some live
  have frames {pt' : UInt64} {space' : Space} (live' : spaces pt' = some space') (ne : pt' ≠ pt) :
      frameOf boot pt ≠ frameOf boot pt' := by
    intro same
    apply ne
    rw [mapping.roots pt' space' live', ← same, ← mapping.roots pt space live]
  have entries (same : ∀ frame i, TableFrame boot s.mem spaces frame →
      entryAt boot s'.mem frame i = entryAt boot s.mem frame i) (path : List (Fin 512))
      (short : path.length ≤ 3) : follow (childAt boot s'.mem) (frameOf boot pt) path =
        follow (childAt boot s.mem) (frameOf boot pt) path :=
    follow_eq_of_above (fun frame i above => childAt_congr (same frame i above.within)) isLive short
  cases step with
  | newPt returned =>
    obtain ⟨c, -, -, -, -, -, -, -, uses, plants⟩ := (mapping.newPt_plants limine).of_ok returned
    exact ⟨⟨uses.bitmap, uses.size⟩, fun path short => follow_eq_of_above plants.others isLive short⟩
  | map live' physLow returned =>
    have uses := ((mapping.map_meets limine low live' _ _ _).of_ok returned).1
    have added := (mapping.map_extends limine low live' returned).1
    refine ⟨⟨uses.bitmap, uses.size⟩, fun path short => added.follow_eq_of_ne isLive short ?_⟩
    exact frames live' fun same => other (congrArg some same)
  | unmap live' returned =>
    have uses := ((mapping.unmap_meets limine low live' _).of_ok returned).1
    have added := (mapping.changePage limine low live' returned).1
    refine ⟨⟨uses.bitmap, uses.size⟩, fun path short => added.follow_eq_of_ne isLive short ?_⟩
    exact frames live' fun same => other (congrArg some same)
  | setFlags live' returned =>
    have uses := ((mapping.setFlags_meets limine low live' _ _).of_ok returned).1
    have added := (mapping.changePage limine low live' returned).1
    refine ⟨⟨uses.bitmap, uses.size⟩, fun path short => added.follow_eq_of_ne isLive short ?_⟩
    exact frames live' fun same => other (congrArg some same)
  | alloc returned =>
    obtain ⟨-, -, marks, -⟩ := (mapping.owns.alloc limine).of_ok returned
    refine ⟨⟨marks.bitmap, marks.size⟩, entries fun frame i table => ?_⟩
    exact mapping.entry_of_writes limine marks.writes (fun a => mapping.not_table_of_inBitmap) i table
  | free aligned count mine returned =>
    obtain ⟨freed, -⟩ := (mapping.owns.free limine aligned count
      fun p inside => Or.inl (mine p inside)).of_ok returned
    refine ⟨⟨freed.bitmap, freed.size⟩, entries fun frame i table => ?_⟩
    apply mapping.entry_of_writes limine freed.writes _ i table
    intro a area isTable
    cases area with
    | inl inBitmap => exact mapping.not_table_of_inBitmap inBitmap isTable
    | inr inside => exact mapping.apart _ isTable (mine _ inside)
  | write same =>
    refine ⟨⟨rfl, rfl⟩, entries fun frame i table => ?_⟩
    apply entryAt_congr (limine.usable_lt (mapping.owns.allocatable frame (Or.inr table)).1)
    intro a here
    exact same a (Or.inr (here ▸ table))

/-! ## Runs -/

/-- A step took the frame from the allocator. -/
def Machine.Takes (s s' : Machine) (p : Nat) : Prop :=
  s.Tracked p ∧ ¬ s.Allocated p ∧ s'.Allocated p

/-- A step of the page tables takes the frames of the tables that it adds. -/
theorem takes_iff (mapping : Mapping boot s others spaces) (mapping' : Mapping boot s' others spaces')
    (place : s.SamePlace s') (p : Nat) :
    s.Takes s' p ↔ TableFrame boot s'.mem spaces' p ∧ ¬ TableFrame boot s.mem spaces p := by
  have tracked : s'.Tracked p ↔ s.Tracked p := by rw [Machine.Tracked, Machine.Tracked, place.2]
  have allocatable : s'.Allocatable boot p ↔ s.Allocatable boot p := by
    simp only [Machine.Allocatable, Machine.BitmapFrame, Machine.InBitmap, place.1, place.2]
  constructor
  · rintro ⟨inBitmap, free, taken⟩
    rw [mapping.owns.bits p inBitmap] at free
    rw [mapping'.owns.bits p (tracked.mpr inBitmap), allocatable] at taken
    rcases taken with reserved | isOther | table
    · exact absurd (Or.inl reserved) free
    · exact absurd (Or.inr (Or.inl isOther)) free
    · exact ⟨table, fun old => free (Or.inr (Or.inr old))⟩
  · rintro ⟨table, new⟩
    have held := mapping'.owns.allocatable p (Or.inr table)
    have inBitmap := tracked.mp (mapping'.owns.tracked p held.1)
    refine ⟨inBitmap, ?_, (mapping'.owns.bits p (tracked.mpr inBitmap)).mpr (Or.inr (Or.inr table))⟩
    rw [mapping.owns.bits p inBitmap]
    rintro (reserved | isOther | old)
    · exact reserved (allocatable.mp held)
    · exact mapping'.apart p table isOther
    · exact new old

/-- Operations on a page table at a virtual address. -/
inductive TableStep (boot : Boot) (pt : UInt64) (s : Machine) (space : Space) (virtAddr : UInt64) :
    Machine → Space → Prop
  | map {physAddr : UInt64} {flags : Int32} {s' : Machine}
    (returned : archVmmMap boot pt physAddr virtAddr flags s = .ok s') :
    TableStep boot pt s space virtAddr s' (space.map (pageNumber virtAddr) (physFrame physAddr) flags)
  | unmap {s' : Machine} (returned : archVmmUnmap boot pt virtAddr s = .ok s') :
    TableStep boot pt s space virtAddr s' (space.unmap (pageNumber virtAddr))
  | setFlags {flags : Int32} {s' : Machine}
    (returned : archVmmSetFlags boot pt virtAddr flags s = .ok s') :
    TableStep boot pt s space virtAddr s' (space.setFlags (pageNumber virtAddr) flags)

/-- What an operation on a page table does: it adds tables on the path of its page only, and all of
them exist afterwards. -/
theorem TableStep.effect {space' : Space} {virtAddr : UInt64} (limine : boot.Limine)
    (low : boot.UsableBelow (2 ^ 52)) (step : TableStep boot pt s space virtAddr s' space')
    (mapping : Mapping boot s others spaces) (live : spaces pt = some space) :
    s.SamePlace s' ∧ Mapping boot s' others (Function.update spaces pt (some space')) ∧
      Extends (childAt boot s.mem) (childAt boot s'.mem) (spaces.Root boot) 3 (frameOf boot pt)
        (upperPath (pageNumber virtAddr)) ∧
      ∃ frame, follow (childAt boot s'.mem) (frameOf boot pt) (upperPath (pageNumber virtAddr)) =
        some frame := by
  cases step with
  | map returned =>
    obtain ⟨uses, mapping'⟩ := (mapping.map_meets limine low live _ _ _).of_ok returned
    exact ⟨⟨uses.bitmap, uses.size⟩, mapping', mapping.map_extends limine low live returned⟩
  | unmap returned =>
    obtain ⟨uses, mapping'⟩ := (mapping.unmap_meets limine low live _).of_ok returned
    exact ⟨⟨uses.bitmap, uses.size⟩, mapping', mapping.changePage limine low live returned⟩
  | setFlags returned =>
    obtain ⟨uses, mapping'⟩ := (mapping.setFlags_meets limine low live _ _).of_ok returned
    exact ⟨⟨uses.bitmap, uses.size⟩, mapping', mapping.changePage limine low live returned⟩

/-- A new page table takes the frame of its top-level table, which is all of its tree. -/
theorem Mapping.takes_newPt (limine : boot.Limine) (mapping : Mapping boot s others spaces)
    (returned : archVmmNewPt boot s = .ok (pt, s')) :
    s.SamePlace s' ∧ (∀ i, childAt boot s'.mem (frameOf boot pt) i = none) ∧
      ∀ p, s.Takes s' p ↔ p = frameOf boot pt := by
  obtain ⟨c, -, frame, notHeld, new, -, -, -, uses, plants⟩ := (mapping.newPt_plants limine).of_ok returned
  have mapping' := ((mapping.newPt_meets limine).of_ok returned).2.2
  dsimp only at frame new uses plants mapping'
  have place : s.SamePlace s' := ⟨uses.bitmap, uses.size⟩
  rw [frame]
  refine ⟨place, plants.empty, fun p => ?_⟩
  have tables : TableFrame boot s'.mem (Function.update spaces pt (some fun _ => .zero)) p ↔
      TableFrame boot s.mem spaces p ∨ p = c := by
    rw [TableFrame, Spaces.root_insert new, frame]
    exact plants.within_iff p
  rw [takes_iff mapping mapping' place, tables]
  constructor
  · rintro ⟨old | same, fresh⟩
    · exact absurd old fresh
    · exact same
  · rintro rfl
    exact ⟨Or.inr rfl, fun old => notHeld (Or.inr old)⟩

/-- An operation on a page table takes the frames of the tables that it adds to the tree. -/
theorem Mapping.takes_own {space' : Space} {path : List (Fin 512)}
    (mapping : Mapping boot s others spaces)
    (mapping' : Mapping boot s' others (Function.update spaces pt (some space')))
    (live : spaces pt = some space) (place : s.SamePlace s')
    (added : Extends (childAt boot s.mem) (childAt boot s'.mem) (spaces.Root boot) 3 (frameOf boot pt)
      path) (p : Nat) :
    (∃ path, path.length ≤ 3 ∧ follow (childAt boot s.mem) (frameOf boot pt) path = some p) ∨
        s.Takes s' p ↔
      ∃ path, path.length ≤ 3 ∧ follow (childAt boot s'.mem) (frameOf boot pt) path = some p := by
  have isLive : spaces.Root boot (frameOf boot pt) := Spaces.root_of_some live
  have roots : Spaces.Root boot (Function.update spaces pt (some space')) = spaces.Root boot :=
    Spaces.root_update live space'
  rw [takes_iff mapping mapping' place, TableFrame, roots]
  constructor
  · rintro (⟨path, short, reached⟩ | ⟨⟨root, path, isRoot, short, reached⟩, new⟩)
    · exact ⟨path, short, added.stays _ path p isLive short reached⟩
    · rcases added.added root path p isRoot short reached with old | fresh
      · exact absurd ⟨root, path, isRoot, short, old⟩ new
      · exact ⟨path, short, fresh.1 ▸ reached⟩
  · rintro ⟨path, short, reached⟩
    rcases added.added _ path p isLive short reached with old | fresh
    · exact Or.inl ⟨path, short, old⟩
    · exact Or.inr ⟨⟨_, path, isLive, short, reached⟩, fresh.2.2⟩

/-- The address lies in the lower half of the virtual addresses: its bit 47 is clear. -/
def InLowerHalf (virtAddr : UInt64) : Prop := virtAddr.toBitVec.getLsbD 47 = false

/-- Operations on a page table at addresses of the lower half. -/
inductive OwnStep (boot : Boot) (pt : UInt64) (s : Machine) (space : Space) : Machine → Space → Prop
  | map {physAddr virtAddr : UInt64} {flags : Int32} {s' : Machine} (lower : InLowerHalf virtAddr)
    (returned : archVmmMap boot pt physAddr virtAddr flags s = .ok s') :
    OwnStep boot pt s space s' (space.map (pageNumber virtAddr) (physFrame physAddr) flags)
  | unmap {virtAddr : UInt64} {s' : Machine} (lower : InLowerHalf virtAddr)
    (returned : archVmmUnmap boot pt virtAddr s = .ok s') :
    OwnStep boot pt s space s' (space.unmap (pageNumber virtAddr))
  | setFlags {virtAddr : UInt64} {flags : Int32} {s' : Machine} (lower : InLowerHalf virtAddr)
    (returned : archVmmSetFlags boot pt virtAddr flags s = .ok s') :
    OwnStep boot pt s space s' (space.setFlags (pageNumber virtAddr) flags)

/-- The lives of a page table, from its creation in a machine whose page tables represent
address spaces. Its own operations are mixed with steps of others; the frames that its own
operations took are collected. -/
inductive Filling (boot : Boot) (pt : UInt64) (start : Machine) :
    Machine → (Nat → Prop) → Spaces → (Nat → Prop) → Prop
  | new {s : Machine} {others : Nat → Prop} {spaces : Spaces}
    (mapping : Mapping boot start others spaces) (returned : archVmmNewPt boot start = .ok (pt, s)) :
    Filling boot pt start s others (Function.update spaces pt (some fun _ => .zero)) (start.Takes s)
  | own {s s' : Machine} {others taken : Nat → Prop} {spaces : Spaces} {space space' : Space}
    (run : Filling boot pt start s others spaces taken) (live : spaces pt = some space)
    (step : OwnStep boot pt s space s' space') :
    Filling boot pt start s' others (Function.update spaces pt (some space'))
      fun p => taken p ∨ s.Takes s' p
  | foreign {op : PagingOp} {s s' : Machine} {others others' taken : Nat → Prop} {spaces : Spaces}
    (run : Filling boot pt start s others spaces taken) (other : op.table ≠ some pt)
    (step : PagingStep boot spaces s others op s' others') :
    Filling boot pt start s' others' (spaces.apply op) taken

/-- What holds while a page table is filled. -/
structure Filled (boot : Boot) (pt : UInt64) (start s : Machine) (others : Nat → Prop)
    (spaces : Spaces) (taken : Nat → Prop) : Prop where
  /-- The page tables represent the address spaces. -/
  mapping : Mapping boot s others spaces
  /-- The page table is one of them. -/
  live : ∃ space, spaces pt = some space
  /-- The frames taken are the tables of its tree. -/
  tables : ∀ p, taken p ↔
    ∃ path, path.length ≤ 3 ∧ follow (childAt boot s.mem) (frameOf boot pt) path = some p
  /-- The tree lies in the lower half. -/
  lower : ∀ i c, childAt boot s.mem (frameOf boot pt) i = some c → i.val < 256
  /-- The bitmap stays in its place. -/
  place : start.SamePlace s
  /-- The reserved frames are allocated from the start. -/
  reserved : ∀ p, start.Tracked p → ¬ start.Allocatable boot p → start.Allocated p

/-- The pages of the lower half. -/
theorem toNat_pageNumber_lt {virtAddr : UInt64} (lower : InLowerHalf virtAddr) :
    (pageNumber virtAddr).toNat < 2 ^ 35 := by
  have bit : virtAddr.toNat.testBit 47 = false := lower
  rw [Nat.testBit_eq_decide_div_mod_eq, decide_eq_false_iff_not] at bit
  rw [toNat_pageNumber]
  omega

/-- Operations at addresses of the lower half are operations at addresses. -/
theorem OwnStep.tableStep {space' : Space} (step : OwnStep boot pt s space s' space') :
    ∃ virtAddr, InLowerHalf virtAddr ∧ TableStep boot pt s space virtAddr s' space' := by
  cases step with
  | map lower returned => exact ⟨_, lower, .map returned⟩
  | unmap lower returned => exact ⟨_, lower, .unmap returned⟩
  | setFlags lower returned => exact ⟨_, lower, .setFlags returned⟩

/-- A new page table starts with its top-level table. -/
theorem Mapping.filled_new (limine : boot.Limine) (mapping : Mapping boot s others spaces)
    (returned : archVmmNewPt boot s = .ok (pt, s')) :
    Filled boot pt s s' others (Function.update spaces pt (some fun _ => .zero)) (s.Takes s') := by
  obtain ⟨place, leaf, taken⟩ := mapping.takes_newPt limine returned
  refine ⟨((mapping.newPt_meets limine).of_ok returned).2.2, ⟨_, Function.update_self pt _ spaces⟩,
    fun p => ?_, fun i c edge => ?_, place,
    fun p tracked reserved => (mapping.owns.bits p tracked).mpr (Or.inl reserved)⟩
  · simp [taken, follow_leaf_iff leaf]
  · rw [leaf] at edge
    cases edge

/-- Operations on the page table keep what holds while it is filled. -/
theorem Filled.own {start : Machine} {taken : Nat → Prop} {space' : Space} (limine : boot.Limine)
    (low : boot.UsableBelow (2 ^ 52)) (filled : Filled boot pt start s others spaces taken)
    (live : spaces pt = some space) (step : OwnStep boot pt s space s' space') :
    Filled boot pt start s' others (Function.update spaces pt (some space'))
      fun p => taken p ∨ s.Takes s' p := by
  obtain ⟨virtAddr, lower, step⟩ := step.tableStep
  obtain ⟨place, mapping', added, -⟩ := step.effect limine low filled.mapping live
  have isLive : spaces.Root boot (frameOf boot pt) := Spaces.root_of_some live
  refine ⟨mapping', ⟨space', Function.update_self pt _ spaces⟩, fun p => ?_, fun i c edge => ?_,
    ⟨place.1.trans filled.place.1, place.2.trans filled.place.2⟩, filled.reserved⟩
  · rw [filled.tables, filled.mapping.takes_own mapping' live place added]
  · have reached : follow (childAt boot s'.mem) (frameOf boot pt) [i] = some c := by
      rw [follow, edge]
      rfl
    rcases added.added _ [i] c isLive (by simp) reached with old | fresh
    · rw [follow] at old
      obtain ⟨k, edge', -⟩ := Option.bind_eq_some_iff.mp old
      exact filled.lower i k edge'
    · obtain ⟨rest, split⟩ := fresh.2.1
      have start : upperPath (pageNumber virtAddr) ++ [lastIndex (pageNumber virtAddr)] =
          i :: (rest ++ [lastIndex (pageNumber virtAddr)]) := by
        rw [← split]
        rfl
      exact (upperPath_lower start).mpr (toNat_pageNumber_lt lower)

/-- Steps of others keep what holds while a page table is filled. -/
theorem Filled.foreign {start : Machine} {taken : Nat → Prop} {op : PagingOp} (limine : boot.Limine)
    (low : boot.UsableBelow (2 ^ 52)) (filled : Filled boot pt start s others spaces taken)
    (other : op.table ≠ some pt) (step : PagingStep boot spaces s others op s' others') :
    Filled boot pt start s' others' (spaces.apply op) taken := by
  obtain ⟨space, live⟩ := filled.live
  obtain ⟨place, same⟩ := step.foreign limine low filled.mapping live other
  refine ⟨step.mapping limine low filled.mapping, ⟨space, ?_⟩, fun p => ?_, fun i c edge => ?_,
    ⟨place.1.trans filled.place.1, place.2.trans filled.place.2⟩, filled.reserved⟩
  · rw [Spaces.apply_foreign other, live]
  · rw [filled.tables]
    constructor
    · rintro ⟨path, short, reached⟩
      exact ⟨path, short, (same path short).trans reached⟩
    · rintro ⟨path, short, reached⟩
      exact ⟨path, short, (same path short).symm.trans reached⟩
  · have reached : follow (childAt boot s'.mem) (frameOf boot pt) [i] = some c := by
      rw [follow, edge]
      rfl
    rw [same [i] (by simp), follow] at reached
    obtain ⟨k, edge', -⟩ := Option.bind_eq_some_iff.mp reached
    exact filled.lower i k edge'

/-- What holds in every life of a page table. -/
theorem Filling.filled {start : Machine} {taken : Nat → Prop} (limine : boot.Limine)
    (low : boot.UsableBelow (2 ^ 52)) (run : Filling boot pt start s others spaces taken) :
    Filled boot pt start s others spaces taken := by
  induction run with
  | new mapping returned => exact mapping.filled_new limine returned
  | own _ live step ih => exact ih.own limine low live step
  | foreign _ other step ih => exact ih.foreign limine low other step

end Symphony
