import Symphony.Verif.Paging

/-!
# Runs over address spaces

The operations of `mm.c` on page tables act on the represented address spaces: a new
table is an empty space, and mapping, unmapping and setting flags change one leaf of one
space. `Paged` collects the runs that interleave them with each other and with the other
users of page frames; in every state reached the processor's walk yields the abstract leaf.
-/

namespace Symphony

variable {boot : Boot} {s s' : Machine} {others : Nat → Prop} {spaces : Spaces}

namespace Mapping

/-- Where the tables exist, `arch_vmm_set_flags` creates none. -/
theorem setFlags_of_reached (limine : boot.Limine) (mapping : Mapping boot s others spaces)
    {pt : UInt64} {space : Space} (live : spaces pt = some space) {virtAddr : UInt64} {frame : Nat}
    (reached : follow (childAt boot s.mem) (frameOf boot pt) (upperPath (pageNumber virtAddr)) =
      some frame) (flags : Int32) :
    Meets (archVmmSetFlags boot pt virtAddr flags s)
      (fun s' => s.Uses s' 0 ∧ Mapping boot s' others
        (Function.update spaces pt (some (space.setFlags (pageNumber virtAddr) flags))))
      fun _ => False := by
  obtain ⟨e, leaf, updated⟩ := mapping.updateEntry limine live reached (fun entry =>
    { entry with
      present := flags &&& vmmPresent ≠ 0
      readWrite := flags &&& vmmRw ≠ 0
      userSupervisor := flags &&& vmmUser ≠ 0
      pageSize := false
      nx := flags &&& vmmExec = 0 })
  obtain ⟨uses, updated, -⟩ := updated _ rfl
  rw [archVmmSetFlags, mapping.pageFromIndex_of_reached live reached, Space.setFlags, ← leaf]
  exact ⟨uses, updated⟩

/-- `arch_vmm_set_flags` replaces the flags of one leaf. -/
theorem setFlags_meets (limine : boot.Limine) (low : boot.UsableBelow (2 ^ 52))
    (mapping : Mapping boot s others spaces) {pt : UInt64} {space : Space}
    (live : spaces pt = some space) (virtAddr : UInt64) (flags : Int32) :
    Meets (archVmmSetFlags boot pt virtAddr flags s)
      (fun s' => s.Uses s' 3 ∧ Mapping boot s' others
        (Function.update spaces pt (some (space.setFlags (pageNumber virtAddr) flags))))
      (s.Exhausted 3) := by
  apply (mapping.pageFromIndex_meets limine low live virtAddr).bind
  intro r found
  obtain ⟨pte, t⟩ := r
  obtain ⟨uses, mapping, frame, reached, rfl, -⟩ := found
  have flagged := mapping.setFlags_of_reached limine live reached flags
  rw [archVmmSetFlags, mapping.pageFromIndex_of_reached live reached] at flagged
  obtain ⟨usesMore, updated⟩ := flagged
  exact ⟨uses.trans usesMore, updated⟩

/-- The address field that `arch_vmm_map` stores. -/
theorem leaf_of_addr (e : PageTableEntry) (physAddr : UInt64) :
    PageTableEntry.leaf { e with addr := PageTableEntry.addrOfWord (physAddr >>> 12) } =
      { e.leaf with frame := physFrame physAddr } := by
  have value : (PageTableEntry.addrOfWord (physAddr >>> 12)).toNat % 2 ^ 40 = physFrame physAddr := by
    rw [addrOfWord_toNat, physFrame]
    omega
  rw [PageTableEntry.leaf, PageTableEntry.frame, value]
  rfl

/-- The part of `arch_vmm_map` after its own walk. -/
theorem mapEntry_meets (limine : boot.Limine) (mapping : Mapping boot s others spaces)
    {pt : UInt64} {space : Space} (live : spaces pt = some space) (physAddr : UInt64)
    {virtAddr : UInt64} {frame : Nat}
    (reached : follow (childAt boot s.mem) (frameOf boot pt) (upperPath (pageNumber virtAddr)) =
      some frame) (flags : Int32) {m : Memory}
    (stored : m = s.mem.updateEntry (entryPointer (tablePointer boot frame)
      (UInt64.ofNat (lastIndex (pageNumber virtAddr)))) fun entry =>
        { entry with addr := PageTableEntry.addrOfWord (physAddr >>> 12) }) :
    Meets (archVmmSetFlags boot pt virtAddr flags { s with mem := m })
      (fun s' => s.Uses s' 0 ∧ Mapping boot s' others (Function.update spaces pt
        (some (space.map (pageNumber virtAddr) (physFrame physAddr) flags))))
      fun _ => False := by
  obtain ⟨e, leaf, updated⟩ := mapping.updateEntry limine live reached
    (fun entry => { entry with addr := PageTableEntry.addrOfWord (physAddr >>> 12) })
  obtain ⟨uses, updated, stays⟩ := updated m stored
  rw [leaf_of_addr, leaf] at updated
  have flagged := updated.setFlags_of_reached limine (Function.update_self pt _ spaces) stays flags
  rw [Function.update_idem, Space.setFlags, Function.update_idem, Function.update_self] at flagged
  apply flagged.mono _ fun _ => id
  intro s' both
  exact ⟨uses.trans both.1, both.2⟩

/-- `arch_vmm_map` sets the frame and the flags of one leaf. -/
theorem map_meets (limine : boot.Limine) (low : boot.UsableBelow (2 ^ 52))
    (mapping : Mapping boot s others spaces) {pt : UInt64} {space : Space}
    (live : spaces pt = some space) (physAddr virtAddr : UInt64) (flags : Int32) :
    Meets (archVmmMap boot pt physAddr virtAddr flags s)
      (fun s' => s.Uses s' 3 ∧ Mapping boot s' others (Function.update spaces pt
        (some (space.map (pageNumber virtAddr) (physFrame physAddr) flags))))
      (s.Exhausted 3) := by
  apply (mapping.pageFromIndex_meets limine low live virtAddr).bind
  intro r found
  obtain ⟨pte, t⟩ := r
  obtain ⟨uses, mapping, frame, reached, rfl, -⟩ := found
  apply (mapping.mapEntry_meets limine live physAddr reached flags rfl).mono _ fun _ => False.elim
  intro s' both
  exact ⟨uses.trans both.1, both.2⟩

/-- Where the tables exist, `arch_vmm_map` creates none. -/
theorem map_of_reached (limine : boot.Limine) (mapping : Mapping boot s others spaces)
    {pt : UInt64} {space : Space} (live : spaces pt = some space) (physAddr : UInt64)
    {virtAddr : UInt64} {frame : Nat}
    (reached : follow (childAt boot s.mem) (frameOf boot pt) (upperPath (pageNumber virtAddr)) =
      some frame) (flags : Int32) :
    Meets (archVmmMap boot pt physAddr virtAddr flags s)
      (fun s' => s.Uses s' 0 ∧ Mapping boot s' others (Function.update spaces pt
        (some (space.map (pageNumber virtAddr) (physFrame physAddr) flags))))
      fun _ => False := by
  rw [archVmmMap, mapping.pageFromIndex_of_reached live reached]
  exact mapping.mapEntry_meets limine live physAddr reached flags rfl

/-- `arch_vmm_unmap` clears the presence and the frame of one leaf. -/
theorem unmap_meets (limine : boot.Limine) (low : boot.UsableBelow (2 ^ 52))
    (mapping : Mapping boot s others spaces) {pt : UInt64} {space : Space}
    (live : spaces pt = some space) (virtAddr : UInt64) :
    Meets (archVmmUnmap boot pt virtAddr s)
      (fun s' => s.Uses s' 3 ∧ Mapping boot s' others
        (Function.update spaces pt (some (space.unmap (pageNumber virtAddr)))))
      (s.Exhausted 3) := by
  apply (mapping.pageFromIndex_meets limine low live virtAddr).bind
  intro r found
  obtain ⟨pte, t⟩ := r
  obtain ⟨uses, mapping, frame, reached, rfl, -⟩ := found
  obtain ⟨e, leaf, updated⟩ := mapping.updateEntry limine live reached
    (fun entry => { entry with present := false, addr := 0 })
  obtain ⟨usesMore, updated, -⟩ := updated _ rfl
  rw [Space.unmap, ← leaf]
  exact ⟨uses.trans usesMore, updated⟩

/-- `arch_vmm_new_pt` plants an empty table in a new frame. -/
theorem newPt_plants (limine : boot.Limine) (mapping : Mapping boot s others spaces) :
    Meets (archVmmNewPt boot s)
      (fun r => ∃ c, r.1 = tablePointer boot c ∧ frameOf boot r.1 = c ∧
        ¬ (others c ∨ TableFrame boot s.mem spaces c) ∧ spaces r.1 = none ∧
        r.2.Owns boot (fun p => (others p ∨ TableFrame boot s.mem spaces p) ∨ p = c) ∧
        (∀ j, entryAt boot r.2.mem c j = .empty) ∧
        (∀ g j, TableFrame boot s.mem spaces g → entryAt boot r.2.mem g j = entryAt boot s.mem g j) ∧
        s.Uses r.2 1 ∧
        Plants (childAt boot s.mem) (childAt boot r.2.mem) (spaces.Root boot) 3 c)
      (s.Exhausted 1) := by
  apply (newTable_meets limine mapping.owns).mono _ fun _ => id
  intro r created
  obtain ⟨pt, t⟩ := r
  obtain ⟨c, rfl, notHeld, owns, empty, keeps, uses⟩ := created
  have frame := frameOf_tablePointer boot (limine.usable_lt (owns.allocatable c (Or.inr rfl)).1)
  have new : spaces (tablePointer boot c) = none := by
    cases known : spaces (tablePointer boot c) with
    | none => rfl
    | some space =>
      have isRoot : spaces.Root boot (frameOf boot (tablePointer boot c)) := Spaces.root_of_some known
      rw [frame] at isRoot
      exact absurd (Or.inr ⟨c, [], isRoot, Nat.zero_le 3, rfl⟩) notHeld
  refine ⟨c, rfl, frame, notHeld, new, owns, empty, fun g j table => keeps g j (Or.inr table), uses,
    fun table => notHeld (Or.inr table), ?_, ?_⟩
  · intro j
    rw [childAt, empty j]
    rfl
  · intro g j above
    exact childAt_congr (keeps g j (Or.inr above.within))

/-- `arch_vmm_new_pt` adds an address space without present pages. -/
theorem newPt_meets (limine : boot.Limine) (mapping : Mapping boot s others spaces) :
    Meets (archVmmNewPt boot s)
      (fun r => spaces r.1 = none ∧ s.Uses r.2 1 ∧
        Mapping boot r.2 others (Function.update spaces r.1 (some fun _ => .zero)))
      (s.Exhausted 1) := by
  apply (mapping.newPt_plants limine).mono _ fun _ => id
  intro r created
  obtain ⟨pt, t⟩ := r
  obtain ⟨c, rfl, frame, notHeld, new, owns, empty, keeps, uses, plants⟩ := created
  refine ⟨new, uses, ?_⟩
  have roots : Spaces.Root boot
      (Function.update spaces (tablePointer boot c) (some fun _ => .zero)) = _ :=
    Spaces.root_insert new fun _ => .zero
  rw [frame] at roots
  have tables (p : Nat) : TableFrame boot t.mem
      (Function.update spaces (tablePointer boot c) (some fun _ => .zero)) p ↔
        TableFrame boot s.mem spaces p ∨ p = c := by
    rw [TableFrame, roots]
    exact plants.within_iff p
  refine ⟨?_, ?_, ?_, ?_, ?_, ?_⟩
  · exact owns.congr fun p => by rw [tables, or_assoc]
  · intro p table isOther
    cases (tables p).mp table with
    | inl old => exact mapping.apart p old isOther
    | inr fresh => exact notHeld (Or.inl (fresh ▸ isOther))
  · intro pt' space' live'
    by_cases same : pt' = tablePointer boot c
    · rw [same, frame]
    · rw [Function.update_of_ne same] at live'
      exact mapping.roots pt' space' live'
  · rw [roots]
    exact plants.forest mapping.forest
  · intro g j above
    rw [InnerFrame, roots] at above
    cases plants.above above with
    | inl old =>
      rw [keeps g j old.within]
      exact mapping.inner g j old
    | inr fresh =>
      rw [fresh, empty j]
      exact ⟨rfl, rfl, fun absurd => Bool.noConfusion absurd, Nat.two_pow_pos 40⟩
  · intro pt' space' live' page
    have full := length_upperPath page
    by_cases same : pt' = tablePointer boot c
    · rw [same, Function.update_self, Option.some.injEq] at live'
      rw [same, frame, ← live']
      exact plants.lookup_fresh (by omega)
    · rw [Function.update_of_ne same] at live'
      rw [← mapping.leaves pt' space' live' page]
      apply plants.lookup_eq _ (Spaces.root_of_some live') full
      intro g j table
      rw [leafAt, leafAt, keeps g j table]

/-! ### Other users of page frames -/

/-- Writes outside the bitmap and the tables keep the entries of the tables. -/
theorem entry_of_writes (limine : boot.Limine) (mapping : Mapping boot s others spaces)
    {area : UInt64 → Prop} {m : Memory} (writes : s.mem.Writes area m)
    (apart : ∀ a, area a → ¬ TableFrame boot s.mem spaces (frameOf boot a)) {frame : Nat}
    (i : Fin 512) (table : TableFrame boot s.mem spaces frame) :
    entryAt boot m frame i = entryAt boot s.mem frame i := by
  apply entryAt_congr (limine.usable_lt (mapping.owns.allocatable frame (Or.inr table)).1)
  intro a here
  apply writes.byte_eq
  intro inside
  exact apart a inside (here ▸ table)

/-- The bitmap lies outside the tables. -/
theorem not_table_of_inBitmap (mapping : Mapping boot s others spaces) {a : UInt64}
    (inBitmap : s.InBitmap a) : ¬ TableFrame boot s.mem spaces (frameOf boot a) :=
  fun table => mapping.owns.not_inBitmap (Or.inr table) inBitmap rfl

/-- An allocation of another owner keeps the address spaces. -/
theorem alloc (limine : boot.Limine) (mapping : Mapping boot s others spaces) {base : UInt64}
    {pages : Int32} (returned : pmmAlloc pages s = .ok (base, s')) :
    Mapping boot s' (fun p => others p ∨ PageRange base pages p) spaces := by
  obtain ⟨-, range, marks, owns⟩ := (mapping.owns.alloc limine).of_ok returned
  apply mapping.congr
  · intro frame i table
    exact mapping.entry_of_writes limine marks.writes (fun a => mapping.not_table_of_inBitmap) i table
  · exact owns.congr fun p => by rw [or_right_comm]
  · intro p table cases'
    cases cases' with
    | inl isOther => exact mapping.apart p table isOther
    | inr inRange => exact (range p inRange).2 (Or.inr table)

/-- A release of pages of another owner keeps the address spaces. -/
theorem free (limine : boot.Limine) (mapping : Mapping boot s others spaces) {base : UInt64}
    {pages : Int32} (aligned : 4096 ∣ base.toNat) (count : 0 ≤ pages.toInt)
    (mine : ∀ p, PageRange base pages p → others p) (returned : pmmFree boot base pages s = .ok s') :
    Mapping boot s' (fun p => others p ∧ ¬ PageRange base pages p) spaces := by
  have held : ∀ p, PageRange base pages p → others p ∨ TableFrame boot s.mem spaces p :=
    fun p inside => Or.inl (mine p inside)
  obtain ⟨freed, owns⟩ := (mapping.owns.free limine aligned count held).of_ok returned
  have apart : ∀ p, TableFrame boot s.mem spaces p → ¬ PageRange base pages p :=
    fun p table inside => mapping.apart p table (mine p inside)
  apply mapping.congr
  · intro frame i table
    apply mapping.entry_of_writes limine freed.writes _ i table
    intro a area isTable
    cases area with
    | inl inBitmap => exact mapping.not_table_of_inBitmap inBitmap isTable
    | inr inside => exact apart _ isTable inside
  · apply owns.congr
    intro p
    constructor
    · intro has
      cases has.1 with
      | inl isOther => exact Or.inl ⟨isOther, has.2⟩
      | inr table => exact Or.inr table
    · intro has
      cases has with
      | inl isOther => exact ⟨Or.inl isOther.1, isOther.2⟩
      | inr table => exact ⟨Or.inr table, apart p table⟩
  · intro p table isOther
    exact mapping.apart p table isOther.1

/-- A write outside the bitmap and the tables keeps the address spaces. -/
theorem write (limine : boot.Limine) (mapping : Mapping boot s others spaces) {m : Memory}
    (same : ∀ a, s.InBitmap a ∨ TableFrame boot s.mem spaces (frameOf boot a) →
      m.byte a = s.mem.byte a) : Mapping boot { s with mem := m } others spaces := by
  apply mapping.congr
  · intro frame i table
    apply entryAt_congr (limine.usable_lt (mapping.owns.allocatable frame (Or.inr table)).1)
    intro a here
    exact same a (Or.inr (here ▸ table))
  · exact mapping.owns.write fun a inBitmap => same a (Or.inl inBitmap)
  · exact mapping.apart

end Mapping

/-! ## Runs -/

/-- Steps seen by the address spaces; `other` is any step of the other users of page frames. -/
inductive PagingOp where
  | newPt (pt : UInt64)
  | map (pt physAddr virtAddr : UInt64) (flags : Int32)
  | unmap (pt virtAddr : UInt64)
  | setFlags (pt virtAddr : UInt64) (flags : Int32)
  | other

/-- What a step does to the address spaces. -/
def Spaces.apply (spaces : Spaces) : PagingOp → Spaces
  | .newPt pt => Function.update spaces pt (some fun _ => .zero)
  | .map pt physAddr virtAddr flags => Function.update spaces pt ((spaces pt).map fun space =>
      space.map (pageNumber virtAddr) (physAddr.toNat / 4096) flags)
  | .unmap pt virtAddr => Function.update spaces pt ((spaces pt).map fun space =>
      space.unmap (pageNumber virtAddr))
  | .setFlags pt virtAddr flags => Function.update spaces pt ((spaces pt).map fun space =>
      space.setFlags (pageNumber virtAddr) flags)
  | .other => spaces

/-- The address spaces after a run, whose latest step is the first of the list. -/
def spacesOf : List PagingOp → Spaces
  | [] => fun _ => none
  | op :: earlier => (spacesOf earlier).apply op

/-- One step of the machine: an operation on a live page table, or an allocation, a release
or a write of another owner of page frames that leaves bitmap and page tables alone. -/
inductive PagingStep (boot : Boot) (spaces : Spaces) (s : Machine) (others : Nat → Prop) :
    PagingOp → Machine → (Nat → Prop) → Prop
  | newPt {pt : UInt64} {s' : Machine} (returned : archVmmNewPt boot s = .ok (pt, s')) :
    PagingStep boot spaces s others (.newPt pt) s' others
  | map {pt physAddr virtAddr : UInt64} {space : Space} {flags : Int32} {s' : Machine}
    (live : spaces pt = some space) (physLow : physAddr.toNat < 2 ^ 52)
    (returned : archVmmMap boot pt physAddr virtAddr flags s = .ok s') :
    PagingStep boot spaces s others (.map pt physAddr virtAddr flags) s' others
  | unmap {pt virtAddr : UInt64} {space : Space} {s' : Machine} (live : spaces pt = some space)
    (returned : archVmmUnmap boot pt virtAddr s = .ok s') :
    PagingStep boot spaces s others (.unmap pt virtAddr) s' others
  | setFlags {pt virtAddr : UInt64} {space : Space} {flags : Int32} {s' : Machine}
    (live : spaces pt = some space) (returned : archVmmSetFlags boot pt virtAddr flags s = .ok s') :
    PagingStep boot spaces s others (.setFlags pt virtAddr flags) s' others
  | alloc {base : UInt64} {pages : Int32} {s' : Machine}
    (returned : pmmAlloc pages s = .ok (base, s')) :
    PagingStep boot spaces s others .other s' fun p => others p ∨ PageRange base pages p
  | free {base : UInt64} {pages : Int32} {s' : Machine} (aligned : 4096 ∣ base.toNat)
    (count : 0 ≤ pages.toInt) (mine : ∀ p, PageRange base pages p → others p)
    (returned : pmmFree boot base pages s = .ok s') :
    PagingStep boot spaces s others .other s' fun p => others p ∧ ¬ PageRange base pages p
  | write {m : Memory}
    (same : ∀ a, s.InBitmap a ∨ TableFrame boot s.mem spaces (frameOf boot a) →
      m.byte a = s.mem.byte a) :
    PagingStep boot spaces s others .other { s with mem := m } others

/-- Every step acts on the represented address spaces as described. -/
theorem PagingStep.mapping {op : PagingOp} {others' : Nat → Prop} (limine : boot.Limine)
    (low : boot.UsableBelow (2 ^ 52)) (step : PagingStep boot spaces s others op s' others')
    (mapping : Mapping boot s others spaces) : Mapping boot s' others' (spaces.apply op) := by
  cases step with
  | newPt returned => exact ((mapping.newPt_meets limine).of_ok returned).2.2
  | map live physLow returned =>
    have mapped := (mapping.map_meets limine low live _ _ _).of_ok returned
    rw [physFrame_of_lt physLow] at mapped
    rw [Spaces.apply, live]
    exact mapped.2
  | unmap live returned =>
    have unmapped := (mapping.unmap_meets limine low live _).of_ok returned
    rw [Spaces.apply, live]
    exact unmapped.2
  | setFlags live returned =>
    have flagged := (mapping.setFlags_meets limine low live _ _).of_ok returned
    rw [Spaces.apply, live]
    exact flagged.2
  | alloc returned => exact mapping.alloc limine returned
  | free aligned count mine returned => exact mapping.free limine aligned count mine returned
  | write same => exact mapping.write limine same

/-- Runs from an initialised page frame allocator, in which some frames may already be held. -/
inductive Paged (boot : Boot) : List PagingOp → Machine → (Nat → Prop) → Prop
  | start {s : Machine} {held : Nat → Prop} (run : Owned boot s held) : Paged boot [] s held
  | step {ops : List PagingOp} {op : PagingOp} {s s' : Machine} {others others' : Nat → Prop}
    (run : Paged boot ops s others) (next : PagingStep boot (spacesOf ops) s others op s' others') :
    Paged boot (op :: ops) s' others'

/-- A machine without page tables represents no address space. -/
theorem Machine.Owns.mapping {held : Nat → Prop} (owns : s.Owns boot held) :
    Mapping boot s held fun _ => none := by
  have none : ∀ p, ¬ TableFrame boot s.mem (fun _ => none) p := by
    intro p table
    obtain ⟨root, path, ⟨pt, space, live, -⟩, -⟩ := table
    cases live
  refine ⟨owns.congr fun p => (or_iff_left (none p)).symm, fun p table => absurd table (none p), ?_, ?_,
    ?_, ?_⟩
  · intro pt space live
    cases live
  · intro root path root' path' n isLive
    obtain ⟨pt, space, live, -⟩ := isLive
    cases live
  · intro frame i inner
    exact absurd inner.within (none frame)
  · intro pt space live
    cases live

/-- Every run represents the address spaces of its steps. -/
theorem Paged.mapping (limine : boot.Limine) (low : boot.UsableBelow (2 ^ 52))
    {ops : List PagingOp} (run : Paged boot ops s others) : Mapping boot s others (spacesOf ops) := by
  induction run with
  | start run => exact (run.owns limine).mapping
  | step _ next ih => exact next.mapping limine low ih

/-- Below a table the walk finds what the lookup finds, and the entries on the way do not
restrict it. -/
theorem Mapping.walkBelow_eq (mapping : Mapping boot s others spaces) {root frame : Nat}
    {before path : List (Fin 512)} {last : Fin 512} (isLive : spaces.Root boot root)
    (depth : before.length + path.length = 3)
    (reached : follow (childAt boot s.mem) root before = some frame) :
    walkBelow boot s.mem frame (path ++ [last]) =
      some (lookup (childAt boot s.mem) (leafAt boot s.mem) .zero frame path last).alone := by
  induction path generalizing before frame with
  | nil => rfl
  | cons i path ih =>
    rw [List.length_cons] at depth
    have inner := mapping.inner frame i ⟨root, before, isLive, by omega, reached⟩
    have unfolded : walkBelow boot s.mem frame (i :: path ++ [last]) =
        if (entryAt boot s.mem frame i).present then
          if (entryAt boot s.mem frame i).pageSize then none
          else (walkBelow boot s.mem (entryAt boot s.mem frame i).frame (path ++ [last])).map
            (entryAt boot s.mem frame i).restrict
        else some Leaf.zero.alone := by
      cases path with
      | nil => rfl
      | cons j path => rfl
    rw [unfolded, lookup, follow]
    cases isPresent : (entryAt boot s.mem frame i).present with
    | false =>
      have none : childAt boot s.mem frame i = none := by
        rw [childAt, isPresent, if_neg Bool.false_ne_true]
      rw [none, if_neg Bool.false_ne_true]
      rfl
    | true =>
      have child : childAt boot s.mem frame i = some (entryAt boot s.mem frame i).frame := by
        rw [childAt, isPresent, if_pos rfl]
      have next : follow (childAt boot s.mem) root (before ++ [i]) =
          some (entryAt boot s.mem frame i).frame := by
        rw [follow_concat, reached]
        exact child
      have below := ih (by rw [List.length_append, List.length_singleton]; omega) next
      obtain ⟨readWrite, userSupervisor⟩ := inner.present isPresent
      rw [if_pos rfl, inner.pageSize, if_neg Bool.false_ne_true, below, child, Option.bind_some,
        ← lookup]
      simp only [Option.map_some, PageTableEntry.restrict, Leaf.alone, readWrite, userSupervisor,
        inner.nx, Bool.true_and, Bool.false_or]

/-- The processor's walk of a represented page table yields the leaf of the address space. -/
theorem Mapping.walk_eq (mapping : Mapping boot s others spaces) {pt : UInt64} {space : Space}
    (live : spaces pt = some space) (virtAddr : UInt64) :
    walk boot s.mem pt virtAddr = some (space (pageNumber virtAddr)).alone := by
  have start : follow (childAt boot s.mem) (frameOf boot pt) [] = some (frameOf boot pt) := rfl
  rw [walk, ← mapping.leaves pt space live]
  exact mapping.walkBelow_eq (Spaces.root_of_some live) (by rfl) start

/-- Refinement: after every run of the operations on page tables, the walk of every page table
at every virtual address yields the leaf of its abstract address space, with the leaf's own
flags as the effective permissions; and a new page table is none of the live ones. -/
theorem paged_walk (limine : boot.Limine) (low : boot.UsableBelow (2 ^ 52)) {ops : List PagingOp}
    (run : Paged boot ops s others) :
    (∀ pt space, spacesOf ops pt = some space → ∀ virtAddr,
      walk boot s.mem pt virtAddr = some (space (pageNumber virtAddr)).alone) ∧
    ∀ pt s', archVmmNewPt boot s = .ok (pt, s') → spacesOf ops pt = none := by
  have mapping := run.mapping limine low
  refine ⟨fun pt space live virtAddr => mapping.walk_eq live virtAddr, fun pt s' returned => ?_⟩
  exact ((mapping.newPt_meets limine).of_ok returned).1

/-- The usable memory of the small memory map ends below 2^52. -/
theorem smallBoot_low : smallBoot.UsableBelow (2 ^ 52) := by
  unfold Boot.UsableBelow
  decide

/-- The frame that is held in the runs on the small memory map. -/
def smallBootHeld (p : Nat) : Prop := False ∨ PageRange 0x2000 1 p

/-- A page table on the small memory map, where one frame is held, with seven free frames. -/
theorem smallBoot_newPt : ∃ s t pt, Owned smallBoot s smallBootHeld ∧
    archVmmNewPt smallBoot s = .ok (pt, t) ∧ t.bitmapSize = 2 ∧ t.Spare 7 := by
  obtain ⟨s, s', initialised, allocated, size, spare⟩ := smallBoot_allocates
  have run := (Owned.init initialised).alloc (by decide) allocated
  have created := (run.owns smallBoot_limine).mapping.newPt_meets smallBoot_limine
  obtain ⟨r, returned, -, uses, -⟩ := (created.mono (fun _ => id) fun e exhausted =>
    exhausted.2 (spare.mono (by decide))).returns
  obtain ⟨pt, t⟩ := r
  exact ⟨s', t, pt, run, returned, uses.size.trans size, uses.spare 7 spare⟩

/-- The address space of a new page table with one mapping. -/
theorem spacesOf_map (pt physAddr virtAddr : UInt64) (flags : Int32) :
    spacesOf [.map pt physAddr virtAddr flags, .newPt pt] pt =
      some (Space.map (fun _ => .zero) (pageNumber virtAddr) (physAddr.toNat / 4096) flags) := by
  rw [spacesOf, Spaces.apply, Function.update_self, spacesOf, Spaces.apply, Function.update_self]
  rfl

/-- A new page table on the small memory map and one mapping in it. -/
theorem smallBoot_maps {physAddr : UInt64} (physLow : physAddr.toNat < 2 ^ 52) (virtAddr : UInt64)
    (flags : Int32) : ∃ pt s, Paged smallBoot [.map pt physAddr virtAddr flags, .newPt pt] s
      smallBootHeld ∧ s.bitmapSize = 2 := by
  obtain ⟨s, t, pt, run, created, size, spare⟩ := smallBoot_newPt
  have first := (Paged.start run).step (.newPt created)
  have mapping := first.mapping smallBoot_limine smallBoot_low
  have live : spacesOf [.newPt pt] pt = some fun _ => .zero := Function.update_self pt _ _
  have mapped := mapping.map_meets smallBoot_limine smallBoot_low live physAddr virtAddr flags
  obtain ⟨u, returned, uses, -⟩ := (mapped.mono (fun _ => id) fun e exhausted =>
    exhausted.2 (spare.mono (by decide))).returns
  exact ⟨pt, u, first.step (.map live physLow returned), uses.size.trans size⟩

/-- A page is mapped on the small memory map and translates to its frame. -/
theorem paged_walk_smallBoot : ∃ ops s others pt, Paged smallBoot ops s others ∧
    walk smallBoot s.mem pt 0x1000 = some (Leaf.alone ⟨2, true, true, false, true⟩) := by
  obtain ⟨pt, s, run, -⟩ := smallBoot_maps (show (0x2000 : UInt64).toNat < 2 ^ 52 by decide) 0x1000
    (vmmPresent ||| vmmRw)
  refine ⟨_, s, _, pt, run, ?_⟩
  rw [(paged_walk smallBoot_limine smallBoot_low run).1 pt _ (spacesOf_map _ _ _ _) 0x1000,
    Space.map, Function.update_self]
  rfl

end Symphony
