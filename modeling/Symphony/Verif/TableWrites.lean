import Symphony.Verif.Filling

/-!
# What the operations on page tables write

The operations on page tables write to the bitmap and to frames that nobody else holds, so
every byte of a frame of another owner stays as it is. Only a destruction writes to frames of
other owners: it poisons the frames of the pages that it releases.
-/

namespace Symphony

variable {boot : Boot} {s s' t : Machine} {held others : Nat → Prop} {spaces : Spaces}
  {space : Space} {pt virtAddr : UInt64}

/-- No byte of some frames was written. -/
def Machine.Spares (boot : Boot) (frames : Nat → Prop) (s s' : Machine) : Prop :=
  s.mem.Writes (fun a => ¬ frames (frameOf boot a)) s'.mem

/-- Fewer frames are spared, too. -/
theorem Machine.Spares.mono {fewer : Nat → Prop} (spares : Machine.Spares boot held s s')
    (less : ∀ p, fewer p → held p) : Machine.Spares boot fewer s s' :=
  Memory.Writes.mono spares fun _ outside inside => outside (less _ inside)

/-- Writes to the bitmap spare the frames that are held. -/
theorem Machine.Owns.spares (owns : s.Owns boot held) (writes : s.mem.Writes s.InBitmap s'.mem) :
    Machine.Spares boot held s s' :=
  writes.mono fun _ inBitmap has => owns.not_inBitmap has inBitmap rfl

/-- An allocation spares the frames that are held. -/
theorem Machine.Owns.alloc_spares (limine : boot.Limine) (owns : s.Owns boot held) {base : UInt64}
    {pages : Int32} (returned : pmmAlloc pages s = .ok (base, s')) :
    Machine.Spares boot held s s' := by
  obtain ⟨-, -, marks, -⟩ := (owns.alloc limine).of_ok returned
  exact owns.spares marks.writes

/-- A zeroed table is written in its frame only. -/
theorem zeroTable_writes (boot : Boot) {frame : Nat} (m : Memory) (small : frame < 2 ^ 52) :
    m.Writes (fun a => frameOf boot a = frame) (memset m (tablePointer boot frame) 0 4096) := by
  have size : (4096 : UInt64).toNat = 4096 := rfl
  have writes := memset_writes m (tablePointer boot frame) 0 4096
  rw [size] at writes
  exact writes.mono fun a => (table_span_iff small a).mp

/-- An entry of a table is stored in the frame of the table only. -/
theorem storeEntry_writes (boot : Boot) {frame : Nat} (m : Memory) (small : frame < 2 ^ 52)
    (i : Fin 512) (v : UInt64) :
    m.Writes (fun a => frameOf boot a = frame)
      (m.store64 (entryPointer (tablePointer boot frame) (UInt64.ofNat i)) v) := by
  apply (m.store64_writes _ v).mono
  intro a inside
  exact ((entry_span_iff small a).mp inside).1

/-- Writes to one frame spare the others. -/
theorem spares_of_frame {frame : Nat} {m : Memory}
    (writes : s.mem.Writes (fun a => frameOf boot a = frame) m) (apart : ¬ held frame) :
    Machine.Spares boot held s { s with mem := m } :=
  writes.mono fun _ here has => apart (here ▸ has)

/-- A new table is an allocation of one frame and a write of zeros to it. -/
theorem newTable_steps (limine : boot.Limine) (owns : s.Owns boot held)
    (returned : newTable boot s = .ok (pt, s')) :
    ∃ base t frame, pmmAlloc 1 s = .ok (base, t) ∧ s.Allocatable boot frame ∧ ¬ held frame ∧
      frame < 2 ^ 52 ∧ s' = { t with mem := memset t.mem (tablePointer boot frame) 0 4096 } := by
  rw [newTable, bind_eq_ok] at returned
  obtain ⟨⟨base, t⟩, allocated, rest⟩ := returned
  have found := (owns.alloc limine).of_ok allocated
  obtain ⟨aligned, fresh, -, -⟩ := found
  dsimp only at aligned fresh
  have last := fresh (base.toNat / 4096) ⟨le_rfl, Nat.lt_succ_self _⟩
  have pointer : base + bootProtoHhdmOffset boot = tablePointer boot (base.toNat / 4096) := by
    rw [tablePointer, Nat.mul_div_cancel' aligned, UInt64.ofNat_toNat]
    rfl
  dsimp only at rest
  rw [pointer] at rest
  cases rest
  exact ⟨base, t, _, allocated, last.1, last.2, limine.usable_lt last.1.1, rfl⟩

/-- A new table spares the frames that are held. -/
theorem newTable_spares (limine : boot.Limine) (owns : s.Owns boot held)
    (returned : newTable boot s = .ok (pt, s')) : Machine.Spares boot held s s' := by
  obtain ⟨base, t, frame, allocated, -, fresh, small, rfl⟩ := newTable_steps limine owns returned
  have zeroed := spares_of_frame (s := t) (zeroTable_writes boot t.mem small) fresh
  exact Memory.Writes.trans (owns.alloc_spares limine allocated) zeroed

/-! ## The steps of the walker -/

/-- What all steps of the operations on page tables have in common: a relation that composes, and
holds for new tables and for stores to a frame that is no one else's and not the bitmap's. -/
structure WalkerStep (boot : Boot) (others : Nat → Prop) (R : Machine → Machine → Prop) : Prop where
  /-- Nothing happens. -/
  refl : ∀ s, R s s
  /-- One step after another. -/
  trans : ∀ {s t u}, R s t → R t u → R s u
  /-- A new table. -/
  create : ∀ {s s' held pt}, s.Owns boot held → (∀ p, others p → held p) →
    newTable boot s = .ok (pt, s') → R s s'
  /-- A store to a frame of a table. -/
  store : ∀ {s : Machine} {frame m}, s.Sized → s.mem.Writes (fun a => frameOf boot a = frame) m →
    ¬ s.BitmapFrame boot frame → ¬ others frame → R s { s with mem := m }

/-- The operations spare the frames of other owners. -/
theorem spares_walkerStep (limine : boot.Limine) (others : Nat → Prop) :
    WalkerStep boot others (Machine.Spares boot others) where
  refl _ := Memory.Writes.refl
  trans := Memory.Writes.trans
  create owns less returned := (newTable_spares limine owns returned).mono less
  store _ writes _ apart := spares_of_frame writes apart

namespace Mapping

variable {R : Machine → Machine → Prop}

/-- The bitmap lies outside the frames of other owners. -/
theorem not_other_of_inBitmap (mapping : Mapping boot s others spaces) {a : UInt64}
    (inBitmap : s.InBitmap a) : ¬ others (frameOf boot a) :=
  fun isOther => mapping.owns.not_inBitmap (Or.inl isOther) inBitmap rfl

/-- A store to an entry of a table is a step. -/
theorem store_rel (limine : boot.Limine) (step : WalkerStep boot others R)
    (mapping : Mapping boot s others spaces) {frame : Nat} (i : Fin 512) (v : UInt64)
    (table : TableFrame boot s.mem spaces frame) :
    R s { s with
      mem := s.mem.store64 (entryPointer (tablePointer boot frame) (UInt64.ofNat i)) v } := by
  have held := mapping.owns.allocatable frame (Or.inr table)
  exact step.store mapping.owns.sized (storeEntry_writes boot s.mem (limine.usable_lt held.1) i v)
    held.2.2 (mapping.apart frame table)

/-- The block of the walker is a sequence of steps. -/
theorem tableBelow_rel (limine : boot.Limine) (step : WalkerStep boot others R)
    (mapping : Mapping boot s others spaces) {root frame : Nat} {path : List (Fin 512)} {i : Fin 512}
    {p : UInt64} (isLive : spaces.Root boot root) (short : path.length < 3)
    (reached : follow (childAt boot s.mem) root path = some frame)
    (returned : tableBelow boot (tablePointer boot frame) (UInt64.ofNat i) s = .ok (p, s')) :
    R s s' := by
  have table : TableFrame boot s.mem spaces frame := ⟨root, path, isLive, Nat.le_of_lt short, reached⟩
  have held := mapping.owns.allocatable frame (Or.inr table)
  unfold tableBelow at returned
  dsimp only at returned
  by_cases present : (s.mem.entry (tablePointer boot frame) (UInt64.ofNat i)).present = true
  · rw [if_pos present] at returned
    cases returned
    exact step.refl s
  · rw [if_neg present, bind_eq_ok] at returned
    obtain ⟨⟨below, t⟩, created, rest⟩ := returned
    have made := newTable_meets limine mapping.owns
    obtain ⟨c, -, -, owns, -, -, -⟩ := made.of_ok created
    have heldT := owns.allocatable frame (Or.inl (Or.inr table))
    have entered := fun v => step.store owns.sized
      (storeEntry_writes boot t.mem (limine.usable_lt held.1) i v) heldT.2.2 (mapping.apart frame table)
    cases rest
    exact step.trans (step.create mapping.owns (fun p => Or.inl) created) (entered _)

/-- The walker is a sequence of steps. -/
theorem pageFromIndex_rel (limine : boot.Limine) (low : boot.UsableBelow (2 ^ 52))
    (step : WalkerStep boot others R) (mapping : Mapping boot s others spaces)
    (live : spaces pt = some space) {p : UInt64}
    (returned : pageFromIndex boot pt (pageIndex virtAddr) s = .ok (p, s')) : R s s' := by
  obtain ⟨i, j, k, -, index⟩ := pageIndex_eq virtAddr
  have isLive : spaces.Root boot (frameOf boot pt) := Spaces.root_of_some live
  have start : follow (childAt boot s.mem) (frameOf boot pt) [] = some (frameOf boot pt) := rfl
  rw [index, pageFromIndex, mapping.roots pt space live, bind_eq_ok] at returned
  obtain ⟨⟨pdpPointer, t⟩, atRoot, returned⟩ := returned
  obtain ⟨pdp, rfl, -, mappingT, reachedT, -⟩ :=
    (mapping.tableBelow_meets limine low i isLive (by decide) start).of_ok atRoot
  rw [bind_eq_ok] at returned
  obtain ⟨⟨pdPointer, u⟩, atPdp, returned⟩ := returned
  obtain ⟨pd, rfl, -, mappingU, reachedU, -⟩ :=
    (mappingT.tableBelow_meets limine low j isLive (by simp) reachedT).of_ok atPdp
  rw [bind_eq_ok] at returned
  obtain ⟨⟨tablePointer, v⟩, atPd, rest⟩ := returned
  cases rest
  have first := mapping.tableBelow_rel limine step isLive (by decide) start atRoot
  have second := mappingT.tableBelow_rel limine step isLive (by simp) reachedT atPdp
  have third := mappingU.tableBelow_rel limine step isLive (by simp) reachedU atPd
  exact step.trans (step.trans first second) third

/-- A change of the entry of a page is a sequence of steps. -/
theorem changePage_rel (limine : boot.Limine) (low : boot.UsableBelow (2 ^ 52))
    (step : WalkerStep boot others R) (mapping : Mapping boot s others spaces)
    (live : spaces pt = some space) {change : PageTableEntry → PageTableEntry}
    (returned : (pageFromIndex boot pt (pageIndex virtAddr) s >>= fun r =>
      .ok { r.2 with mem := r.2.mem.updateEntry r.1 change }) = .ok s') : R s s' := by
  rw [bind_eq_ok] at returned
  obtain ⟨⟨pte, t⟩, walked, rest⟩ := returned
  have found := (mapping.pageFromIndex_meets limine low live virtAddr).of_ok walked
  obtain ⟨-, mappingT, frame, reached, rfl, -⟩ := found
  have full := length_upperPath (pageNumber virtAddr)
  have stored := fun v => mappingT.store_rel limine step (lastIndex (pageNumber virtAddr)) v
    ⟨_, _, Spaces.root_of_some live, Nat.le_of_eq full, reached⟩
  cases rest
  exact step.trans (mapping.pageFromIndex_rel limine low step live walked) (stored _)

/-- `arch_vmm_map` is a sequence of steps. -/
theorem map_rel (limine : boot.Limine) (low : boot.UsableBelow (2 ^ 52))
    (step : WalkerStep boot others R) (mapping : Mapping boot s others spaces)
    (live : spaces pt = some space) {physAddr : UInt64} {flags : Int32}
    (returned : archVmmMap boot pt physAddr virtAddr flags s = .ok s') : R s s' := by
  rw [archVmmMap, bind_eq_ok] at returned
  obtain ⟨⟨pte, t⟩, walked, rest⟩ := returned
  have found := (mapping.pageFromIndex_meets limine low live virtAddr).of_ok walked
  obtain ⟨-, mappingT, frame, reached, rfl, -⟩ := found
  have full := length_upperPath (pageNumber virtAddr)
  have address := fun v => mappingT.store_rel limine step (lastIndex (pageNumber virtAddr)) v
    ⟨_, _, Spaces.root_of_some live, Nat.le_of_eq full, reached⟩
  obtain ⟨e, -, updated⟩ := mappingT.updateEntry limine live reached
    (fun entry => { entry with addr := PageTableEntry.addrOfWord (physAddr >>> 12) })
  obtain ⟨-, mappingU, -⟩ := updated _ rfl
  have flags := mappingU.changePage_rel limine low step (Function.update_self pt _ spaces) rest
  exact step.trans (step.trans (mapping.pageFromIndex_rel limine low step live walked) (address _)) flags

end Mapping

/-- An operation on a page table is a sequence of steps. -/
theorem TableStep.rel {space' : Space} {R : Machine → Machine → Prop} (limine : boot.Limine)
    (low : boot.UsableBelow (2 ^ 52)) (walker : WalkerStep boot others R)
    (step : TableStep boot pt s space virtAddr s' space') (mapping : Mapping boot s others spaces)
    (live : spaces pt = some space) : R s s' := by
  cases step with
  | map returned => exact mapping.map_rel limine low walker live returned
  | unmap returned => exact mapping.changePage_rel limine low walker live returned
  | setFlags returned => exact mapping.changePage_rel limine low walker live returned

/-! ## Destruction -/

/-- A destruction spares the frames of other owners that stay allocated. -/
theorem Mapping.destroy_spares (limine : boot.Limine) (low : boot.UsableBelow (2 ^ 51))
    (mapping : Mapping boot s others spaces) (live : spaces pt = some space)
    (removable : Removable boot s spaces space) (returned : archVmmDestroyPt boot pt s = .ok t) :
    Machine.Spares boot (fun p => (others p ∨ TableFrame boot s.mem spaces p) ∧ t.Allocated p) s t := by
  obtain ⟨gone, -, -, freed⟩ := (mapping.destroy_frees limine low live removable).of_ok returned
  apply freed.writes.mono
  intro a area kept
  have tracked := mapping.owns.tracked _ (mapping.owns.allocatable _ kept.1).1
  cases area with
  | inl inBitmap => exact mapping.owns.not_inBitmap kept.1 inBitmap rfl
  | inr isGone => exact ((freed.bits _ tracked).mp kept.2).2 isGone

/-- A destruction releases no frame of another owner that is mapped by no present page of the lower
half. -/
theorem Mapping.destroy_keeps (limine : boot.Limine) (low : boot.UsableBelow (2 ^ 51))
    (mapping : Mapping boot s others spaces) (live : spaces pt = some space)
    (removable : Removable boot s spaces space) (returned : archVmmDestroyPt boot pt s = .ok t)
    {p : Nat} (has : others p) (unmapped : ¬ space.HasLow p) : t.Allocated p := by
  have tracked := mapping.owns.tracked p (mapping.owns.allocatable p (Or.inl has)).1
  have allocated := (mapping.owns.bits p tracked).mpr (Or.inr (Or.inl has))
  by_contra free
  have released := ((mapping.destroy_meets limine low live removable).of_ok returned).2.1
  obtain ⟨-, ⟨path, short, lower, leads⟩, -⟩ := released p tracked allocated free
  by_cases full : path.length = 4
  · obtain ⟨page, split, present, frame⟩ := mapping.leaf_of_path live full leads
    rcases lower with rfl | ⟨i, rest, start, small⟩
    · cases full
    · exact unmapped ⟨page, (upperPath_lower (split.symm.trans start)).mp small, present, frame⟩
  · exact mapping.apart p ⟨_, path, Spaces.root_of_some live, by omega, leads⟩ has

/-- The tables that a destruction leaves are those of the other page tables. -/
theorem Mapping.destroy_tables (limine : boot.Limine) (low : boot.UsableBelow (2 ^ 51))
    (mapping : Mapping boot s others spaces) (live : spaces pt = some space)
    (removable : Removable boot s spaces space) (returned : archVmmDestroyPt boot pt s = .ok t)
    (p : Nat) : TableFrame boot t.mem (Function.update spaces pt none) p ↔
      TableFrame boot s.mem (Function.update spaces pt none) p := by
  obtain ⟨gone, inside, -, freed⟩ := (mapping.destroy_frees limine low live removable).of_ok returned
  rw [mapping.tables_of_freed limine live removable freed inside]

/-- A table of the upper half is part of the page table. -/
theorem UpperTable.tableFrame {p : Nat} (live : spaces pt = some space)
    (upper : UpperTable boot s.mem (frameOf boot pt) p) : TableFrame boot s.mem spaces p := by
  obtain ⟨i, rest, -, short, reached⟩ := upper
  exact ⟨_, _, Spaces.root_of_some live, short, reached⟩

/-- A table belongs to another page table, or to the lower or the upper half of this one. -/
theorem TableFrame.cases_erase {p : Nat} (table : TableFrame boot s.mem spaces p) :
    TableFrame boot s.mem (Function.update spaces pt none) p ∨
      LowerHalf boot s.mem (frameOf boot pt) p ∨ UpperTable boot s.mem (frameOf boot pt) p := by
  obtain ⟨root, path, ⟨pt', space', live', rfl⟩, short, reached⟩ := table
  by_cases same : pt' = pt
  · subst same
    right
    cases path with
    | nil => exact Or.inl ⟨[], Nat.zero_le 4, Or.inl rfl, reached⟩
    | cons i rest =>
      by_cases upper : 256 ≤ i.val
      · exact Or.inr ⟨i, rest, upper, short, reached⟩
      · exact Or.inl ⟨_, Nat.le_succ_of_le short, Or.inr ⟨i, rest, rfl, Nat.lt_of_not_le upper⟩, reached⟩
  · have live : Function.update spaces pt none pt' = some space' := by
      rwa [Function.update_of_ne same]
    exact Or.inl ⟨_, path, Spaces.root_of_some live, short, reached⟩

/-- A table of the upper half is in no lower half: it is no page there, and no other path reaches
it. -/
theorem Mapping.upperTable_not_lowerHalf (mapping : Mapping boot s others spaces)
    (live : spaces pt = some space) (removable : Removable boot s spaces space) {p : Nat}
    (upper : UpperTable boot s.mem (frameOf boot pt) p) : ¬ LowerHalf boot s.mem (frameOf boot pt) p := by
  have table := upper.tableFrame live
  have isLive : spaces.Root boot (frameOf boot pt) := Spaces.root_of_some live
  obtain ⟨i, rest, high, short, reached⟩ := upper
  rintro ⟨path, bounded, lower, leads⟩
  by_cases full : path.length = 4
  · have isLower := lower.resolve_left fun empty => by simp [empty] at full
    exact (removable.releasable mapping live path p full isLower leads).2 table
  · have same := (mapping.forest _ _ _ _ p isLive isLive short (by omega) reached leads).2
    rcases lower with rfl | ⟨j, tail, rfl, small⟩
    · cases same
    · rw [(List.cons.inj same).1] at high
      omega

/-- It belongs to no other page table. -/
theorem Mapping.upperTable_not_erase (mapping : Mapping boot s others spaces)
    (live : spaces pt = some space) {p : Nat} (upper : UpperTable boot s.mem (frameOf boot pt) p) :
    ¬ TableFrame boot s.mem (Function.update spaces pt none) p := by
  obtain ⟨i, rest, -, short, reached⟩ := upper
  rintro ⟨root, path, isRoot, short', reached'⟩
  obtain ⟨pt', space', different, live', rfl⟩ := Spaces.root_erase isRoot
  have same := (mapping.forest _ _ _ _ p (Spaces.root_of_some live) ⟨pt', space', live', rfl⟩ short
    short' reached reached').1
  apply different
  rw [mapping.roots pt' space' live', ← same, ← mapping.roots pt space live]

/-- Where no table is skipped, a destruction leaves the frames of others that were not mapped in the
lower half, and the tables of the upper half. -/
theorem Mapping.leftOver_iff (limine : boot.Limine) (low : boot.UsableBelow (2 ^ 51))
    (visible : Visible boot s) (mapping : Mapping boot s others spaces) (live : spaces pt = some space)
    (removable : Removable boot s spaces space) (returned : archVmmDestroyPt boot pt s = .ok t)
    (p : Nat) : leftOver boot s t others spaces pt p ↔
      (others p ∧ ¬ space.HasLow p) ∨ UpperTable boot s.mem (frameOf boot pt) p := by
  obtain ⟨-, only, whole⟩ := (mapping.destroy_meets limine low live removable).of_ok returned
  rw [leftOver, mapping.destroy_tables limine low live removable returned p]
  constructor
  · rintro ⟨⟨has | table, allocated⟩, notTable⟩
    · exact Or.inl ⟨has, fun mapped =>
        whole visible p (mapping.lowerHalf_of_hasLow live mapped) allocated⟩
    · rcases table.cases_erase with other | inLower | upper
      · exact (notTable other).elim
      · exact (whole visible p inLower allocated).elim
      · exact Or.inr upper
  · rintro (⟨has, unmapped⟩ | upper)
    · have allocated := mapping.destroy_keeps limine low live removable returned has unmapped
      exact ⟨⟨Or.inl has, allocated⟩, fun table => mapping.apart p table.of_erase has⟩
    · have table := upper.tableFrame live
      have tracked := mapping.owns.tracked p (mapping.owns.allocatable p (Or.inr table)).1
      have allocated := (mapping.owns.bits p tracked).mpr (Or.inr (Or.inr table))
      refine ⟨⟨Or.inr table, ?_⟩, mapping.upperTable_not_erase live upper⟩
      by_contra free
      exact mapping.upperTable_not_lowerHalf live removable upper (only p tracked allocated free).2.1

end Symphony
