import Symphony.Library.Packed
import Symphony.Library.Prefixes
import Symphony.Verif.TableWrites

/-!
# Frames that the page tables need

The operations on page tables take one frame for each table that is missing on the path of
their page, and each time the least free one. They fail exactly if fewer frames are free.
-/

namespace Symphony

variable {boot : Boot} {s s' t : Machine} {held others : Nat → Prop} {spaces : Spaces}
  {space : Space} {pt virtAddr : UInt64}

/-- The steps between two machines keep the bitmap in its place and take the least free frames,
as many as told. -/
structure Machine.Packs (s s' : Machine) (count : Nat) : Prop where
  /-- The bitmap stays in its place. -/
  bitmap : s'.bitmap = s.bitmap
  /-- The bitmap keeps its size. -/
  size : s'.bitmapSize = s.bitmapSize
  /-- The free frames before and after. -/
  free : Packed count s.Free s'.Free

namespace Machine.Packs

variable {count more : Nat}

/-- No step takes no frame. -/
theorem refl (s : Machine) : s.Packs s 0 := ⟨rfl, rfl, Packed.refl s.Free⟩

/-- Steps take what their parts take. -/
theorem trans (first : s.Packs t count) (second : t.Packs s' more) : s.Packs s' (count + more) :=
  ⟨second.bitmap.trans first.bitmap, second.size.trans first.size, first.free.trans second.free⟩

/-- The frames that were taken were free. -/
theorem enough (packs : s.Packs s' count) : s.Spare count :=
  packs.free.enough

/-- Whoever is exhausted later lacked frames for both steps. -/
theorem exhausted {e : Fault} (packs : s.Packs t count) (exhausted : t.Exhausted more e) :
    s.Exhausted (count + more) e :=
  ⟨exhausted.1, fun spare => exhausted.2 ((packs.free.atLeast_iff more).mp spare)⟩

/-- A write outside the bitmap takes no frame. -/
theorem of_write (sized : s.Sized) {m : Memory}
    (same : ∀ a, s.InBitmap a → m.byte a = s.mem.byte a) : s.Packs { s with mem := m } 0 := by
  have free : Machine.Free { s with mem := m } = s.Free := by
    funext p
    apply propext
    apply and_congr_right
    intro tracked
    rw [Machine.Allocated, Machine.Allocated, same _ (inBitmap_of_tracked sized tracked)]
  refine ⟨rfl, rfl, ?_⟩
  rw [free]
  exact Packed.refl s.Free

end Machine.Packs

/-- The allocation of one frame takes the least free one. -/
theorem pmmAlloc_packs (sized : s.Sized) {base : UInt64} (returned : pmmAlloc 1 s = .ok (base, s')) :
    s.Packs s' 1 := by
  obtain ⟨first, least, -, marks⟩ := (pmmAlloc_meets 1 sized).of_ok returned
  have page (p : Nat) : first.toNat ≤ p ∧ p < first.toNat + (1 : Int32).toInt.toNat ↔
      p = first.toNat := by
    change _ ∧ p < first.toNat + 1 ↔ _
    omega
  obtain ⟨-, run, below⟩ := least
  have here : s.Free first.toNat := run _ le_rfl (Nat.lt_succ_self _)
  refine ⟨marks.bitmap, marks.size, Packed.one here ?_ ?_⟩
  · intro p free
    by_contra lower
    apply below p (Nat.not_le.mp lower)
    intro q lowerQ upperQ
    have same : q = p := Nat.le_antisymm (Nat.le_of_lt_succ upperQ) lowerQ
    exact same ▸ free
  · intro p
    rw [Machine.Free, Machine.Free, marks.tracked]
    by_cases tracked : s.Tracked p
    · have bit : s'.Allocated p ↔ p = first.toNat ∨ s.Allocated p := by
        rw [marks.bits p tracked, page]
      rw [bit, not_or]
      tauto
    · tauto

/-- A new table takes the least free frame. -/
theorem newTable_packs (limine : boot.Limine) (owns : s.Owns boot held)
    (returned : newTable boot s = .ok (pt, s')) : s.Packs s' 1 := by
  obtain ⟨base, t, frame, allocated, allocatable, -, small, rfl⟩ := newTable_steps limine owns returned
  obtain ⟨-, -, marks, ownsT⟩ := (owns.alloc limine).of_ok allocated
  refine (pmmAlloc_packs owns.sized allocated).trans (Machine.Packs.of_write ownsT.sized ?_)
  intro a inBitmap
  apply (zeroTable_writes boot t.mem small).byte_eq
  intro here
  exact allocatable.2.2 ((marks.bitmapFrame boot frame).mp ⟨a, inBitmap, here⟩)

namespace Mapping

/-- A store to an entry of a table takes no frame. -/
theorem updateEntry_packs (limine : boot.Limine) (mapping : Mapping boot s others spaces)
    {frame : Nat} (i : Fin 512) (change : PageTableEntry → PageTableEntry)
    (table : TableFrame boot s.mem spaces frame) :
    s.Packs { s with
      mem := s.mem.updateEntry (entryPointer (tablePointer boot frame) (UInt64.ofNat i)) change } 0 :=
  Machine.Packs.of_write mapping.owns.sized
    (mapping.owns.store_bitmap limine (Or.inr table) i _)

/-- The table of an entry that is not present takes one frame. -/
theorem tableBelow_packs (limine : boot.Limine) (mapping : Mapping boot s others spaces)
    {frame : Nat} {i : Fin 512} {p : UInt64} (table : TableFrame boot s.mem spaces frame)
    (absent : (entryAt boot s.mem frame i).present = false)
    (returned : tableBelow boot (tablePointer boot frame) (UInt64.ofNat i) s = .ok (p, s')) :
    s.Packs s' 1 := by
  have entry : s.mem.entry (tablePointer boot frame) (UInt64.ofNat i) =
      entryAt boot s.mem frame i := rfl
  simp only [tableBelow, entry, absent, Bool.false_eq_true, ↓reduceIte] at returned
  rw [bind_eq_ok] at returned
  obtain ⟨⟨below, t⟩, created, rest⟩ := returned
  have made := newTable_meets limine mapping.owns
  obtain ⟨c, -, -, owns, -, -, -⟩ := made.of_ok created
  have stored := fun e => Machine.Packs.of_write owns.sized
    (owns.store_bitmap limine (Or.inl (Or.inr table)) i e)
  cases rest
  exact (newTable_packs limine mapping.owns created).trans (stored _)

/-- The block of the walker takes one frame if its table is missing, and none otherwise; it fails
only if there is none. -/
theorem tableBelow_demand (limine : boot.Limine) (low : boot.UsableBelow (2 ^ 52))
    (mapping : Mapping boot s others spaces) {root frame : Nat} {path : List (Fin 512)}
    (i : Fin 512) (rest : List (Fin 512)) (isLive : spaces.Root boot root)
    (short : path.length + rest.length < 3)
    (reached : follow (childAt boot s.mem) root path = some frame) :
    Meets (tableBelow boot (tablePointer boot frame) (UInt64.ofNat i) s)
      (fun r => ∃ g count, r.1 = tablePointer boot g ∧ s.Packs r.2 count ∧
        Mapping boot r.2 others spaces ∧
        follow (childAt boot r.2.mem) root (path ++ [i]) = some g ∧
        count + missing (childAt boot r.2.mem) g rest =
          missing (childAt boot s.mem) frame (i :: rest))
      (s.Exhausted (missing (childAt boot s.mem) frame (i :: rest))) := by
  have inner : InnerFrame boot s.mem spaces frame := ⟨root, path, isLive, by omega, reached⟩
  cases isPresent : (entryAt boot s.mem frame i).present with
  | true =>
    have child : childAt boot s.mem frame i = some (entryAt boot s.mem frame i).frame := by
      rw [childAt, isPresent, if_pos rfl]
    rw [mapping.tableBelow_of_child inner child]
    refine ⟨_, 0, rfl, Machine.Packs.refl s, mapping, ?_, ?_⟩
    · rw [follow_concat, reached]
      exact child
    · rw [Nat.zero_add, missing, child]
  | false =>
    have none : childAt boot s.mem frame i = none := by
      rw [childAt, isPresent, if_neg Bool.false_ne_true]
    have demand : missing (childAt boot s.mem) frame (i :: rest) = rest.length + 1 := by
      rw [missing, none]
    rw [demand]
    have created := mapping.create_meets limine low isLive (by omega) reached isPresent
    apply (created.mono (fun _ => id) fun e exhausted => exhausted.mono (by omega)).of_returned
    intro r returned found
    obtain ⟨pointer, u⟩ := r
    obtain ⟨g, rfl, -, mapping', reached', extends'⟩ := found
    have before : follow (childAt boot s.mem) root (path ++ [i]) = Option.none := by
      rw [follow_concat, reached]
      exact none
    have fresh := extends'.missing_last isLive before reached' rest (by simp; omega)
    refine ⟨g, 1, rfl, mapping.tableBelow_packs limine inner.within isPresent returned, mapping',
      reached', ?_⟩
    rw [fresh, Nat.add_comm]

/-- The walker takes one frame for each table that is missing on the path of the page; it fails
exactly if fewer frames are free. -/
theorem pageFromIndex_demand (limine : boot.Limine) (low : boot.UsableBelow (2 ^ 52))
    (mapping : Mapping boot s others spaces) (live : spaces pt = some space) (virtAddr : UInt64) :
    Meets (pageFromIndex boot pt (pageIndex virtAddr) s)
      (fun r => s.Packs r.2
        (missing (childAt boot s.mem) (frameOf boot pt) (upperPath (pageNumber virtAddr))))
      (s.Exhausted
        (missing (childAt boot s.mem) (frameOf boot pt) (upperPath (pageNumber virtAddr)))) := by
  obtain ⟨i, j, k, path, index⟩ := pageIndex_eq virtAddr
  have isLive : spaces.Root boot (frameOf boot pt) := Spaces.root_of_some live
  have start : follow (childAt boot s.mem) (frameOf boot pt) [] = some (frameOf boot pt) := rfl
  rw [index, pageFromIndex, path]
  have first := mapping.tableBelow_demand limine low i [j, k] isLive (by simp) start
  rw [← mapping.roots pt space live] at first
  apply first.bind
  intro r found
  obtain ⟨pointer, t⟩ := r
  obtain ⟨pdp, countT, rfl, packsT, mappingT, reachedT, demandT⟩ := found
  dsimp only at packsT mappingT reachedT demandT
  have second := mappingT.tableBelow_demand limine low j [k] isLive (by simp) reachedT
  apply (second.mono (fun _ => id) fun e exhausted => ?_).bind
  · intro r found
    obtain ⟨pointer, u⟩ := r
    obtain ⟨pd, countU, rfl, packsU, mappingU, reachedU, demandU⟩ := found
    dsimp only at packsU mappingU reachedU demandU
    have third := mappingU.tableBelow_demand limine low k [] isLive (by simp) reachedU
    apply (third.mono (fun _ => id) fun e exhausted => ?_).bind
    · intro r found
      obtain ⟨pointer, v⟩ := r
      obtain ⟨table, countV, rfl, packsV, -, -, demandV⟩ := found
      dsimp only at packsV demandV
      rw [← demandT, ← demandU, ← demandV]
      exact (packsT.trans (packsU.trans packsV))
    · have later := packsT.exhausted (packsU.exhausted exhausted)
      rwa [demandU, demandT] at later
  · have later := packsT.exhausted exhausted
    rwa [demandT] at later

/-- A change of the entry of a page takes the frames that the walker takes. -/
theorem changePage_demand (limine : boot.Limine) (low : boot.UsableBelow (2 ^ 52))
    (mapping : Mapping boot s others spaces) (live : spaces pt = some space) (virtAddr : UInt64)
    (change : PageTableEntry → PageTableEntry) :
    Meets (pageFromIndex boot pt (pageIndex virtAddr) s >>= fun r =>
        .ok { r.2 with mem := r.2.mem.updateEntry r.1 change })
      (fun s' => s.Packs s'
        (missing (childAt boot s.mem) (frameOf boot pt) (upperPath (pageNumber virtAddr))))
      (s.Exhausted
        (missing (childAt boot s.mem) (frameOf boot pt) (upperPath (pageNumber virtAddr)))) := by
  have walker := mapping.pageFromIndex_demand limine low live virtAddr
  have full := length_upperPath (pageNumber virtAddr)
  apply (walker.of_returned fun r returned packs => And.intro returned packs).bind
  intro r found
  obtain ⟨pte, t⟩ := r
  obtain ⟨walked, packs⟩ := found
  obtain ⟨-, mappingT, frame, reached, rfl, -⟩ :=
    (mapping.pageFromIndex_meets limine low live virtAddr).of_ok walked
  exact packs.trans (mappingT.updateEntry_packs limine (lastIndex (pageNumber virtAddr)) change
    ⟨_, _, Spaces.root_of_some live, Nat.le_of_eq full, reached⟩)

/-- `arch_vmm_map` takes the frames that its first walk takes; the second one finds all tables. -/
theorem map_demand (limine : boot.Limine) (low : boot.UsableBelow (2 ^ 52))
    (mapping : Mapping boot s others spaces) (live : spaces pt = some space)
    (physAddr virtAddr : UInt64) (flags : Int32) :
    Meets (archVmmMap boot pt physAddr virtAddr flags s)
      (fun s' => s.Packs s'
        (missing (childAt boot s.mem) (frameOf boot pt) (upperPath (pageNumber virtAddr))))
      (s.Exhausted
        (missing (childAt boot s.mem) (frameOf boot pt) (upperPath (pageNumber virtAddr)))) := by
  have walker := mapping.pageFromIndex_demand limine low live virtAddr
  have full := length_upperPath (pageNumber virtAddr)
  apply (walker.of_returned fun r returned packs => And.intro returned packs).bind
  intro r found
  obtain ⟨pte, t⟩ := r
  obtain ⟨walked, packs⟩ := found
  obtain ⟨-, mappingT, frame, reached, rfl, -⟩ :=
    (mapping.pageFromIndex_meets limine low live virtAddr).of_ok walked
  have isLive : spaces.Root boot (frameOf boot pt) := Spaces.root_of_some live
  let address (entry : PageTableEntry) : PageTableEntry :=
    { entry with addr := PageTableEntry.addrOfWord (physAddr >>> 12) }
  have stored := mappingT.updateEntry_packs limine (lastIndex (pageNumber virtAddr)) address
    ⟨_, _, isLive, Nat.le_of_eq full, reached⟩
  obtain ⟨e, -, updated⟩ := mappingT.updateEntry limine live reached address
  obtain ⟨-, mappingU, stays⟩ := updated _ rfl
  have again := mappingU.pageFromIndex_of_reached (Function.update_self pt _ spaces) stays
  have flagged := mappingU.updateEntry_packs limine (lastIndex (pageNumber virtAddr))
    (fun entry => { entry with
      present := flags &&& vmmPresent ≠ 0
      readWrite := flags &&& vmmRw ≠ 0
      userSupervisor := flags &&& vmmUser ≠ 0
      pageSize := false
      nx := flags &&& vmmExec = 0 })
    ⟨_, _, by rw [Spaces.root_update live]; exact isLive, Nat.le_of_eq full, stays⟩
  dsimp only
  rw [archVmmSetFlags, again]
  exact packs.trans (stored.trans flagged)

end Mapping

end Symphony
