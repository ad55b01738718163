import Symphony.Verif.AddressSpace

/-!
# Destruction of an address space

`arch_vmm_destroy_pt` walks the lower half of a page table and releases the tables, and
also the frames that the entries of the last level point to. Where these frames may be
released, the walk reads every table before it is poisoned, no assertion fails, and the
other address spaces stay as they are.
-/

namespace Symphony

variable {boot : Boot} {s t : Machine} {others : Nat → Prop} {spaces : Spaces}

/-- A released frame changes no table in another frame. -/
theorem Freed.entryAt_eq {gone : Nat → Prop} (freed : Freed boot s t gone) {frame : Nat}
    (i : Fin 512) (small : frame < 2 ^ 52) (notBitmap : ¬ s.BitmapFrame boot frame)
    (kept : ¬ gone frame) : entryAt boot t.mem frame i = entryAt boot s.mem frame i := by
  apply entryAt_congr small
  intro a here
  apply freed.writes.byte_eq
  intro area
  cases area with
  | inl inBitmap => exact notBitmap ⟨a, inBitmap, here⟩
  | inr isGone => exact kept (here ▸ isGone)

/-- The release of the frame behind a table pointer. -/
theorem freeTable_meets {c : Nat} (sized : s.Sized) (small : c < 2 ^ 52) (tracked : s.Tracked c)
    (notBitmap : ¬ s.BitmapFrame boot c) :
    Meets (freeTable boot (tablePointer boot c) s) (fun t => Freed boot s t fun p => p = c)
      fun _ => False := by
  have base : (UInt64.ofNat (4096 * c)).toNat = 4096 * c := toNat_ofNat_of_fits (by omega)
  have pages (p : Nat) : PageRange (UInt64.ofNat (4096 * c)) 1 p ↔ p = c := by
    unfold PageRange
    rw [base]
    change _ ∧ p < 4096 * c / 4096 + 1 ↔ _
    omega
  rw [freeTable, bootProtoHhdmOffset, tablePointer_sub]
  apply (pmmFree_meets sized (by rw [base]; exact Nat.dvd_mul_right _ _) (by decide)
    (by rw [base]; change 4096 * c + 4096 * 1 ≤ _; omega)
    (fun p inside => by rwa [(pages p).mp inside])
    fun p inside => by rwa [(pages p).mp inside]).mono
  · intro t freed
    exact freed.congr pages
  · intro e fault
    exact absurd fault.2 (by decide)

/-- So far no more frames were released. -/
theorem Freed.noMore {gone : Nat → Prop} (freed : Freed boot s t gone) :
    Freed boot s t fun p => gone p ∨ False :=
  freed.congr fun _ => (or_iff_left not_false).symm

/-- After other releases a table that may be handed out is released as well. -/
theorem Freed.freeTable_meets {gone : Nat → Prop} (freed : Freed boot s t gone)
    (limine : boot.Limine) (sized : s.Sized) {c : Nat} (tracked : s.Tracked c)
    (allocatable : s.Allocatable boot c) :
    Meets (freeTable boot (tablePointer boot c) t)
      (fun u => Freed boot s u fun p => gone p ∨ p = c) fun _ => False := by
  have sizedT : t.Sized := by
    rw [Machine.Sized, freed.size]
    exact sized
  have trackedT : t.Tracked c := by
    rw [Machine.Tracked, freed.size]
    exact tracked
  have notBitmap : ¬ t.BitmapFrame boot c := by
    rw [freed.bitmapFrame]
    exact allocatable.2.2
  exact (Symphony.freeTable_meets sizedT (limine.usable_lt allocatable.1) trackedT notBitmap).mono
    (fun _ => freed.trans) fun _ => id

/-- The address that the shift in 51 bits yields for a frame below 2^39. -/
theorem narrowBase_eq_tablePointer {e : PageTableEntry} (small : e.frame < 2 ^ 39) :
    e.narrowBase + boot.offset = tablePointer boot e.frame := by
  unfold PageTableEntry.frame at small ⊢
  have value : e.narrowBase = UInt64.ofNat (4096 * (e.addr.toNat % 2 ^ 40)) := by
    rw [← UInt64.toNat_inj, toNat_ofNat_of_fits (by omega), PageTableEntry.narrowBase]
    change ((e.addr <<< 12).setWidth 64).toNat = _
    rw [BitVec.toNat_setWidth, BitVec.toNat_shiftLeft, Nat.shiftLeft_eq]
    omega
  rw [value, tablePointer]

/-! ## What the walk releases -/

/-- The path starts in the lower half. -/
def Lower (path : List (Fin 512)) : Prop := ∃ i rest, path = i :: rest ∧ i.val < 256

/-- Frames on a path or below it: tables, and the frames of present entries of the last level. -/
def Under (boot : Boot) (m : Memory) (root : Nat) (path : List (Fin 512)) (p : Nat) : Prop :=
  ∃ rest, (path ++ rest).length ≤ 4 ∧ follow (childAt boot m) root (path ++ rest) = some p

/-- Every present page of the lower half has a frame that may be released. -/
def LeavesReleasable (boot : Boot) (s : Machine) (spaces : Spaces) (root : Nat) : Prop :=
  ∀ path c, path.length = 4 → Lower path → follow (childAt boot s.mem) root path = some c →
    s.Allocatable boot c ∧ ¬ TableFrame boot s.mem spaces c

/-- No frame that may be handed out is shown at the null pointer, where a loop skips its table. -/
def Visible (boot : Boot) (s : Machine) : Prop := ∀ p, s.Allocatable boot p → tablePointer boot p ≠ 0

/-- The direct map shows no usable frame at the null pointer. -/
theorem Boot.Direct.visible (direct : boot.Direct) : Visible boot s := by
  rintro p ⟨usable, nonzero, -⟩ null
  have fits := direct p usable
  have word : (UInt64.ofNat (4096 * p)).toNat = 4096 * p := toNat_ofNat_of_fits (by omega)
  have place := congrArg UInt64.toNat null
  rw [tablePointer, toNat_add_of_fits (by omega), word] at place
  change 4096 * p + _ = 0 at place
  omega

/-- Only frames below the first `count` entries of the table on a path were released in addition;
where no table is skipped, all of them were. -/
def Released (boot : Boot) (s : Machine) (root : Nat) (path : List (Fin 512)) (gone : Nat → Prop)
    (count : Nat) (u : Machine) : Prop :=
  ∃ more : Nat → Prop,
    (∀ p, more p → ∃ j : Fin 512, j < count ∧ Under boot s.mem root (path ++ [j]) p) ∧
    (Visible boot s → ∀ p (j : Fin 512), j < count → Under boot s.mem root (path ++ [j]) p → more p) ∧
    Freed boot s u fun p => gone p ∨ more p

/-- No table below the path was released. -/
def Clear (boot : Boot) (s : Machine) (root : Nat) (path : List (Fin 512)) (gone : Nat → Prop) : Prop :=
  ∀ rest g, (path ++ rest).length ≤ 3 →
    follow (childAt boot s.mem) root (path ++ rest) = some g → ¬ gone g

/-- What a loop below the table on a path does: it releases only frames below the path. -/
def Releases (boot : Boot) (s : Machine) (root : Nat)
    (below : UInt64 → Machine → Except Fault Machine) (path : List (Fin 512)) : Prop :=
  ∀ c t gone, follow (childAt boot s.mem) root path = some c → Freed boot s t gone →
    Clear boot s root path gone →
    Meets (below (tablePointer boot c) t) (Released boot s root path gone 512) fun _ => False

/-- Below an entry lies its frame, or what lies below the entries of the table in it. -/
theorem Under.cases {m : Memory} {root c : Nat} {path : List (Fin 512)} {p : Nat}
    (under : Under boot m root path p) (leads : follow (childAt boot m) root path = some c) :
    p = c ∨ ∃ j, Under boot m root (path ++ [j]) p := by
  obtain ⟨rest, short, reached⟩ := under
  cases rest with
  | nil =>
    rw [List.append_nil, leads, Option.some.injEq] at reached
    exact Or.inl reached.symm
  | cons j rest =>
    rw [List.append_cons] at short reached
    exact Or.inr ⟨j, rest, short, reached⟩

/-- A longer path leads below a shorter one. -/
theorem Under.of_append {m : Memory} {root : Nat} {path : List (Fin 512)} {j : Fin 512} {p : Nat}
    (under : Under boot m root (path ++ [j]) p) : Under boot m root path p := by
  obtain ⟨rest, short, reached⟩ := under
  refine ⟨j :: rest, ?_, ?_⟩
  · rwa [List.append_assoc] at short
  · rwa [List.append_assoc] at reached

section Walk

variable {root : Nat} (limine : boot.Limine) (low : boot.UsableBelow (2 ^ 51))
  (mapping : Mapping boot s others spaces) (isLive : spaces.Root boot root)
  (releasable : LeavesReleasable boot s spaces root)

/-- Frames of usable memory below 2^51 have 39-bit numbers. -/
theorem Boot.UsableBelow.lt_39 {boot : Boot} (low : boot.UsableBelow (2 ^ 51)) {p : Nat}
    (usable : boot.UsablePage p) : p < 2 ^ 39 := by
  obtain ⟨entry, inMap, isUsable, -, upper⟩ := usable
  have := low entry inMap isUsable
  omega

include isLive in
/-- A path of at most three steps leads to a table. -/
theorem table_of_path {path : List (Fin 512)} {g : Nat} (short : path.length ≤ 3)
    (reached : follow (childAt boot s.mem) root path = some g) :
    TableFrame boot s.mem spaces g := ⟨root, path, isLive, short, reached⟩

include mapping isLive releasable in
/-- Whatever lies on a lower-half path may be handed out by the allocator. -/
theorem allocatable_of_path {path : List (Fin 512)} {p : Nat} (short : path.length ≤ 4)
    (lower : path.length = 4 → Lower path)
    (reached : follow (childAt boot s.mem) root path = some p) : s.Allocatable boot p := by
  by_cases full : path.length = 4
  · exact (releasable path p full (lower full) reached).1
  · exact mapping.owns.allocatable p (Or.inr (table_of_path isLive (by omega) reached))

include mapping isLive releasable in
/-- Frames below one entry are no tables on another path. -/
theorem not_under_other {path other : List (Fin 512)} {j : Fin 512} {g p : Nat}
    (lower : Lower (path ++ [j])) (short : other.length ≤ 3)
    (reached : follow (childAt boot s.mem) root other = some g)
    (elsewhere : ∀ rest, other ≠ path ++ [j] ++ rest)
    (under : Under boot s.mem root (path ++ [j]) p) : p ≠ g := by
  intro same
  rw [same] at under
  obtain ⟨rest, bounded, leads⟩ := under
  have table := table_of_path isLive short reached
  by_cases full : (path ++ [j] ++ rest).length = 4
  · have isLower : Lower (path ++ [j] ++ rest) := by
      obtain ⟨i, tail, split, small⟩ := lower
      exact ⟨i, tail ++ rest, by rw [split, List.cons_append], small⟩
    exact (releasable _ g full isLower leads).2 table
  · exact elsewhere rest (mapping.forest root other root (path ++ [j] ++ rest) g isLive isLive short
      (by omega) reached leads).2

include limine low mapping isLive releasable in
/-- One turn of a loop releases only frames below its entry, and all of them where no table is
skipped. -/
theorem destroyEntry_meets {below : UInt64 → Machine → Except Fault Machine}
    {path : List (Fin 512)} {f : Nat} {i : Fin 512} {gone : Nat → Prop}
    (releases : Releases boot s root below (path ++ [i])) (short : path.length ≤ 3)
    (lower : Lower (path ++ [i])) (reached : follow (childAt boot s.mem) root path = some f)
    (freed : Freed boot s t gone) (kept : ¬ gone f)
    (clear : Clear boot s root (path ++ [i]) gone) :
    Meets (destroyEntry boot below (tablePointer boot f) i t)
      (fun u => ∃ more : Nat → Prop, (∀ p, more p → Under boot s.mem root (path ++ [i]) p) ∧
        (Visible boot s → ∀ p, Under boot s.mem root (path ++ [i]) p → more p) ∧
        Freed boot s u fun p => gone p ∨ more p)
      fun _ => False := by
  have table := table_of_path isLive short reached
  have held := mapping.owns.allocatable f (Or.inr table)
  have entry : t.mem.entry (tablePointer boot f) (UInt64.ofNat i) = entryAt boot s.mem f i :=
    freed.entryAt_eq i (limine.usable_lt held.1) held.2.2 kept
  rw [destroyEntry, entry]
  cases isPresent : (entryAt boot s.mem f i).present with
  | false =>
    refine ⟨fun _ => False, fun p absurd => absurd.elim, ?_, ?_⟩
    · rintro - p ⟨rest, -, leads⟩
      rw [follow_append, follow_concat, reached, Option.bind_some, childAt, isPresent,
        if_neg Bool.false_ne_true] at leads
      cases leads
    · exact freed.noMore
  | true =>
    rw [if_pos rfl]
    have leads : follow (childAt boot s.mem) root (path ++ [i]) =
        some (entryAt boot s.mem f i).frame := by
      rw [follow_concat, reached]
      change childAt boot s.mem f i = _
      rw [childAt, isPresent, if_pos rfl]
    have length : (path ++ [i]).length ≤ 4 := by
      rw [List.length_append, List.length_singleton]
      omega
    have allocatable := allocatable_of_path mapping isLive releasable length (fun _ => lower) leads
    have pointer : (entryAt boot s.mem f i).narrowBase + bootProtoHhdmOffset boot =
        tablePointer boot (entryAt boot s.mem f i).frame :=
      narrowBase_eq_tablePointer (low.lt_39 allocatable.1)
    simp only [pointer]
    generalize (entryAt boot s.mem f i).frame = c at *
    apply (releases c t gone leads freed clear).bind
    intro u result
    obtain ⟨more, inside, whole, freedU⟩ := result
    apply (freedU.freeTable_meets limine mapping.owns.sized (mapping.owns.tracked c allocatable.1)
      allocatable).mono _ fun _ => id
    intro v freedV
    refine ⟨fun p => more p ∨ p = c, fun p either => ?_, fun visible p under => ?_, ?_⟩
    · cases either with
      | inl below =>
        obtain ⟨j, -, under⟩ := inside p below
        exact under.of_append
      | inr here => exact ⟨[], by rwa [List.append_nil], by rw [List.append_nil, leads, here]⟩
    · rcases under.cases leads with here | ⟨j, deeper⟩
      · exact Or.inr here
      · exact Or.inl (whole visible p j j.isLt deeper)
    · exact freedV.congr fun p => or_assoc

include mapping isLive releasable in
/-- Releases below the earlier entries of a table spare the table. -/
theorem Clear.kept {path : List (Fin 512)} {f i : Nat} {gone more : Nat → Prop}
    (clear : Clear boot s root path gone) (short : path.length ≤ 3)
    (reached : follow (childAt boot s.mem) root path = some f)
    (lower : ∀ j : Fin 512, j < i → Lower (path ++ [j]))
    (inside : ∀ p, more p → ∃ j : Fin 512, j < i ∧ Under boot s.mem root (path ++ [j]) p) :
    ¬ (gone f ∨ more f) := by
  intro either
  cases either with
  | inl isGone => exact clear [] f (by rwa [List.append_nil]) (by rwa [List.append_nil]) isGone
  | inr isMore =>
    obtain ⟨j, before, under⟩ := inside f isMore
    apply not_under_other mapping isLive releasable (lower j before) short reached _ under rfl
    intro rest same
    have length := congrArg List.length same
    simp only [List.length_append, List.length_singleton] at length
    omega

include mapping isLive releasable in
/-- Releases below the earlier entries of a table spare the tables below the next one. -/
theorem Clear.next {path : List (Fin 512)} {i : Fin 512} {gone more : Nat → Prop}
    (clear : Clear boot s root path gone) (lower : ∀ j : Fin 512, j < i → Lower (path ++ [j]))
    (inside : ∀ p, more p → ∃ j : Fin 512, j < i ∧ Under boot s.mem root (path ++ [j]) p) :
    Clear boot s root (path ++ [i]) fun p => gone p ∨ more p := by
  intro rest g bounded leads either
  cases either with
  | inl isGone =>
    rw [List.append_assoc] at bounded leads
    exact clear _ g bounded leads isGone
  | inr isMore =>
    obtain ⟨j, before, under⟩ := inside g isMore
    apply not_under_other mapping isLive releasable (lower j before) bounded leads _ under rfl
    intro rest' same
    rw [List.append_assoc, List.append_assoc] at same
    have index := (List.cons.inj (List.append_cancel_left same)).1
    rw [← index] at before
    exact lt_irrefl i before

include limine low mapping isLive releasable in
/-- A loop releases only frames below its entries, and all of them where no table is skipped. -/
theorem destroyLoop_meets {below : UInt64 → Machine → Except Fault Machine}
    {path : List (Fin 512)} {f count : Nat} {gone : Nat → Prop}
    (releases : ∀ i : Fin 512, i < count → Releases boot s root below (path ++ [i]))
    (short : path.length ≤ 3) (lower : ∀ i : Fin 512, i < count → Lower (path ++ [i]))
    (reached : follow (childAt boot s.mem) root path = some f) (freed : Freed boot s t gone)
    (clear : Clear boot s root path gone) (bound : count ≤ 512) :
    Meets (forLoop (destroyEntry boot below (tablePointer boot f)) 0 count t)
      (Released boot s root path gone count) fun _ => False := by
  have start : Released boot s root path gone 0 t :=
    ⟨fun _ => False, fun p absurd => absurd.elim, fun _ p j before => absurd before j.val.not_lt_zero,
      freed.noMore⟩
  have step : ∀ i u, 0 ≤ i → i < 0 + count → Released boot s root path gone i u →
      Meets (destroyEntry boot below (tablePointer boot f) i u)
        (Released boot s root path gone (i + 1)) fun _ => False := by
    intro i u _ small result
    obtain ⟨more, inside, whole, freedU⟩ := result
    rw [Nat.zero_add] at small
    have lowers (j : Fin 512) (before : j.val < i) : Lower (path ++ [j]) := lower j (by omega)
    have kept : ¬ (gone f ∨ more f) := clear.kept mapping isLive releasable short reached lowers inside
    have clearU : Clear boot s root (path ++ [⟨i, by omega⟩]) fun p => gone p ∨ more p :=
      clear.next mapping isLive releasable lowers inside
    apply (destroyEntry_meets limine low mapping isLive releasable (releases ⟨i, by omega⟩ small) short
      (lower ⟨i, by omega⟩ small) reached freedU kept clearU).mono _ fun _ => id
    intro v result
    obtain ⟨now, insideNow, wholeNow, freedV⟩ := result
    refine ⟨fun p => more p ∨ now p, fun p either => ?_, fun visible p j before under => ?_,
      freedV.congr fun p => or_assoc⟩
    · cases either with
      | inl isMore =>
        obtain ⟨j, before, under⟩ := inside p isMore
        exact ⟨j, Nat.lt_succ_of_lt before, under⟩
      | inr isNow => exact ⟨⟨i, by omega⟩, Nat.lt_succ_self i, insideNow p isNow⟩
    · rcases Nat.lt_succ_iff_lt_or_eq.mp before with earlier | last
      · exact Or.inl (whole visible p j earlier under)
      · have same : j = ⟨i, by omega⟩ := Fin.ext last
        exact Or.inr (wholeNow visible p (same ▸ under))
  have loop := forLoop_meets _ step start
  rwa [Nat.zero_add] at loop

include limine low mapping isLive releasable in
/-- The inner loops release only frames below their table, and all of them where none is skipped. -/
theorem destroyBelow_releases {below : UInt64 → Machine → Except Fault Machine}
    {path : List (Fin 512)} (releases : ∀ i, Releases boot s root below (path ++ [i]))
    (short : path.length ≤ 3) (lower : Lower path) :
    Releases boot s root (destroyBelow boot below) path := by
  intro c t gone reached freed clear
  have lowers : ∀ i : Fin 512, i.val < 512 → Lower (path ++ [i]) := by
    intro i _
    obtain ⟨first, rest, split, small⟩ := lower
    exact ⟨first, rest ++ [i], by rw [split, List.cons_append], small⟩
  have loop := destroyLoop_meets limine low mapping isLive releasable (fun i _ => releases i) short
    lowers reached freed clear (Nat.le_refl 512)
  by_cases null : tablePointer boot c = 0
  · -- A table at the null pointer is skipped.
    have skipped : destroyBelow boot below (tablePointer boot c) t = .ok t := by
      unfold destroyBelow
      simp only [null, ne_eq, not_true_eq_false, ↓reduceIte]
      exact forLoop_ok 0 512 t
    have allocatable := allocatable_of_path mapping isLive releasable (Nat.le_succ_of_le short)
      (fun full => by omega) reached
    rw [skipped]
    exact ⟨fun _ => False, fun p absurd => absurd.elim,
      fun visible _ _ _ _ => visible c allocatable null,
      freed.noMore⟩
  · have walked : destroyBelow boot below (tablePointer boot c) t =
        forLoop (destroyEntry boot below (tablePointer boot c)) 0 512 t := by
      unfold destroyBelow
      simp only [ne_eq, null, not_false_eq_true, ↓reduceIte]
    rw [walked]
    exact loop

/-- Below the last level there is nothing to do. -/
theorem pages_releases {path : List (Fin 512)} (full : path.length = 4) :
    Releases boot s root (fun _ s => .ok s) path := by
  intro c t gone _ freed _
  refine ⟨fun _ => False, fun p absurd => absurd.elim, ?_,
    freed.noMore⟩
  rintro - p j - ⟨rest, short, -⟩
  simp only [List.length_append, List.length_singleton] at short
  omega

/-- The lower half of an address space: its tables and the frames of its present pages. -/
def LowerHalf (boot : Boot) (m : Memory) (root p : Nat) : Prop :=
  ∃ path, path.length ≤ 4 ∧ (path = [] ∨ Lower path) ∧ follow (childAt boot m) root path = some p

include limine low mapping isLive releasable in
/-- `arch_vmm_destroy_pt` releases frames of the lower half only, and all of them where no table is
skipped; it fails no assertion. -/
theorem destroyPt_meets :
    Meets (archVmmDestroyPt boot (tablePointer boot root) s)
      (fun t => ∃ gone : Nat → Prop, (∀ p, gone p → LowerHalf boot s.mem root p) ∧
        (Visible boot s → ∀ p, LowerHalf boot s.mem root p → gone p) ∧ Freed boot s t gone)
      fun _ => False := by
  have reached : follow (childAt boot s.mem) root [] = some root := rfl
  have releases : ∀ i : Fin 512, i.val < 256 → Releases boot s root (destroyBelow boot
      (destroyBelow boot (destroyBelow boot fun _ s => .ok s))) ([] ++ [i]) := by
    intro i small
    apply destroyBelow_releases limine low mapping isLive releasable _ (by simp) ⟨i, [], rfl, small⟩
    intro j
    apply destroyBelow_releases limine low mapping isLive releasable _ (by simp) ⟨i, [j], rfl, small⟩
    intro k
    apply destroyBelow_releases limine low mapping isLive releasable _ (by simp)
      ⟨i, [j, k], rfl, small⟩
    intro l
    exact pages_releases rfl
  apply (destroyLoop_meets limine low mapping isLive releasable releases (Nat.zero_le 3)
    (fun i small => ⟨i, [], rfl, small⟩) reached (Freed.refl boot s) (fun _ _ _ _ => id)
    (by decide)).bind
  intro u result
  obtain ⟨more, inside, whole, freedU⟩ := result
  have held := mapping.owns.allocatable root (Or.inr ⟨root, [], isLive, Nat.zero_le 3, rfl⟩)
  apply (freedU.freeTable_meets limine mapping.owns.sized (mapping.owns.tracked root held.1)
    held).mono _ fun _ => id
  intro v freedV
  refine ⟨fun p => more p ∨ p = root, fun p either => ?_, ?_, ?_⟩
  · cases either with
    | inl isMore =>
      obtain ⟨j, small, rest, short, leads⟩ := inside p isMore
      exact ⟨_, short, Or.inr ⟨j, rest, rfl, small⟩, leads⟩
    | inr isRoot => exact ⟨[], Nat.zero_le 4, Or.inl rfl, by rw [isRoot]; rfl⟩
  · rintro visible p ⟨path, short, rfl | ⟨j, rest, rfl, small⟩, leads⟩
    · exact Or.inr (Option.some.inj leads).symm
    · exact Or.inl (whole visible p j small ⟨rest, short, leads⟩)
  · exact freedV.congr fun p => by rw [false_or]

include mapping isLive releasable in
/-- The lower half shares no table with another page table. -/
theorem lowerHalf_not_other {root' : Nat} {path : List (Fin 512)} {p : Nat}
    (isLive' : spaces.Root boot root') (different : root' ≠ root) (short : path.length ≤ 3)
    (reached : follow (childAt boot s.mem) root' path = some p) : ¬ LowerHalf boot s.mem root p := by
  intro inLower
  obtain ⟨mine, bounded, lower, leads⟩ := inLower
  by_cases full : mine.length = 4
  · cases lower with
    | inl empty =>
      rw [empty] at full
      cases full
    | inr isLower => exact (releasable mine p full isLower leads).2 (table_of_path isLive' short reached)
  · exact different (mapping.forest root' path root mine p isLive' isLive short (by omega) reached
      leads).1

include mapping isLive releasable in
/-- The lower half may be handed out by the allocator. -/
theorem lowerHalf_allocatable {p : Nat} (inLower : LowerHalf boot s.mem root p) :
    s.Allocatable boot p := by
  obtain ⟨path, short, lower, leads⟩ := inLower
  apply allocatable_of_path mapping isLive releasable short _ leads
  intro full
  cases lower with
  | inl empty =>
    rw [empty] at full
    cases full
  | inr isLower => exact isLower

end Walk

/-! ## The condition on the address spaces -/

/-- Every four indices are those of a page. -/
theorem exists_page (i j k l : Fin 512) : ∃ page : BitVec 36,
    upperPath page = [i, j, k] ∧ lastIndex page = l := by
  have hi := i.isLt
  have hj := j.isLt
  have hk := k.isLt
  have hl := l.isLt
  have value : (BitVec.ofNat 36 (i * 2 ^ 27 + j * 2 ^ 18 + k * 2 ^ 9 + l)).toNat =
      i * 2 ^ 27 + j * 2 ^ 18 + k * 2 ^ 9 + l := by
    rw [BitVec.toNat_ofNat]
    omega
  refine ⟨BitVec.ofNat 36 (i * 2 ^ 27 + j * 2 ^ 18 + k * 2 ^ 9 + l), ?_, ?_⟩
  · simp only [upperPath, value, List.cons.injEq, Fin.ext_iff, Fin.val_ofNat, and_true]
    omega
  · simp only [lastIndex, value, Fin.ext_iff, Fin.val_ofNat]
    omega

/-- A present page of the lower half has the frame. -/
def Space.HasLow (space : Space) (p : Nat) : Prop :=
  ∃ page, page.toNat < 2 ^ 35 ∧ (space page).present = true ∧ (space page).frame = p

/-- The frames of the present pages in the lower half may be handed out by the allocator and hold no
page table. -/
def Removable (boot : Boot) (s : Machine) (spaces : Spaces) (space : Space) : Prop :=
  ∀ p, space.HasLow p → s.Allocatable boot p ∧ ¬ TableFrame boot s.mem spaces p

/-- An address space whose destruction releases nothing that is not its own: the frames of its
present lower-half pages may be handed out by the allocator and hold no page table, and no
other address space maps one of them or one of its tables. -/
structure Disposable (boot : Boot) (s : Machine) (spaces : Spaces) (pt : UInt64) : Prop where
  /-- The frames of its present pages. -/
  leaves : ∀ space, spaces pt = some space → ∀ page, page.toNat < 2 ^ 35 →
    (space page).present = true → s.Allocatable boot (space page).frame ∧
      ¬ TableFrame boot s.mem spaces (space page).frame
  /-- Nobody else maps its frames. -/
  unshared : ∀ pt' space', pt' ≠ pt → spaces pt' = some space' → ∀ page,
    (space' page).present = true →
      ¬ LowerHalf boot s.mem (frameOf boot pt) (space' page).frame

/-- A path of four steps leads to the frame of a present page. -/
theorem Mapping.leaf_of_path (mapping : Mapping boot s others spaces) {pt : UInt64} {space : Space}
    (live : spaces pt = some space) {path : List (Fin 512)} {c : Nat} (full : path.length = 4)
    (leads : follow (childAt boot s.mem) (frameOf boot pt) path = some c) :
    ∃ page, path = upperPath page ++ [lastIndex page] ∧ (space page).present = true ∧
      (space page).frame = c := by
  obtain ⟨i, j, k, l, rfl⟩ : ∃ i j k l, path = [i, j, k, l] := by
    match path, full with
    | [i, j, k, l], _ => exact ⟨i, j, k, l, rfl⟩
  obtain ⟨page, upper, last⟩ := exists_page i j k l
  have split : [i, j, k, l] = upperPath page ++ [lastIndex page] := by rw [upper, last]; rfl
  refine ⟨page, split, ?_⟩
  rw [split, follow_concat] at leads
  have leaf := mapping.leaves pt space live page
  rw [lookup] at leaf
  cases reached : follow (childAt boot s.mem) (frameOf boot pt) (upperPath page) with
  | none =>
    rw [reached, Option.bind_none] at leads
    cases leads
  | some g =>
    rw [reached, Option.bind_some, childAt] at leads
    rw [reached] at leaf
    change (entryAt boot s.mem g (lastIndex page)).leaf = space page at leaf
    cases isPresent : (entryAt boot s.mem g (lastIndex page)).present with
    | false =>
      rw [isPresent, if_neg Bool.false_ne_true] at leads
      cases leads
    | true =>
      rw [isPresent, if_pos rfl, Option.some.injEq] at leads
      rw [← leaf]
      exact ⟨isPresent, leads⟩

/-- The path of a present page leads to its frame. -/
theorem Mapping.path_of_present (mapping : Mapping boot s others spaces) {pt : UInt64}
    {space : Space} (live : spaces pt = some space) {page : BitVec 36}
    (present : (space page).present = true) :
    follow (childAt boot s.mem) (frameOf boot pt) (upperPath page ++ [lastIndex page]) =
      some (space page).frame := by
  have leaf := mapping.leaves pt space live page
  rw [follow_concat]
  rw [lookup] at leaf
  cases reached : follow (childAt boot s.mem) (frameOf boot pt) (upperPath page) with
  | none =>
    rw [reached] at leaf
    rw [← leaf] at present
    cases present
  | some table =>
    rw [reached] at leaf
    change (entryAt boot s.mem table (lastIndex page)).leaf = space page at leaf
    rw [← leaf] at present ⊢
    change (entryAt boot s.mem table (lastIndex page)).present = true at present
    rw [Option.bind_some, childAt, if_pos present]
    rfl

/-- A page of the lower half has a small first index. -/
theorem upperPath_lower {page : BitVec 36} {i : Fin 512} {rest : List (Fin 512)}
    (split : upperPath page ++ [lastIndex page] = i :: rest) : i.val < 256 ↔ page.toNat < 2 ^ 35 := by
  have bound := page.isLt
  have first : i = Fin.ofNat 512 (page.toNat / 2 ^ 27) := (List.cons.inj split).1.symm
  rw [first, Fin.val_ofNat]
  omega

/-- A disposable address space is removable. -/
theorem Disposable.removable {pt : UInt64} {space : Space}
    (disposable : Disposable boot s spaces pt) (live : spaces pt = some space) :
    Removable boot s spaces space := by
  rintro p ⟨page, bounded, present, rfl⟩
  exact disposable.leaves space live page bounded present

/-- The condition in terms of paths. -/
theorem Removable.releasable {pt : UInt64} {space : Space}
    (removable : Removable boot s spaces space) (mapping : Mapping boot s others spaces)
    (live : spaces pt = some space) : LeavesReleasable boot s spaces (frameOf boot pt) := by
  intro path c full lower leads
  obtain ⟨page, split, present, frame⟩ := mapping.leaf_of_path live full leads
  obtain ⟨i, rest, start, small⟩ := lower
  have bounded := (upperPath_lower (split.symm.trans start)).mp small
  exact removable c ⟨page, bounded, present, frame⟩

/-! ## The other address spaces -/

/-- The roots that remain are roots of other page tables. -/
theorem Spaces.root_erase {pt : UInt64} {frame : Nat}
    (isRoot : Spaces.Root boot (Function.update spaces pt none) frame) :
    ∃ pt' space, pt' ≠ pt ∧ spaces pt' = some space ∧ frameOf boot pt' = frame := by
  obtain ⟨pt', space, live, here⟩ := isRoot
  by_cases same : pt' = pt
  · rw [same, Function.update_self] at live
    cases live
  · rw [Function.update_of_ne same] at live
    exact ⟨pt', space, same, live, here⟩

/-- Without one page table there are fewer roots. -/
theorem Spaces.root_of_erase {pt : UInt64} {frame : Nat}
    (isRoot : Spaces.Root boot (Function.update spaces pt none) frame) : spaces.Root boot frame := by
  obtain ⟨pt', space, -, live, here⟩ := Spaces.root_erase isRoot
  exact ⟨pt', space, live, here⟩

/-- Without one page table there are fewer tables. -/
theorem TableFrame.of_erase {pt : UInt64} {p : Nat}
    (table : TableFrame boot s.mem (Function.update spaces pt none) p) :
    TableFrame boot s.mem spaces p := by
  obtain ⟨root, path, isRoot, short, reached⟩ := table
  exact ⟨root, path, Spaces.root_of_erase isRoot, short, reached⟩

/-- Without one page table the other address spaces stay represented. -/
theorem Mapping.forget (mapping : Mapping boot s others spaces) (pt : UInt64) :
    Mapping boot s (fun p => (others p ∨ TableFrame boot s.mem spaces p) ∧
      ¬ TableFrame boot s.mem (Function.update spaces pt none) p) (Function.update spaces pt none) := by
  refine ⟨?_, fun p table both => both.2 table, ?_, ?_, ?_, ?_⟩
  · apply mapping.owns.congr
    intro p
    by_cases table : TableFrame boot s.mem (Function.update spaces pt none) p
    · exact iff_of_true (Or.inr table.of_erase) (Or.inr table)
    · rw [and_iff_left table, or_iff_left table]
  · intro pt' space live
    by_cases same : pt' = pt
    · rw [same, Function.update_self] at live
      cases live
    · rw [Function.update_of_ne same] at live
      exact mapping.roots pt' space live
  · intro root path root' path' n isRoot isRoot' short short' reached reached'
    exact mapping.forest root path root' path' n (Spaces.root_of_erase isRoot)
      (Spaces.root_of_erase isRoot') short short' reached reached'
  · intro frame i inner
    obtain ⟨root, path, isRoot, short, reached⟩ := inner
    exact mapping.inner frame i ⟨root, path, Spaces.root_of_erase isRoot, short, reached⟩
  · intro pt' space live page
    by_cases same : pt' = pt
    · rw [same, Function.update_self] at live
      cases live
    · rw [Function.update_of_ne same] at live
      exact mapping.leaves pt' space live page

/-- The frame holds a table of the upper half of a page table. -/
def UpperTable (boot : Boot) (m : Memory) (root p : Nat) : Prop :=
  ∃ i rest, 256 ≤ i.val ∧ (i :: rest).length ≤ 3 ∧ follow (childAt boot m) root (i :: rest) = some p

/-- A present page of the lower half is part of it. -/
theorem Mapping.lowerHalf_of_hasLow (mapping : Mapping boot s others spaces) {pt : UInt64}
    {space : Space} (live : spaces pt = some space) {p : Nat} (low : space.HasLow p) :
    LowerHalf boot s.mem (frameOf boot pt) p := by
  obtain ⟨page, bounded, present, rfl⟩ := low
  exact ⟨upperPath page ++ [lastIndex page], Nat.le_refl 4,
    Or.inr ⟨_, _, rfl, (upperPath_lower rfl).mpr bounded⟩, mapping.path_of_present live present⟩

/-- The lower half of a removable address space has no table of another page table. -/
theorem Mapping.not_lowerHalf (mapping : Mapping boot s others spaces) {pt : UInt64} {space : Space}
    (live : spaces pt = some space) (removable : Removable boot s spaces space) {p : Nat}
    (table : TableFrame boot s.mem (Function.update spaces pt none) p) :
    ¬ LowerHalf boot s.mem (frameOf boot pt) p := by
  obtain ⟨root, path, isRoot, short, reached⟩ := table
  obtain ⟨pt', space', different, live', here⟩ := Spaces.root_erase isRoot
  have otherRoot : root ≠ frameOf boot pt := by
    intro same
    apply different
    rw [mapping.roots pt' space' live', here, same, ← mapping.roots pt space live]
  exact lowerHalf_not_other mapping (Spaces.root_of_some live) (removable.releasable mapping live)
    ⟨pt', space', live', here⟩ otherRoot short reached

/-- Releases in the lower half change no entry of another page table. -/
theorem Mapping.entryAt_of_freed (limine : boot.Limine) (mapping : Mapping boot s others spaces)
    {pt : UInt64} {space : Space} (live : spaces pt = some space)
    (removable : Removable boot s spaces space) {gone : Nat → Prop} (freed : Freed boot s t gone)
    (inside : ∀ p, gone p → LowerHalf boot s.mem (frameOf boot pt) p) {frame : Nat} (i : Fin 512)
    (table : TableFrame boot s.mem (Function.update spaces pt none) frame) :
    entryAt boot t.mem frame i = entryAt boot s.mem frame i := by
  have held := (mapping.forget pt).owns.allocatable frame (Or.inr table)
  exact freed.entryAt_eq i (limine.usable_lt held.1) held.2.2 fun isGone =>
    mapping.not_lowerHalf live removable table (inside frame isGone)

/-- Releases in the lower half leave the other page tables their tables. -/
theorem Mapping.tables_of_freed (limine : boot.Limine) (mapping : Mapping boot s others spaces)
    {pt : UInt64} {space : Space} (live : spaces pt = some space)
    (removable : Removable boot s spaces space) {gone : Nat → Prop} (freed : Freed boot s t gone)
    (inside : ∀ p, gone p → LowerHalf boot s.mem (frameOf boot pt) p) :
    TableFrame boot t.mem (Function.update spaces pt none) =
      TableFrame boot s.mem (Function.update spaces pt none) :=
  funext fun p => propext (within_congr (fun _ i above => childAt_congr
    (mapping.entryAt_of_freed limine live removable freed inside i above.within)) p)

/-- What was held and is still allocated without being a table of a live page table. -/
def leftOver (boot : Boot) (s t : Machine) (others : Nat → Prop) (spaces : Spaces) (pt : UInt64)
    (p : Nat) : Prop :=
  ((others p ∨ TableFrame boot s.mem spaces p) ∧ t.Allocated p) ∧
    ¬ TableFrame boot t.mem (Function.update spaces pt none) p

/-- The destruction of a removable address space fails no assertion and releases frames of its lower
half only, and all of them where no table is skipped. -/
theorem Mapping.destroy_frees (limine : boot.Limine) (low : boot.UsableBelow (2 ^ 51))
    (mapping : Mapping boot s others spaces) {pt : UInt64} {space : Space}
    (live : spaces pt = some space) (removable : Removable boot s spaces space) :
    Meets (archVmmDestroyPt boot pt s)
      (fun t => ∃ gone : Nat → Prop, (∀ p, gone p → LowerHalf boot s.mem (frameOf boot pt) p) ∧
        (Visible boot s → ∀ p, LowerHalf boot s.mem (frameOf boot pt) p → gone p) ∧
        Freed boot s t gone)
      fun _ => False := by
  have destroyed := destroyPt_meets limine low mapping (Spaces.root_of_some live)
    (removable.releasable mapping live)
  rwa [← mapping.roots pt space live] at destroyed

/-- The destruction of a removable address space fails no assertion, keeps the other address
spaces, and releases only frames of its lower half, and all of them where no table is skipped. -/
theorem Mapping.destroy_meets (limine : boot.Limine) (low : boot.UsableBelow (2 ^ 51))
    (mapping : Mapping boot s others spaces) {pt : UInt64} {space : Space}
    (live : spaces pt = some space) (removable : Removable boot s spaces space) :
    Meets (archVmmDestroyPt boot pt s)
      (fun t => Mapping boot t (leftOver boot s t others spaces pt) (Function.update spaces pt none) ∧
        (∀ p, s.Tracked p → s.Allocated p → ¬ t.Allocated p → s.Allocatable boot p ∧
          LowerHalf boot s.mem (frameOf boot pt) p ∧
          ¬ TableFrame boot t.mem (Function.update spaces pt none) p) ∧
        (Visible boot s → ∀ p, LowerHalf boot s.mem (frameOf boot pt) p → ¬ t.Allocated p))
      fun _ => False := by
  have isLive : spaces.Root boot (frameOf boot pt) := Spaces.root_of_some live
  have releasable := removable.releasable mapping live
  apply (mapping.destroy_frees limine low live removable).mono _ fun _ => id
  intro t result
  obtain ⟨gone, inside, whole, freed⟩ := result
  have allocatable : ∀ p, gone p → s.Allocatable boot p := fun p isGone =>
    lowerHalf_allocatable mapping isLive releasable (inside p isGone)
  have keptTable : ∀ p, TableFrame boot s.mem (Function.update spaces pt none) p → ¬ gone p :=
    fun p table isGone => mapping.not_lowerHalf live removable table (inside p isGone)
  have tables := mapping.tables_of_freed limine live removable freed inside
  have bits : ∀ p, others p ∨ TableFrame boot s.mem spaces p → (t.Allocated p ↔ ¬ gone p) := by
    intro p has
    have tracked := mapping.owns.tracked p (mapping.owns.allocatable p has).1
    rw [freed.bits p tracked, mapping.owns.bits p tracked]
    exact and_iff_right (Or.inr has)
  refine ⟨?_, ?_, ?_⟩
  · apply (mapping.forget pt).congr
      (fun _ i => mapping.entryAt_of_freed limine live removable freed inside i)
    · apply (freed.owns mapping.owns allocatable).congr
      intro p
      rw [leftOver, tables]
      by_cases table : TableFrame boot s.mem (Function.update spaces pt none) p
      · exact iff_of_true ⟨Or.inr table.of_erase, keptTable p table⟩ (Or.inr table)
      · rw [or_iff_left table, and_iff_left table]
        exact and_congr_right fun has => (bits p has).symm
    · intro p table left
      rw [leftOver, tables] at left
      exact left.2 table
  · intro p tracked allocated free
    rw [freed.bits p tracked, not_and, not_not] at free
    have isGone := free allocated
    refine ⟨allocatable p isGone, inside p isGone, ?_⟩
    rw [tables]
    exact fun table => keptTable p table isGone
  · intro visible p inLower stays
    have isGone := whole visible p inLower
    have tracked := mapping.owns.tracked p (allocatable p isGone).1
    exact ((freed.bits p tracked).mp stays).2 isGone

/-! ## Runs with destructions -/

/-- Runs of the operations on page tables in which disposable address spaces are destroyed. -/
inductive Lifecycle (boot : Boot) : Machine → (Nat → Prop) → Spaces → Prop
  | start {s : Machine} {held : Nat → Prop} (run : Owned boot s held) :
    Lifecycle boot s held fun _ => none
  | step {op : PagingOp} {s s' : Machine} {others others' : Nat → Prop} {spaces : Spaces}
    (run : Lifecycle boot s others spaces) (next : PagingStep boot spaces s others op s' others') :
    Lifecycle boot s' others' (spaces.apply op)
  | destroy {s t : Machine} {others : Nat → Prop} {spaces : Spaces} {pt : UInt64} {space : Space}
    (run : Lifecycle boot s others spaces) (live : spaces pt = some space)
    (disposable : Disposable boot s spaces pt) (returned : archVmmDestroyPt boot pt s = .ok t) :
    Lifecycle boot t (leftOver boot s t others spaces pt) (Function.update spaces pt none)

/-- A bound on the usable memory may grow. -/
theorem Boot.UsableBelow.mono {bound more : Nat} (low : boot.UsableBelow bound) (le : bound ≤ more) :
    boot.UsableBelow more := fun entry inMap usable => Nat.le_trans (low entry inMap usable) le

/-- Every run with destructions represents its address spaces. -/
theorem Lifecycle.mapping (limine : boot.Limine) (low : boot.UsableBelow (2 ^ 51))
    (run : Lifecycle boot s others spaces) : Mapping boot s others spaces := by
  induction run with
  | start run => exact (run.owns limine).mapping
  | step _ next ih => exact next.mapping limine (low.mono (by decide)) ih
  | destroy _ live disposable returned ih =>
    exact ((ih.destroy_meets limine low live (disposable.removable live)).of_ok returned).1

/-- Destroying a disposable address space returns, and no frame becomes free that is reserved,
or that is a table frame of another live page table or mapped present by one. -/
theorem destroy_releases_own (limine : boot.Limine) (low : boot.UsableBelow (2 ^ 51))
    (run : Lifecycle boot s others spaces) {pt : UInt64} {space : Space}
    (live : spaces pt = some space) (disposable : Disposable boot s spaces pt) :
    ∃ t, archVmmDestroyPt boot pt s = .ok t ∧
      ∀ p, s.Tracked p → s.Allocated p → ¬ t.Allocated p →
        boot.UsablePage p ∧ p ≠ 0 ∧ ¬ s.BitmapFrame boot p ∧
        ¬ TableFrame boot t.mem (Function.update spaces pt none) p ∧
        ∀ pt' space', pt' ≠ pt → spaces pt' = some space' → ∀ virtAddr tr,
          walk boot t.mem pt' virtAddr = some tr → tr.leaf.present = true → tr.leaf.frame ≠ p := by
  have mapping := run.mapping limine low
  obtain ⟨t, returned, after, released, -⟩ :=
    (mapping.destroy_meets limine low live (disposable.removable live)).returns
  refine ⟨t, returned, fun p tracked allocated free => ?_⟩
  obtain ⟨⟨usable, nonzero, notBitmap⟩, inLower, notTable⟩ := released p tracked allocated free
  refine ⟨usable, nonzero, notBitmap, notTable, ?_⟩
  intro pt' space' different live' virtAddr tr walked present same
  have stays : Function.update spaces pt none pt' = some space' := by
    rw [Function.update_of_ne different, live']
  rw [after.walk_eq stays virtAddr, Option.some.injEq] at walked
  rw [← walked] at present same
  change (space' (pageNumber virtAddr)).frame = p at same
  apply disposable.unshared pt' space' different live' (pageNumber virtAddr) present
  rw [same]
  exact inLower

/-- The usable memory of the small memory map ends below 2^51. -/
theorem smallBoot_low_51 : smallBoot.UsableBelow (2 ^ 51) := by
  unfold Boot.UsableBelow
  decide

/-- The usable pages of the small memory map. -/
theorem smallBoot_lt {p : Nat} (usable : smallBoot.UsablePage p) : p < 16 := by
  have below : ∀ entry ∈ smallBoot.entries, entry.stop ≤ 4096 * 16 := by decide
  obtain ⟨entry, inMap, -, -, upper⟩ := usable
  have := below entry inMap
  omega

/-- None of them lies at the null pointer. -/
theorem smallBoot_nonnull {p : Nat} (small : p < 16) : tablePointer smallBoot p ≠ 0 := by
  have each : ∀ q < 16, tablePointer smallBoot q ≠ 0 := by decide
  exact each p small

/-- Every run without destructions is one with destructions. -/
theorem Paged.lifecycle {ops : List PagingOp} (run : Paged boot ops s others) :
    Lifecycle boot s others (spacesOf ops) := by
  induction run with
  | start run => exact Lifecycle.start run
  | step _ next ih => exact ih.step next

/-- The only live page table of a run. -/
theorem spacesOf_map_only {pt pt' physAddr virtAddr : UInt64} {flags : Int32} {space : Space}
    (live : spacesOf [.map pt physAddr virtAddr flags, .newPt pt] pt' = some space) : pt' = pt := by
  by_contra different
  rw [spacesOf, Spaces.apply, Function.update_of_ne different, spacesOf, Spaces.apply,
    Function.update_of_ne different] at live
  cases live

/-- An address space with a frame of its own is destroyed on the small memory map. -/
theorem destroy_releases_own_smallBoot : ∃ pt s t,
    Lifecycle smallBoot s smallBootHeld
      (spacesOf [.map pt 0x2000 0x1000 (vmmPresent ||| vmmRw), .newPt pt]) ∧
    archVmmDestroyPt smallBoot pt s = .ok t := by
  obtain ⟨pt, s, run, -⟩ := smallBoot_maps (show (0x2000 : UInt64).toNat < 2 ^ 52 by decide) 0x1000
    (vmmPresent ||| vmmRw)
  have mapping := run.mapping smallBoot_limine smallBoot_low
  have live := spacesOf_map pt 0x2000 0x1000 (vmmPresent ||| vmmRw)
  have held : smallBootHeld 2 := Or.inr ⟨by decide, by decide⟩
  have disposable : Disposable smallBoot s
      (spacesOf [.map pt 0x2000 0x1000 (vmmPresent ||| vmmRw), .newPt pt]) pt := by
    refine ⟨fun space isLive page lower present => ?_, fun pt' space' different isLive => ?_⟩
    · rw [live, Option.some.injEq] at isLive
      rw [← isLive, Space.map] at present ⊢
      by_cases same : page = pageNumber 0x1000
      · rw [same, Function.update_self]
        exact ⟨mapping.owns.allocatable 2 (Or.inl held), fun table => mapping.apart 2 table held⟩
      · rw [Function.update_of_ne same] at present
        cases present
    · exact absurd (spacesOf_map_only isLive) different
  obtain ⟨t, returned, -⟩ := destroy_releases_own smallBoot_limine smallBoot_low_51 run.lifecycle live
    disposable
  exact ⟨pt, s, t, run.lifecycle, returned⟩

/-! ## A page in a frame that the allocator does not track -/

/-- The fault of releasing an untracked frame. -/
def clearFault : Fault :=
  .assertion "pmm_bitmap_clear" "PMM bitmap clear operation out of bounds!\n"

/-- The release of an untracked frame fails the bounds assertion. -/
theorem freeTable_untracked {c : Nat} (small : c < 2 ^ 52) (untracked : ¬ s.Tracked c) :
    freeTable boot (tablePointer boot c) s = .error clearFault := by
  have first : (UInt64.ofNat (4096 * c) >>> 12).toNat = c := by
    rw [UInt64.toNat_shiftRight, Nat.shiftRight_eq_div_pow, toNat_ofNat_of_fits (by omega)]
    change 4096 * c / 4096 = c
    omega
  have stop : (UInt64.ofNat (4096 * c) >>> 12 + wordOfInt 1).toNat = c + 1 := by
    rw [toNat_add_of_fits (by rw [first]; change c + 1 < _; omega), first]
    rfl
  have turn : pmmBitmapClear (UInt64.ofNat c) s = .error clearFault := by
    rw [pmmBitmapClear_eq, toNat_ofNat_of_fits (by omega), if_neg untracked]
    rfl
  rw [freeTable, bootProtoHhdmOffset, tablePointer_sub, pmmFree, pmmFreeBits, forRange, first, stop,
    Nat.add_sub_cancel_left]
  change (forLoop _ c (0 + 1) s >>= _) = _
  rw [forLoop_error turn]
  rfl

/-- A turn of a loop at a present entry ends with the error of the loop below. -/
theorem destroyEntry_error {below : UInt64 → Machine → Except Fault Machine} {f c i : Nat}
    {e : Fault} {index : Fin 512} (position : index.val = i)
    (child : childAt boot s.mem f index = some c) (small : c < 2 ^ 39)
    (failed : (below (tablePointer boot c) s >>= freeTable boot (tablePointer boot c)) = .error e) :
    destroyEntry boot below (tablePointer boot f) i s = .error e := by
  subst position
  have entry : s.mem.entry (tablePointer boot f) (UInt64.ofNat index) = entryAt boot s.mem f index :=
    rfl
  rw [childAt] at child
  cases isPresent : (entryAt boot s.mem f index).present with
  | false =>
    rw [isPresent, if_neg Bool.false_ne_true] at child
    cases child
  | true =>
    rw [isPresent, if_pos rfl, Option.some.injEq] at child
    rw [← child] at small failed
    have pointer : (entryAt boot s.mem f index).narrowBase + boot.offset = _ :=
      narrowBase_eq_tablePointer small
    rw [destroyEntry, entry, isPresent, if_pos rfl, bootProtoHhdmOffset, pointer]
    exact failed

/-- An inner loop ends with the error of its first turn. -/
theorem destroyBelow_error {below : UInt64 → Machine → Except Fault Machine} {table : UInt64}
    {e : Fault} (nonnull : table ≠ 0) (failed : destroyEntry boot below table 0 s = .error e) :
    destroyBelow boot below table s = .error e := by
  unfold destroyBelow
  apply forLoop_error
  rw [if_pos nonnull, failed]

/-- The tables on the way to page zero of an address space. -/
theorem Mapping.first_chain (mapping : Mapping boot s others spaces) {pt : UInt64} {space : Space}
    (live : spaces pt = some space) (present : (space 0).present = true) :
    ∃ pdp pd table, childAt boot s.mem (frameOf boot pt) 0 = some pdp ∧
      childAt boot s.mem pdp 0 = some pd ∧ childAt boot s.mem pd 0 = some table ∧
      (entryAt boot s.mem table 0).leaf = space 0 := by
  have leaf := mapping.leaves pt space live 0
  rw [lookup] at leaf
  cases reached : follow (childAt boot s.mem) (frameOf boot pt) (upperPath 0) with
  | none =>
    rw [reached] at leaf
    rw [← leaf] at present
    cases present
  | some table =>
    rw [reached] at leaf
    have path : follow (childAt boot s.mem) (frameOf boot pt) [0, 0, 0] = some table := reached
    obtain ⟨pdp, pd, edgePdp, edgePd, edgeTable⟩ := exists_of_follow_three path
    exact ⟨pdp, pd, table, edgePdp, edgePd, edgeTable, leaf⟩

/-- Destroying a table that maps page zero of the address space to an untracked frame trips the
assertion of the allocator. -/
theorem Mapping.destroy_untracked (mapping : Mapping boot s others spaces) {pt : UInt64}
    {space : Space} (live : spaces pt = some space) (present : (space 0).present = true)
    (untracked : ¬ s.Tracked (space 0).frame) (low : boot.UsableBelow (2 ^ 51))
    (nonnull : ∀ p, boot.UsablePage p → tablePointer boot p ≠ 0)
    (small : (space 0).frame < 2 ^ 39) : archVmmDestroyPt boot pt s = .error clearFault := by
  obtain ⟨pdp, pd, table, edgePdp, edgePd, edgeTable, leaf⟩ := mapping.first_chain live present
  have isLive : spaces.Root boot (frameOf boot pt) := Spaces.root_of_some live
  have atRoot : TableFrame boot s.mem spaces (frameOf boot pt) :=
    ⟨_, [], isLive, Nat.zero_le 3, rfl⟩
  have atPdp : TableFrame boot s.mem spaces pdp :=
    ⟨_, [0], isLive, by decide, by simp only [follow, edgePdp, Option.bind_some]⟩
  have atPd : TableFrame boot s.mem spaces pd :=
    ⟨_, [0, 0], isLive, by decide, by simp only [follow, edgePdp, edgePd, Option.bind_some]⟩
  have atTable : TableFrame boot s.mem spaces table :=
    ⟨_, [0, 0, 0], isLive, by decide,
      by simp only [follow, edgePdp, edgePd, edgeTable, Option.bind_some]⟩
  have usable {p : Nat} (isTable : TableFrame boot s.mem spaces p) : boot.UsablePage p :=
    (mapping.owns.allocatable p (Or.inr isTable)).1
  have edgeFrame : childAt boot s.mem table 0 = some (space 0).frame := by
    rw [← leaf] at present ⊢
    change (entryAt boot s.mem table 0).present = true at present
    rw [childAt, if_pos present]
    rfl
  -- The release of the untracked frame fails, and so does each loop around it.
  have atLast : destroyBelow boot (fun _ s => .ok s) (tablePointer boot table) s = .error clearFault :=
    destroyBelow_error (nonnull table (usable atTable)) (destroyEntry_error rfl edgeFrame
      small (freeTable_untracked (by omega) untracked))
  have atThird : destroyBelow boot (destroyBelow boot fun _ s => .ok s) (tablePointer boot pd) s =
      .error clearFault :=
    destroyBelow_error (nonnull pd (usable atPd)) (destroyEntry_error rfl edgeTable
      (low.lt_39 (usable atTable)) (by rw [atLast]; rfl))
  have atSecond : destroyBelow boot (destroyBelow boot (destroyBelow boot fun _ s => .ok s))
      (tablePointer boot pdp) s = .error clearFault :=
    destroyBelow_error (nonnull pdp (usable atPdp)) (destroyEntry_error rfl edgePd
      (low.lt_39 (usable atPd)) (by rw [atThird]; rfl))
  have atFirst : destroyEntry boot (destroyBelow boot (destroyBelow boot
      (destroyBelow boot fun _ s => .ok s))) (tablePointer boot (frameOf boot pt)) 0 s =
      .error clearFault :=
    destroyEntry_error rfl edgePdp (low.lt_39 (usable atPdp))
      (by rw [atSecond]; rfl)
  rw [← mapping.roots pt space live] at atFirst
  rw [archVmmDestroyPt]
  change (forLoop _ 0 (255 + 1) s >>= _) = _
  rw [forLoop_error atFirst]
  rfl

/-- A page table with one mapping of a reserved frame above the last tracked page cannot be
destroyed. -/
theorem destroy_reserved : ∃ pt s, Paged smallBoot
      [.map pt 0x100000 0 (vmmPresent ||| vmmRw), .newPt pt] s smallBootHeld ∧
    archVmmDestroyPt smallBoot pt s = .error clearFault := by
  obtain ⟨pt, s, run, size⟩ := smallBoot_maps (show (0x100000 : UInt64).toNat < 2 ^ 52 by decide) 0
    (vmmPresent ||| vmmRw)
  have mapping := run.mapping smallBoot_limine smallBoot_low
  have live := spacesOf_map pt 0x100000 0 (vmmPresent ||| vmmRw)
  have present : (Space.map (fun _ => Leaf.zero) (pageNumber 0) 256 (vmmPresent ||| vmmRw) 0).present
      = true := by decide
  have frame : (Space.map (fun _ => Leaf.zero) (pageNumber 0) 256 (vmmPresent ||| vmmRw) 0).frame
      = 256 := by decide
  have untracked : ¬ s.Tracked 256 := by
    rw [Machine.Tracked, size]
    decide
  refine ⟨pt, s, run, mapping.destroy_untracked live present ?_ smallBoot_low_51 ?_ ?_⟩
  · exact frame.symm ▸ untracked
  · exact fun p usable => smallBoot_nonnull (smallBoot_lt usable)
  · exact frame.symm ▸ (by decide : 256 < 2 ^ 39)

end Symphony
