import Symphony.Spec.Teardown
import Symphony.Verif.Filling

/-!
# What a destruction releases

The loops of `arch_vmm_destroy_pt` are a visit of the tree of tables: they read and free what
`visits` lists, in its order, because a table that was not freed yet still has its entries.
-/

namespace Symphony

variable {boot : Boot} {s t : Machine}

/-- The entries that the loops look at: the lower half of the top-level table, and every entry
of another table, unless it lies at the null pointer. -/
def tableIndices (boot : Boot) (depth frame : Nat) : List (Fin 512) :=
  if depth = 4 then (List.finRange 512).take 256
  else if tablePointer boot frame = 0 then [] else List.finRange 512

/-- The accesses below a table. -/
def visitsOf (boot : Boot) (m : Memory) : Nat → Nat → List (Event Nat) :=
  visits (childAt boot m) (tableIndices boot)

/-- No entry is looked at twice. -/
theorem nodup_tableIndices (depth frame : Nat) : (tableIndices boot depth frame).Nodup := by
  unfold tableIndices
  by_cases top : depth = 4
  · rw [if_pos top]
    exact (List.nodup_finRange 512).sublist (List.take_sublist 256 _)
  · rw [if_neg top]
    by_cases null : tablePointer boot frame = 0
    · rw [if_pos null]
      exact List.nodup_nil
    · rw [if_neg null]
      exact List.nodup_finRange 512

/-- The accesses went as planned: the frames freed so far are released, and nothing else. -/
structure Watched.Follows (boot : Boot) (s : Machine) (events : List (Event Nat)) (w : Watched) :
    Prop where
  /-- The accesses. -/
  same : w.events = events
  /-- The released frames. -/
  freed : Freed boot s w.machine fun p => .free p ∈ events

/-- A frame that a turn may free. -/
def Releasable (boot : Boot) (s : Machine) (p : Nat) : Prop := s.Allocatable boot p ∧ p < 2 ^ 39

/-- The release of a frame is the next access. -/
theorem watchFree_meets (limine : boot.Limine) (sized : s.Sized) {w : Watched}
    {events : List (Event Nat)} {c : Nat} (follows : w.Follows boot s events)
    (tracked : s.Tracked c) (allocatable : s.Allocatable boot c) :
    Meets (watchFree boot (tablePointer boot c) w) (Watched.Follows boot s (events ++ [.free c]))
      fun _ => False := by
  have small := limine.usable_lt allocatable.1
  have release := follows.freed.freeTable_meets limine sized tracked allocatable
  unfold watchFree
  cases returned : freeTable boot (tablePointer boot c) w.machine with
  | error e => exact release.of_error returned
  | ok u =>
    refine ⟨?_, (release.of_ok returned).congr fun p => ?_⟩
    · dsimp only
      rw [follows.same, frameOf_tablePointer boot small]
    · rw [List.mem_append, List.mem_singleton, Event.free.injEq]

/-- The loops of some levels visit what lies below a table. -/
def Visits (boot : Boot) (s : Machine) (depth : Nat) : Prop :=
  ∀ c w before, s.Allocatable boot c →
    (∀ k, .free k ∈ visitsOf boot s.mem depth c → Releasable boot s k) →
    Ordered (before ++ visitsOf boot s.mem depth c) → w.Follows boot s before →
    Meets (watchLevels boot depth (tablePointer boot c) w)
      (Watched.Follows boot s (before ++ visitsOf boot s.mem depth c)) fun _ => False

/-- The start of a sequence uses no node that was freed. -/
theorem Ordered.left {N : Type} {before after : List (Event N)} (ordered : Ordered (before ++ after)) :
    Ordered before := (List.pairwise_append.mp ordered).1

/-- A node that is read next was not freed. -/
theorem Ordered.not_freed {N : Type} {before after : List (Event N)} {n : N}
    (ordered : Ordered (before ++ .read n :: after)) : .free n ∉ before := by
  intro freed
  exact ((List.pairwise_append.mp ordered).2.2 _ freed _ List.mem_cons_self n rfl).1 rfl

/-- One turn of a loop reads the table and visits what lies below the entry. -/
theorem watchEntry_meets (limine : boot.Limine) (sized : s.Sized)
    (tracked : ∀ p, boot.UsablePage p → s.Tracked p) {depth c : Nat} {i : Fin 512} {w : Watched}
    {before : List (Event Nat)} (below : Visits boot s depth) (allocatable : s.Allocatable boot c)
    (releasable : ∀ k, .free k ∈ turn (childAt boot s.mem) (visitsOf boot s.mem depth) c i →
      Releasable boot s k)
    (ordered : Ordered (before ++ turn (childAt boot s.mem) (visitsOf boot s.mem depth) c i))
    (follows : w.Follows boot s before) :
    Meets (watchEntry boot (watchLevels boot depth) (tablePointer boot c) i w)
      (Watched.Follows boot s
        (before ++ turn (childAt boot s.mem) (visitsOf boot s.mem depth) c i)) fun _ => False := by
  have small := limine.usable_lt allocatable.1
  -- The table was not freed yet, so that its entry is the old one.
  have entry : w.machine.mem.entry (tablePointer boot c) (UInt64.ofNat i) = entryAt boot s.mem c i :=
    follows.freed.entryAt_eq i small allocatable.2.2 ordered.not_freed
  have accessed : Watched.Follows boot s (before ++ [.read c])
      { w with events := w.events ++ [.read (frameOf boot (tablePointer boot c))] } := by
    refine ⟨by rw [follows.same, frameOf_tablePointer boot small], follows.freed.congr fun p => ?_⟩
    simp
  unfold watchEntry
  rw [entry]
  dsimp only
  unfold turn at ordered releasable ⊢
  cases isPresent : (entryAt boot s.mem c i).present with
  | false =>
    have edge : childAt boot s.mem c i = none := by
      rw [childAt, isPresent, if_neg Bool.false_ne_true]
    rw [edge, Option.elim_none, if_neg Bool.false_ne_true]
    exact accessed
  | true =>
    have edge : childAt boot s.mem c i = some (entryAt boot s.mem c i).frame := by
      rw [childAt, isPresent, if_pos rfl]
    rw [edge, Option.elim_some] at ordered releasable ⊢
    rw [if_pos rfl]
    have last := releasable (entryAt boot s.mem c i).frame (by simp)
    have pointer : (entryAt boot s.mem c i).narrowBase + bootProtoHhdmOffset boot =
        tablePointer boot (entryAt boot s.mem c i).frame := narrowBase_eq_tablePointer last.2
    rw [pointer]
    generalize (entryAt boot s.mem c i).frame = k at *
    have split : before ++ .read c :: (visitsOf boot s.mem depth k ++ [.free k]) =
        before ++ [.read c] ++ visitsOf boot s.mem depth k ++ [.free k] := by simp
    rw [split] at ordered ⊢
    apply (below k _ (before ++ [.read c]) last.1 (fun k' freed => releasable k' (by simp [freed]))
      ordered.left accessed).bind
    intro w' follows'
    exact watchFree_meets limine sized follows' (tracked k last.1.1) last.1

/-- The accesses of the first turns of a loop over a table. -/
def firstTurns (boot : Boot) (m : Memory) (depth c count : Nat) : List (Event Nat) :=
  ((List.finRange 512).take count).flatMap (turn (childAt boot m) (visitsOf boot m depth) c)

/-- The accesses of one more turn. -/
theorem firstTurns_succ (boot : Boot) (m : Memory) (depth c : Nat) {i : Nat} (small : i < 512) :
    firstTurns boot m depth c (i + 1) = firstTurns boot m depth c i ++
      turn (childAt boot m) (visitsOf boot m depth) c ⟨i, small⟩ := by
  have one : (List.finRange 512)[i]? = some ⟨i, small⟩ := by simp [small]
  rw [firstTurns, firstTurns, List.take_add_one, one, List.flatMap_append]
  simp

/-- Fewer turns come first. -/
theorem firstTurns_prefix (boot : Boot) (m : Memory) (depth c : Nat) {i count : Nat} (le : i ≤ count) :
    ∃ rest, firstTurns boot m depth c count = firstTurns boot m depth c i ++ rest := by
  refine ⟨(((List.finRange 512).take count).drop i).flatMap
    (turn (childAt boot m) (visitsOf boot m depth) c), ?_⟩
  rw [firstTurns, firstTurns, ← List.flatMap_append]
  have start : (List.finRange 512).take i = ((List.finRange 512).take count).take i := by
    rw [List.take_take, Nat.min_eq_left le]
  rw [start, List.take_append_drop]

/-- The turns of a loop visit the first entries of a table. -/
theorem watchLoop_meets (limine : boot.Limine) (sized : s.Sized)
    (tracked : ∀ p, boot.UsablePage p → s.Tracked p) {depth c count : Nat} {w : Watched}
    {before : List (Event Nat)} (below : Visits boot s depth) (allocatable : s.Allocatable boot c)
    (bound : count ≤ 512)
    (releasable : ∀ k, .free k ∈ firstTurns boot s.mem depth c count → Releasable boot s k)
    (ordered : Ordered (before ++ firstTurns boot s.mem depth c count))
    (follows : w.Follows boot s before) :
    Meets (forLoop (watchEntry boot (watchLevels boot depth) (tablePointer boot c)) 0 count w)
      (Watched.Follows boot s (before ++ firstTurns boot s.mem depth c count)) fun _ => False := by
  have step : ∀ i u, 0 ≤ i → i < 0 + count →
      u.Follows boot s (before ++ firstTurns boot s.mem depth c i) →
      Meets (watchEntry boot (watchLevels boot depth) (tablePointer boot c) i u)
        (Watched.Follows boot s (before ++ firstTurns boot s.mem depth c (i + 1))) fun _ => False := by
    intro i u _ small follows
    rw [Nat.zero_add] at small
    obtain ⟨rest, split⟩ := firstTurns_prefix boot s.mem depth c (show i + 1 ≤ count from small)
    rw [firstTurns_succ boot s.mem depth c (show i < 512 by omega)] at split ⊢
    rw [split, ← List.append_assoc, ← List.append_assoc] at ordered
    rw [← List.append_assoc]
    apply watchEntry_meets limine sized tracked (i := ⟨i, by omega⟩) below allocatable _ ordered.left
      follows
    intro k freed
    apply releasable k
    rw [split, List.mem_append, List.mem_append]
    exact Or.inl (Or.inr freed)
  have start : w.Follows boot s (before ++ firstTurns boot s.mem depth c 0) := by
    simpa [firstTurns] using follows
  have loop := forLoop_meets _ step start
  rwa [Nat.zero_add] at loop

/-- The inner loops visit what lies below their table. -/
theorem watchLevels_visits (limine : boot.Limine) (sized : s.Sized)
    (tracked : ∀ p, boot.UsablePage p → s.Tracked p) {depth : Nat} (short : depth ≤ 3) :
    Visits boot s depth := by
  induction depth with
  | zero =>
    intro c w before _ _ _ follows
    have none : visitsOf boot s.mem 0 c = [] := rfl
    rw [none, List.append_nil]
    exact follows
  | succ depth ih =>
    intro c w before allocatable releasable ordered follows
    have inner : ¬ depth + 1 = 4 := by omega
    by_cases null : tablePointer boot c = 0
    · -- A table at the null pointer is skipped.
      have none : visitsOf boot s.mem (depth + 1) c = [] := by
        rw [visitsOf, visits, tableIndices, if_neg inner, if_pos null, List.flatMap_nil]
      have skipped : watchLevels boot (depth + 1) (tablePointer boot c) w = .ok w := by
        rw [watchLevels, watchBelow]
        simp only [null, ne_eq, not_true_eq_false, ↓reduceIte]
        exact forLoop_ok 0 512 w
      rw [skipped, none, List.append_nil]
      exact follows
    · have all : visitsOf boot s.mem (depth + 1) c = firstTurns boot s.mem depth c 512 := by
        rw [visitsOf, visits, tableIndices, if_neg inner, if_neg null, firstTurns,
          List.take_of_length_le (by simp)]
        rfl
      have walked : watchLevels boot (depth + 1) (tablePointer boot c) w =
          forLoop (watchEntry boot (watchLevels boot depth) (tablePointer boot c)) 0 512 w := by
        rw [watchLevels, watchBelow]
        simp only [ne_eq, null, not_false_eq_true, ↓reduceIte]
      rw [all] at releasable ordered ⊢
      rw [walked]
      exact watchLoop_meets limine sized tracked (ih (by omega)) allocatable (Nat.le_refl 512)
        releasable ordered follows

/-- The accesses of `arch_vmm_destroy_pt`. -/
def destroyEvents (boot : Boot) (m : Memory) (root : Nat) : List (Event Nat) :=
  visitsOf boot m 4 root ++ [.free root]

/-- Where each frame that is visited may be released and no freed one is used again,
`arch_vmm_destroy_pt` visits the tree of tables and releases the frames that the visit frees. -/
theorem watchDestroyPt_meets (limine : boot.Limine) (sized : s.Sized)
    (tracked : ∀ p, boot.UsablePage p → s.Tracked p) {root : Nat}
    (allocatable : s.Allocatable boot root)
    (releasable : ∀ k, .free k ∈ visitsOf boot s.mem 4 root → Releasable boot s k)
    (ordered : Ordered (visitsOf boot s.mem 4 root)) :
    Meets (watchDestroyPt boot (tablePointer boot root) s)
      (Watched.Follows boot s (destroyEvents boot s.mem root)) fun _ => False := by
  have all : visitsOf boot s.mem 4 root = firstTurns boot s.mem 3 root 256 := by
    unfold firstTurns visitsOf
    rw [visits, tableIndices, if_pos rfl]
  have start : Watched.Follows boot s [] ⟨s, []⟩ := by
    refine ⟨rfl, (Freed.refl boot s).congr fun p => ?_⟩
    simp
  rw [all] at releasable ordered
  rw [destroyEvents, all]
  apply (watchLoop_meets limine sized tracked (watchLevels_visits limine sized tracked (Nat.le_refl 3))
    allocatable (by decide) releasable (by rwa [List.nil_append]) start).bind
  intro w follows
  rw [List.nil_append] at follows
  exact watchFree_meets limine sized follows (tracked root allocatable.1) allocatable

/-! ## The frames of an address space -/

/-- The frame of a present page. -/
def LeafFrame (space : Space) (p : Nat) : Prop :=
  ∃ page, (space page).present = true ∧ (space page).frame = p

/-- Every present page has a frame of its own, below 2^51, that another owner holds. -/
structure OwnLeaves (others : Nat → Prop) (space : Space) : Prop where
  /-- The frame is held. -/
  held : ∀ page, (space page).present = true → others (space page).frame
  /-- It lies below 2^51. -/
  low : ∀ page, (space page).present = true → (space page).frame < 2 ^ 39
  /-- No other page has it. -/
  distinct : ∀ page page', (space page).present = true → (space page').present = true →
    (space page).frame = (space page').frame → page = page'

variable {others taken : Nat → Prop} {spaces : Spaces} {space : Space} {pt : UInt64} {start : Machine}

/-- No frame of the address space is found on two paths. -/
theorem OwnLeaves.path_unique (leaves : OwnLeaves others space) (mapping : Mapping boot s others spaces)
    (live : spaces pt = some space) {path path' : List (Fin 512)} {m : Nat} (short : path.length ≤ 4)
    (short' : path'.length ≤ 4)
    (reached : follow (childAt boot s.mem) (frameOf boot pt) path = some m)
    (reached' : follow (childAt boot s.mem) (frameOf boot pt) path' = some m) : path = path' := by
  have isLive : spaces.Root boot (frameOf boot pt) := Spaces.root_of_some live
  have mixed {q q' : List (Fin 512)} (full : q.length = 4) (table : q'.length ≤ 3)
      (leads : follow (childAt boot s.mem) (frameOf boot pt) q = some m)
      (leads' : follow (childAt boot s.mem) (frameOf boot pt) q' = some m) : False := by
    obtain ⟨page, -, present, frame⟩ := mapping.leaf_of_path live full leads
    have held := leaves.held page present
    rw [frame] at held
    exact mapping.apart m ⟨_, q', isLive, table, leads'⟩ held
  by_cases full : path.length = 4
  · by_cases full' : path'.length = 4
    · obtain ⟨page, split, present, frame⟩ := mapping.leaf_of_path live full reached
      obtain ⟨page', split', present', frame'⟩ := mapping.leaf_of_path live full' reached'
      have same := leaves.distinct page page' present present' (frame.trans frame'.symm)
      rw [split, split', same]
    · exact (mixed full (by omega) reached reached').elim
  · by_cases full' : path'.length = 4
    · exact (mixed full' (by omega) reached' reached).elim
    · exact (mapping.forest _ path _ path' m isLive isLive (by omega) (by omega) reached reached').2

/-- What a path leads to is a table that was taken or the frame of a page. -/
theorem Filled.own_of_path (filled : Filled boot pt start s others spaces taken)
    (live : spaces pt = some space) {path : List (Fin 512)} {p : Nat} (short : path.length ≤ 4)
    (reached : follow (childAt boot s.mem) (frameOf boot pt) path = some p) :
    taken p ∨ LeafFrame space p := by
  by_cases full : path.length = 4
  · obtain ⟨page, -, present, frame⟩ := filled.mapping.leaf_of_path live full reached
    exact Or.inr ⟨page, present, frame⟩
  · exact Or.inl ((filled.tables p).mpr ⟨path, by omega, reached⟩)

/-- A frame of a present page is found on a path. -/
theorem Mapping.path_of_leaf (mapping : Mapping boot s others spaces) (live : spaces pt = some space)
    {p : Nat} (leaf : LeafFrame space p) : ∃ path, path.length = 4 ∧
      follow (childAt boot s.mem) (frameOf boot pt) path = some p := by
  obtain ⟨page, present, rfl⟩ := leaf
  exact ⟨upperPath page ++ [lastIndex page], rfl, mapping.path_of_present live present⟩

/-- The frames of an address space are allocated. -/
theorem Filled.own_allocatable (filled : Filled boot pt start s others spaces taken)
    (live : spaces pt = some space) (leaves : OwnLeaves others space) {p : Nat}
    (own : taken p ∨ LeafFrame space p) : s.Allocatable boot p ∧ s.Tracked p ∧ s.Allocated p := by
  have held : others p ∨ TableFrame boot s.mem spaces p := by
    rcases own with table | ⟨page, present, frame⟩
    · obtain ⟨path, short, reached⟩ := (filled.tables p).mp table
      exact Or.inr ⟨_, path, Spaces.root_of_some live, short, reached⟩
    · exact Or.inl (frame ▸ leaves.held page present)
  have allocatable := filled.mapping.owns.allocatable p held
  have tracked := filled.mapping.owns.tracked p allocatable.1
  exact ⟨allocatable, tracked, (filled.mapping.owns.bits p tracked).mpr (Or.inr held)⟩

end Symphony
