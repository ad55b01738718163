import Symphony.Library.Forest
import Symphony.Verif.Entries

/-!
# Page tables in memory represent address spaces

`Mapping` relates a machine to the address spaces of its page tables: the tables form a
forest of depth three in frames that nobody else holds, the entries above the last level
restrict nothing, and the entries of the last level are the leaves of the spaces. The
walker of `mm.c` keeps the relation while it creates tables; a write to an entry of the
last level changes one leaf of one space.
-/

namespace Symphony

/-- The table below a present entry. -/
def childAt (boot : Boot) (m : Memory) (frame : Nat) (i : Fin 512) : Option Nat :=
  if (entryAt boot m frame i).present then some (entryAt boot m frame i).frame else none

/-- The leaf in an entry. -/
def leafAt (boot : Boot) (m : Memory) (frame : Nat) (i : Fin 512) : Leaf :=
  (entryAt boot m frame i).leaf

/-- The address spaces of the live page tables, by the pointer that `arch_vmm_new_pt` returned. -/
abbrev Spaces := UInt64 → Option Space

/-- Frames of top-level tables. -/
def Spaces.Root (boot : Boot) (spaces : Spaces) (frame : Nat) : Prop :=
  ∃ pt space, spaces pt = some space ∧ frameOf boot pt = frame

/-- Frames of the tables of all levels. -/
def TableFrame (boot : Boot) (m : Memory) (spaces : Spaces) : Nat → Prop :=
  Within (childAt boot m) (spaces.Root boot) 3

/-- Frames of the tables above the last level. -/
def InnerFrame (boot : Boot) (m : Memory) (spaces : Spaces) : Nat → Prop :=
  Above (childAt boot m) (spaces.Root boot) 3

/-- An entry above the last level restricts nothing and maps no large page. -/
structure PageTableEntry.Inner (e : PageTableEntry) : Prop where
  /-- It is no large page. -/
  pageSize : e.pageSize = false
  /-- It allows execution. -/
  nx : e.nx = false
  /-- A present entry allows writing and user access. -/
  present : e.present = true → e.readWrite = true ∧ e.userSupervisor = true
  /-- Its address is a frame number. -/
  address : e.addr.toNat < 2 ^ 40

/-- The page tables of the machine represent the address spaces. -/
structure Mapping (boot : Boot) (s : Machine) (others : Nat → Prop) (spaces : Spaces) : Prop where
  /-- The page tables and the other owners hold the allocated frames. -/
  owns : s.Owns boot fun p => others p ∨ TableFrame boot s.mem spaces p
  /-- No other owner holds a table. -/
  apart : ∀ p, TableFrame boot s.mem spaces p → ¬ others p
  /-- Page tables are known by the pointers to their frames. -/
  roots : ∀ pt space, spaces pt = some space → pt = tablePointer boot (frameOf boot pt)
  /-- Every table has one place. -/
  forest : Forest (childAt boot s.mem) (spaces.Root boot) 3
  /-- The entries above the last level. -/
  inner : ∀ frame i, InnerFrame boot s.mem spaces frame → (entryAt boot s.mem frame i).Inner
  /-- The entries of the last level. -/
  leaves : ∀ pt space, spaces pt = some space → ∀ page,
    lookup (childAt boot s.mem) (leafAt boot s.mem) .zero (frameOf boot pt) (upperPath page)
      (lastIndex page) = space page

/-- The usable memory ends at or below a physical address. -/
def Boot.UsableBelow (boot : Boot) (bound : Nat) : Prop :=
  ∀ entry ∈ boot.entries, entry.type = .usable → entry.stop ≤ bound

/-- Usable pages below 2^52 have 40-bit frame numbers. -/
theorem Boot.UsableBelow.lt {boot : Boot} (low : boot.UsableBelow (2 ^ 52)) {p : Nat}
    (usable : boot.UsablePage p) : p < 2 ^ 40 := by
  obtain ⟨entry, inMap, isUsable, -, upper⟩ := usable
  have := low entry inMap isUsable
  omega

variable {boot : Boot} {s s' : Machine} {others : Nat → Prop} {spaces : Spaces}

/-- A live page table is a root. -/
theorem Spaces.root_of_some {pt : UInt64} {space : Space} (live : spaces pt = some space) :
    spaces.Root boot (frameOf boot pt) := ⟨pt, space, live, rfl⟩

/-- Replacing the address space of a live page table keeps the roots. -/
theorem Spaces.root_update {pt : UInt64} {space : Space} (live : spaces pt = some space)
    (new : Space) : Spaces.Root boot (Function.update spaces pt (some new)) = spaces.Root boot := by
  funext frame
  apply propext
  constructor
  · intro root
    obtain ⟨pt', space', isLive, here⟩ := root
    by_cases same : pt' = pt
    · exact ⟨pt, space, live, by rw [← same, here]⟩
    · rw [Function.update_of_ne same] at isLive
      exact ⟨pt', space', isLive, here⟩
  · intro root
    obtain ⟨pt', space', isLive, here⟩ := root
    by_cases same : pt' = pt
    · exact ⟨pt', new, by rw [same, Function.update_self], here⟩
    · exact ⟨pt', space', by rw [Function.update_of_ne same, isLive], here⟩

/-- A new page table adds its frame to the roots. -/
theorem Spaces.root_insert {pt : UInt64} (new : spaces pt = none) (space : Space) :
    Spaces.Root boot (Function.update spaces pt (some space)) =
      fun frame => spaces.Root boot frame ∨ frame = frameOf boot pt := by
  funext frame
  apply propext
  constructor
  · intro root
    obtain ⟨pt', space', isLive, here⟩ := root
    by_cases same : pt' = pt
    · exact Or.inr (by rw [← here, same])
    · rw [Function.update_of_ne same] at isLive
      exact Or.inl ⟨pt', space', isLive, here⟩
  · intro root
    cases root with
    | inl old =>
      obtain ⟨pt', space', isLive, here⟩ := old
      have different : pt' ≠ pt := by
        intro same
        rw [same, new] at isLive
        cases isLive
      exact ⟨pt', space', by rw [Function.update_of_ne different, isLive], here⟩
    | inr here => exact ⟨pt, space, Function.update_self pt _ spaces, here.symm⟩

/-- Equal entries of a table have equal edges. -/
theorem childAt_congr {m m' : Memory} {frame : Nat} {i : Fin 512}
    (same : entryAt boot m' frame i = entryAt boot m frame i) :
    childAt boot m' frame i = childAt boot m frame i := by
  rw [childAt, childAt, same]

/-- A held frame is no frame of the bitmap and has a number of 52 bits. -/
theorem Machine.Owns.not_inBitmap {held : Nat → Prop} (owns : s.Owns boot held) {p : Nat}
    (has : held p) {a : UInt64} (inBitmap : s.InBitmap a) : frameOf boot a ≠ p := by
  intro here
  exact (owns.allocatable p has).2.2 ⟨a, inBitmap, here⟩

/-- A store to an entry in a held frame keeps the bitmap. -/
theorem Machine.Owns.store_bitmap {held : Nat → Prop} (limine : boot.Limine)
    (owns : s.Owns boot held) {frame : Nat} (has : held frame) (i : Fin 512) (e : PageTableEntry)
    (a : UInt64) (inBitmap : s.InBitmap a) :
    (s.mem.store64 (entryPointer (tablePointer boot frame) (UInt64.ofNat i)) e.encode).byte a =
      s.mem.byte a :=
  store_byte (limine.usable_lt (owns.allocatable frame has).1) e (owns.not_inBitmap has inBitmap)

/-- A new table lies in a frame that nobody held, is empty, and disturbs no held frame. -/
theorem newTable_meets {held : Nat → Prop} (limine : boot.Limine) (owns : s.Owns boot held) :
    Meets (newTable boot s)
      (fun r => ∃ c, r.1 = tablePointer boot c ∧ ¬ held c ∧
        r.2.Owns boot (fun p => held p ∨ p = c) ∧
        (∀ j, entryAt boot r.2.mem c j = .empty) ∧
        (∀ g j, held g → entryAt boot r.2.mem g j = entryAt boot s.mem g j) ∧ s.Uses r.2 1)
      (s.Exhausted 1) := by
  unfold newTable
  refine ((owns.alloc limine).mono (fun _ => id) fun _ => exhausted_of_no_run).bind
    fun r allocated => ?_
  obtain ⟨base, t⟩ := r
  obtain ⟨aligned, range, marks, ownsT⟩ := allocated
  have pages (p : Nat) : PageRange base 1 p ↔ p = base.toNat / 4096 := by
    unfold PageRange
    change _ ∧ p < base.toNat / 4096 + 1 ↔ _
    omega
  simp only [pages] at range ownsT marks
  obtain ⟨allocatable, notHeld⟩ := range _ rfl
  have small := limine.usable_lt allocatable.1
  have pointer : base + bootProtoHhdmOffset boot = tablePointer boot (base.toNat / 4096) := by
    rw [tablePointer, Nat.mul_div_cancel' aligned, UInt64.ofNat_toNat]
    rfl
  have bitmapKept : ∀ a, t.InBitmap a →
      (memset t.mem (base + bootProtoHhdmOffset boot) 0 4096).byte a = t.mem.byte a := by
    intro a inBitmap
    rw [pointer]
    exact memset_table_byte small (ownsT.not_inBitmap (Or.inr rfl) inBitmap)
  refine ⟨base.toNat / 4096, pointer, notHeld, ownsT.write bitmapKept, ?_, ?_, ?_⟩
  · intro j
    dsimp only
    rw [pointer, entryAt_memset small small, if_pos rfl]
  · intro g j has
    have smallG := limine.usable_lt (owns.allocatable g has).1
    have different : g ≠ base.toNat / 4096 := by
      intro same
      rw [same] at has
      exact notHeld has
    dsimp only
    rw [pointer, entryAt_memset small smallG, if_neg different]
    apply entryAt_congr smallG
    intro a inG
    apply marks.writes.byte_eq
    intro inBitmap
    exact owns.not_inBitmap has inBitmap inG
  · exact (Machine.Uses.of_marks marks).trans (Machine.Uses.of_write ownsT.sized bitmapKept)

namespace Mapping

/-- Steps that leave the entries of the tables alone keep the address spaces. -/
theorem congr {others' : Nat → Prop} (mapping : Mapping boot s others spaces)
    (same : ∀ frame i, TableFrame boot s.mem spaces frame →
      entryAt boot s'.mem frame i = entryAt boot s.mem frame i)
    (owns : s'.Owns boot fun p => others' p ∨ TableFrame boot s.mem spaces p)
    (apart : ∀ p, TableFrame boot s.mem spaces p → ¬ others' p) :
    Mapping boot s' others' spaces := by
  have edges : ∀ frame i, Above (childAt boot s.mem) (spaces.Root boot) 3 frame →
      childAt boot s'.mem frame i = childAt boot s.mem frame i :=
    fun frame i above => childAt_congr (same frame i above.within)
  have tables : TableFrame boot s'.mem spaces = TableFrame boot s.mem spaces :=
    funext fun p => propext (within_congr edges p)
  refine ⟨by rw [tables]; exact owns, by rw [tables]; exact apart, mapping.roots,
    mapping.forest.congr edges, ?_, ?_⟩
  · intro frame i inner
    obtain ⟨root, path, isLive, short, reached⟩ := inner
    rw [follow_eq_of_above edges isLive (Nat.le_of_lt short)] at reached
    rw [same frame i ⟨root, path, isLive, Nat.le_of_lt short, reached⟩]
    exact mapping.inner frame i ⟨root, path, isLive, short, reached⟩
  · intro pt space live page
    rw [← mapping.leaves pt space live page]
    apply lookup_congr edges _ (Spaces.root_of_some live) (Nat.le_of_eq (length_upperPath page))
    intro frame i table
    rw [leafAt, leafAt, same frame i table]

/-! ### The walker -/

/-- A present entry for a new empty table keeps the address spaces. -/
theorem grow (mapping : Mapping boot s others spaces) {root frame c : Nat} {path : List (Fin 512)}
    {i : Fin 512} {e : PageTableEntry} (isLive : spaces.Root boot root) (short : path.length < 3)
    (reached : follow (childAt boot s.mem) root path = some frame)
    (absent : (entryAt boot s.mem frame i).present = false)
    (notTable : ¬ TableFrame boot s.mem spaces c) (notOthers : ¬ others c)
    (isInner : e.Inner) (isPresent : e.present = true) (address : e.frame = c)
    (here : entryAt boot s'.mem frame i = e)
    (fresh : ∀ j, entryAt boot s'.mem c j = .empty)
    (kept : ∀ g j, TableFrame boot s.mem spaces g → ¬ (g = frame ∧ j = i) →
      entryAt boot s'.mem g j = entryAt boot s.mem g j)
    (owns : s'.Owns boot fun p => (others p ∨ TableFrame boot s.mem spaces p) ∨ p = c) :
    Mapping boot s' others spaces ∧
      follow (childAt boot s'.mem) root (path ++ [i]) = some c ∧
      Extends (childAt boot s.mem) (childAt boot s'.mem) (spaces.Root boot) 3 root (path ++ [i]) := by
  have grows : Grows (childAt boot s.mem) (childAt boot s'.mem) (spaces.Root boot) 3 frame i c := by
    refine ⟨⟨root, path, isLive, short, reached⟩, ?_, ?_, notTable, ?_, ?_⟩
    · rw [childAt, absent, if_neg Bool.false_ne_true]
    · rw [childAt, here, isPresent, if_pos rfl, address]
    · intro j
      rw [childAt, fresh j]
      rfl
    · intro g j above elsewhere
      exact childAt_congr (kept g j above.within elsewhere)
  have tables (p : Nat) : TableFrame boot s'.mem spaces p ↔ TableFrame boot s.mem spaces p ∨ p = c :=
    grows.within_iff p
  refine ⟨⟨?_, ?_, mapping.roots, grows.forest mapping.forest, ?_, ?_⟩, ?_,
    grows.extends mapping.forest isLive short reached⟩
  · exact owns.congr fun p => by rw [tables, or_assoc]
  · intro p table
    cases (tables p).mp table with
    | inl old => exact mapping.apart p old
    | inr new => exact new ▸ notOthers
  · intro g j above
    cases grows.above above with
    | inl old =>
      by_cases same : g = frame ∧ j = i
      · rw [same.1, same.2, here]
        exact isInner
      · rw [kept g j old.within same]
        exact mapping.inner g j old
    | inr new =>
      rw [new, fresh j]
      exact ⟨rfl, rfl, fun absurd => Bool.noConfusion absurd, Nat.two_pow_pos 40⟩
  · intro pt space live page
    rw [← mapping.leaves pt space live page]
    apply grows.lookup_eq _ _ mapping.forest (Spaces.root_of_some live) (length_upperPath page)
    · intro g j table elsewhere
      rw [leafAt, leafAt, kept g j table fun both => elsewhere both.1]
    · intro j
      rw [leafAt, fresh j]
      rfl
  · rw [follow_concat, grows.follow_old isLive (Nat.le_of_lt short) reached]
    exact grows.edge

/-- `tableBelow` creates the table of an entry that is not present. -/
theorem create_meets (limine : boot.Limine) (low : boot.UsableBelow (2 ^ 52))
    (mapping : Mapping boot s others spaces) {root frame : Nat} {path : List (Fin 512)} {i : Fin 512}
    (isLive : spaces.Root boot root) (short : path.length < 3)
    (reached : follow (childAt boot s.mem) root path = some frame)
    (absent : (entryAt boot s.mem frame i).present = false) :
    Meets (tableBelow boot (tablePointer boot frame) (UInt64.ofNat i) s)
      (fun r => ∃ g, r.1 = tablePointer boot g ∧ s.Uses r.2 1 ∧ Mapping boot r.2 others spaces ∧
        follow (childAt boot r.2.mem) root (path ++ [i]) = some g ∧
        Extends (childAt boot s.mem) (childAt boot r.2.mem) (spaces.Root boot) 3 root (path ++ [i]))
      (s.Exhausted 1) := by
  have inner : InnerFrame boot s.mem spaces frame := ⟨root, path, isLive, short, reached⟩
  have has : others frame ∨ TableFrame boot s.mem spaces frame := Or.inr inner.within
  have small := limine.usable_lt (mapping.owns.allocatable frame has).1
  have entry : s.mem.entry (tablePointer boot frame) (UInt64.ofNat i) =
      entryAt boot s.mem frame i := rfl
  simp only [tableBelow, entry, absent, Bool.false_eq_true, ↓reduceIte]
  refine (newTable_meets limine mapping.owns).bind fun r created => ?_
  obtain ⟨table, t⟩ := r
  obtain ⟨c, rfl, notHeld, owns, empty, keeps, uses⟩ := created
  have cLow : c < 2 ^ 40 := low.lt (owns.allocatable c (Or.inr rfl)).1
  have cSmall : c < 2 ^ 52 := by omega
  have different : c ≠ frame := fun same => notHeld (same ▸ has)
  have address : (PageTableEntry.addrOfWord
      ((tablePointer boot c - bootProtoHhdmOffset boot) >>> 12)).toNat = c := by
    rw [bootProtoHhdmOffset, tablePointer_sub, addrOfWord_toNat, toNat_ofNat_of_fits (by omega)]
    omega
  -- What the entry and the memory are after the table was entered.
  dsimp only
  generalize made : ({ entryAt boot s.mem frame i with
    addr := PageTableEntry.addrOfWord ((tablePointer boot c - bootProtoHhdmOffset boot) >>> 12)
    present := true
    readWrite := true
    userSupervisor := true } : PageTableEntry) = e
  have entries : ∀ g j, g < 2 ^ 52 → entryAt boot (t.mem.setEntry (tablePointer boot frame)
      (UInt64.ofNat i) e) g j = if g = frame ∧ j = i then e else entryAt boot t.mem g j :=
    fun g j smallG => entryAt_store small smallG e
  have kept : ∀ g j, TableFrame boot s.mem spaces g → ¬ (g = frame ∧ j = i) →
      entryAt boot (t.mem.setEntry (tablePointer boot frame) (UInt64.ofNat i) e) g j =
        entryAt boot s.mem g j := by
    intro g j isTable elsewhere
    have smallG := limine.usable_lt (mapping.owns.allocatable g (Or.inr isTable)).1
    rw [entries g j smallG, if_neg elsewhere, keeps g j (Or.inr isTable)]
  have fresh : ∀ j, entryAt boot (t.mem.setEntry (tablePointer boot frame) (UInt64.ofNat i) e) c j =
      .empty := by
    intro j
    rw [entries c j cSmall, if_neg fun both => different both.1, empty]
  have here : entryAt boot (t.mem.setEntry (tablePointer boot frame) (UInt64.ofNat i) e) frame i =
      e := by
    rw [entries frame i small, if_pos ⟨rfl, rfl⟩]
  have isPresent : e.present = true := by
    subst made
    rfl
  have field : e.addr.toNat = c := by
    subst made
    exact address
  have value : e.frame = c := by rw [PageTableEntry.frame, field, Nat.mod_eq_of_lt cLow]
  have isInner : e.Inner := by
    have old := mapping.inner frame i inner
    subst made
    exact ⟨old.pageSize, old.nx, fun _ => ⟨rfl, rfl⟩, field.symm ▸ cLow⟩
  have stored := owns.store_bitmap limine (Or.inl has) i e
  exact ⟨c, rfl, uses.trans (Machine.Uses.of_write owns.sized stored),
    mapping.grow isLive short reached absent (fun isTable => notHeld (Or.inr isTable))
      (fun isOther => notHeld (Or.inl isOther)) isInner isPresent value here fresh kept
      (owns.write stored)⟩

/-- The block of the walker finds the table below a present entry. -/
theorem tableBelow_of_child (mapping : Mapping boot s others spaces) {frame c : Nat} {i : Fin 512}
    (inner : InnerFrame boot s.mem spaces frame) (child : childAt boot s.mem frame i = some c) :
    tableBelow boot (tablePointer boot frame) (UInt64.ofNat i) s = .ok (tablePointer boot c, s) := by
  have entry : s.mem.entry (tablePointer boot frame) (UInt64.ofNat i) =
      entryAt boot s.mem frame i := rfl
  have address := (mapping.inner frame i inner).address
  rw [childAt] at child
  cases isPresent : (entryAt boot s.mem frame i).present with
  | false =>
    rw [isPresent, if_neg Bool.false_ne_true] at child
    cases child
  | true =>
    rw [isPresent, if_pos rfl, Option.some.injEq] at child
    simp only [tableBelow, entry, isPresent, ↓reduceIte]
    rw [bootProtoHhdmOffset, base_eq_tablePointer address, ← child, PageTableEntry.frame,
      Nat.mod_eq_of_lt address]

/-- The block of the walker returns the table below an entry and keeps the address spaces. -/
theorem tableBelow_meets (limine : boot.Limine) (low : boot.UsableBelow (2 ^ 52))
    (mapping : Mapping boot s others spaces) {root frame : Nat} {path : List (Fin 512)}
    (i : Fin 512) (isLive : spaces.Root boot root) (short : path.length < 3)
    (reached : follow (childAt boot s.mem) root path = some frame) :
    Meets (tableBelow boot (tablePointer boot frame) (UInt64.ofNat i) s)
      (fun r => ∃ g, r.1 = tablePointer boot g ∧ s.Uses r.2 1 ∧ Mapping boot r.2 others spaces ∧
        follow (childAt boot r.2.mem) root (path ++ [i]) = some g ∧
        Extends (childAt boot s.mem) (childAt boot r.2.mem) (spaces.Root boot) 3 root (path ++ [i]))
      (s.Exhausted 1) := by
  cases isPresent : (entryAt boot s.mem frame i).present with
  | false => exact mapping.create_meets limine low isLive short reached isPresent
  | true =>
    have child : childAt boot s.mem frame i = some (entryAt boot s.mem frame i).frame := by
      rw [childAt, isPresent, if_pos rfl]
    rw [mapping.tableBelow_of_child ⟨root, path, isLive, short, reached⟩ child]
    refine ⟨_, rfl, (Machine.Uses.refl s).mono (by decide), mapping, ?_,
      Extends.of_edges (fun _ _ _ => rfl) root (path ++ [i])⟩
    rw [follow_concat, reached]
    exact child

/-- The walker changes nothing where the tables exist. -/
theorem pageFromIndex_of_reached (mapping : Mapping boot s others spaces) {pt : UInt64}
    {space : Space} (live : spaces pt = some space) {virtAddr : UInt64} {frame : Nat}
    (reached : follow (childAt boot s.mem) (frameOf boot pt) (upperPath (pageNumber virtAddr)) =
      some frame) :
    pageFromIndex boot pt (pageIndex virtAddr) s = .ok (entryPointer (tablePointer boot frame)
      (UInt64.ofNat (lastIndex (pageNumber virtAddr))), s) := by
  obtain ⟨i, j, k, path, index⟩ := pageIndex_eq virtAddr
  have isLive : spaces.Root boot (frameOf boot pt) := Spaces.root_of_some live
  rw [path] at reached
  obtain ⟨pdp, pd, edgePdp, edgePd, edgeTable⟩ := exists_of_follow_three reached
  have reachedPdp : follow (childAt boot s.mem) (frameOf boot pt) [i] = some pdp := by
    rw [follow, edgePdp, Option.bind_some, follow]
  have reachedPd : follow (childAt boot s.mem) (frameOf boot pt) [i, j] = some pd := by
    rw [follow, edgePdp, Option.bind_some, follow, edgePd, Option.bind_some, follow]
  have atRoot := mapping.tableBelow_of_child ⟨_, [], isLive, by decide, rfl⟩ edgePdp
  have atPdp := mapping.tableBelow_of_child ⟨_, [i], isLive, by simp, reachedPdp⟩ edgePd
  have atPd := mapping.tableBelow_of_child ⟨_, [i, j], isLive, by simp, reachedPd⟩ edgeTable
  rw [← mapping.roots pt space live] at atRoot
  rw [index, pageFromIndex, atRoot]
  change (tableBelow boot _ _ s >>= _) = _
  rw [atPdp]
  change (tableBelow boot _ _ s >>= _) = _
  rw [atPd]
  rfl

/-- The walker returns the entry of the page and keeps the address spaces. -/
theorem pageFromIndex_meets (limine : boot.Limine) (low : boot.UsableBelow (2 ^ 52))
    (mapping : Mapping boot s others spaces) {pt : UInt64} {space : Space}
    (live : spaces pt = some space) (virtAddr : UInt64) :
    Meets (pageFromIndex boot pt (pageIndex virtAddr) s)
      (fun r => s.Uses r.2 3 ∧ Mapping boot r.2 others spaces ∧ ∃ frame,
        follow (childAt boot r.2.mem) (frameOf boot pt) (upperPath (pageNumber virtAddr)) =
          some frame ∧
        r.1 = entryPointer (tablePointer boot frame) (UInt64.ofNat (lastIndex (pageNumber virtAddr))) ∧
        Extends (childAt boot s.mem) (childAt boot r.2.mem) (spaces.Root boot) 3 (frameOf boot pt)
          (upperPath (pageNumber virtAddr)))
      (s.Exhausted 3) := by
  obtain ⟨i, j, k, path, index⟩ := pageIndex_eq virtAddr
  have isLive : spaces.Root boot (frameOf boot pt) := Spaces.root_of_some live
  rw [index, path, pageFromIndex]
  have start : follow (childAt boot s.mem) (frameOf boot pt) [] = some (frameOf boot pt) := rfl
  have first := mapping.tableBelow_meets limine low i isLive (by decide) start
  rw [← mapping.roots pt space live] at first
  apply (first.mono (fun _ => id) fun e exhausted => exhausted.mono (by decide)).bind
  intro r found
  obtain ⟨pointer, t⟩ := r
  obtain ⟨pdp, rfl, usesT, mapping, reached, extendsT⟩ := found
  apply ((mapping.tableBelow_meets limine low j isLive (by simp) reached).mono (fun _ => id)
    fun e exhausted => (exhausted.after usesT).mono (by decide)).bind
  intro r found
  obtain ⟨pointer, u⟩ := r
  obtain ⟨pd, rfl, usesU, mapping, reached, extendsU⟩ := found
  apply ((mapping.tableBelow_meets limine low k isLive (by simp) reached).mono (fun _ => id)
    fun e exhausted => exhausted.after (usesT.trans usesU)).bind
  intro r found
  obtain ⟨pointer, v⟩ := r
  obtain ⟨table, rfl, usesV, mapping, reached, extendsV⟩ := found
  refine ⟨(usesT.trans usesU).trans usesV, mapping, table, reached, rfl, ?_⟩
  exact ((extendsT.mono (List.prefix_append [i] [j, k])).trans
    (extendsU.mono (List.prefix_append [i, j] [k]))).trans extendsV

/-! ### Leaves -/

/-- The tables of the last level are no inner tables. -/
theorem not_inner (mapping : Mapping boot s others spaces) {root frame : Nat}
    {path : List (Fin 512)} (isLive : spaces.Root boot root) (full : path.length = 3)
    (reached : follow (childAt boot s.mem) root path = some frame) :
    ¬ InnerFrame boot s.mem spaces frame := by
  intro inner
  obtain ⟨root', path', isLive', short, reached'⟩ := inner
  have same := (mapping.forest root path root' path' frame isLive isLive' (Nat.le_of_eq full)
    (Nat.le_of_lt short) reached reached').2
  rw [← same, full] at short
  exact Nat.lt_irrefl 3 short

/-- A change of the entry of a page changes the leaf of that page only. -/
theorem setLeaf (mapping : Mapping boot s others spaces) {pt : UInt64} {space : Space}
    {frame : Nat} {page : BitVec 36} {e : PageTableEntry} (live : spaces pt = some space)
    (reached : follow (childAt boot s.mem) (frameOf boot pt) (upperPath page) = some frame)
    (here : entryAt boot s'.mem frame (lastIndex page) = e)
    (kept : ∀ g j, TableFrame boot s.mem spaces g → ¬ (g = frame ∧ j = lastIndex page) →
      entryAt boot s'.mem g j = entryAt boot s.mem g j)
    (owns : s'.Owns boot fun p => others p ∨ TableFrame boot s.mem spaces p) :
    Mapping boot s' others
        (Function.update spaces pt (some (Function.update space page e.leaf))) ∧
      follow (childAt boot s'.mem) (frameOf boot pt) (upperPath page) = some frame := by
  have isLive : spaces.Root boot (frameOf boot pt) := Spaces.root_of_some live
  have full := length_upperPath page
  have lastLevel := mapping.not_inner isLive full reached
  have inner : ∀ g j, InnerFrame boot s.mem spaces g →
      entryAt boot s'.mem g j = entryAt boot s.mem g j := by
    intro g j above
    apply kept g j above.within
    intro both
    rw [both.1] at above
    exact lastLevel above
  have edges : ∀ g j, InnerFrame boot s.mem spaces g →
      childAt boot s'.mem g j = childAt boot s.mem g j :=
    fun g j above => childAt_congr (inner g j above)
  have roots : Spaces.Root boot (Function.update spaces pt
      (some (Function.update space page e.leaf))) = spaces.Root boot := Spaces.root_update live _
  have tables : TableFrame boot s'.mem (Function.update spaces pt
      (some (Function.update space page e.leaf))) = TableFrame boot s.mem spaces := by
    rw [TableFrame, roots]
    exact funext fun p => propext (within_congr edges p)
  refine ⟨⟨?_, ?_, ?_, ?_, ?_, ?_⟩, ?_⟩
  · rw [tables]
    exact owns
  · rw [tables]
    exact mapping.apart
  · intro pt' space' live'
    by_cases same : pt' = pt
    · rw [same]
      exact mapping.roots pt space live
    · rw [Function.update_of_ne same] at live'
      exact mapping.roots pt' space' live'
  · rw [roots]
    exact mapping.forest.congr edges
  · intro g j above
    rw [InnerFrame, roots] at above
    obtain ⟨root, path, isRoot, short, leads⟩ := above
    rw [follow_eq_of_above edges isRoot (Nat.le_of_lt short)] at leads
    have old : InnerFrame boot s.mem spaces g := ⟨root, path, isRoot, short, leads⟩
    rw [inner g j old]
    exact mapping.inner g j old
  · intro pt' space' live' page'
    have written : leafAt boot s'.mem frame (lastIndex page) = e.leaf := by rw [leafAt, here]
    have others' : ∀ g j, TableFrame boot s.mem spaces g → ¬ (g = frame ∧ j = lastIndex page) →
        leafAt boot s'.mem g j = leafAt boot s.mem g j := by
      intro g j table elsewhere
      rw [leafAt, leafAt, kept g j table elsewhere]
    by_cases same : pt' = pt
    · rw [same, Function.update_self, Option.some.injEq] at live'
      rw [same, lookup_write mapping.forest edges isLive full reached written others' isLive
        (length_upperPath page'), ← live']
      by_cases samePage : page' = page
      · rw [samePage, Function.update_self, if_pos ⟨rfl, rfl, rfl⟩]
      · rw [Function.update_of_ne samePage, mapping.leaves pt space live page', if_neg]
        intro all
        exact samePage (page_eq_of_indices all.2.1 all.2.2)
    · rw [Function.update_of_ne same] at live'
      have isLive' : spaces.Root boot (frameOf boot pt') := Spaces.root_of_some live'
      rw [lookup_write mapping.forest edges isLive full reached written others' isLive'
        (length_upperPath page'), if_neg, mapping.leaves pt' space' live' page']
      intro all
      apply same
      rw [mapping.roots pt' space' live', all.1, ← mapping.roots pt space live]
  · rw [follow_eq_of_above edges isLive (Nat.le_of_eq full)]
    exact reached

/-- The code changes the entry of a page by a store to it. -/
theorem updateEntry (limine : boot.Limine) (mapping : Mapping boot s others spaces) {pt : UInt64}
    {space : Space} {frame : Nat} {page : BitVec 36} (live : spaces pt = some space)
    (reached : follow (childAt boot s.mem) (frameOf boot pt) (upperPath page) = some frame)
    (change : PageTableEntry → PageTableEntry) :
    ∃ e, e.leaf = space page ∧ ∀ m, m = s.mem.updateEntry
        (entryPointer (tablePointer boot frame) (UInt64.ofNat (lastIndex page))) change →
      s.Uses { s with mem := m } 0 ∧ Mapping boot { s with mem := m } others
        (Function.update spaces pt (some (Function.update space page (change e).leaf))) ∧
      follow (childAt boot m) (frameOf boot pt) (upperPath page) = some frame := by
  have table : TableFrame boot s.mem spaces frame :=
    ⟨_, _, Spaces.root_of_some live, Nat.le_of_eq (length_upperPath page), reached⟩
  have small := limine.usable_lt (mapping.owns.allocatable frame (Or.inr table)).1
  refine ⟨entryAt boot s.mem frame (lastIndex page), ?_, ?_⟩
  · rw [← mapping.leaves pt space live page, lookup, reached]
    rfl
  · have word : PageTableEntry.decode (s.mem.load64
        (entryPointer (tablePointer boot frame) (UInt64.ofNat (lastIndex page)))) =
        entryAt boot s.mem frame (lastIndex page) := rfl
    intro m updated
    rw [Memory.updateEntry, word] at updated
    generalize change (entryAt boot s.mem frame (lastIndex page)) = e at *
    subst updated
    have stored := mapping.owns.store_bitmap limine (Or.inr table) (lastIndex page) e
    refine ⟨Machine.Uses.of_write mapping.owns.sized stored, ?_⟩
    have entries : ∀ g j, g < 2 ^ 52 → entryAt boot (s.mem.store64
        (entryPointer (tablePointer boot frame) (UInt64.ofNat (lastIndex page))) e.encode) g j =
        if g = frame ∧ j = lastIndex page then e else entryAt boot s.mem g j :=
      fun g j smallG => entryAt_store small smallG e
    have written := entries frame (lastIndex page) small
    rw [if_pos ⟨rfl, rfl⟩] at written
    have kept : ∀ g j, TableFrame boot s.mem spaces g → ¬ (g = frame ∧ j = lastIndex page) →
        entryAt boot (s.mem.store64 (entryPointer (tablePointer boot frame)
          (UInt64.ofNat (lastIndex page))) e.encode) g j = entryAt boot s.mem g j := by
      intro g j isTable elsewhere
      rw [entries g j (limine.usable_lt (mapping.owns.allocatable g (Or.inr isTable)).1),
        if_neg elsewhere]
    exact mapping.setLeaf live reached written kept (mapping.owns.write stored)

end Mapping

end Symphony
