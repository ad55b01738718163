import Symphony.Library.Cache
import Symphony.Verif.KernelRun

/-!
# Cached translations

The processor caches translations of pages that are present. `arch_vmm_switch` empties the
cache, and `arch_vmm_unmap` invalidates its page if its address is canonical; `arch_vmm_map` and
`arch_vmm_set_flags` invalidate nothing. In between the cache may take up the translation of any
page, and drop it, at any time: also between the assignments that these functions make to the
fields of an entry. The compiler may turn neighbouring assignments into one store.
-/

namespace Symphony

variable {boot : Boot} {s t : Machine} {k k' : Kernel} {mem : Memory} {spaces : Spaces}
  {space : Space} {others : Nat → Prop} {pt virtAddr : UInt64}

/-! ## The processor -/

/-- What the processor finds for every page when it walks a page table. -/
def translations (boot : Boot) (m : Memory) (pt : UInt64) (page : BitVec 36) : Option Translation :=
  walkBelow boot m (frameOf boot pt) (upperPath page ++ [lastIndex page])

/-- Only translations of present pages are cached. -/
def Cachable (found : Option Translation) : Prop :=
  ∃ translation, found = some translation ∧ translation.leaf.present = true

/-- The part of the processor that translates addresses. -/
structure Mmu where
  /-- The page table that `arch_vmm_switch` loaded. -/
  root : UInt64
  /-- Cached translations. -/
  tlb : Cache (BitVec 36) (Option Translation)

/-- The upper bits of the address repeat bit 47. The entry of a page depends on bits 12 to 47 only,
but for other addresses `invlpg` does nothing. -/
def Canonical (virtAddr : UInt64) : Prop :=
  virtAddr.toNat < 2 ^ 47 ∨ 2 ^ 64 - 2 ^ 47 ≤ virtAddr.toNat

instance (virtAddr : UInt64) : Decidable (Canonical virtAddr) :=
  inferInstanceAs (Decidable (virtAddr.toNat < 2 ^ 47 ∨ 2 ^ 64 - 2 ^ 47 ≤ virtAddr.toNat))

/-- What the processor uses for an address: a cached translation, or that of a walk. -/
def Mmu.translate (boot : Boot) (m : Memory) (u : Mmu) (virtAddr : UInt64) : Option Translation :=
  (u.tlb (pageNumber virtAddr)).getD (walk boot m u.root virtAddr)

/-! ## The assignments to an entry -/

/-- An assignment to a field of an entry. -/
inductive PteStore where
  | present (v : Bool)
  | readWrite (v : Bool)
  | userSupervisor (v : Bool)
  | pageSize (v : Bool)
  | addr (v : BitVec 51)
  | nx (v : Bool)

namespace PteStore

/-- The entry after an assignment. -/
def entry : PteStore → PageTableEntry → PageTableEntry
  | present v, e => { e with present := v }
  | readWrite v, e => { e with readWrite := v }
  | userSupervisor v, e => { e with userSupervisor := v }
  | pageSize v, e => { e with pageSize := v }
  | addr v, e => { e with addr := v }
  | nx v, e => { e with nx := v }

/-- The leaf after an assignment. -/
def leaf : PteStore → Leaf → Leaf
  | present v, leaf => { leaf with present := v }
  | readWrite v, leaf => { leaf with readWrite := v }
  | userSupervisor v, leaf => { leaf with userSupervisor := v }
  | pageSize _, leaf => leaf
  | addr v, leaf => { leaf with frame := v.toNat % 2 ^ 40 }
  | nx v, leaf => { leaf with nx := v }

/-- The leaf of the changed entry is the changed leaf. -/
theorem leaf_entry (store : PteStore) (e : PageTableEntry) :
    (store.entry e).leaf = store.leaf e.leaf := by
  cases store <;> rfl

/-- The entry after some assignments. -/
def entries (stores : List PteStore) (e : PageTableEntry) : PageTableEntry :=
  stores.foldl (fun e store => store.entry e) e

/-- The leaf after some assignments. -/
def leaves (stores : List PteStore) (leaf : Leaf) : Leaf :=
  stores.foldl (fun leaf store => store.leaf leaf) leaf

/-- The leaf of the changed entry is the changed leaf. -/
theorem leaf_entries (stores : List PteStore) (e : PageTableEntry) :
    (entries stores e).leaf = leaves stores e.leaf := by
  induction stores generalizing e with
  | nil => rfl
  | cons store stores ih => exact (ih (store.entry e)).trans (by rw [leaf_entry]; rfl)

/-- The machine after each store to `*pte`; a store makes a group of assignments. -/
def stages (pte : UInt64) : List (List PteStore) → Machine → List Machine
  | [], _ => []
  | group :: groups, s =>
    let s := { s with mem := s.mem.updateEntry pte (entries group) }
    s :: stages pte groups s

/-- The leaf after each store. -/
def leafStages : List (List PteStore) → Leaf → List Leaf
  | [], _ => []
  | group :: groups, leaf => leaves group leaf :: leafStages groups (leaves group leaf)

/-- The last leaf is the leaf after all assignments. -/
theorem leaves_flatten (groups : List (List PteStore)) (leaf : Leaf) :
    (leaf :: leafStages groups leaf).getLast (by simp) = leaves groups.flatten leaf := by
  induction groups generalizing leaf with
  | nil => rfl
  | cons group groups ih =>
    rw [leafStages, List.getLast_cons (by simp), ih, List.flatten_cons, leaves, leaves, leaves,
      List.foldl_append]

/-- After a store the leaf has got a prefix of the assignments. -/
theorem prefix_of_mem {groups : List (List PteStore)} {leaf l : Leaf}
    (member : l ∈ leafStages groups leaf) :
    ∃ made, made <+: groups.flatten ∧ l = leaves made leaf := by
  induction groups generalizing leaf with
  | nil => cases member
  | cons group groups ih =>
    rw [List.flatten_cons]
    cases List.mem_cons.mp member with
    | inl first => exact ⟨group, List.prefix_append group _, first⟩
    | inr later =>
      obtain ⟨made, isPrefix, rfl⟩ := ih later
      refine ⟨group ++ made, (List.prefix_append_right_inj group).mpr isPrefix, ?_⟩
      rw [leaves, leaves, leaves, List.foldl_append]

/-- If every assignment is a store of its own, the leaf goes through all prefixes. -/
theorem mem_of_prefix {stores made : List PteStore} {leaf : Leaf} (isPrefix : made <+: stores) :
    leaves made leaf ∈ leaf :: leafStages (stores.map ([·])) leaf := by
  induction stores generalizing made leaf with
  | nil =>
    rw [List.prefix_nil.mp isPrefix]
    exact List.mem_cons_self
  | cons store stores ih =>
    cases made with
    | nil => exact List.mem_cons_self
    | cons first made =>
      obtain ⟨rfl, rest⟩ := List.cons_prefix_cons.mp isPrefix
      exact List.mem_cons_of_mem leaf (ih rest)

end PteStore

/-- The assignments of `arch_vmm_set_flags`. -/
def flagStores (flags : Int32) : List PteStore :=
  [.present (flags &&& vmmPresent ≠ 0), .readWrite (flags &&& vmmRw ≠ 0),
    .userSupervisor (flags &&& vmmUser ≠ 0), .pageSize false, .nx (flags &&& vmmExec = 0)]

namespace TableOp

/-- The assignments of a call to the entry of its page. -/
def stores : TableOp → List PteStore
  | map physAddr flags => .addr (PageTableEntry.addrOfWord (physAddr >>> 12)) :: flagStores flags
  | unmap => [.present false, .addr 0]
  | setFlags flags => flagStores flags

/-- The machine after each store of a call to the entry of its page. The walk before the first
store is that of the call; `arch_vmm_set_flags` repeats it for `arch_vmm_map` and finds the same
entry. -/
def stages (boot : Boot) (pt virtAddr : UInt64) (groups : List (List PteStore)) (s : Machine) :
    Except Fault (List Machine) := do
  let (pte, s) ← pageFromIndex boot pt (pageIndex virtAddr) s
  .ok (PteStore.stages pte groups s)

/-- The leaf of the page after a call. -/
def leaf (op : TableOp) : Leaf → Leaf := PteStore.leaves op.stores

/-- The call invalidates its page. -/
def Invalidates (op : TableOp) (virtAddr : UInt64) : Prop := op = unmap ∧ Canonical virtAddr

/-- The cache after a call; `arch_vmm_unmap` ends with `invlpg`. -/
def invalidate (virtAddr : UInt64) :
    TableOp → Cache (BitVec 36) (Option Translation) → Cache (BitVec 36) (Option Translation)
  | unmap, tlb => if Canonical virtAddr then tlb.invalidate (pageNumber virtAddr) else tlb
  | _, tlb => tlb

/-- Calls that do not invalidate their page leave the cache. -/
theorem invalidate_of_not {op : TableOp} (keeps : ¬ op.Invalidates virtAddr)
    (tlb : Cache (BitVec 36) (Option Translation)) : op.invalidate virtAddr tlb = tlb := by
  cases op with
  | unmap => exact if_neg fun canonical => keeps ⟨rfl, canonical⟩
  | map physAddr flags => rfl
  | setFlags flags => rfl

/-- A call leaves nothing stale: it invalidates its page, or whenever the page is present before
one of its stores or after it, it is as it will be in the end. -/
def Harmless (op : TableOp) (virtAddr : UInt64) (groups : List (List PteStore)) (leaf : Leaf) : Prop :=
  op.Invalidates virtAddr ∨
    ∀ l ∈ leaf :: PteStore.leafStages groups leaf, l.present = true → l = op.leaf leaf

/-- The address field that `arch_vmm_map` stores. -/
theorem addrOfWord_frame (physAddr : UInt64) :
    (PageTableEntry.addrOfWord (physAddr >>> 12)).toNat % 2 ^ 40 = physFrame physAddr :=
  congrArg Leaf.frame (Mapping.leaf_of_addr (.decode 0) physAddr)

/-- A call changes the leaf of its page, and no other. -/
theorem change_eq (op : TableOp) (page : BitVec 36) (space : Space) :
    op.change page space = Function.update space page (op.leaf (space page)) := by
  cases op with
  | map physAddr flags =>
    rw [change, ← addrOfWord_frame]
    rfl
  | unmap => rfl
  | setFlags flags => rfl

end TableOp

/-! ## Page tables between the stores -/

/-- The last elements of related lists are related. -/
theorem forall₂_getLast {A B : Type} {R : A → B → Prop} {x : A} {y : B} {xs : List A}
    {ys : List B} (related : List.Forall₂ R (x :: xs) (y :: ys)) :
    R ((x :: xs).getLast (by simp)) ((y :: ys).getLast (by simp)) := by
  induction xs generalizing x y ys with
  | nil =>
    cases related with
    | cons first rest =>
      cases rest
      exact first
  | cons x' xs ih =>
    cases related with
    | cons first rest =>
      cases rest with
      | cons second rest =>
        have later := ih (List.Forall₂.cons second rest)
        exact later

/-- What the processor finds in a represented page table. -/
theorem Mapping.translations_eq (mapping : Mapping boot s others spaces)
    (live : spaces pt = some space) :
    translations boot s.mem pt = fun page => some (space page).alone := by
  have start : follow (childAt boot s.mem) (frameOf boot pt) [] = some (frameOf boot pt) := rfl
  funext page
  rw [← mapping.leaves pt space live]
  exact mapping.walkBelow_eq (Spaces.root_of_some live) (by rfl) start

/-- Stores to the entry of a page: after each of them the page table represents the space with the
leaf of that store. -/
theorem Mapping.stores_meets (limine : boot.Limine) {page : BitVec 36} {frame : Nat}
    (groups : List (List PteStore)) (mapping : Mapping boot s others spaces)
    (live : spaces pt = some space)
    (reached : follow (childAt boot s.mem) (frameOf boot pt) (upperPath page) = some frame) :
    List.Forall₂ (fun t leaf => Mapping boot t others
        (Function.update spaces pt (some (Function.update space page leaf))))
      (PteStore.stages
        (entryPointer (tablePointer boot frame) (UInt64.ofNat (lastIndex page))) groups s)
      (PteStore.leafStages groups (space page)) := by
  induction groups generalizing s spaces space with
  | nil => exact .nil
  | cons group groups ih =>
    obtain ⟨e, leaf, updated⟩ := mapping.updateEntry limine live reached (PteStore.entries group)
    obtain ⟨-, first, stays⟩ := updated _ rfl
    rw [PteStore.leaf_entries, leaf] at first
    have later := ih first (Function.update_self pt _ spaces) stays
    simp only [Function.update_idem, Function.update_self] at later
    exact .cons first later

/-- The stores of a call: after each of them the page table represents the space with the leaf of
that store. -/
theorem Mapping.stages_meets (limine : boot.Limine) (low : boot.UsableBelow (2 ^ 52))
    (mapping : Mapping boot s others spaces) (live : spaces pt = some space)
    {groups : List (List PteStore)} {steps : List Machine}
    (returned : TableOp.stages boot pt virtAddr groups s = .ok steps) :
    List.Forall₂ (fun t leaf => Mapping boot t others (Function.update spaces pt
        (some (Function.update space (pageNumber virtAddr) leaf)))) steps
      (PteStore.leafStages groups (space (pageNumber virtAddr))) := by
  simp only [TableOp.stages, bind_eq_ok] at returned
  obtain ⟨⟨pte, t⟩, walked, same⟩ := returned
  obtain ⟨-, mapping, frame, reached, isEntry, -⟩ :=
    (mapping.pageFromIndex_meets limine low live virtAddr).of_ok walked
  cases same
  rw [show pte = _ from isEntry]
  exact mapping.stores_meets limine groups live reached

/-- The machines before and after the stores represent the space with the leaves of the stores. -/
theorem Mapping.stages_all (limine : boot.Limine) (low : boot.UsableBelow (2 ^ 52))
    (mapping : Mapping boot s others spaces) (live : spaces pt = some space)
    {groups : List (List PteStore)} {steps : List Machine}
    (returned : TableOp.stages boot pt virtAddr groups s = .ok steps) :
    List.Forall₂ (fun t leaf => Mapping boot t others (Function.update spaces pt
        (some (Function.update space (pageNumber virtAddr) leaf)))) (s :: steps)
      (space (pageNumber virtAddr) :: PteStore.leafStages groups (space (pageNumber virtAddr))) := by
  apply List.Forall₂.cons _ (mapping.stages_meets limine low live returned)
  rw [Function.update_eq_self, ← live, Function.update_eq_self]
  exact mapping

/-- A call that returns makes its stores, and the processor finds the same after the last store as
after the call. -/
theorem Mapping.stages_run (limine : boot.Limine) (low : boot.UsableBelow (2 ^ 52))
    (mapping : Mapping boot s others spaces) (live : spaces pt = some space) {op : TableOp}
    (returned : op.run boot pt virtAddr s = .ok t) {groups : List (List PteStore)}
    (all : groups.flatten = op.stores) :
    ∃ steps, TableOp.stages boot pt virtAddr groups s = .ok steps ∧
      ∀ root active, spaces root = some active →
        translations boot ((s :: steps).getLast (by simp)).mem root = translations boot t.mem root := by
  have walks : ∃ r, pageFromIndex boot pt (pageIndex virtAddr) s = .ok r := by
    cases op with
    | map physAddr flags =>
      simp only [TableOp.run, archVmmMap, bind_eq_ok] at returned
      obtain ⟨r, walked, -⟩ := returned
      exact ⟨r, walked⟩
    | unmap =>
      simp only [TableOp.run, archVmmUnmap, bind_eq_ok] at returned
      obtain ⟨r, walked, -⟩ := returned
      exact ⟨r, walked⟩
    | setFlags flags =>
      simp only [TableOp.run, archVmmSetFlags, bind_eq_ok] at returned
      obtain ⟨r, walked, -⟩ := returned
      exact ⟨r, walked⟩
  obtain ⟨⟨pte, u⟩, walked⟩ := walks
  have stored : TableOp.stages boot pt virtAddr groups s = .ok (PteStore.stages pte groups u) := by
    rw [TableOp.stages, walked]
    rfl
  refine ⟨_, stored, fun root active isActive => ?_⟩
  have after := ((mapping.tableOp_meets limine low live op).of_ok returned).2
  have last := forall₂_getLast (mapping.stages_all limine low live stored)
  rw [PteStore.leaves_flatten, all, ← TableOp.leaf, ← TableOp.change_eq] at last
  obtain ⟨active, isActive⟩ : ∃ active, Function.update spaces pt
      (some (op.change (pageNumber virtAddr) space)) root = some active := by
    by_cases here : root = pt
    · exact ⟨_, by rw [here, Function.update_self]⟩
    · exact ⟨active, by rw [Function.update_of_ne here]; exact isActive⟩
  rw [last.translations_eq isActive, after.translations_eq isActive]

/-! ## The cache through a call -/

/-- A leaf is known by the translation it stands for. -/
theorem Leaf.alone_injective {x y : Leaf} (same : x.alone = y.alone) : x = y :=
  congrArg Translation.leaf same

/-- The translation of a leaf may be cached where the leaf is present. -/
theorem cachable_alone (leaf : Leaf) : Cachable (some leaf.alone) ↔ leaf.present = true := by
  constructor
  · intro may
    obtain ⟨translation, same, present⟩ := may
    rwa [← Option.some.inj same] at present
  · intro present
    exact ⟨leaf.alone, rfl, present⟩

/-- The space of the active page table when a leaf of some page table is replaced. -/
def replaced (root pt : UInt64) (page : BitVec 36) (active : Space) (leaf : Leaf) : Space :=
  if root = pt then Function.update active page leaf else active

/-- The active page table represents the space with the leaf. -/
theorem update_root {root : UInt64} {page : BitVec 36} {active : Space}
    (live : spaces pt = some space) (isActive : spaces root = some active) (leaf : Leaf) :
    Function.update spaces pt (some (Function.update space page leaf)) root =
      some (replaced root pt page active leaf) := by
  rw [replaced]
  by_cases here : root = pt
  · subst here
    have same : space = active := Option.some.inj (live.symm.trans isActive)
    rw [if_pos rfl, Function.update_self, same]
  · rw [if_neg here, Function.update_of_ne here, isActive]

/-- What the processor finds in the active page table before and after each store of a call. -/
theorem Mapping.translations_stages (limine : boot.Limine) (low : boot.UsableBelow (2 ^ 52))
    (mapping : Mapping boot s others spaces) (live : spaces pt = some space) {root : UInt64}
    {active : Space} (isActive : spaces root = some active) {groups : List (List PteStore)}
    {steps : List Machine} (returned : TableOp.stages boot pt virtAddr groups s = .ok steps) :
    ((s :: steps).map fun t => translations boot t.mem root) =
      (space (pageNumber virtAddr) :: PteStore.leafStages groups (space (pageNumber virtAddr))).map
        fun leaf page => some (replaced root pt (pageNumber virtAddr) active leaf page).alone := by
  have stages := mapping.stages_all limine low live returned
  rw [← List.forall₂_eq_eq_eq, List.forall₂_map_left_iff, List.forall₂_map_right_iff]
  exact stages.imp fun t leaf after => after.translations_eq (update_root live isActive leaf)

/-- Other pages keep their leaves, and other page tables all of them. -/
theorem replaced_of_apart {root : UInt64} {page page' : BitVec 36}
    (apart : root ≠ pt ∨ page' ≠ page) (active : Space) (leaf : Leaf) :
    replaced root pt page active leaf page' = active page' := by
  rw [replaced]
  split
  case isTrue same => exact Function.update_of_ne (apart.resolve_left (not_not_intro same)) _ _
  case isFalse => rfl

/-- A call for another page table, and one that is harmless, leaves nothing stale between its
stores; and no other call does. -/
theorem TableOp.harmless_iff_stages {op : TableOp} (keeps : ¬ op.Invalidates virtAddr)
    {groups : List (List PteStore)} {root : UInt64} {page : BitVec 36} {active : Space} {leaf : Leaf} :
    (∀ stage ∈ (leaf :: PteStore.leafStages groups leaf).map fun leaf page' =>
        some (replaced root pt page active leaf page').alone, ∀ page', Cachable (stage page') →
      some (replaced root pt page active (op.leaf leaf) page').alone = stage page') ↔
    (root = pt → op.Harmless virtAddr groups leaf) := by
  have changed (l : Leaf) : replaced pt pt page active l page = l := by
    rw [replaced, if_pos rfl, Function.update_self]
  constructor
  · rintro current rfl
    refine Or.inr fun l member present => ?_
    have same := current _ (List.mem_map_of_mem member) page
    rw [changed, changed, cachable_alone, Option.some.injEq] at same
    exact (Leaf.alone_injective (same present)).symm
  · intro harmless stage member page' may
    obtain ⟨l, inLeaves, rfl⟩ := List.mem_map.mp member
    beta_reduce at may ⊢
    by_cases apart : root ≠ pt ∨ page' ≠ page
    · rw [replaced_of_apart apart, replaced_of_apart apart]
    · obtain ⟨here, samePage⟩ := not_or.mp apart
      obtain rfl := not_not.mp here
      obtain rfl := not_not.mp samePage
      rw [changed, cachable_alone] at may
      rw [(harmless rfl).resolve_left keeps l inLeaves may]

/-- A cache that was coherent before a call is coherent after it, whatever it took up between the
stores, exactly if the call is for another page table or harmless. -/
theorem Mapping.coherent_iff (limine : boot.Limine) (low : boot.UsableBelow (2 ^ 52))
    (mapping : Mapping boot s others spaces) (live : spaces pt = some space) {root : UInt64}
    {active : Space} (isActive : spaces root = some active) {op : TableOp}
    {groups : List (List PteStore)} {steps : List Machine}
    (stored : TableOp.stages boot pt virtAddr groups s = .ok steps)
    (returned : op.run boot pt virtAddr s = .ok t) {tlb : Cache (BitVec 36) (Option Translation)}
    (coherent : tlb.Coherent Cachable (translations boot s.mem root)) :
    (∀ tlb', Cache.Passes Cachable ((s :: steps).map fun t => translations boot t.mem root) tlb
        tlb' → (op.invalidate virtAddr tlb').Coherent Cachable (translations boot t.mem root)) ↔
      (root = pt → op.Harmless virtAddr groups (space (pageNumber virtAddr))) := by
  have after := ((mapping.tableOp_meets limine low live op).of_ok returned).2
  rw [TableOp.change_eq] at after
  have stages := mapping.translations_stages limine low live isActive stored
  rw [after.translations_eq (update_root live isActive _)]
  by_cases invalidates : op.Invalidates virtAddr
  · refine ⟨fun _ _ => Or.inl invalidates, fun _ tlb' passes => ?_⟩
    obtain ⟨rfl, canonical⟩ := invalidates
    rw [TableOp.invalidate, if_pos canonical]
    apply Cache.coherent_invalidate coherent passes
    intro stage member page other
    rw [List.map_cons] at stages
    rw [stages] at member
    obtain ⟨leaf, -, rfl⟩ := List.mem_map.mp member
    beta_reduce
    rw [replaced_of_apart (Or.inr other), replaced_of_apart (Or.inr other)]
  · simp only [TableOp.invalidate_of_not invalidates]
    rw [← TableOp.harmless_iff_stages invalidates, ← stages, List.map_cons]
    exact Cache.passes_coherent_iff coherent

end Symphony
