import Symphony.Verif.HeapOrder

/-!
# Alignment of the heap

The header of a block that a split leaves behind follows the rounded request, and
`kmalloc` rounds only requests that are no multiple of ten. A call keeps all headers at
multiples of 16 exactly where the rounded request is one or no block is split for it.
-/

namespace Symphony

variable {boot : Boot} {source : PageSource} {Ready : Machine → List Region → Prop}
variable {machine : Machine} {h h' : Kheap} {bs cs : List Block} {b c : Block} {s s' : Session}
variable {r size : UInt64}

/-! ## Aligned lists -/

/-- Headers and payload sizes are multiples of 16. -/
def Block.Aligned (b : Block) : Prop := 16 ∣ b.addr.toNat ∧ 16 ∣ b.size.toNat

/-- All headers of the heap and all live pointers are at multiples of 16. -/
def Session.Aligned (s : Session) : Prop :=
  ∃ bs, Listed s.heap bs ∧ (∀ b ∈ bs, 16 ∣ b.addr.toNat) ∧ ∀ x ∈ s.live, 16 ∣ x.pointer.toNat

/-- No block is split for a request: the first block with room, or else the new region, is at
most a header larger. -/
def Unsplit (r : UInt64) (bs : List Block) : Prop :=
  match bs.find? fun b => decide (b.Suits r) with
  | some b => b.size.toNat ≤ r.toNat + 32
  | none => (extendBytes r).toNat ≤ r.toNat + 64

/-- The condition on a call: an allocation rounds its request to a multiple of 16, or splits no
block. -/
def HeapCall.Rounds (s : Session) : HeapCall → Prop
  | kmalloc size => ∃ bs, Listed s.heap bs ∧
      (16 ∣ (kmallocRound size).toNat ∨ Unsplit (kmallocRound size) bs)
  | kzalloc size => ∃ bs, Listed s.heap bs ∧
      (16 ∣ (kmallocRound size).toNat ∨ Unsplit (kmallocRound size) bs)
  | kfree _ => True
  | write _ _ => True

/-- Runs in which every call meets the condition. -/
inductive RoundedRun (boot : Boot) (source : PageSource) (machine : Machine) : Session → Prop
  /-- The heap is initialised. -/
  | init (h : Kheap) (run : kheapInit boot source machine = .ok h) :
    RoundedRun boot source machine ⟨h, [], [], fun _ => none⟩
  /-- A call returns. -/
  | call (s s' : Session) (c : HeapCall) (before : RoundedRun boot source machine s)
    (allowed : c.Allowed s) (rounds : c.Rounds s) (run : c.perform boot source s = .ok s') :
    RoundedRun boot source machine s'

/-- Merges keep blocks aligned. -/
theorem Merges.aligned (merges : Merges bs cs) (aligned : ∀ b ∈ bs, b.Aligned) :
    ∀ c ∈ cs, c.Aligned := by
  cases merges with
  | none => exact aligned
  | two before after b c free freeC touch fits fitsC =>
    intro x inX
    rw [List.mem_append, List.mem_cons] at inX
    rcases inX with inBefore | rfl | inAfter
    · exact aligned x (by simp [inBefore])
    · have size := fits.merged fitsC touch
      have alignedB := aligned b (by simp)
      have alignedC := aligned c (by simp)
      refine ⟨alignedB.1, ?_⟩
      have sizeB := alignedB.2
      have sizeC := alignedC.2
      omega
    · exact aligned x (by simp [inAfter])

/-- Marking keeps blocks aligned. -/
theorem markFree_aligned {ptrs : List UInt64} (aligned : ∀ b ∈ bs, b.Aligned) :
    ∀ c ∈ Block.markFree ptrs bs, c.Aligned := by
  intro c inList
  obtain ⟨b, inBs, rfl⟩ := List.mem_map.mp inList
  exact aligned b inBs

/-- A release keeps blocks aligned. -/
theorem Release.aligned (release : Release h h' bs cs b) (aligned : ∀ b ∈ bs, b.Aligned) :
    ∀ c ∈ cs, c.Aligned := by
  obtain ⟨ds, first, second⟩ := release.merges
  exact second.aligned (first.aligned (markFree_aligned aligned))

/-- The first suitable block of a list. -/
theorem TakenFrom.find {before after : List Block} {d : Block}
    (origin : TakenFrom r before b after cs d) :
    (before ++ b :: after).find? (fun b => decide (b.Suits r)) = some b := by
  rw [List.find?_append, List.find?_eq_none.mpr, Option.none_or, List.find?_cons_of_pos]
  · exact decide_eq_true origin.suits
  · intro x inX
    rw [decide_eq_true_eq]
    exact origin.first x inX

/-- Where no other block suits, the block behind a list is the one that is taken. -/
theorem TakenFrom.eq_last {before after : List Block} {d : Block}
    (origin : TakenFrom r before b after cs d) (same : bs ++ [c] = before ++ b :: after)
    (unfit : ∀ b ∈ bs, ¬ b.Suits r) : b = c := by
  have member : b ∈ bs ++ [c] := by
    rw [same]
    simp
  rw [List.mem_append, List.mem_singleton] at member
  exact member.resolve_left fun old => unfit b old origin.suits

/-- The list after a block was taken is aligned exactly where the request is a multiple of 16 or
the block is not split. -/
theorem TakenFrom.aligned_iff {before after : List Block} {d : Block}
    (origin : TakenFrom r before b after cs d) (fits : b.Fits)
    (aligned : ∀ x ∈ before ++ b :: after, x.Aligned) :
    ((∀ x ∈ cs, 16 ∣ x.addr.toNat) ↔ 16 ∣ r.toNat ∨ b.size.toNat ≤ r.toNat + 32) ∧
      (16 ∣ r.toNat ∨ b.size.toNat ≤ r.toNat + 32 → ∀ x ∈ cs, x.Aligned) := by
  have alignedB := aligned b (by simp)
  have alignedBefore (x : Block) (inX : x ∈ before) : x.Aligned := aligned x (by simp [inX])
  have alignedAfter (x : Block) (inX : x ∈ after) : x.Aligned := aligned x (by simp [inX])
  have addr := origin.addr
  suffices whole : (16 ∣ r.toNat ∨ b.size.toNat ≤ r.toNat + 32 → ∀ x ∈ cs, x.Aligned) ∧
      ((∀ x ∈ cs, 16 ∣ x.addr.toNat) → 16 ∣ r.toNat ∨ b.size.toNat ≤ r.toNat + 32) from
    ⟨⟨whole.2, fun cond x inX => (whole.1 cond x inX).1⟩, whole.1⟩
  rcases origin.list with ⟨short, size, rfl⟩ | ⟨large, size, rfl⟩
  · refine ⟨fun _ x inX => ?_, fun _ => Or.inr short⟩
    rw [List.mem_append, List.mem_cons] at inX
    rcases inX with inBefore | rfl | inAfter
    · exact alignedBefore x inBefore
    · rw [Block.Aligned, addr, size]
      exact alignedB
    · exact alignedAfter x inAfter
  · obtain ⟨place, rest⟩ := fits.remainder large
    obtain ⟨first, second⟩ := alignedB
    constructor
    · intro cond x inX
      have whole : 16 ∣ r.toNat := cond.resolve_right (Nat.not_le.mpr large)
      rw [List.mem_append, List.mem_cons, List.mem_cons] at inX
      rcases inX with inBefore | rfl | rfl | inAfter
      · exact alignedBefore x inBefore
      · rw [Block.Aligned, addr, size]
        exact ⟨first, whole⟩
      · rw [Block.Aligned, place, rest]
        omega
      · exact alignedAfter x inAfter
    · intro all
      have last := all (b.remainder r) (by simp)
      rw [place] at last
      left
      omega

/-! ## Aligned sessions -/

/-- The page frame allocator returns page-aligned addresses. -/
def PageSource.Aligned (source : PageSource) : Prop :=
  ∀ pages machine frames machine', source pages machine = .ok (frames, machine') →
    4096 ∣ frames.toNat

/-- A sum of page-aligned addresses is page-aligned. -/
theorem aligned_add {a b : UInt64} (first : 4096 ∣ a.toNat) (second : 4096 ∣ b.toNat) :
    4096 ∣ (a + b).toNat := by
  rw [UInt64.toNat_add]
  omega

/-- The pointer to an aligned block. -/
theorem Block.Fits.pointer_aligned (fits : b.Fits) (aligned : 16 ∣ b.addr.toNat) :
    16 ∣ b.pointer.toNat := by
  rw [fits.pointer_toNat]
  omega

/-- A sound session is aligned exactly where its headers are. -/
theorem Sound.aligned_iff (sound : Sound Ready s bs) :
    s.Aligned ↔ ∀ b ∈ bs, 16 ∣ b.addr.toNat := by
  have listed := sound.inv.listed
  constructor
  · rintro ⟨cs, other, aligned, -⟩
    rw [listed.unique other]
    exact aligned
  · intro aligned
    refine ⟨bs, listed, aligned, fun x inLive => ?_⟩
    obtain ⟨b, inList, -, same, -⟩ := sound.allocated x inLive
    rw [← same]
    exact (listed.fits b inList).pointer_aligned (aligned b inList)

/-- The block of an extension by page-aligned pages is aligned. -/
theorem Extended.aligned {r frames : UInt64} {machine : Machine} {c : Block}
    (extended : Extended Ready h h' bs r c) (extension : kheapExtend boot source r h = .ok h')
    (obtained : source (extendPages r) h.machine = .ok (frames, machine)) (pages : source.Aligned)
    (offset : 4096 ∣ boot.offset.toNat) : c.Aligned := by
  obtain ⟨h₁, run, -, regions⟩ := kheapExtend_ok boot obtained
  rw [extension] at run
  cases run
  obtain ⟨region, regions', extent, -⟩ := extended.regions
  rw [regions] at regions'
  have last := List.append_inj_right' regions' rfl
  rw [List.cons.injEq] at last
  have place : (frames + boot.offset).toNat = c.addr.toNat := by
    have start := congrArg Interval.start extent
    rw [← last.1] at start
    exact start
  have base := aligned_add (pages _ _ _ _ obtained) offset
  have whole := extendBytes_dvd r
  have bytes := extended.bytes
  rw [place] at base
  refine ⟨?_, ?_⟩ <;> omega

/-- Where no block suits, the extension is not split exactly where its block would not be. -/
theorem Extended.unsplit_iff {r : UInt64} {c : Block} (extended : Extended Ready h h' bs r c)
    (unfit : ∀ b ∈ bs, ¬ b.Suits r) : Unsplit r bs ↔ c.size.toNat ≤ r.toNat + 32 := by
  have none : bs.find? (fun b => decide (b.Suits r)) = none := by
    apply List.find?_eq_none.mpr
    intro x inX
    rw [decide_eq_true_eq]
    exact unfit x inX
  have bytes := extended.bytes
  rw [Unsplit, none]
  dsimp only
  omega

/-- The list after `kmalloc` is aligned exactly where the request is rounded to a multiple of 16
or no block is split. -/
theorem HeapInv.kmalloc_aligned (inv : HeapInv h bs) (fresh : source.Fresh boot Ready)
    (ready : Ready h.machine h.regions) (small : size.toNat ≤ 2 ^ 42) (pages : source.Aligned)
    (offset : 4096 ∣ boot.offset.toNat) (aligned : ∀ b ∈ bs, b.Aligned) {ptr : UInt64}
    (returned : kmalloc boot source size h = .ok (ptr, h')) :
    ∃ cs, Listed h' cs ∧
      ((∀ b ∈ cs, 16 ∣ b.addr.toNat) ↔
        16 ∣ (kmallocRound size).toNat ∨ Unsplit (kmallocRound size) bs) ∧
      (16 ∣ (kmallocRound size).toNat ∨ Unsplit (kmallocRound size) bs → ∀ b ∈ cs, b.Aligned) := by
  have rounded := kmallocRound_of_le small
  obtain ⟨cs, d, -, served⟩ := (inv.kmalloc_served fresh ready (by omega)).of_ok returned
  cases served with
  | direct searched taken =>
    obtain ⟨before, b, after, rfl, origin⟩ := taken.origin
    have fits := inv.listed.fits b (by simp)
    have unsplit : Unsplit (kmallocRound size) (before ++ b :: after) ↔
        b.size.toNat ≤ (kmallocRound size).toNat + 32 := by
      rw [Unsplit, origin.find]
    rw [unsplit]
    exact ⟨cs, taken.listed, origin.aligned_iff fits aligned⟩
  | extended unfit frames machine obtained h₁ c extension extended searched taken =>
    have alignedC := extended.aligned extension obtained pages offset
    obtain ⟨before, b, after, same, origin⟩ := taken.origin
    have fits := extended.listed.fits b (by rw [same]; simp)
    have isC := origin.eq_last same unfit
    have all : ∀ x ∈ before ++ b :: after, x.Aligned := by
      rw [← same]
      intro x inX
      rw [List.mem_append, List.mem_singleton] at inX
      rcases inX with old | rfl
      · exact aligned x old
      · exact alignedC
    rw [extended.unsplit_iff unfit, ← isC]
    exact ⟨cs, taken.listed, origin.aligned_iff fits all⟩

/-- What a call does to the alignment of a sound session. -/
structure CallAligned (Ready : Machine → List Region → Prop) (s s' : Session) (c : HeapCall)
    (cs : List Block) : Prop where
  /-- The session is sound. -/
  sound : Sound Ready s' cs
  /-- It is aligned exactly where the call rounds. -/
  iff : (∀ b ∈ cs, 16 ∣ b.addr.toNat) ↔ c.Rounds s
  /-- Then the sizes are aligned, too. -/
  aligned : c.Rounds s → ∀ b ∈ cs, b.Aligned

/-- The zero fill of `kzalloc` keeps the block list. -/
theorem HeapInv.kzalloc_listed (inv : HeapInv h bs) (fresh : source.Fresh boot Ready)
    (ready : Ready h.machine h.regions) (small : size.toNat ≤ 2 ^ 42) {ptr : UInt64}
    (run : kmalloc boot source size h = .ok (ptr, h')) (listed : Listed h' cs) :
    Listed (h'.withMem (memset h'.mem ptr 0 size)) cs := by
  obtain ⟨ds, b, same, allocated⟩ := (inv.kmalloc_meets fresh ready small).of_ok run
  change ptr = b.pointer at same
  have equal := allocated.inv.listed.unique listed
  rw [equal] at allocated
  have inList : b ∈ cs := (allocated.used b allocated.taken).mpr (Or.inr rfl)
  have fits := listed.fits b inList
  rw [same]
  exact (allocated.inv.write inList ((memset_writes h'.mem b.pointer 0 size).mono fun a =>
    fits.span_le allocated.room)).listed

/-- A release keeps an aligned session aligned. -/
theorem Sound.kfree_aligned (sound : Sound Ready s bs) (aligned : ∀ b ∈ bs, b.Aligned) {ptr : UInt64}
    (allowed : (HeapCall.kfree ptr).Allowed s) (listed : Listed (kfree ptr s.heap) cs) :
    ∀ c ∈ cs, c.Aligned := by
  have ignored (same : kfree ptr s.heap = s.heap) : ∀ c ∈ cs, c.Aligned := by
    rw [same] at listed
    rw [listed.unique sound.inv.listed]
    exact aligned
  rcases allowed with rfl | live | inFreed
  · exact ignored (kfree_null s.heap)
  · obtain ⟨b, inList, used, rfl⟩ := (sound.live_iff ptr).mp live
    obtain ⟨ds, release⟩ := sound.inv.kfree inList used
    rw [listed.unique release.inv.listed]
    exact release.aligned aligned
  · exact ignored (sound.inv.listed.kfree_stale (sound.freed ptr inFreed))

/-- A call keeps an aligned session aligned exactly where it rounds. -/
theorem Sound.call_aligned (sound : Sound Ready s bs) (fresh : source.Fresh boot Ready)
    (pages : source.Aligned) (offset : 4096 ∣ boot.offset.toNat) (aligned : ∀ b ∈ bs, b.Aligned)
    {c : HeapCall} (allowed : c.Allowed s) (returned : c.perform boot source s = .ok s') :
    ∃ cs, CallAligned Ready s s' c cs := by
  have listed := sound.inv.listed
  obtain ⟨cs, sound'⟩ := ((sound.perform fresh allowed).of_ok returned).1
  have rounds (r : UInt64) : (∃ bs, Listed s.heap bs ∧ (16 ∣ r.toNat ∨ Unsplit r bs)) ↔
      16 ∣ r.toNat ∨ Unsplit r bs := by
    constructor
    · rintro ⟨other, list, cond⟩
      rw [listed.unique list]
      exact cond
    · exact fun cond => ⟨bs, listed, cond⟩
  cases c with
  | kmalloc size =>
    obtain ⟨⟨ptr, h'⟩, run, made⟩ := bind_eq_ok.mp returned
    cases made
    obtain ⟨ds, list, iff, all⟩ :=
      sound.inv.kmalloc_aligned fresh sound.ready allowed pages offset aligned run
    rw [sound'.inv.listed.unique list] at sound'
    exact ⟨ds, sound', by rw [HeapCall.Rounds, rounds]; exact iff,
      by rw [HeapCall.Rounds, rounds]; exact all⟩
  | kzalloc size =>
    obtain ⟨⟨ptr, h'⟩, run, made⟩ := bind_eq_ok.mp returned
    obtain ⟨⟨ptr', h₁⟩, run', made'⟩ := bind_eq_ok.mp run
    cases made'
    cases made
    obtain ⟨ds, list, iff, all⟩ :=
      sound.inv.kmalloc_aligned fresh sound.ready allowed pages offset aligned run'
    have list' := sound.inv.kzalloc_listed fresh sound.ready allowed run' list
    rw [sound'.inv.listed.unique list'] at sound'
    exact ⟨ds, sound', by rw [HeapCall.Rounds, rounds]; exact iff,
      by rw [HeapCall.Rounds, rounds]; exact all⟩
  | kfree ptr =>
    have run := Except.ok.inj returned
    have list : Listed (kfree ptr s.heap) cs := by
      have here := sound'.inv.listed
      rw [← run] at here
      exact here
    have all := sound.kfree_aligned aligned allowed list
    exact ⟨cs, sound', iff_of_true (fun b inList => (all b inList).1) trivial, fun _ => all⟩
  | write a v =>
    obtain ⟨x, inLive, has⟩ := allowed
    cases returned
    have written := sound.write fresh inLive has v
    exact ⟨bs, written, iff_of_true (fun b inList => (aligned b inList).1) trivial, fun _ => aligned⟩

/-- Runs in which every call rounds are sound and aligned. -/
theorem RoundedRun.sound (run : RoundedRun boot source machine s) (fresh : source.Fresh boot Ready)
    (ready : Ready machine []) (pages : source.Aligned) (offset : 4096 ∣ boot.offset.toNat) :
    ∃ bs, Sound Ready s bs ∧ ∀ b ∈ bs, b.Aligned := by
  induction run with
  | init h returned =>
    obtain ⟨start, inv, regions, ready'⟩ := (kheapInit_meets fresh ready).of_ok returned
    refine ⟨_, sound_init inv regions ready', fun b inList => ?_⟩
    obtain ⟨⟨frames, machine'⟩, obtained, made⟩ := bind_eq_ok.mp returned
    have first : h.blockListStart = frames + boot.offset := by
      rw [← Except.ok.inj made]
      rfl
    have same : h.blockListStart = start := inv.listed.start
    have base := aligned_add (pages _ _ _ _ obtained) offset
    rw [← first, same] at base
    rw [List.mem_singleton.mp inList, Block.Aligned, initialBlock_size]
    change 16 ∣ start.toNat ∧ _
    omega
  | call s s' c _ allowed rounds returned ih =>
    obtain ⟨bs, sound, aligned⟩ := ih
    obtain ⟨cs, next⟩ := sound.call_aligned fresh pages offset aligned allowed returned
    exact ⟨cs, next.sound, next.aligned rounds⟩

/-- Alignment of the heap: in every run whose calls all round their request to a multiple of 16 or
split no block, all headers and all live pointers are multiples of 16 in every session reached;
and the next call keeps them so exactly where it rounds or splits no block. -/
theorem heap_aligned (fresh : source.Fresh boot Ready) (ready : Ready machine [])
    (pages : source.Aligned) (offset : 4096 ∣ boot.offset.toNat)
    (run : RoundedRun boot source machine s) :
    s.Aligned ∧ ∀ (c : HeapCall) (s' : Session), c.Allowed s → c.perform boot source s = .ok s' →
      (s'.Aligned ↔ c.Rounds s) := by
  obtain ⟨bs, sound, aligned⟩ := run.sound fresh ready pages offset
  refine ⟨sound.aligned_iff.mpr fun b inList => (aligned b inList).1, fun c s' allowed returned => ?_⟩
  obtain ⟨cs, next⟩ := sound.call_aligned fresh pages offset aligned allowed returned
  rw [next.sound.aligned_iff, next.iff]

/-- The page frame allocator returns page-aligned addresses. -/
theorem pmmAlloc_aligned : PageSource.Aligned pmmAlloc := by
  intro pages machine frames machine' returned
  obtain ⟨base, -, rest⟩ := bind_eq_ok.mp returned
  obtain ⟨s, -, made⟩ := bind_eq_ok.mp rest
  cases made
  rw [UInt64.toNat_shiftLeft, Nat.shiftLeft_eq]
  change 4096 ∣ base.toNat * 4096 % 2 ^ 64
  omega

/-- A request of 104 bytes keeps the initialised heap of the machine aligned. -/
theorem heap_aligned_heapBoot : ∃ machine, ∃ s : Session, RoundedRun heapBoot pmmAlloc machine s ∧
    s.Aligned ∧ ∀ s', (HeapCall.kmalloc 104).perform heapBoot pmmAlloc s = .ok s' → s'.Aligned := by
  obtain ⟨machine, h, -, ready, run⟩ := heapBoot_runs
  have first := RoundedRun.init h run
  obtain ⟨aligned, step⟩ := heap_aligned heapBoot_fresh ready pmmAlloc_aligned (by decide) first
  obtain ⟨bs, listed, -⟩ := id aligned
  have small : (104 : UInt64).toNat ≤ 2 ^ 42 := by decide
  refine ⟨machine, _, first, aligned, fun s' returned => ?_⟩
  exact (step (.kmalloc 104) s' small returned).mpr ⟨bs, listed, Or.inl (by decide)⟩

/-- A request of ten bytes on the initialised heap is not rounded, and the block that the split
leaves behind is misaligned. -/
theorem heap_misaligned : ∃ machine, ∃ s : Session, HeapRun heapBoot pmmAlloc machine s ∧
    s.live.map Allocation.size = [10] ∧ ¬ s.Aligned := by
  have round : kmallocRound 10 = 10 := by decide
  have ten : (10 : UInt64).toNat = 10 := by decide
  have small : (10 : UInt64).toNat ≤ 2 ^ 42 := by decide
  obtain ⟨machine, -, h, h', start, cs, d, inv, taken, origin, -, run⟩ :=
    heapBoot_kmalloc small (by decide)
  refine ⟨machine, _, run, rfl, ?_⟩
  rintro ⟨bs, listed, aligned, -⟩
  rw [listed.unique taken.listed] at aligned
  have fits := inv.listed.fits _ (List.mem_singleton_self _)
  rw [round] at origin
  have large : (10 : UInt64).toNat + 32 < (initialBlock start).size.toNat := by
    rw [ten, initialBlock_size]
    decide
  obtain ⟨-, list⟩ := origin.split large
  have first := aligned d (by rw [list]; simp)
  have second := aligned ((initialBlock start).remainder 10) (by rw [list]; simp)
  rw [(fits.remainder large).1, ten] at second
  rw [origin.addr] at first
  omega

end Symphony
