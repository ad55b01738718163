import Symphony.Verif.HeapFree

/-!
# The search for a block

The search of `kmalloc` on the block list: it finds the first free block with room for the
request, and the block is taken whole or split. Marked free again, the block merges with
what is left of it to the list before.
-/

namespace Symphony

variable {h : Kheap} {bs before after : List Block} {b c : Block} {r : UInt64}

/-- The block is free and has room for a request. -/
def Block.Suits (b : Block) (r : UInt64) : Prop := b.free = true ∧ r.toNat ≤ b.size.toNat

instance (b : Block) (r : UInt64) : Decidable (b.Suits r) :=
  inferInstanceAs (Decidable (b.free = true ∧ r.toNat ≤ b.size.toNat))

/-- Blocks of a list at one address are the same. -/
theorem Listed.eq_of_addr (listed : Listed h bs) (inB : b ∈ bs) (inC : c ∈ bs)
    (same : b.addr = c.addr) : b = c := by
  by_contra different
  have apart := listed.apart_of_ne inB inC different
  rw [Block.apart_iff, same] at apart
  omega

/-- How a block is taken from a list: the first suitable block is taken whole where at most a
header's worth of it is left, and split otherwise. -/
structure TakenFrom (r : UInt64) (before : List Block) (b : Block) (after cs : List Block) (d : Block) :
    Prop where
  /-- The block suits. -/
  suits : b.Suits r
  /-- It is the first to suit. -/
  first : ∀ x ∈ before, ¬ x.Suits r
  /-- The block that is taken starts where it does. -/
  addr : d.addr = b.addr
  /-- The list afterwards. -/
  list : b.size.toNat ≤ r.toNat + 32 ∧ d.size = b.size ∧ cs = before ++ d :: after ∨
    r.toNat + 32 < b.size.toNat ∧ d.size = r ∧ cs = before ++ d :: b.remainder r :: after

/-- A block with more than a header's worth left is split. -/
theorem TakenFrom.split {d : Block} (origin : TakenFrom r before b after cs d)
    (large : r.toNat + 32 < b.size.toNat) :
    d.size = r ∧ cs = before ++ d :: b.remainder r :: after :=
  (origin.list.resolve_left fun whole => Nat.not_lt.mpr whole.1 large).2

/-- What the taking of a block from a list guarantees. -/
structure Taken (h h' : Kheap) (bs cs : List Block) (r : UInt64) (b : Block) : Prop where
  /-- The block list. -/
  listed : Listed h' cs
  /-- No two free neighbours touch. -/
  separate : Separate cs
  /-- Where the block comes from. -/
  origin : ∃ before b₀ after, bs = before ++ b₀ :: after ∧ TakenFrom r before b₀ after cs b
  /-- The list before is that of the block marked free and merged with the rest of it. -/
  undo : Merges (Block.markFree [b.pointer] cs) bs
  /-- The other variables stay. -/
  keeps : h.Keeps h'
  /-- The block joins those in use. -/
  used : ∀ x : Block, x.free = false → (x ∈ cs ↔ x ∈ bs ∨ x = b)
  /-- It was not among them. -/
  fresh : b ∉ bs
  /-- The block is in use. -/
  taken : b.free = false
  /-- It has room for the request. -/
  room : r.toNat ≤ b.size.toNat
  /-- At most a header's worth of it is slack. -/
  slack : b.size.toNat ≤ r.toNat + 32
  /-- Only headers and the payloads of free blocks are written. -/
  writes : h.mem.Writes (AllocatorByte bs) h'.mem

/-- A block that does not suit is skipped. -/
theorem Listed.kmallocTry_none (listed : Listed h (before ++ b :: after)) (unfit : ¬ b.Suits r) :
    kmallocTry r b.addr h = none := by
  obtain ⟨size, free, -, -⟩ := listed.fields
  unfold kmallocTry
  rw [size, free, if_pos]
  by_cases isFree : b.free = true
  · right
    rw [UInt64.lt_iff_toNat_lt]
    have small : ¬ r.toNat ≤ b.size.toNat := fun room => unfit ⟨isFree, room⟩
    omega
  · exact Or.inl isFree

/-- The body of the search at a block that suits: where too little is left for a header it is
taken whole, else it is split. -/
theorem Listed.kmallocTry_eq (listed : Listed h (before ++ b :: after)) (suits : b.Suits r) :
    kmallocTry r b.addr h =
      if b.size.toNat ≤ r.toNat + 32 then some (h.withMem (h.mem.setBlockFree b.addr false))
      else some ((kheapCreateBlock b.addr r h).withMem
        ((kheapCreateBlock b.addr r h).mem.setBlockFree b.addr false)) := by
  obtain ⟨size, free, -, -⟩ := listed.fields
  have fits := (Block.fits_iff b).mp (listed.fits b (by simp))
  obtain ⟨isFree, room⟩ := suits
  have sum : (r + headerSize).toNat = r.toNat + 32 := toNat_add_of_fits (by change _ + 32 < _; omega)
  have accepted : ¬ (¬ b.free = true ∨ b.size < r) := by
    rw [isFree, UInt64.lt_iff_toNat_lt]
    simp only [not_true_eq_false, false_or]
    omega
  have exactly : b.size = r ∨ b.size > r ∧ b.size ≤ r + headerSize ↔ b.size.toNat ≤ r.toNat + 32 := by
    rw [gt_iff_lt, UInt64.lt_iff_toNat_lt, UInt64.le_iff_toNat_le, sum, ← UInt64.toNat_inj]
    omega
  have larger : b.size > r + headerSize ↔ ¬ b.size.toNat ≤ r.toNat + 32 := by
    rw [gt_iff_lt, UInt64.lt_iff_toNat_lt, sum, Nat.not_le]
  unfold kmallocTry
  simp only [size, free, if_neg accepted, exactly, larger]
  by_cases short : b.size.toNat ≤ r.toNat + 32
  · rw [if_pos short, if_pos short]
  · rw [if_neg short, if_neg short, if_pos short]

/-- A block of exactly the requested size, or with too little left for a header, is taken
whole. -/
theorem Listed.kmallocTry_whole (listed : Listed h (before ++ b :: after)) (suits : b.Suits r)
    (short : b.size.toNat ≤ r.toNat + 32) :
    kmallocTry r b.addr h = some (h.withMem (h.mem.setBlockFree b.addr false)) := by
  rw [listed.kmallocTry_eq suits, if_pos short]

/-- A larger block is split. -/
theorem Listed.kmallocTry_split (listed : Listed h (before ++ b :: after)) (suits : b.Suits r)
    (large : r.toNat + 32 < b.size.toNat) :
    kmallocTry r b.addr h = some ((kheapCreateBlock b.addr r h).withMem
      ((kheapCreateBlock b.addr r h).mem.setBlockFree b.addr false)) := by
  rw [listed.kmallocTry_eq suits, if_neg (Nat.not_le.mpr large)]

/-- Blocks of which the middle one is in use do not touch as free neighbours. -/
theorem chain_used {x : Block} {xs ys : List Block} (used : x.free = false)
    (front : Separate xs)
    (behind : Separate ys) :
    Separate (xs ++ x :: ys) := by
  unfold Separate
  rw [List.isChain_append, List.isChain_cons]
  refine ⟨front, ⟨fun y _ touch => ?_, behind⟩, fun y _ z first touch => ?_⟩
  · exact absurd (used.symm.trans touch.1) Bool.false_ne_true
  · cases first
    exact absurd (used.symm.trans touch.2.1) Bool.false_ne_true

/-- A block that was split merges with its rest to the block that it was. -/
theorem Listed.merges_remainder {h' : Kheap}
    (split : Listed h' (before ++ { b with size := r } :: b.remainder r :: after))
    (free : b.free = true) (fits : b.Fits) (large : r.toNat + 32 < b.size.toNat) :
    Merges (before ++ { b with size := r } :: b.remainder r :: after) (before ++ b :: after) := by
  obtain ⟨e, isE⟩ : ∃ e : Block, e = { b with size := r } := ⟨_, rfl⟩
  rw [← isE] at split ⊢
  have place := (fits.remainder large).1
  have touch : e.extent.stop = (b.remainder r).extent.start := by
    rw [isE]
    change b.addr.toNat + (32 + r.toNat) = (b.remainder r).addr.toNat
    omega
  have whole : e.merged (b.remainder r) = b := by
    have sum : r + (b.size - (r + headerSize) + headerSize) = b.size := by grind
    rw [isE]
    change (⟨b.addr, r + (b.size - (r + headerSize) + headerSize), b.free⟩ : Block) = b
    rw [sum]
  have two := Merges.two before after e (b.remainder r) (isE ▸ free) rfl touch
    (split.fits e (by simp)) (split.fits _ (by simp))
  rw [whole] at two
  exact two

/-- A suitable block is taken whole or split. -/
theorem Listed.takes (listed : Listed h (before ++ b :: after)) (suits : b.Suits r)
    (first : ∀ x ∈ before, ¬ x.Suits r) (front : Separate before) (behind : Separate (b :: after)) :
    ∃ h' cs d, kmallocTry r b.addr h = some h' ∧ d.addr = b.addr ∧
      Taken h h' (before ++ b :: after) cs r d := by
  have inList : b ∈ before ++ b :: after := by simp
  have fits := listed.fits b inList
  have fresh (d : Block) (same : d.addr = b.addr) (used : d.free = false) :
      d ∉ before ++ b :: after := by
    intro inD
    rw [listed.eq_of_addr inD inList same, suits.1] at used
    cases used
  have notB (x : Block) (used : x.free = false) : x ≠ b := by
    rintro rfl
    exact absurd (used.symm.trans suits.1) Bool.false_ne_true
  have restored : { b with free := true } = b := by rw [← suits.1]
  by_cases short : b.size.toNat ≤ r.toNat + 32
  · have writes := h.mem.setBlockFree_writes b.addr false
    obtain ⟨d, isD⟩ : ∃ d : Block, d = { b with free := false } := ⟨_, rfl⟩
    have marked := listed.setFree false
    rw [← isD] at marked
    have used : d.free = false := by rw [isD]
    have sameAddr : d.addr = b.addr := by rw [isD]
    have sameSize : d.size = b.size := by rw [isD]
    refine ⟨_, before ++ d :: after, d, listed.kmallocTry_whole suits short, sameAddr, marked,
      chain_used used front behind.tail,
      ⟨before, b, after, rfl, suits, first, sameAddr, Or.inl ⟨short, sameSize, rfl⟩⟩, ?_,
      Kheap.Keeps.withMem h _, ?_, fresh d sameAddr used, used, sameSize ▸ suits.2, sameSize ▸ short, ?_⟩
    · rw [marked.markFree_one, isD]
      change Merges (before ++ { b with free := true } :: after) _
      rw [restored]
      exact Merges.none _
    · intro x usedX
      simp only [List.mem_append, List.mem_cons, notB x usedX, false_or]
      rw [or_assoc, or_comm (a := x = _)]
    · exact writes.mono fun a inside => AllocatorByte.header inList inside
  · have large : r.toNat + 32 < b.size.toNat := by omega
    obtain ⟨place, size⟩ := fits.remainder large
    obtain ⟨split, writes, keeps⟩ := listed.createBlock suits.1 large
    have writes' := (kheapCreateBlock b.addr r h).mem.setBlockFree_writes b.addr false
    obtain ⟨d, isD⟩ : ∃ d : Block, d = { b with size := r, free := false } := ⟨_, rfl⟩
    have marked := split.setFree false
    have used : d.free = false := by rw [isD]
    have sameAddr : d.addr = b.addr := by rw [isD]
    have sizeD : d.size = r := by rw [isD]
    refine ⟨_, before ++ d :: b.remainder r :: after, d, listed.kmallocTry_split suits large,
      sameAddr, isD ▸ marked, chain_used used front ?_,
      ⟨before, b, after, rfl, suits, first, sameAddr, Or.inr ⟨large, sizeD, rfl⟩⟩, ?_,
      keeps.trans (Kheap.Keeps.withMem _ _), ?_, fresh d sameAddr used, used, sizeD ▸ Nat.le_refl _,
      sizeD ▸ Nat.le_add_right _ _, ?_⟩
    · apply chain_head behind
      intro y touch
      rw [Block.mergeable_iff] at touch ⊢
      exact ⟨suits.1, touch.2.1, by omega⟩
    · have reopened : { d with free := true } = { b with size := r } := by
        rw [isD, ← suits.1]
      have list := (isD ▸ marked : Listed _ (before ++ d :: b.remainder r :: after)).markFree_one
      rw [list, reopened]
      exact split.merges_remainder suits.1 fits large
    · intro x usedX
      have notRest : x ≠ b.remainder r := by
        rintro rfl
        cases usedX
      simp only [List.mem_append, List.mem_cons, notB x usedX, notRest, false_or]
      rw [or_assoc, or_comm (a := x = _)]
    · exact writes.trans (writes'.mono fun a inside => AllocatorByte.header inList inside)

/-! ## The search -/

/-- The search finds the first suitable block, if there is one. -/
theorem Listed.searches (listed : Listed h (before ++ after)) {fuel : Nat}
    (enough : after.length ≤ fuel) :
    (∀ b ∈ after, ¬ b.Suits r) ∧
        kmallocSearch r h fuel (firstOr Block.addr after 0) = .ok none ∨
      ∃ skipped b rest, after = skipped ++ b :: rest ∧ b.Suits r ∧ (∀ x ∈ skipped, ¬ x.Suits r) ∧
        ∀ h', kmallocTry r b.addr h = some h' →
          kmallocSearch r h fuel (firstOr Block.addr after 0) = .ok (some (b.pointer, h')) := by
  induction after generalizing before fuel with
  | nil =>
    left
    refine ⟨fun b absurd => (by cases absurd), ?_⟩
    cases fuel with
    | zero => rfl
    | succ fuel => rfl
  | cons b after ih =>
    cases fuel with
    | zero => cases enough
    | succ fuel =>
      have notNull : b.addr ≠ 0 := (listed.fits b (by simp)).addr_ne_zero
      rw [firstOr, kmallocSearch, if_neg notNull]
      by_cases suits : b.Suits r
      · right
        refine ⟨[], b, after, rfl, suits, by simp, fun h' found => ?_⟩
        rw [found]
        rfl
      · rw [listed.kmallocTry_none suits]
        simp only
        rw [listed.fields.2.2.1]
        have behind : Listed h ((before ++ [b]) ++ after) := by
          rw [List.append_assoc]
          exact listed
        rcases ih behind (Nat.le_of_succ_le_succ enough) with ⟨none, searched⟩ | found
        · left
          refine ⟨?_, searched⟩
          intro c inC
          cases inC with
          | head => exact suits
          | tail _ later => exact none c later
        · obtain ⟨skipped, d, rest, rfl, suitsD, unfit, found⟩ := found
          refine Or.inr ⟨b :: skipped, d, rest, rfl, suitsD, fun x inX => ?_, found⟩
          cases inX with
          | head => exact suits
          | tail _ later => exact unfit x later

/-- A list has fewer blocks than there are addresses. -/
theorem Listed.length_le (listed : Listed h bs) : bs.length ≤ manyTurns := by
  have total : Interval.total (bs.map Block.extent) ≤ 2 ^ 64 := by
    apply Interval.total_le (List.pairwise_map.mpr listed.apart)
    intro x inX
    obtain ⟨b, inList, rfl⟩ := List.mem_map.mp inX
    exact Nat.le_of_lt (listed.fits b inList).2
  have count : bs.length ≤ Interval.total (bs.map Block.extent) := by
    clear listed total
    induction bs with
    | nil => exact Nat.le_refl 0
    | cons b bs ih =>
      change bs.length + 1 ≤ 32 + b.size.toNat + Interval.total (bs.map Block.extent)
      omega
  exact Nat.le_trans count total

end Symphony
