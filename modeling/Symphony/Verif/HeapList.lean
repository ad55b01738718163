import Symphony.Verif.Headers

/-!
# The block list

What the steps of the heap do to the list of blocks: a block is taken or released, a block
is split, a block is appended, and two neighbours become one. Each step keeps the list
doubly linked and its blocks apart, and writes only to bytes of the allocator.
-/

namespace Symphony

variable {h : Kheap} {bs before after : List Block} {b c : Block} {m m' : Memory}

/-- The bytes of the header of a proper block. -/
theorem Block.Fits.headerSpan_iff (fits : b.Fits) (a : UInt64) :
    HeaderSpan b.addr a ↔ b.addr.toNat ≤ a.toNat ∧ a.toNat < b.addr.toNat + 32 := by
  rw [Block.fits_iff] at fits
  exact span_iff (by omega)

/-- Headers of separated blocks are separated. -/
theorem Block.Apart.headersApart (apart : b.Apart c) (fitsB : b.Fits) (fitsC : c.Fits) :
    HeadersApart b.addr c.addr := by
  intro a inB inC
  rw [fitsB.headerSpan_iff] at inB
  rw [fitsC.headerSpan_iff] at inC
  rw [Block.apart_iff] at apart
  omega

/-- A proper block is not at `NULL`. -/
theorem Block.Fits.addr_ne_zero (fits : b.Fits) : b.addr ≠ 0 := by
  intro zero
  have positive := fits.1
  rw [zero] at positive
  exact Nat.lt_irrefl 0 positive

/-- What surrounds a member of a list with pairwise related members. -/
theorem pairwise_mid {R : Block → Block → Prop} (pairwise : (before ++ b :: after).Pairwise R) :
    (∀ x ∈ before, R x b) ∧ (∀ y ∈ after, R b y) ∧ ∀ x ∈ before, ∀ y ∈ after, R x y := by
  simp only [List.pairwise_append, List.pairwise_cons, List.mem_cons, forall_eq_or_imp] at pairwise
  obtain ⟨-, ⟨behind, -⟩, cross⟩ := pairwise
  exact ⟨fun x inX => (cross x inX).1, behind, fun x inX y inY => (cross x inX).2 y inY⟩

namespace Listed

/-- The fields of a block in the list. -/
theorem header (listed : Listed h (before ++ b :: after)) :
    h.mem.header b.addr = ⟨b.size, b.free, firstOr Block.addr after 0, lastOr Block.addr 0 before⟩ :=
  listed.linked.cell_mid

/-- The fields of a block in the list, one by one. -/
theorem fields (listed : Listed h (before ++ b :: after)) :
    h.mem.blockSize b.addr = b.size ∧ h.mem.blockFree b.addr = b.free ∧
      h.mem.blockNext b.addr = firstOr Block.addr after 0 ∧
      h.mem.blockPrev b.addr = lastOr Block.addr 0 before := by
  have all := listed.header
  rwa [Memory.header, Header.mk.injEq] at all

/-- Headers before a block are apart from its own. -/
theorem apart_before (listed : Listed h (before ++ b :: after)) {x : Block} (inX : x ∈ before) :
    HeadersApart b.addr x.addr :=
  ((pairwise_mid listed.apart).1 x inX).headersApart
    (listed.fits x (List.mem_append_left _ inX)) (listed.fits b (by simp)) |>.symm

/-- Headers behind a block are apart from its own. -/
theorem apart_after (listed : Listed h (before ++ b :: after)) {y : Block} (inY : y ∈ after) :
    HeadersApart b.addr y.addr :=
  ((pairwise_mid listed.apart).2.1 y inY).headersApart (listed.fits b (by simp))
    (listed.fits y (by simp [inY]))

/-- A write that spares the headers keeps the list. -/
theorem write (listed : Listed h bs) {area : UInt64 → Prop} (writes : h.mem.Writes area m)
    (apart : ∀ b ∈ bs, ∀ a, HeaderSpan b.addr a → ¬ area a) : Listed (h.withMem m) bs where
  nonempty := listed.nonempty
  start := listed.start
  last := listed.last
  linked := listed.linked.imp fun b inList p n cell => by
    change m.header b.addr = _
    rw [writes.header_eq (apart b inList)]
    exact cell
  apart := listed.apart
  fits := listed.fits

/-- A heap has one block list. -/
theorem unique {cs : List Block} (first : Listed h bs) (second : Listed h cs) : bs = cs := by
  apply first.linked.unique second.linked
  · intro b c p q n n' hereB hereC place
    rw [Cell, place] at hereB
    rw [Cell, hereB, Header.mk.injEq] at hereC
    obtain ⟨size, free, next, -⟩ := hereC
    have fields : (⟨b.addr, b.size, b.free⟩ : Block) = ⟨c.addr, c.size, c.free⟩ := by
      rw [place, size, free]
    exact ⟨fields, next⟩
  · exact fun b inList => (first.fits b inList).addr_ne_zero
  · exact fun c inList => (second.fits c inList).addr_ne_zero
  · rw [← first.start, second.start]

end Listed

/-- A segment behind a header is linked back to another one. -/
theorem Linked.setPrevIfAny {p q : UInt64} (linked : Linked Block.addr (Cell m) p after 0)
    (apart : after.Pairwise Block.Apart) (fits : ∀ b ∈ after, b.Fits) :
    Linked Block.addr (Cell (m.setPrevIfAny (firstOr Block.addr after 0) q)) q after 0 := by
  cases after with
  | nil => trivial
  | cons d rest =>
    obtain ⟨here, behind⟩ := linked
    have fitsD := fits d List.mem_cons_self
    rw [firstOr, Memory.setPrevIfAny, if_pos fitsD.addr_ne_zero]
    refine ⟨?_, behind.imp fun x inRest p n cell => ?_⟩
    · rw [Cell, Memory.header_setBlockPrev, here]
    · have separate := (List.pairwise_cons.mp apart).1 x inRest
      rw [Cell, Memory.header_of_apart (m.setBlockPrev_writes d.addr q)
        (separate.headersApart fitsD (fits x (List.mem_cons_of_mem d inRest)))]
      exact cell

/-- The link back changes no other header. -/
theorem Memory.header_setPrevIfAny {next q bh : UInt64} (apart : next ≠ 0 → HeadersApart next bh) :
    (m.setPrevIfAny next q).header bh = m.header bh := by
  rw [setPrevIfAny]
  by_cases null : next = 0
  · rw [if_neg (not_not.mpr null)]
  · rw [if_pos null]
    exact header_of_apart (m.setBlockPrev_writes next q) (apart null)

/-- The link back is written to the header of the segment's first block. -/
theorem Memory.setPrevIfAny_writes (m : Memory) (q : UInt64) (after : List Block) :
    m.Writes (fun a => ∃ d ∈ after, HeaderSpan d.addr a)
      (m.setPrevIfAny (firstOr Block.addr after 0) q) := by
  cases after with
  | nil =>
    rw [firstOr, setPrevIfAny, if_neg (not_not.mpr rfl)]
  | cons d rest =>
    rw [firstOr, setPrevIfAny]
    by_cases null : d.addr = 0
    · rw [if_neg (not_not.mpr null)]
    · rw [if_pos null]
      exact (m.setBlockPrev_writes d.addr q).mono fun a inside => ⟨d, List.mem_cons_self, inside⟩

/-- A segment is linked back to another header, where no other store reaches its headers. -/
theorem Linked.relink {p q : UInt64} {m₁ m₂ : Memory} {early late : UInt64 → Prop}
    (linked : Linked Block.addr (Cell m) p after 0) (apart : after.Pairwise Block.Apart)
    (fits : ∀ b ∈ after, b.Fits) (writes : m.Writes early m₁)
    (last : (m₁.setPrevIfAny (firstOr Block.addr after 0) q).Writes late m₂)
    (spared : ∀ y ∈ after, ∀ a, HeaderSpan y.addr a → ¬ early a ∧ ¬ late a) :
    Linked Block.addr (Cell m₂) q after 0 := by
  have kept : Linked Block.addr (Cell m₁) p after 0 := by
    apply linked.imp
    intro y inY p n cell
    rw [Cell, writes.header_eq fun a here => (spared y inY a here).1]
    exact cell
  apply (kept.setPrevIfAny (q := q) apart fits).imp
  intro y inY p n cell
  rw [Cell, last.header_eq fun a here => (spared y inY a here).2]
  exact cell

/-! ## A segment of the list is replaced -/

/-- Bytes of a header belong to the allocator. -/
theorem AllocatorByte.header {a : UInt64} (inList : b ∈ bs) (inside : HeaderSpan b.addr a) :
    AllocatorByte bs a := ⟨b, inList, Or.inl inside⟩

/-- A step replaces a segment of the list by one that starts at the same header and lies in
the same bytes. -/
theorem Listed.replace {h' : Kheap} {old new : List Block}
    (listed : Listed h (before ++ (old ++ after))) (nonempty : new ≠ [])
    (start : h'.blockListStart = h.blockListStart)
    (first : ∀ next, firstOr Block.addr new next = firstOr Block.addr old next)
    (last : h'.blockListEnd = lastOr Block.addr 0 (before ++ (new ++ after)))
    (kept : ∀ x ∈ before, h'.mem.header x.addr = h.mem.header x.addr)
    (middle : Linked Block.addr (Cell h'.mem) (lastOr Block.addr 0 before) new
      (firstOr Block.addr after 0))
    (behind : Linked Block.addr (Cell h'.mem)
      (lastOr Block.addr (lastOr Block.addr 0 before) new) after 0)
    (inside : new.Pairwise Block.Apart)
    (apart : ∀ x : Block, 0 < x.extent.len → (∀ y ∈ old, x.Apart y) → ∀ z ∈ new, x.Apart z)
    (fits : ∀ z ∈ new, z.Fits) : Listed h' (before ++ (new ++ after)) where
  nonempty := by
    intro empty
    rw [List.append_eq_nil_iff, List.append_eq_nil_iff] at empty
    exact nonempty empty.2.1
  start := by
    rw [start, listed.start, firstOr_append, firstOr_append, firstOr_append, firstOr_append, first]
  last := last
  linked := by
    apply listed.linked.replace (first _) _ middle behind
    intro x inX p n cell
    rw [Cell, kept x inX]
    exact cell
  apart := by
    have positive (x : Block) : 0 < x.extent.len := Nat.add_pos_left (by decide) _
    apply pairwise_replace listed.apart inside
    · intro x _ separate z inZ
      exact apart x (positive x) separate z inZ
    · intro x _ separate z inZ
      exact (apart x (positive x) (fun y inY => (separate y inY).symm) z inZ).symm
  fits := by
    intro x inX
    rw [List.mem_append, List.mem_append] at inX
    rcases inX with inBefore | inNew | inAfter
    · exact listed.fits x (List.mem_append_left _ inBefore)
    · exact fits x inNew
    · exact listed.fits x (List.mem_append_right _ (List.mem_append_right _ inAfter))

/-- The segment behind a block that is linked to it. -/
theorem Listed.behind (listed : Listed h (before ++ b :: after)) :
    Linked Block.addr (Cell h.mem) b.addr after 0 :=
  (linked_append.mp listed.linked).2.2

/-- Stores to the header of a block keep what is behind it. -/
theorem Listed.behind_of_writes (listed : Listed h (before ++ b :: after))
    (writes : h.mem.Writes (HeaderSpan b.addr) m) :
    Linked Block.addr (Cell m) b.addr after 0 := by
  apply listed.behind.imp
  intro y inY p n cell
  rw [Cell, Memory.header_of_apart writes (listed.apart_after inY)]
  exact cell

/-- Stores behind a block spare the headers before it. -/
theorem Listed.header_before (listed : Listed h (before ++ b :: after)) {area : UInt64 → Prop}
    (writes : h.mem.Writes (fun a => area a ∨ ∃ d ∈ after, HeaderSpan d.addr a) m) {x : Block}
    (inX : x ∈ before) (spared : ∀ a, HeaderSpan x.addr a → ¬ area a) :
    m.header x.addr = h.mem.header x.addr := by
  apply writes.header_eq
  intro a here inside
  rcases inside with inArea | ⟨d, inAfter, behind⟩
  · exact spared a here inArea
  · have cross := (pairwise_mid listed.apart).2.2 x inX d inAfter
    exact cross.headersApart (listed.fits x (by simp [inX])) (listed.fits d (by simp [inAfter])) a
      here behind

/-- The end of the list after the successor of its last block became the last. -/
theorem Listed.end_eq (listed : Listed h (before ++ b :: after)) (bh : UInt64) :
    (if b.addr = h.blockListEnd then bh else h.blockListEnd) = lastOr Block.addr bh after := by
  have last := listed.last
  rw [lastOr_append] at last
  cases after with
  | nil =>
    have same : h.blockListEnd = b.addr := last
    rw [if_pos same.symm]
    rfl
  | cons y rest =>
    have same : h.blockListEnd = lastOr Block.addr b.addr (y :: rest) := last
    obtain ⟨z, inAfter, here⟩ : ∃ z ∈ y :: rest, lastOr Block.addr b.addr (y :: rest) = z.addr :=
      lastOr_mem b.addr y rest
    rw [if_neg, same]
    · rfl
    · intro equal
      rw [same, here] at equal
      have apart := listed.apart_after inAfter
      rw [equal] at apart
      exact apart z.addr (by unfold HeaderSpan Span; simp) (by unfold HeaderSpan Span; simp)

/-- The flag of a block changes. -/
theorem Listed.setFree (listed : Listed h (before ++ b :: after)) (free : Bool) :
    Listed (h.withMem (h.mem.setBlockFree b.addr free)) (before ++ { b with free } :: after) := by
  have writes := h.mem.setBlockFree_writes b.addr free
  have whole : Listed h (before ++ ([b] ++ after)) := listed
  change Listed _ (before ++ ([{ b with free }] ++ after))
  apply whole.replace
  · exact List.cons_ne_nil _ _
  · rfl
  · exact fun _ => rfl
  · have last := listed.last
    rw [lastOr_append] at last ⊢
    exact last
  · intro x inX
    exact Memory.header_of_apart writes (listed.apart_before inX)
  · refine ⟨?_, trivial⟩
    change (h.mem.setBlockFree b.addr free).header b.addr = _
    rw [Memory.header_setBlockFree, listed.header]
    rfl
  · exact listed.behind_of_writes writes
  · exact List.pairwise_singleton _ _
  · intro x _ apart z inZ
    rw [List.mem_singleton.mp inZ]
    exact apart b (List.mem_singleton_self b)
  · intro z inZ
    rw [List.mem_singleton.mp inZ]
    exact listed.fits b (by simp)

/-! ## A block is split -/

/-- The headers of the two parts after the stores of `kheap_create_block`. -/
theorem createBlock_headers {bh newbh size rest next prev : UInt64} {free : Bool}
    {m₁ m₂ m₃ m₄ m₅ m₆ m₇ m₈ : Memory}
    (apart : HeadersApart newbh bh) (apartNext : next ≠ 0 → HeadersApart next bh ∧ HeadersApart next newbh)
    (header : m.header bh = ⟨size, free, next, prev⟩) {r : UInt64} (left : size - (r + headerSize) = rest)
    (e₁ : m₁ = memset m newbh 0 headerSize)
    (e₂ : m₂ = m₁.setBlockSize newbh (m₁.blockSize bh - (r + headerSize)))
    (e₃ : m₃ = m₂.setBlockSize bh r) (e₄ : m₄ = m₃.setBlockNext newbh (m₃.blockNext bh))
    (e₅ : m₅ = m₄.setBlockNext bh newbh) (e₆ : m₆ = m₅.setBlockPrev newbh bh)
    (e₇ : m₇ = m₆.setPrevIfAny (m₆.blockNext newbh) newbh) (e₈ : m₈ = m₇.setBlockFree newbh true) :
    m₈.header bh = ⟨r, free, newbh, prev⟩ ∧ m₈.header newbh = ⟨rest, true, next, bh⟩ ∧
      m₆.blockNext newbh = next := by
  have keep₁ : m₁.header bh = m.header bh := by
    rw [e₁]
    exact Memory.header_of_apart (memset_writes m newbh 0 headerSize) apart
  have old₂ : m₂.header bh = m₁.header bh := by
    rw [e₂]
    exact Memory.header_of_apart (m₁.setBlockSize_writes newbh _) apart
  have old₃ : m₃.header bh = ⟨r, free, next, prev⟩ := by
    rw [e₃, Memory.header_setBlockSize, old₂, keep₁, header]
  have old₄ : m₄.header bh = m₃.header bh := by
    rw [e₄]
    exact Memory.header_of_apart (m₃.setBlockNext_writes newbh _) apart
  have old₅ : m₅.header bh = ⟨r, free, newbh, prev⟩ := by
    rw [e₅, Memory.header_setBlockNext, old₄, old₃]
  have old₆ : m₆.header bh = m₅.header bh := by
    rw [e₆]
    exact Memory.header_of_apart (m₅.setBlockPrev_writes newbh bh) apart
  have found₁ : m₁.blockSize bh = size := by
    change (m₁.header bh).size = size
    rw [keep₁, header]
  have new₂ : m₂.header newbh = { m₁.header newbh with size := rest } := by
    rw [e₂, Memory.header_setBlockSize, found₁, left]
  have new₃ : m₃.header newbh = m₂.header newbh := by
    rw [e₃]
    exact Memory.header_of_apart (m₂.setBlockSize_writes bh r) apart.symm
  have found₃ : m₃.blockNext bh = next := by
    change (m₃.header bh).next = next
    rw [old₃]
  have new₄ : m₄.header newbh = { m₁.header newbh with size := rest, next := next } := by
    rw [e₄, Memory.header_setBlockNext, found₃, new₃, new₂]
  have new₅ : m₅.header newbh = m₄.header newbh := by
    rw [e₅]
    exact Memory.header_of_apart (m₄.setBlockNext_writes bh newbh) apart.symm
  have new₆ : m₆.header newbh = ⟨rest, (m₁.header newbh).free, next, bh⟩ := by
    rw [e₆, Memory.header_setBlockPrev, new₅, new₄]
  have found₆ : m₆.blockNext newbh = next := by
    change (m₆.header newbh).next = next
    rw [new₆]
  refine ⟨?_, ?_, found₆⟩
  · rw [e₈, Memory.header_of_apart (m₇.setBlockFree_writes newbh true) apart, e₇, found₆,
      Memory.header_setPrevIfAny fun some => (apartNext some).1, old₆, old₅]
  · rw [e₈, Memory.header_setBlockFree, e₇, found₆,
      Memory.header_setPrevIfAny fun some => (apartNext some).2, new₆]

/-- The stores of `kheap_create_block` before the link back go to the headers of the two parts. -/
theorem createBlock_writes {bh newbh r : UInt64} {m₁ m₂ m₃ m₄ m₅ m₆ : Memory}
    (e₁ : m₁ = memset m newbh 0 headerSize)
    (e₂ : m₂ = m₁.setBlockSize newbh (m₁.blockSize bh - (r + headerSize)))
    (e₃ : m₃ = m₂.setBlockSize bh r) (e₄ : m₄ = m₃.setBlockNext newbh (m₃.blockNext bh))
    (e₅ : m₅ = m₄.setBlockNext bh newbh) (e₆ : m₆ = m₅.setBlockPrev newbh bh) :
    m.Writes (fun a => HeaderSpan bh a ∨ HeaderSpan newbh a) m₆ := by
  have first := (memset_writes m newbh 0 headerSize).mono fun a => Or.inr (a := HeaderSpan bh a)
  rw [← e₁] at first
  have second := (m₁.setBlockSize_writes newbh (m₁.blockSize bh - (r + headerSize))).mono
    fun a => Or.inr (a := HeaderSpan bh a)
  rw [← e₂] at second
  have third := (m₂.setBlockSize_writes bh r).mono fun a => Or.inl (b := HeaderSpan newbh a)
  rw [← e₃] at third
  have fourth := (m₃.setBlockNext_writes newbh (m₃.blockNext bh)).mono
    fun a => Or.inr (a := HeaderSpan bh a)
  rw [← e₄] at fourth
  have fifth := (m₄.setBlockNext_writes bh newbh).mono fun a => Or.inl (b := HeaderSpan newbh a)
  rw [← e₅] at fifth
  have sixth := (m₅.setBlockPrev_writes newbh bh).mono fun a => Or.inr (a := HeaderSpan bh a)
  rw [← e₆] at sixth
  exact first.trans (second.trans (third.trans (fourth.trans (fifth.trans sixth))))

/-- The bytes of all headers. -/
def HeaderByte (bs : List Block) (a : UInt64) : Prop := ∃ b ∈ bs, HeaderSpan b.addr a

/-- Steps that change the memory and the end of the list only. -/
structure Kheap.Keeps (h h' : Kheap) : Prop where
  /-- The page frame allocator is left alone. -/
  machine : h'.machine = { h.machine with mem := h'.mem }
  /-- No region is obtained. -/
  regions : h'.regions = h.regions
  /-- The size of the heap stays. -/
  kheapSize : h'.kheapSize = h.kheapSize

/-- A store keeps the other variables. -/
theorem Kheap.Keeps.withMem (h : Kheap) (m : Memory) : h.Keeps (h.withMem m) := ⟨rfl, rfl, rfl⟩

/-- Such steps compose. -/
theorem Kheap.Keeps.trans {h' h'' : Kheap} (first : h.Keeps h') (second : h'.Keeps h'') :
    h.Keeps h'' where
  machine := by rw [second.machine, first.machine]
  regions := second.regions.trans first.regions
  kheapSize := second.kheapSize.trans first.kheapSize

/-- The block that a split leaves behind. -/
def Block.remainder (b : Block) (r : UInt64) : Block :=
  ⟨b.addr + headerSize + r, b.size - (r + headerSize), true⟩

/-- Where the rest of a split block lies. -/
theorem Block.Fits.remainder (fits : b.Fits) {r : UInt64} (room : r.toNat + 32 < b.size.toNat) :
    (b.remainder r).addr.toNat = b.addr.toNat + 32 + r.toNat ∧
      (b.remainder r).size.toNat = b.size.toNat - (r.toNat + 32) := by
  rw [Block.fits_iff] at fits
  have header : headerSize.toNat = 32 := rfl
  have size := b.size.toNat_lt
  have first : (b.addr + headerSize).toNat = b.addr.toNat + 32 := by
    rw [toNat_add_of_fits (by omega), header]
  have sum : (r + headerSize).toNat = r.toNat + 32 := by
    rw [toNat_add_of_fits (by omega), header]
  constructor
  · change (b.addr + headerSize + r).toNat = _
    rw [toNat_add_of_fits (by omega), first]
  · change (b.size - (r + headerSize)).toNat = _
    rw [UInt64.toNat_sub_of_le _ _ (by rw [UInt64.le_iff_toNat_le]; omega), sum]

section Remainder

variable {r : UInt64} (fits : b.Fits) (room : r.toNat + 32 < b.size.toNat)

include fits room

/-- The rest is a proper block. -/
theorem Block.Fits.remainder_fits : (b.remainder r).Fits := by
  obtain ⟨place, size⟩ := fits.remainder room
  rw [Block.fits_iff] at fits ⊢
  omega

/-- Its header lies in the payload of the block. -/
theorem Block.Fits.remainder_payload {a : UInt64} (inside : HeaderSpan (b.remainder r).addr a) :
    b.payload.Has a.toNat := by
  have place := (fits.remainder room).1
  rw [(fits.remainder_fits room).headerSpan_iff] at inside
  rw [Block.has_payload_iff]
  omega

/-- It is apart from the header of the block. -/
theorem Block.Fits.remainder_apart : HeadersApart (b.remainder r).addr b.addr := by
  intro a inNew inOld
  have payload := fits.remainder_payload room inNew
  rw [fits.headerSpan_iff] at inOld
  rw [Block.has_payload_iff] at payload
  omega

/-- It is apart from the headers of the other blocks. -/
theorem Block.Fits.remainder_apart_of {x : Block} (fitsX : x.Fits) (separate : b.Apart x) :
    HeadersApart (b.remainder r).addr x.addr := by
  intro a inNew inX
  have payload := fits.remainder_payload room inNew
  rw [fitsX.headerSpan_iff] at inX
  rw [Block.has_payload_iff] at payload
  rw [Block.apart_iff] at separate
  omega

end Remainder

/-- The stores of `kheap_create_block`: both parts get their headers, and the segment behind is
linked back to the rest. -/
theorem Listed.createBlock_stores (listed : Listed h (before ++ b :: after)) {r : UInt64}
    (room : r.toNat + 32 < b.size.toNat) : ∃ m,
    kheapCreateBlock b.addr r h = { h.withMem m with
      blockListEnd := if b.addr = h.blockListEnd then (b.remainder r).addr else h.blockListEnd } ∧
    m.header b.addr = ⟨r, b.free, (b.remainder r).addr, lastOr Block.addr 0 before⟩ ∧
    m.header (b.remainder r).addr =
      ⟨(b.remainder r).size, true, firstOr Block.addr after 0, b.addr⟩ ∧
    Linked Block.addr (Cell m) (b.remainder r).addr after 0 ∧
    h.mem.Writes (fun a => (HeaderSpan b.addr a ∨ HeaderSpan (b.remainder r).addr a) ∨
      ∃ d ∈ after, HeaderSpan d.addr a) m := by
  have fits : b.Fits := listed.fits b (by simp)
  have apart := fits.remainder_apart room
  have apartAfter (y : Block) (inY : y ∈ after) : HeadersApart (b.remainder r).addr y.addr :=
    fits.remainder_apart_of room (listed.fits y (by simp [inY])) ((pairwise_mid listed.apart).2.1 y inY)
  have apartNext : firstOr Block.addr after 0 ≠ 0 →
      HeadersApart (firstOr Block.addr after 0) b.addr ∧
        HeadersApart (firstOr Block.addr after 0) (b.remainder r).addr := by
    intro some
    cases after with
    | nil => exact absurd rfl some
    | cons y rest =>
      exact ⟨(listed.apart_after List.mem_cons_self).symm, (apartAfter y List.mem_cons_self).symm⟩
  have apartAll := (List.pairwise_cons.mp (List.pairwise_append.mp listed.apart).2.1).2
  obtain ⟨newbh, new⟩ : ∃ newbh, newbh = (b.remainder r).addr := ⟨_, rfl⟩
  have made : b.addr + headerSize + r = newbh := new.symm
  rw [← new] at apart apartAfter apartNext ⊢
  unfold kheapCreateBlock
  rw [made]
  -- The memories after the stores.
  obtain ⟨m₁, e₁⟩ : ∃ m₁, m₁ = memset h.mem newbh 0 headerSize := ⟨_, rfl⟩
  obtain ⟨m₂, e₂⟩ : ∃ m₂, m₂ = m₁.setBlockSize newbh (m₁.blockSize b.addr - (r + headerSize)) :=
    ⟨_, rfl⟩
  obtain ⟨m₃, e₃⟩ : ∃ m₃, m₃ = m₂.setBlockSize b.addr r := ⟨_, rfl⟩
  obtain ⟨m₄, e₄⟩ : ∃ m₄, m₄ = m₃.setBlockNext newbh (m₃.blockNext b.addr) := ⟨_, rfl⟩
  obtain ⟨m₅, e₅⟩ : ∃ m₅, m₅ = m₄.setBlockNext b.addr newbh := ⟨_, rfl⟩
  obtain ⟨m₆, e₆⟩ : ∃ m₆, m₆ = m₅.setBlockPrev newbh b.addr := ⟨_, rfl⟩
  obtain ⟨m₇, e₇⟩ : ∃ m₇, m₇ = m₆.setPrevIfAny (m₆.blockNext newbh) newbh := ⟨_, rfl⟩
  obtain ⟨m₈, e₈⟩ : ∃ m₈, m₈ = m₇.setBlockFree newbh true := ⟨_, rfl⟩
  simp only [← e₁, ← e₂, ← e₃, ← e₄, ← e₅, ← e₆, ← e₇, ← e₈]
  obtain ⟨headerOld, headerNew, found⟩ :=
    createBlock_headers apart apartNext listed.header rfl e₁ e₂ e₃ e₄ e₅ e₆ e₇ e₈
  have writes₆ := createBlock_writes e₁ e₂ e₃ e₄ e₅ e₆
  have writes₇ := m₆.setPrevIfAny_writes newbh after
  have writes₈ := m₇.setBlockFree_writes newbh true
  rw [found] at e₇
  rw [← e₇] at writes₇
  rw [← e₈] at writes₈
  refine ⟨m₈, rfl, headerOld, headerNew, ?_, ?_⟩
  · apply listed.behind.relink apartAll (fun y inY => listed.fits y (by simp [inY])) writes₆
      (e₇ ▸ writes₈)
    intro y inY a here
    refine ⟨fun inside => ?_, fun inside => apartAfter y inY a inside here⟩
    cases inside with
    | inl old => exact listed.apart_after inY a old here
    | inr new => exact apartAfter y inY a new here
  · exact (writes₆.mono fun _ => Or.inl).trans ((writes₇.mono fun _ => Or.inr).trans
      (writes₈.mono fun _ inside => Or.inl (Or.inr inside)))

/-- `kheap_create_block` splits a free block in two. -/
theorem Listed.createBlock (listed : Listed h (before ++ b :: after)) (free : b.free = true)
    {r : UInt64} (room : r.toNat + 32 < b.size.toNat) :
    Listed (kheapCreateBlock b.addr r h) (before ++ { b with size := r } :: b.remainder r :: after) ∧
      h.mem.Writes (AllocatorByte (before ++ b :: after)) (kheapCreateBlock b.addr r h).mem ∧
      h.Keeps (kheapCreateBlock b.addr r h) := by
  have fits : b.Fits := listed.fits b (by simp)
  obtain ⟨place, size⟩ := fits.remainder room
  have natFits := (Block.fits_iff b).mp fits
  obtain ⟨m, made, headerOld, headerNew, behind, writes⟩ := listed.createBlock_stores room
  rw [made]
  have whole : Listed h (before ++ ([b] ++ after)) := listed
  refine ⟨?_, ?_, ⟨rfl, rfl, rfl⟩⟩
  · change Listed _ (before ++ ([{ b with size := r }, b.remainder r] ++ after))
    apply whole.replace
    · exact List.cons_ne_nil _ _
    · rfl
    · exact fun _ => rfl
    · rw [lastOr_append, lastOr_append]
      exact listed.end_eq (b.remainder r).addr
    · intro x inX
      apply listed.header_before writes inX
      intro a here inside
      cases inside with
      | inl old => exact listed.apart_before inX a old here
      | inr new =>
        exact fits.remainder_apart_of room (listed.fits x (by simp [inX]))
          ((pairwise_mid listed.apart).1 x inX).symm a new here
    · exact ⟨headerOld, headerNew, trivial⟩
    · exact behind
    · apply List.pairwise_pair.mpr
      rw [Block.apart_iff]
      dsimp only
      omega
    · intro x positive separate z inZ
      have apart := separate b (List.mem_singleton_self b)
      rw [Block.apart_iff] at apart ⊢
      rw [List.mem_cons, List.mem_singleton] at inZ
      rcases inZ with rfl | rfl
      · dsimp only
        omega
      · omega
    · intro z inZ
      rw [List.mem_cons, List.mem_singleton] at inZ
      rcases inZ with rfl | rfl
      · rw [Block.fits_iff]
        dsimp only
        omega
      · exact fits.remainder_fits room
  · apply writes.mono
    intro a inside
    have inList : b ∈ before ++ b :: after := by simp
    rcases inside with (old | new) | ⟨d, inAfter, link⟩
    · exact AllocatorByte.header inList old
    · exact ⟨b, inList, Or.inr ⟨free, fits.remainder_payload room new⟩⟩
    · exact AllocatorByte.header (by simp [inAfter]) link

/-! ## Two neighbours become one -/

/-- The extent of two neighbours that touch. -/
theorem Block.Fits.merged (fits : b.Fits) (fitsC : c.Fits)
    (touch : b.extent.stop = c.extent.start) :
    (b.merged c).size.toNat = b.size.toNat + (c.size.toNat + 32) := by
  rw [Block.fits_iff] at fits fitsC
  change b.addr.toNat + (32 + b.size.toNat) = c.addr.toNat at touch
  have header : headerSize.toNat = 32 := rfl
  have sum : (c.size + headerSize).toNat = c.size.toNat + 32 := by
    rw [toNat_add_of_fits (by omega), header]
  change (b.size + (c.size + headerSize)).toNat = _
  rw [toNat_add_of_fits (by omega), sum]

/-- The second of two neighbours as a member of the list. -/
theorem Listed.second (listed : Listed h (before ++ b :: c :: after)) :
    Listed h ((before ++ [b]) ++ c :: after) := by
  rw [List.append_assoc]
  exact listed

/-- The link that both merges of `kfree` store keeps the list. -/
theorem Listed.merge (listed : Listed h (before ++ b :: c :: after))
    (touch : b.extent.stop = c.extent.start) {m₁ m₂ m₃ : Memory}
    (e₁ : m₁ = h.mem.setBlockSize b.addr (b.size + (c.size + headerSize)))
    (e₂ : m₂ = m₁.setPrevIfAny (firstOr Block.addr after 0) b.addr)
    (e₃ : m₃ = m₂.setBlockNext b.addr (firstOr Block.addr after 0)) {h' : Kheap}
    (made : h' = { h.withMem m₃ with
      blockListEnd := if c.addr = h.blockListEnd then b.addr else h.blockListEnd }) :
    Listed h' (before ++ b.merged c :: after) ∧
      h.mem.Writes (HeaderByte (before ++ b.merged c :: after)) h'.mem ∧ h.Keeps h' := by
  have fitsB : b.Fits := listed.fits b (by simp)
  have fitsC : c.Fits := listed.fits c (by simp)
  have size := fitsB.merged fitsC touch
  have natB := (Block.fits_iff b).mp fitsB
  have natC := (Block.fits_iff c).mp fitsC
  have natTouch : b.addr.toNat + (32 + b.size.toNat) = c.addr.toNat := touch
  have apartAfter (y : Block) (inY : y ∈ after) : HeadersApart b.addr y.addr :=
    listed.apart_after (List.mem_cons_of_mem c inY)
  have apartNext (some : firstOr Block.addr after 0 ≠ 0) :
      HeadersApart (firstOr Block.addr after 0) b.addr := by
    cases after with
    | nil => exact absurd rfl some
    | cons y rest => exact (apartAfter y List.mem_cons_self).symm
  have apartAll := (List.pairwise_cons.mp (List.pairwise_append.mp listed.second.apart).2.1).2
  have writes₁ := h.mem.setBlockSize_writes b.addr (b.size + (c.size + headerSize))
  have writes₂ := m₁.setPrevIfAny_writes b.addr after
  have writes₃ := m₂.setBlockNext_writes b.addr (firstOr Block.addr after 0)
  rw [← e₁] at writes₁
  rw [← e₂] at writes₂
  rw [← e₃] at writes₃
  have writes : h.mem.Writes (fun a => HeaderSpan b.addr a ∨ ∃ d ∈ after, HeaderSpan d.addr a) m₃ :=
    (writes₁.mono fun _ => Or.inl).trans ((writes₂.mono fun _ => Or.inr).trans
      (writes₃.mono fun _ => Or.inl))
  have header₂ : m₂.header b.addr = ⟨b.size + (c.size + headerSize), b.free, c.addr,
      lastOr Block.addr 0 before⟩ := by
    rw [e₂, Memory.header_setPrevIfAny apartNext, e₁, Memory.header_setBlockSize, listed.header]
    rfl
  have header₃ : m₃.header b.addr = ⟨b.size + (c.size + headerSize), b.free,
      firstOr Block.addr after 0, lastOr Block.addr 0 before⟩ := by
    rw [e₃, Memory.header_setBlockNext, header₂]
  have whole : Listed h (before ++ ([b, c] ++ after)) := listed
  subst made
  refine ⟨?_, ?_, ⟨rfl, rfl, rfl⟩⟩
  · change Listed _ (before ++ ([b.merged c] ++ after))
    apply whole.replace
    · exact List.cons_ne_nil _ _
    · rfl
    · exact fun _ => rfl
    · rw [lastOr_append, lastOr_append]
      exact listed.second.end_eq b.addr
    · intro x inX
      exact listed.second.header_before writes (List.mem_append_left _ inX)
        fun a here own => listed.apart_before inX a own here
    · exact ⟨header₃, trivial⟩
    · apply listed.second.behind.relink apartAll (fun y inY => listed.fits y (by simp [inY])) writes₁
        (e₂ ▸ writes₃)
      intro y inY a here
      exact ⟨fun own => apartAfter y inY a own here, fun own => apartAfter y inY a own here⟩
    · exact List.pairwise_singleton _ _
    · intro x positive separate z inZ
      have apartB := separate b (by simp)
      have apartC := separate c (by simp)
      rw [List.mem_singleton.mp inZ]
      rw [Block.apart_iff] at apartB apartC ⊢
      change 0 < 32 + x.size.toNat at positive
      rw [size]
      change _ ≤ b.addr.toNat ∨ b.addr.toNat + _ ≤ _
      omega
    · intro z inZ
      rw [List.mem_singleton.mp inZ, Block.fits_iff, size]
      change 0 < b.addr.toNat ∧ b.addr.toNat + _ < _
      omega
  · apply writes.mono
    intro a inside
    rcases inside with own | ⟨d, inAfter, behind⟩
    · exact ⟨b.merged c, by simp, own⟩
    · exact ⟨d, by simp [inAfter], behind⟩

/-- The comparison of addresses that `kfree` makes. -/
theorem touch_iff (fits : b.Fits) (fitsC : c.Fits) :
    b.addr + b.size + headerSize = c.addr ↔ b.extent.stop = c.extent.start := by
  rw [Block.fits_iff] at fits fitsC
  have header : headerSize.toNat = 32 := rfl
  have small := c.addr.toNat_lt
  change _ ↔ b.addr.toNat + (32 + b.size.toNat) = c.addr.toNat
  rw [← UInt64.toNat_inj, UInt64.toNat_add, UInt64.toNat_add, header]
  omega

/-- `kfree` merges a block with its successor where that is free and touches. -/
theorem Listed.mergeNext (listed : Listed h (before ++ b :: after)) :
    (kfreeMergeNext b.addr h = h ∧ ∀ c rest, after = c :: rest →
      ¬ (c.free = true ∧ b.extent.stop = c.extent.start)) ∨
    ∃ c rest, after = c :: rest ∧ c.free = true ∧ b.extent.stop = c.extent.start ∧
      Listed (kfreeMergeNext b.addr h) (before ++ b.merged c :: rest) ∧
      h.mem.Writes (HeaderByte (before ++ b.merged c :: rest)) (kfreeMergeNext b.addr h).mem ∧
      h.Keeps (kfreeMergeNext b.addr h) := by
  have headerB := listed.header
  obtain ⟨size, -, next, -⟩ := listed.fields
  unfold kfreeMergeNext
  simp only [next, size]
  cases after with
  | nil =>
    left
    rw [firstOr, if_neg fun absurd => absurd.1 rfl]
    exact ⟨rfl, fun c rest absurd => by cases absurd⟩
  | cons c rest =>
    have fitsC : c.Fits := listed.fits c (by simp)
    have headerC := listed.second.header
    obtain ⟨sizeC, free, nextC, -⟩ := listed.second.fields
    simp only [firstOr, free, sizeC, touch_iff (listed.fits b (by simp)) fitsC]
    by_cases merges : c.free = true ∧ b.extent.stop = c.extent.start
    · right
      rw [if_pos ⟨fitsC.addr_ne_zero, merges⟩]
      have apart := listed.apart_after List.mem_cons_self
      obtain ⟨m₁, e₁⟩ : ∃ m₁, m₁ = h.mem.setBlockSize b.addr (b.size + (c.size + headerSize)) :=
        ⟨_, rfl⟩
      have writes₁ := h.mem.setBlockSize_writes b.addr (b.size + (c.size + headerSize))
      rw [← e₁] at writes₁
      have next₁ : m₁.blockNext b.addr = c.addr := by
        change (m₁.header b.addr).next = c.addr
        rw [e₁, Memory.header_setBlockSize, headerB]
        rfl
      have nextC₁ : m₁.blockNext c.addr = firstOr Block.addr rest 0 := by
        change (m₁.header c.addr).next = _
        rw [Memory.header_of_apart writes₁ apart, headerC]
      simp only [← e₁, next₁, nextC₁]
      obtain ⟨m₂, e₂⟩ : ∃ m₂, m₂ = m₁.setPrevIfAny (firstOr Block.addr rest 0) b.addr := ⟨_, rfl⟩
      have writes₂ := m₁.setPrevIfAny_writes b.addr rest
      rw [← e₂] at writes₂
      have next₂ : m₂.blockNext b.addr = c.addr := by
        change (m₂.header b.addr).next = c.addr
        rw [writes₂.header_eq]
        · exact next₁
        · intro a own inside
          obtain ⟨d, inRest, behind⟩ := inside
          exact listed.apart_after (List.mem_cons_of_mem c inRest) a own behind
      have nextC₂ : m₂.blockNext c.addr = firstOr Block.addr rest 0 := by
        change (m₂.header c.addr).next = _
        rw [writes₂.header_eq]
        · exact nextC₁
        · intro a own inside
          obtain ⟨d, inRest, behind⟩ := inside
          exact listed.second.apart_after inRest a own behind
      simp only [← e₂, next₂, nextC₂]
      obtain ⟨m₃, e₃⟩ : ∃ m₃, m₃ = m₂.setBlockNext b.addr (firstOr Block.addr rest 0) := ⟨_, rfl⟩
      simp only [← e₃]
      have merged := listed.merge merges.2 e₁ e₂ e₃ rfl
      exact ⟨c, rest, rfl, merges.1, merges.2, merged⟩
    · left
      rw [if_neg fun all => merges all.2]
      refine ⟨rfl, fun d others same => ?_⟩
      rw [List.cons.injEq] at same
      rw [← same.1]
      exact merges

/-- `kfree` merges a block with its predecessor where that is free and touches. -/
theorem Listed.mergePrev (listed : Listed h (before ++ c :: after)) :
    (kfreeMergePrev c.addr h = h ∧ ∀ b front, before = front ++ [b] →
      ¬ (b.free = true ∧ b.extent.stop = c.extent.start)) ∨
    ∃ b front, before = front ++ [b] ∧ b.free = true ∧ b.extent.stop = c.extent.start ∧
      Listed (kfreeMergePrev c.addr h) (front ++ b.merged c :: after) ∧
      h.mem.Writes (HeaderByte (front ++ b.merged c :: after)) (kfreeMergePrev c.addr h).mem ∧
      h.Keeps (kfreeMergePrev c.addr h) := by
  have headerC := listed.header
  obtain ⟨sizeC, -, nextC, prev⟩ := listed.fields
  unfold kfreeMergePrev
  simp only [prev, sizeC]
  rcases List.eq_nil_or_concat' before with rfl | ⟨front, b, rfl⟩
  · left
    rw [lastOr, if_neg fun absurd => absurd.1 rfl]
    exact ⟨rfl, fun b front absurd => by simp at absurd⟩
  · have first : Listed h (front ++ b :: c :: after) := by
      rw [List.append_assoc] at listed
      exact listed
    have fitsB : b.Fits := first.fits b (by simp)
    obtain ⟨size, free, -, -⟩ := first.fields
    simp only [lastOr_append, lastOr, free, size, touch_iff fitsB (listed.fits c (by simp))]
    by_cases merges : b.free = true ∧ b.extent.stop = c.extent.start
    · right
      rw [if_pos ⟨fitsB.addr_ne_zero, merges⟩]
      have apart := first.apart_after List.mem_cons_self
      obtain ⟨m₁, e₁⟩ : ∃ m₁, m₁ = h.mem.setBlockSize b.addr (b.size + (c.size + headerSize)) :=
        ⟨_, rfl⟩
      have writes₁ := h.mem.setBlockSize_writes b.addr (b.size + (c.size + headerSize))
      rw [← e₁] at writes₁
      have headerC₁ : m₁.header c.addr = h.mem.header c.addr := Memory.header_of_apart writes₁ apart
      have prev₁ : m₁.blockPrev c.addr = b.addr := by
        change (m₁.header c.addr).prev = b.addr
        rw [headerC₁, headerC, lastOr_append]
        rfl
      have next₁ : m₁.blockNext c.addr = firstOr Block.addr after 0 := by
        change (m₁.header c.addr).next = _
        rw [headerC₁, headerC]
      simp only [← e₁, prev₁, next₁]
      obtain ⟨m₂, e₂⟩ : ∃ m₂, m₂ = m₁.setPrevIfAny (firstOr Block.addr after 0) b.addr := ⟨_, rfl⟩
      have writes₂ := m₁.setPrevIfAny_writes b.addr after
      rw [← e₂] at writes₂
      have headerC₂ : m₂.header c.addr = m₁.header c.addr := by
        apply writes₂.header_eq
        intro a own inside
        obtain ⟨d, inAfter, behind⟩ := inside
        exact listed.apart_after inAfter a own behind
      have prev₂ : m₂.blockPrev c.addr = b.addr := by
        change (m₂.header c.addr).prev = b.addr
        rw [headerC₂]
        exact prev₁
      have next₂ : m₂.blockNext c.addr = firstOr Block.addr after 0 := by
        change (m₂.header c.addr).next = _
        rw [headerC₂]
        exact next₁
      simp only [← e₂, prev₂, next₂]
      obtain ⟨m₃, e₃⟩ : ∃ m₃, m₃ = m₂.setBlockNext b.addr (firstOr Block.addr after 0) := ⟨_, rfl⟩
      simp only [← e₃]
      have merged := first.merge merges.2 e₁ e₂ e₃ rfl
      exact ⟨b, front, rfl, merges.1, merges.2, merged⟩
    · left
      rw [if_neg fun all => merges all.2]
      refine ⟨rfl, fun d others same => ?_⟩
      obtain ⟨-, same⟩ := List.append_inj' same rfl
      rw [List.cons.injEq] at same
      rw [← same.1]
      exact merges

/-! ## A region is appended -/

/-- The stores of `kheap_extend`: the last header leads to the new one, and nothing but these two
headers and the bytes of the new block is written. -/
theorem extend_headers {bh newbh size : UInt64} {m₁ m₂ m₃ m₄ m₅ m₆ : Memory}
    (inside : ∀ a, HeaderSpan newbh a → Span newbh size.toNat a)
    (outside : ∀ a, HeaderSpan bh a → ¬ Span newbh size.toNat a)
    (e₁ : m₁ = memset m newbh 0 size)
    (e₂ : m₂ = m₁.setBlockSize newbh (size - headerSize)) (e₃ : m₃ = m₂.setBlockFree newbh true)
    (e₄ : m₄ = m₃.setBlockPrev newbh bh) (e₅ : m₅ = m₄.setBlockNext bh newbh)
    (e₆ : m₆ = m₅.setBlockNext newbh 0) :
    m₆.header bh = { m.header bh with next := newbh } ∧
      m₆.header newbh = ⟨size - headerSize, true, 0, bh⟩ ∧
      m.Writes (fun a => Span newbh size.toNat a ∨ HeaderSpan bh a) m₆ := by
  have apart : HeadersApart bh newbh := fun a own new => outside a own (inside a new)
  have writes₁ := memset_writes m newbh 0 size
  have writes₂ := (m₁.setBlockSize_writes newbh (size - headerSize)).mono inside
  have writes₃ := (m₂.setBlockFree_writes newbh true).mono inside
  have writes₄ := (m₃.setBlockPrev_writes newbh bh).mono inside
  have writes₅ := m₄.setBlockNext_writes bh newbh
  have writes₆ := m₅.setBlockNext_writes newbh 0
  rw [← e₁] at writes₁
  rw [← e₂] at writes₂
  rw [← e₃] at writes₃
  rw [← e₄] at writes₄
  rw [← e₅] at writes₅
  rw [← e₆] at writes₆
  have region := ((writes₁.trans writes₂).trans writes₃).trans writes₄
  refine ⟨?_, ?_, ?_⟩
  · rw [Memory.header_of_apart writes₆ apart.symm, e₅, Memory.header_setBlockNext,
      region.header_eq outside]
  · rw [e₆, Memory.header_setBlockNext, Memory.header_of_apart writes₅ apart, e₄,
      Memory.header_setBlockPrev, e₃, Memory.header_setBlockFree, e₂, Memory.header_setBlockSize]
  · exact ((region.mono fun _ => Or.inl).trans (writes₅.mono fun _ => Or.inr)).trans
      (writes₆.mono fun a own => Or.inl (inside a own))

/-- The stores of `kheap_extend` append a block. -/
theorem Listed.append (listed : Listed h bs) {machine : Machine} {m₁ m₂ m₃ m₄ m₅ m₆ : Memory}
    {newbh size : UInt64} (large : 32 ≤ size.toNat) (positive : 0 < newbh.toNat)
    (fits : newbh.toNat + size.toNat < 2 ^ 64)
    (apart : ∀ b ∈ bs, b.extent.Apart ⟨newbh.toNat, size.toNat⟩)
    (same : ∀ b ∈ bs, machine.mem.header b.addr = h.mem.header b.addr)
    (e₁ : m₁ = memset machine.mem newbh 0 size)
    (e₂ : m₂ = m₁.setBlockSize newbh (size - headerSize)) (e₃ : m₃ = m₂.setBlockFree newbh true)
    (e₄ : m₄ = m₃.setBlockPrev newbh h.blockListEnd)
    (e₅ : m₅ = m₄.setBlockNext h.blockListEnd newbh) (e₆ : m₆ = m₅.setBlockNext newbh 0)
    {h' : Kheap} (start : h'.blockListStart = h.blockListStart) (last : h'.blockListEnd = newbh)
    (memory : h'.mem = m₆) : Listed h' (bs ++ [⟨newbh, size - headerSize, true⟩]) ∧
      machine.mem.Writes (fun a => Span newbh size.toNat a ∨ HeaderByte bs a)
        h'.mem := by
  have rest : (size - headerSize).toNat = size.toNat - 32 :=
    UInt64.toNat_sub_of_le _ _ (by rw [UInt64.le_iff_toNat_le]; exact large)
  have fitsNew : (⟨newbh, size - headerSize, true⟩ : Block).Fits := by
    rw [Block.fits_iff, rest]
    dsimp only
    omega
  have inRegion (a : UInt64) : Span newbh size.toNat a ↔
      newbh.toNat ≤ a.toNat ∧ a.toNat < newbh.toNat + size.toNat := span_iff (by omega)
  have ownHeader (a : UInt64) (own : HeaderSpan newbh a) : Span newbh size.toNat a := by
    unfold HeaderSpan Span at own
    unfold Span
    omega
  have headers (b : Block) (inList : b ∈ bs) (a : UInt64) (own : HeaderSpan b.addr a) :
      ¬ Span newbh size.toNat a := by
    have separate := apart b inList
    rw [(listed.fits b inList).headerSpan_iff] at own
    rw [inRegion]
    change b.addr.toNat + (32 + b.size.toNat) ≤ newbh.toNat ∨
      newbh.toNat + size.toNat ≤ b.addr.toNat at separate
    omega
  obtain ⟨front, z, rfl⟩ := (List.eq_nil_or_concat' bs).resolve_left listed.nonempty
  have isLast : h.blockListEnd = z.addr := by
    rw [listed.last, lastOr_append]
    rfl
  rw [isLast] at e₄ e₅
  have zIn : z ∈ front ++ [z] := by simp
  obtain ⟨headerZ, headerNew, writes⟩ := extend_headers ownHeader (headers z zIn) e₁ e₂ e₃ e₄ e₅ e₆
  rw [same z zIn, listed.header] at headerZ
  refine ⟨⟨by simp, ?_, ?_, ?_, ?_, ?_⟩, ?_⟩
  · rw [start, listed.start, List.append_assoc, firstOr_append, firstOr_append]
    rfl
  · rw [last, lastOr_append]
    rfl
  · rw [memory, List.append_assoc]
    apply linked_append.mpr
    refine ⟨?_, headerZ, headerNew, trivial⟩
    apply (linked_append.mp listed.linked).1.imp
    intro x inX p n cell
    have inList : x ∈ front ++ [z] := by simp [inX]
    rw [Cell, writes.header_eq, same x inList]
    · exact cell
    · intro a here own
      cases own with
      | inl new => exact headers x inList a here new
      | inr last => exact listed.apart_before inX a last here
  · apply List.pairwise_append.mpr
    refine ⟨listed.apart, List.pairwise_singleton _ _, ?_⟩
    intro b inList n isNew
    rw [List.mem_singleton.mp isNew]
    have separate := apart b inList
    change b.addr.toNat + (32 + b.size.toNat) ≤ newbh.toNat ∨
      newbh.toNat + size.toNat ≤ b.addr.toNat at separate
    rw [Block.apart_iff, rest]
    dsimp only
    omega
  · intro b inList
    rw [List.mem_append, List.mem_singleton] at inList
    rcases inList with old | rfl
    · exact listed.fits b old
    · exact fitsNew
  · rw [memory]
    apply writes.mono
    intro a own
    exact own.imp id fun last => ⟨z, zIn, last⟩

end Symphony
