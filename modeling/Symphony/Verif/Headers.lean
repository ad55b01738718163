import Symphony.Spec.Heap

/-!
# Headers in the memory

Every assignment to a field of a block header changes that field only and writes to that
header only; headers whose bytes are not written keep all their fields.
-/

namespace Symphony

/-- The bytes of a header. -/
def HeaderSpan (bh : UInt64) : UInt64 → Prop := Span bh 32

/-- The bytes of two headers do not overlap. -/
def HeadersApart (bh other : UInt64) : Prop := ∀ a, HeaderSpan bh a → ¬ HeaderSpan other a

/-- Separation is symmetric. -/
theorem HeadersApart.symm {bh other : UInt64} (apart : HeadersApart bh other) :
    HeadersApart other bh := fun a inOther inside => apart a inside inOther

/-- A span at an offset into another. -/
theorem span_offset_iff {start a : UInt64} {k count : Nat} (fits : k + count ≤ 2 ^ 64)
    (small : k < 2 ^ 64) : Span (start + UInt64.ofNat k) count a ↔
      k ≤ (a - start).toNat ∧ (a - start).toNat < k + count := by
  have distance : a - (start + UInt64.ofNat k) = a - start - UInt64.ofNat k := by grind
  have cases := toNat_sub_cases (a - start) (UInt64.ofNat k)
  have bound := (a - start - UInt64.ofNat k).toNat_lt
  have large := (a - start).toNat_lt
  rw [toNat_ofNat_of_fits small] at cases
  rw [Span, distance]
  omega

/-- A field lies in its header. -/
theorem headerSpan_of_field {bh a : UInt64} {k count : Nat} (inside : k + count ≤ 32)
    (field : Span (bh + UInt64.ofNat k) count a) : HeaderSpan bh a := by
  have place := (span_offset_iff (by omega) (by omega)).mp field
  unfold HeaderSpan Span
  omega

namespace Memory

variable {m m' : Memory}

/-- `bh->size` writes to the header. -/
theorem setBlockSize_writes (m : Memory) (bh v : UInt64) :
    m.Writes (HeaderSpan bh) (m.setBlockSize bh v) := by
  apply (m.store64_writes bh v).mono
  intro a inside
  unfold HeaderSpan Span at *
  omega

/-- `bh->free` writes to the header. -/
theorem setBlockFree_writes (m : Memory) (bh : UInt64) (v : Bool) :
    m.Writes (HeaderSpan bh) (m.setBlockFree bh v) := by
  apply (m.store8_writes (bh + 8) _).mono
  intro a here
  apply headerSpan_of_field (show 8 + 1 ≤ 32 by decide)
  exact (span_succ (by decide)).mpr (Or.inl here)

/-- `bh->next` writes to the header. -/
theorem setBlockNext_writes (m : Memory) (bh v : UInt64) :
    m.Writes (HeaderSpan bh) (m.setBlockNext bh v) :=
  (m.store64_writes (bh + 16) v).mono fun _ => headerSpan_of_field (show 16 + 8 ≤ 32 by decide)

/-- `bh->prev` writes to the header. -/
theorem setBlockPrev_writes (m : Memory) (bh v : UInt64) :
    m.Writes (HeaderSpan bh) (m.setBlockPrev bh v) :=
  (m.store64_writes (bh + 24) v).mono fun _ => headerSpan_of_field (show 24 + 8 ≤ 32 by decide)

/-- A header that is not written keeps its fields. -/
theorem Writes.header_eq {area : UInt64 → Prop} (writes : m.Writes area m') {bh : UInt64}
    (apart : ∀ a, HeaderSpan bh a → ¬ area a) : m'.header bh = m.header bh := by
  have size : m'.blockSize bh = m.blockSize bh := writes.load64_eq fun a field => by
    apply apart
    unfold HeaderSpan Span at *
    omega
  have free : m'.byte (bh + 8) = m.byte (bh + 8) := writes.byte_eq (apart _
    (headerSpan_of_field (show 8 + 1 ≤ 32 by decide) ((span_succ (by decide)).mpr (Or.inl rfl))))
  have next : m'.blockNext bh = m.blockNext bh := writes.load64_eq fun a field =>
    apart a (headerSpan_of_field (show 16 + 8 ≤ 32 by decide) field)
  have prev : m'.blockPrev bh = m.blockPrev bh := writes.load64_eq fun a field =>
    apart a (headerSpan_of_field (show 24 + 8 ≤ 32 by decide) field)
  rw [header, header, size, next, prev, blockFree, free, blockFree]

/-- Another header keeps its fields. -/
theorem header_of_apart {bh other : UInt64} (writes : m.Writes (HeaderSpan bh) m')
    (apart : HeadersApart bh other) : m'.header other = m.header other :=
  writes.header_eq fun a inside here => apart a here inside

/-- A field keeps a stored word apart from it in the header. -/
theorem Writes.field_eq {bh : UInt64} {k n count : Nat}
    (writes : m.Writes (Span (bh + UInt64.ofNat k) count) m') (fits : k + count ≤ 32)
    (inside : n + 8 ≤ 32) (apart : n + 8 ≤ k ∨ k + count ≤ n) :
    m'.load64 (bh + UInt64.ofNat n) = m.load64 (bh + UInt64.ofNat n) := by
  apply writes.load64_eq
  intro a field stored
  have here := (span_offset_iff (by omega) (by omega)).mp field
  have there := (span_offset_iff (by omega) (by omega)).mp stored
  omega

/-- The flag keeps its value when a word apart from it is stored. -/
theorem Writes.flag_eq {bh : UInt64} {k : Nat}
    (writes : m.Writes (Span (bh + UInt64.ofNat k) 8) m') (fits : k + 8 ≤ 32)
    (apart : 9 ≤ k ∨ k = 0) : m'.blockFree bh = m.blockFree bh := by
  have same : m'.byte (bh + 8) = m.byte (bh + 8) := by
    apply writes.byte_eq
    intro stored
    have there := (span_offset_iff (by omega) (by omega)).mp stored
    rw [show bh + 8 - bh = 8 by grind] at there
    change k ≤ 8 ∧ 8 < k + 8 at there
    omega
  rw [blockFree, same, blockFree]

/-- The size of a block is its first field. -/
theorem blockSize_eq (m : Memory) (bh : UInt64) : m.blockSize bh = m.load64 (bh + UInt64.ofNat 0) := by
  rw [blockSize, show bh + UInt64.ofNat 0 = bh by grind]

/-- Assignment to the size. -/
theorem header_setBlockSize (m : Memory) (bh v : UInt64) :
    (m.setBlockSize bh v).header bh = { m.header bh with size := v } := by
  have writes : m.Writes (Span (bh + UInt64.ofNat 0) 8) (m.setBlockSize bh v) := by
    rw [show bh + UInt64.ofNat 0 = bh by grind]
    exact m.store64_writes bh v
  have free := writes.flag_eq (by decide) (Or.inr rfl)
  have next := writes.field_eq (n := 16) (by decide) (by decide) (by decide)
  have prev := writes.field_eq (n := 24) (by decide) (by decide) (by decide)
  simp only [header, Header.mk.injEq]
  exact ⟨load64_store64 m bh v, free, next, prev⟩

/-- Assignment to the flag. -/
theorem header_setBlockFree (m : Memory) (bh : UInt64) (v : Bool) :
    (m.setBlockFree bh v).header bh = { m.header bh with free := v } := by
  have writes : m.Writes (Span (bh + UInt64.ofNat 8) 1) (m.setBlockFree bh v) := by
    apply (m.store8_writes (bh + 8) _).mono
    intro a here
    exact (span_succ (by decide)).mpr (Or.inl here)
  have size := writes.field_eq (n := 0) (by decide) (by decide) (by decide)
  have next := writes.field_eq (n := 16) (by decide) (by decide) (by decide)
  have prev := writes.field_eq (n := 24) (by decide) (by decide) (by decide)
  rw [← blockSize_eq, ← blockSize_eq] at size
  have free : (m.setBlockFree bh v).blockFree bh = v := by
    rw [blockFree, setBlockFree, store8]
    cases v <;> simp
  simp only [header, Header.mk.injEq]
  exact ⟨size, free, next, prev⟩

/-- Assignment to the link forward. -/
theorem header_setBlockNext (m : Memory) (bh v : UInt64) :
    (m.setBlockNext bh v).header bh = { m.header bh with next := v } := by
  have writes : m.Writes (Span (bh + UInt64.ofNat 16) 8) (m.setBlockNext bh v) :=
    m.store64_writes (bh + 16) v
  have size := writes.field_eq (n := 0) (by decide) (by decide) (by decide)
  have free := writes.flag_eq (by decide) (by decide)
  have prev := writes.field_eq (n := 24) (by decide) (by decide) (by decide)
  rw [← blockSize_eq, ← blockSize_eq] at size
  simp only [header, Header.mk.injEq]
  exact ⟨size, free, load64_store64 m (bh + 16) v, prev⟩

/-- Assignment to the link back. -/
theorem header_setBlockPrev (m : Memory) (bh v : UInt64) :
    (m.setBlockPrev bh v).header bh = { m.header bh with prev := v } := by
  have writes : m.Writes (Span (bh + UInt64.ofNat 24) 8) (m.setBlockPrev bh v) :=
    m.store64_writes (bh + 24) v
  have size := writes.field_eq (n := 0) (by decide) (by decide) (by decide)
  have free := writes.flag_eq (by decide) (by decide)
  have next := writes.field_eq (n := 16) (by decide) (by decide) (by decide)
  rw [← blockSize_eq, ← blockSize_eq] at size
  simp only [header, Header.mk.injEq]
  exact ⟨size, free, next, load64_store64 m (bh + 24) v⟩

end Memory

end Symphony
