import Symphony.Kernel.Pmm

/-!
# Page frames and their owners

What the bitmap and the memory map say about page frames: the frames the bitmap
tracks, the frames it marks as allocated, the frames it is stored in, and the pages of
the usable memory. `Boot.Limine` collects what the boot protocol guarantees about the
memory map.
-/

namespace Symphony

/-- Frames with a bit in the bitmap. -/
def Machine.Tracked (s : Machine) (p : Nat) : Prop := p < 8 * s.bitmapSize.toNat

/-- The bit of the frame is set. -/
def Machine.Allocated (s : Machine) (p : Nat) : Prop :=
  s.mem.byte (s.bitmap + UInt64.ofNat (p / 8)) &&& pageMask (UInt8.ofNat (p % 8)) ≠ 0

instance (s : Machine) : DecidablePred s.Tracked :=
  fun p => inferInstanceAs (Decidable (p < 8 * s.bitmapSize.toNat))

instance (s : Machine) : DecidablePred s.Allocated :=
  fun _ => inferInstanceAs (Decidable (_ ≠ _))

/-- Addresses of the bitmap. -/
def Machine.InBitmap (s : Machine) : UInt64 → Prop := Span s.bitmap s.bitmapSize.toNat

/-- Frames that hold a byte of the bitmap. -/
def Machine.BitmapFrame (boot : Boot) (s : Machine) (p : Nat) : Prop :=
  ∃ a, s.InBitmap a ∧ frameOf boot a = p

/-- The bytes of an entry as natural numbers. -/
def LimineMemmapEntry.stop (entry : LimineMemmapEntry) : Nat :=
  entry.base.toNat + entry.length.toNat

/-- The page lies in the entry. -/
def LimineMemmapEntry.HasPage (entry : LimineMemmapEntry) (p : Nat) : Prop :=
  entry.base.toNat ≤ 4096 * p ∧ 4096 * (p + 1) ≤ entry.stop

/-- The page lies in a usable entry of the memory map. -/
def Boot.UsablePage (boot : Boot) (p : Nat) : Prop :=
  ∃ entry ∈ boot.entries, entry.type = .usable ∧ entry.HasPage p

/-- Guarantees of the boot protocol about the memory map: the entries are ranges of the
address space in the order of their bases, the usable ones are page-aligned, and of two
entries of which one is usable the first ends before the second starts. -/
structure Boot.Limine (boot : Boot) : Prop where
  /-- Every entry is a range of 64-bit addresses. -/
  range : ∀ entry ∈ boot.entries, entry.stop ≤ 2 ^ 64
  /-- Entries are sorted by base. -/
  sorted : boot.entries.Pairwise fun x y => x.base.toNat ≤ y.base.toNat
  /-- Usable entries are page-aligned in base and length. -/
  aligned : ∀ entry ∈ boot.entries, entry.type = .usable →
    4096 ∣ entry.base.toNat ∧ 4096 ∣ entry.length.toNat
  /-- Usable entries overlap no other entry. -/
  disjoint : boot.entries.Pairwise fun x y =>
    x.type = .usable ∨ y.type = .usable → x.stop ≤ y.base.toNat

/-- The direct map shows the usable memory without wrapping around the address space. -/
def Boot.Direct (boot : Boot) : Prop :=
  ∀ p, boot.UsablePage p → boot.offset.toNat + 4096 * (p + 1) < 2 ^ 64

/-- The usable entry that comes last in a memory map. -/
def lastUsable (entries : List LimineMemmapEntry) : Option LimineMemmapEntry :=
  entries.reverse.find? fun entry => entry.type = .usable

/-- The end of the last usable entry, zero where there is none. -/
def Boot.usableEnd (boot : Boot) : Nat := (lastUsable boot.entries).elim 0 LimineMemmapEntry.stop

/-- Bytes of a bitmap with one bit for each page up to the end of the last usable entry. -/
def Boot.bitmapBytes (boot : Boot) : Nat := (boot.usableEnd / 4096 + 7) / 8

/-- The entry is usable and holds that many bytes after page zero was dropped. -/
def LimineMemmapEntry.Room (size : Nat) (entry : LimineMemmapEntry) : Prop :=
  entry.type = .usable ∧ size ≤ entry.toBootProto.dropPageZero.length.toNat

instance (size : Nat) : DecidablePred (LimineMemmapEntry.Room size) :=
  fun _ => inferInstanceAs (Decidable (_ ∧ _))

/-- The first entry with room for that many bytes. -/
def Boot.firstRoom (boot : Boot) (size : Nat) : Option LimineMemmapEntry :=
  boot.entries.find? fun entry => entry.Room size

/-- Kernel pointer to the start of an entry after page zero was dropped. -/
def Boot.pointerTo (boot : Boot) (entry : LimineMemmapEntry) : UInt64 :=
  entry.toBootProto.dropPageZero.base + boot.offset

/-- The memory maps that `pmm_init` accepts. -/
structure Boot.Accepted (boot : Boot) : Prop where
  /-- Some usable entry is not the first of the map. -/
  later : ∃ entry ∈ boot.entries.tail, entry.type = .usable
  /-- The usable memory ends below the last 64-bit address. -/
  top : boot.usableEnd < 2 ^ 64
  /-- The size of the bitmap is not zero as an `int`. -/
  size : ¬ 2 ^ 32 ∣ boot.bitmapBytes
  /-- The pointer to the bitmap is not zero as an `int`. -/
  place : ∀ entry, boot.firstRoom boot.bitmapBytes = some entry →
    ¬ 2 ^ 32 ∣ (boot.pointerTo entry).toNat

end Symphony
