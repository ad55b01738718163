import Symphony.Kernel.Machine
import Symphony.Kernel.Mm
import Symphony.Kernel.Strings
import Symphony.Library.Loop

/-!
# Page frame allocator

The functions of `pmm.c`. The bitmap has one bit for a page, the most significant
bit of a byte first; a set bit is an allocated page.
-/

namespace Symphony

/-- `0b10000000 >> j` as the byte it is masked with. -/
def pageMask (j : UInt8) : UInt8 := 0b10000000 >>> j

/-- `pmm_bitmap_set`. -/
def pmmBitmapSet (page : UInt64) (s : Machine) : Except Fault Machine := do
  debugAssert (intOfBool (page / 8 < s.bitmapSize))
    "PMM bitmap set operation out of bounds!\n" "pmm_bitmap_set"
  let cell := s.bitmap + page / 8
  .ok { s with mem := s.mem.store8 cell (s.mem.byte cell ||| pageMask (page % 8).toUInt8) }

/-- `pmm_bitmap_clear`. -/
def pmmBitmapClear (page : UInt64) (s : Machine) : Except Fault Machine := do
  debugAssert (intOfBool (page / 8 < s.bitmapSize))
    "PMM bitmap clear operation out of bounds!\n" "pmm_bitmap_clear"
  let cell := s.bitmap + page / 8
  .ok { s with mem := s.mem.store8 cell (s.mem.byte cell &&& ~~~ pageMask (page % 8).toUInt8) }

/-- Loop of `pmm_bitmap_last_tracked_page` from index `i` down to index one. -/
def pmmBitmapLastTrackedPageGo (boot : Boot) : Nat → Except Fault UInt64
  | 0 => .ok 0
  | i + 1 => do
    let entry ← bootProtoMemmapEntryGet boot (UInt64.ofNat (i + 1))
    if entry.type = .usable then .ok ((entry.base + entry.length) / pageSize)
    else pmmBitmapLastTrackedPageGo boot i

/-- `pmm_bitmap_last_tracked_page`. -/
def pmmBitmapLastTrackedPage (boot : Boot) : Except Fault UInt64 :=
  pmmBitmapLastTrackedPageGo boot (bootProtoMemmapEntryCount boot - 1).toNat

/-- Local variables of `pmm_find_free_pages`. -/
structure Scan where
  /-- The page before the current one was free. -/
  inChunk : Bool
  /-- Free pages counted in the chunk. -/
  pagesFoundInChunk : Int32
  /-- First page of the chunk; unset at the start. -/
  basePage : UInt64

/-- Body of the scan at byte `i` and bit `j`. An error ends the function: it carries the value
of `return basePage`, or the fault of the counter. -/
def pmmFindFreePagesStep (s : Machine) (pages : Int32) (i j : Nat) (scan : Scan) :
    Except (Except Fault UInt64) Scan :=
  if s.mem.byte (s.bitmap + UInt64.ofNat i) &&& pageMask (UInt8.ofNat j) = 0 then
    let basePage := if scan.inChunk then scan.basePage else UInt64.ofNat i * 8 + UInt64.ofNat j
    match addInt scan.pagesFoundInChunk 1 with
    | .error fault => .error (.error fault)
    | .ok found => if found = pages then .error (.ok basePage) else .ok ⟨true, found, basePage⟩
  else .ok ⟨false, 0, scan.basePage⟩

/-- The two nested loops of the scan. -/
def pmmFindFreePagesScan (pages : Int32) (s : Machine) : Except (Except Fault UInt64) Scan :=
  forLoop (fun i => forLoop (pmmFindFreePagesStep s pages i) 0 8) 0 s.bitmapSize.toNat
    ⟨false, 0, 0⟩

/-- `pmm_find_free_pages`. -/
def pmmFindFreePages (pages : Int32) (s : Machine) : Except Fault UInt64 :=
  match pmmFindFreePagesScan pages s with
  | .error result => result
  | .ok _ => debugPanic "Out of Memory!"

/-- The adjustment of an entry that starts at address zero: page zero is dropped. -/
def BootProtoMemmapEntry.dropPageZero (entry : BootProtoMemmapEntry) : BootProtoMemmapEntry :=
  if entry.base = 0 then
    { entry with
      base := entry.base + pageSize
      length := if entry.length ≥ pageSize then entry.length - pageSize else 0 }
  else entry

/-- Search of `pmm_init` for a place of the bitmap, from entry `i` on. -/
def pmmPlaceBitmapGo (boot : Boot) (s : Machine) : Nat → Nat → Except Fault Machine
  | _, 0 => .ok s
  | i, left + 1 => do
    let entry ← bootProtoMemmapEntryGet boot (UInt64.ofNat i)
    if entry.type ≠ .usable then pmmPlaceBitmapGo boot s (i + 1) left
    else
      let entry := entry.dropPageZero
      if entry.length ≥ s.bitmapSize then
        .ok { s with bitmap := entry.base + bootProtoHhdmOffset boot }
      else pmmPlaceBitmapGo boot s (i + 1) left

/-- Body of the loop of `pmm_init` that marks the usable entries as free. -/
def pmmMarkUsable (boot : Boot) (i : UInt64) (s : Machine) : Except Fault Machine := do
  let entry ← bootProtoMemmapEntryGet boot i
  if entry.type ≠ .usable then .ok s
  else forRange pmmBitmapClear (entry.base >>> 12) ((entry.base + entry.length) >>> 12) s

/-- `pmm_init`. -/
def pmmInit (boot : Boot) (s : Machine) : Except Fault Machine := do
  let last ← pmmBitmapLastTrackedPage boot
  let s := { s with bitmapSize := alignUp last 8 / 8 }
  debugAssert (intOfWord s.bitmapSize) "Something is wrong with the PMM bitmap size!\n" "pmm_init"
  let s ← pmmPlaceBitmapGo boot s 0 (bootProtoMemmapEntryCount boot).toNat
  debugAssert (intOfWord s.bitmap) "Bitmap not properly allocated!\n" "pmm_init"
  let s := { s with mem := memset s.mem s.bitmap 0xff s.bitmapSize }
  let s ← forRange (pmmMarkUsable boot) 0 (bootProtoMemmapEntryCount boot) s
  let bitmapPhysAddr := s.bitmap - bootProtoHhdmOffset boot
  let s ← forStep .diverges (fun i => pmmBitmapSet (i / pageSize)) pageSize
    (bitmapPhysAddr + alignUp s.bitmapSize pageSize) (2 ^ 64) bitmapPhysAddr s
  pmmBitmapSet 0 s

/-- `pmm_alloc`. -/
def pmmAlloc (pages : Int32) (s : Machine) : Except Fault (UInt64 × Machine) := do
  let base ← pmmFindFreePages pages s
  let s ← forRange pmmBitmapSet base (base + wordOfInt pages) s
  .ok (base <<< 12, s)

/-- The loop of `pmm_free`. -/
def pmmFreeBits (base : UInt64) (pages : Int32) (s : Machine) : Except Fault Machine :=
  forRange pmmBitmapClear (base >>> 12) ((base >>> 12) + wordOfInt pages) s

/-- `pmm_free`. -/
def pmmFree (boot : Boot) (base : UInt64) (pages : Int32) (s : Machine) :
    Except Fault Machine := do
  let s ← pmmFreeBits base pages s
  let length ← mulInt 4096 pages
  .ok { s with mem := memset s.mem (base + bootProtoHhdmOffset boot) 0xff (wordOfInt length) }

end Symphony
