import Symphony.Verif.Bitmap

/-!
# First-fit search and allocation of frames

The scan of `pmm_find_free_pages` counts the free pages that end at the current one;
the invariant `Scan.At` says so for every position, and the search returns the least
base of a free run of the requested length. `pmm_alloc` then sets the bits of the run. A
request that is not positive is never met: the scan runs on to its end, or its counter
overflows.
-/

namespace Symphony

/-- The pages from `base` on are tracked and free. -/
def Machine.FreeRun (s : Machine) (base count : Nat) : Prop :=
  ∀ p, base ≤ p → p < base + count → s.Tracked p ∧ ¬ s.Allocated p

/-- The count of free pages at which the scan ends: that of the request, or the first one that
an `int` does not hold. -/
def scanLimit (pages : Int32) : Nat := if 0 < pages.toInt then pages.toInt.toNat else 2 ^ 31

/-- A positive request ends the scan. -/
theorem scanLimit_of_pos {pages : Int32} (positive : 0 < pages.toInt) :
    scanLimit pages = pages.toInt.toNat := if_pos positive

/-- Another request leaves the scan to its counter. -/
theorem scanLimit_of_nonpos {pages : Int32} (none : pages.toInt ≤ 0) : scanLimit pages = 2 ^ 31 :=
  if_neg (Int.not_lt.mpr none)

/-- The limit is positive and at most 2^31. -/
theorem scanLimit_bounds (pages : Int32) : 0 < scanLimit pages ∧ scanLimit pages ≤ 2 ^ 31 := by
  have upper := pages.toInt_lt
  unfold scanLimit
  split <;> omega

/-- State of the scan in front of page `k`: `count` free pages end there, the page before
them is allocated, and no run at the limit ends earlier. -/
structure Scan.At (s : Machine) (pages : Int32) (k : Nat) (scan : Scan) (count : Nat) : Prop where
  /-- The counter of the code. -/
  found : scan.pagesFoundInChunk.toInt = count
  /-- The chunk lies among the pages read. -/
  inside : count ≤ k
  /-- The flag of the code. -/
  chunk : scan.inChunk = decide (0 < count)
  /-- The base of a started chunk. -/
  base : 0 < count → scan.basePage.toNat = k - count
  /-- The chunk is free. -/
  free : ∀ p, k - count ≤ p → p < k → ¬ s.Allocated p
  /-- The chunk cannot be extended to the left. -/
  maximal : count < k → s.Allocated (k - count - 1)
  /-- The limit is not yet met. -/
  short : count < scanLimit pages
  /-- No run at the limit lies among the pages read. -/
  none : ∀ b, b + scanLimit pages ≤ k → ∃ p, b ≤ p ∧ p < b + scanLimit pages ∧ s.Allocated p

/-- What `return basePage` returns: the least base of a free run. -/
def Machine.LeastRun (s : Machine) (pages : Int32) (base : UInt64) : Prop :=
  0 < pages.toInt ∧ s.FreeRun base.toNat pages.toInt.toNat ∧
    ∀ b, b < base.toNat → ¬ s.FreeRun b pages.toInt.toNat

/-- How a request fails: there is no free run at the limit, or it is not positive and the counter
overflows in one. -/
def Machine.Fails (s : Machine) (pages : Int32) (e : Fault) : Prop :=
  (e = .panic "Out of Memory!" ∧ ∀ b, ¬ s.FreeRun b (scanLimit pages)) ∨
    (e = .undefined ∧ pages.toInt ≤ 0 ∧ ∃ b, s.FreeRun b (2 ^ 31))

/-- A positive request fails where there is no free run of its length. -/
theorem Machine.Fails.of_pos {s : Machine} {pages : Int32} {e : Fault} (fails : s.Fails pages e)
    (positive : 0 < pages.toInt) :
    e = .panic "Out of Memory!" ∧ ∀ b, ¬ s.FreeRun b pages.toInt.toNat := by
  cases fails with
  | inl full => exact scanLimit_of_pos positive ▸ full
  | inr overflow => exact absurd overflow.2.1 (Int.not_le.mpr positive)

/-- How the scan ends early: with the least base, or with an overflow of the counter. -/
def Machine.Ends (s : Machine) (pages : Int32) (result : Except Fault UInt64) : Prop :=
  Meets result (s.LeastRun pages) fun e =>
    e = .undefined ∧ pages.toInt ≤ 0 ∧ ∃ b, s.FreeRun b (2 ^ 31)

/-- The bit that the scan tests at byte `i` and bit `j`. -/
theorem allocated_iff_cell (s : Machine) (i : Nat) {j : Nat} (small : j < 8) :
    s.Allocated (8 * i + j) ↔
      s.mem.byte (s.bitmap + UInt64.ofNat i) &&& pageMask (UInt8.ofNat j) ≠ 0 := by
  rw [Machine.Allocated, show (8 * i + j) / 8 = i by omega, show (8 * i + j) % 8 = j by omega]

/-- The page number that the scan computes. -/
theorem page_of_indices {i j : Nat} (fits : 8 * i + j < 2 ^ 64) :
    (UInt64.ofNat i * 8 + UInt64.ofNat j).toNat = 8 * i + j := by
  rw [UInt64.toNat_add, UInt64.toNat_mul, toNat_ofNat_of_fits (by omega),
    toNat_ofNat_of_fits (by omega)]
  change (i * 8 % 2 ^ 64 + j) % 2 ^ 64 = _
  omega

/-- The counter of the scan goes on below 2^31, and overflows there. -/
theorem addInt_one {n : Int32} {count : Nat} (value : n.toInt = count) :
    (count + 1 < 2 ^ 31 → ∃ found, addInt n 1 = .ok found ∧ found.toInt = count + 1) ∧
      (2 ^ 31 ≤ count + 1 → addInt n 1 = .error .undefined) := by
  have one : (1 : Int32).toInt = 1 := rfl
  constructor
  · intro fits
    obtain ⟨sum, exact⟩ := addInt_of_fits (a := n) (b := 1) (by omega) (by omega)
    exact ⟨n + 1, sum, by rw [exact, value, one]⟩
  · intro large
    exact if_neg fun fits => by omega

namespace Scan.At

variable {s : Machine} {pages found : Int32} {k count : Nat} {scan : Scan} {base : UInt64}

/-- An allocated page ends the chunk. -/
theorem reset (state : scan.At s pages k count) (allocated : s.Allocated k) :
    (⟨false, 0, base⟩ : Scan).At s pages (k + 1) 0 := by
  have limit := scanLimit_bounds pages
  refine ⟨rfl, Nat.zero_le _, rfl, by simp, by omega, fun _ => allocated, limit.1, fun b fit => ?_⟩
  by_cases earlier : b + scanLimit pages ≤ k
  · exact state.none b earlier
  · exact ⟨k, by omega, by omega, allocated⟩

/-- A free page makes the chunk longer. -/
theorem freeRun (state : scan.At s pages k count) (tracked : s.Tracked k)
    (free : ¬ s.Allocated k) : s.FreeRun (k - count) (count + 1) := by
  have inside := state.inside
  intro p lower upper
  refine ⟨Nat.lt_of_le_of_lt (by omega) tracked, ?_⟩
  by_cases here : p = k
  · rwa [here]
  · exact state.free p lower (by omega)

/-- A chunk of the length that is asked for is the first one. -/
theorem leastRun (state : scan.At s pages k count) (run : s.FreeRun (k - count) (count + 1))
    (start : base.toNat = k - count) (met : pages.toInt = count + 1) : s.LeastRun pages base := by
  have inside := state.inside
  have positive : 0 < pages.toInt := by omega
  have length := scanLimit_of_pos positive
  refine ⟨positive, ?_, fun b before free => ?_⟩
  · rw [start, show pages.toInt.toNat = count + 1 by omega]
    exact run
  · obtain ⟨p, lower, upper, set⟩ := state.none b (by omega)
    exact (free p lower (by omega)).2 set

/-- The counter goes on, as long as the limit is not met. -/
theorem extend (state : scan.At s pages k count) (run : s.FreeRun (k - count) (count + 1))
    (start : base.toNat = k - count) (value : found.toInt = count + 1)
    (further : count + 1 < scanLimit pages) :
    (⟨true, found, base⟩ : Scan).At s pages (k + 1) (count + 1) := by
  have inside := state.inside
  refine ⟨value, by omega, by simp, fun _ => by rw [start]; omega,
    fun p lower upper => (run p (by omega) (by omega)).2, fun more => ?_, further, fun b fit => ?_⟩
  · rw [show k + 1 - (count + 1) - 1 = k - count - 1 by omega]
    exact state.maximal (by omega)
  · by_cases earlier : b + scanLimit pages ≤ k
    · exact state.none b earlier
    · exact ⟨k - count - 1, by omega, by omega, state.maximal (by omega)⟩

/-- Short of the limit the counter overflows only where the request is not positive. -/
theorem overflows (state : scan.At s pages k count) (large : 2 ^ 31 ≤ count + 1) :
    count + 1 = 2 ^ 31 ∧ pages.toInt ≤ 0 := by
  have short := state.short
  have bounds := scanLimit_bounds pages
  refine ⟨by omega, ?_⟩
  by_contra positive
  have upper := pages.toInt_lt
  rw [scanLimit_of_pos (Int.not_le.mp positive)] at short
  omega

/-- The next count is the request or short of the limit. -/
theorem further (state : scan.At s pages k count) (below : count + 1 < 2 ^ 31)
    (other : (count : Int) + 1 ≠ pages.toInt) : count + 1 < scanLimit pages := by
  have short := state.short
  by_cases positive : 0 < pages.toInt
  · rw [scanLimit_of_pos positive] at short ⊢
    omega
  · rwa [scanLimit_of_nonpos (Int.not_lt.mp positive)]

end Scan.At

/-- One step of the scan moves the invariant to the next page or ends it. -/
theorem findStep_meets {s : Machine} {pages : Int32} {i j : Nat} {scan : Scan} {count : Nat}
    (sized : s.Sized) (small : j < 8) (tracked : s.Tracked (8 * i + j))
    (state : scan.At s pages (8 * i + j) count) :
    Meets (pmmFindFreePagesStep s pages i j scan)
      (fun next => ∃ count, next.At s pages (8 * i + j + 1) count) (s.Ends pages) := by
  have bit := allocated_iff_cell s i small
  unfold pmmFindFreePagesStep
  by_cases allocated : s.Allocated (8 * i + j)
  · rw [if_neg (bit.mp allocated)]
    exact ⟨0, state.reset allocated⟩
  · rw [if_pos (by_contra (mt bit.mpr allocated))]
    have run := state.freeRun tracked allocated
    have start : (if scan.inChunk then scan.basePage
        else UInt64.ofNat i * 8 + UInt64.ofNat j).toNat = 8 * i + j - count := by
      by_cases some : 0 < count
      · rw [state.chunk, decide_eq_true some, if_pos rfl, state.base some]
      · rw [state.chunk, decide_eq_false some, if_neg Bool.false_ne_true,
          page_of_indices (Nat.lt_trans tracked sized)]
        omega
    by_cases below : count + 1 < 2 ^ 31
    · obtain ⟨found, sum, value⟩ := (addInt_one state.found).1 below
      simp only [sum]
      by_cases met : found = pages
      · rw [if_pos met]
        exact state.leastRun run start (met ▸ value)
      · rw [if_neg met]
        have other : (count : Int) + 1 ≠ pages.toInt :=
          fun same => met (Int32.toInt_inj.mp (value.trans same))
        exact ⟨count + 1, state.extend run start value (state.further below other)⟩
    · -- The counter cannot go on.
      obtain ⟨last, nonpositive⟩ := state.overflows (Nat.not_lt.mp below)
      rw [(addInt_one state.found).2 (Nat.not_lt.mp below)]
      exact ⟨rfl, nonpositive, 8 * i + j - count, last ▸ run⟩

/-- The bits of one byte move the invariant to the next byte or end the scan. -/
theorem findByte_meets {s : Machine} {pages : Int32} {i : Nat} {scan : Scan}
    (sized : s.Sized) (inside : i < s.bitmapSize.toNat)
    (state : ∃ count, scan.At s pages (8 * i) count) :
    Meets (forLoop (pmmFindFreePagesStep s pages i) 0 8 scan)
      (fun next => ∃ count, next.At s pages (8 * i + 8) count) (s.Ends pages) := by
  apply forLoop_meets fun j (scan : Scan) => ∃ count, scan.At s pages (8 * i + j) count
  · rintro j scan - small ⟨count, state⟩
    apply findStep_meets sized (by omega) _ state
    unfold Machine.Tracked
    omega
  · exact state

/-- The nested loops reach the end of the bitmap or end early. -/
theorem findScan_meets {s : Machine} (pages : Int32) (sized : s.Sized) :
    Meets (pmmFindFreePagesScan pages s)
      (fun scan => ∃ count, scan.At s pages (8 * s.bitmapSize.toNat) count) (s.Ends pages) := by
  have limit := scanLimit_bounds pages
  have start : (⟨false, 0, 0⟩ : Scan).At s pages (8 * 0) 0 :=
    ⟨rfl, Nat.le_refl 0, rfl, by simp, by omega, by omega, limit.1, by omega⟩
  have loops : Meets (pmmFindFreePagesScan pages s) _ (s.Ends pages) :=
    forLoop_meets (fun i (scan : Scan) => ∃ count, scan.At s pages (8 * i) count)
      (fun i scan _ inside state => findByte_meets sized (by omega) state) ⟨0, start⟩
  rwa [Nat.zero_add] at loops

/-- `pmm_find_free_pages` returns the least base of a free run of a positive length, and
fails exactly where there is none. -/
theorem pmmFindFreePages_meets {s : Machine} (pages : Int32) (sized : s.Sized) :
    Meets (pmmFindFreePages pages s) (s.LeastRun pages) (s.Fails pages) := by
  have scan := findScan_meets pages sized
  unfold pmmFindFreePages
  cases run : pmmFindFreePagesScan pages s with
  | error result => exact (scan.of_error run).mono (fun _ => id) fun _ => Or.inr
  | ok last =>
    obtain ⟨count, state⟩ := scan.of_ok run
    refine Or.inl ⟨rfl, fun b free => ?_⟩
    have limit := scanLimit_bounds pages
    by_cases fit : b + scanLimit pages ≤ 8 * s.bitmapSize.toNat
    · obtain ⟨p, lower, upper, set⟩ := state.none b fit
      exact (free p lower upper).2 set
    · -- A run that does not fit ends at an untracked page.
      have tracked := (free (b + scanLimit pages - 1) (by omega) (by omega)).1
      unfold Machine.Tracked at tracked
      omega

/-- A nonnegative `int` keeps its value as a 64-bit word. -/
theorem toNat_wordOfInt {n : Int32} (nonnegative : 0 ≤ n.toInt) :
    (wordOfInt n).toNat = n.toInt.toNat := by
  have wide : n.toInt64.toBitVec.toInt = n.toInt := Int32.toInt_toInt64 n
  have cond := BitVec.toInt_eq_toNat_cond n.toInt64.toBitVec
  have upper := n.toInt64.toBitVec.isLt
  change n.toInt64.toBitVec.toNat = _
  split at cond <;> omega

/-- `pmm_alloc` returns the address of the least free run of its length and marks it, or
fails where there is none; it fails no assertion. -/
theorem pmmAlloc_meets {s : Machine} (pages : Int32) (sized : s.Sized) :
    Meets (pmmAlloc pages s)
      (fun r => ∃ base, s.LeastRun pages base ∧ r.1 = base <<< 12 ∧ s.Marks r.2 fun p =>
        base.toNat ≤ p ∧ p < base.toNat + pages.toInt.toNat ∨ s.Allocated p)
      (s.Fails pages) := by
  refine (pmmFindFreePages_meets pages sized).bind fun base least => ?_
  obtain ⟨positive, free, -⟩ := id least
  have last := (free (base.toNat + pages.toInt.toNat - 1) (by omega) (by omega)).1
  have stop : (base + wordOfInt pages).toNat = base.toNat + pages.toInt.toNat := by
    have word := toNat_wordOfInt (Int.le_of_lt positive)
    unfold Machine.Tracked at last
    unfold Machine.Sized at sized
    rw [toNat_add_of_fits (by omega), word]
  have set := setRange_meets base (base + wordOfInt pages) sized
  rw [stop] at set
  refine (set.mono (fun _ => id) fun e outside => ?_).bind fun s' marks => ⟨base, least, rfl, marks⟩
  obtain ⟨p, lower, upper, untracked⟩ := outside
  exact absurd (free p lower upper).1 untracked

/-- The request finds no free run at its limit. -/
def Machine.Refuses (s : Machine) (pages : Int32) : Prop := ∀ b, ¬ s.FreeRun b (scanLimit pages)

/-- `pmm_alloc` halts with its panic exactly where the request finds no run: for a positive one
there is no free run of its length, and for another one none in which the counter overflows. -/
theorem pmmAlloc_panics_iff {s : Machine} (sized : s.Sized) (pages : Int32) :
    pmmAlloc pages s = .error (.panic "Out of Memory!") ↔ s.Refuses pages := by
  have meets := pmmAlloc_meets pages sized
  constructor
  · intro failed
    cases meets.of_error failed with
    | inl full => exact full.2
    | inr overflow => cases overflow.1
  · intro refuses
    cases run : pmmAlloc pages s with
    | ok r =>
      obtain ⟨base, ⟨positive, free, -⟩, -⟩ := meets.of_ok run
      exact absurd (scanLimit_of_pos positive ▸ free) (refuses base.toNat)
    | error e =>
      cases meets.of_error run with
      | inl full => rw [full.1]
      | inr overflow =>
        obtain ⟨-, none, b, free⟩ := overflow
        exact absurd (scanLimit_of_nonpos none ▸ free) (refuses b)

/-- First fit: `pmm_alloc` of a positive number of pages runs out of memory exactly where no
run of that many pages is free; otherwise it returns the address of the least free run, sets
the bits of the run and leaves every other bit and every byte outside the bitmap alone. -/
theorem pmmAlloc_firstFit {s : Machine} {pages : Int32} (sized : s.Sized)
    (positive : 1 ≤ pages.toInt) :
    (pmmAlloc pages s = .error (.panic "Out of Memory!") ↔
      ¬ ∃ b, s.FreeRun b pages.toInt.toNat) ∧
    ((∃ b, s.FreeRun b pages.toInt.toNat) →
      ∃ (base : UInt64) (s' : Machine), pmmAlloc pages s = .ok (base <<< 12, s') ∧
        s.FreeRun base.toNat pages.toInt.toNat ∧
        (∀ b, b < base.toNat → ¬ s.FreeRun b pages.toInt.toNat) ∧
        s'.bitmap = s.bitmap ∧ s'.bitmapSize = s.bitmapSize ∧
        (∀ p, s.Tracked p → (s'.Allocated p ↔
          base.toNat ≤ p ∧ p < base.toNat + pages.toInt.toNat ∨ s.Allocated p)) ∧
        s.mem.Writes s.InBitmap s'.mem) := by
  have meets := pmmAlloc_meets pages sized
  cases run : pmmAlloc pages s with
  | error e =>
    obtain ⟨rfl, full⟩ := (meets.of_error run).of_pos (by omega)
    have none : ¬ ∃ b, s.FreeRun b pages.toInt.toNat := by
      intro some
      obtain ⟨b, free⟩ := some
      exact full b free
    exact ⟨⟨fun _ => none, fun _ => rfl⟩, fun some => absurd some none⟩
  | ok r =>
    obtain ⟨base, least, address, marks⟩ := meets.of_ok run
    constructor
    · constructor
      · intro failed
        cases failed
      · intro none
        exact absurd ⟨base.toNat, least.2.1⟩ none
    · intro _
      refine ⟨base, r.2, ?_, least.2.1, least.2.2, marks.bitmap, marks.size, marks.bits,
        marks.writes⟩
      rw [← address]

/-- A bitmap of one byte without allocated frames. -/
def emptyByte : Machine := ⟨⟨fun _ => 0, []⟩, 0x1000, 1⟩

/-- Three pages from an empty byte are its first three. -/
theorem pmmAlloc_firstFit_emptyByte : ∃ (base : UInt64) (s' : Machine),
    pmmAlloc 3 emptyByte = .ok (base <<< 12, s') ∧
    emptyByte.FreeRun base.toNat 3 ∧ ∀ p, p < 8 →
      (s'.Allocated p ↔ base.toNat ≤ p ∧ p < base.toNat + 3 ∨ emptyByte.Allocated p) := by
  have free : emptyByte.FreeRun 0 (3 : Int32).toInt.toNat := by
    intro p _ below
    have all : ∀ p < 3, emptyByte.Tracked p ∧ ¬ emptyByte.Allocated p := by decide
    exact all p below
  have fits : emptyByte.Sized := by
    unfold Machine.Sized emptyByte
    decide
  obtain ⟨base, s', returned, run, -, -, -, bits, -⟩ :=
    (pmmAlloc_firstFit fits (by decide : 1 ≤ (3 : Int32).toInt)).2 ⟨0, free⟩
  exact ⟨base, s', returned, run, bits⟩

end Symphony
