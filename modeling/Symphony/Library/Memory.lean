import Mathlib.Algebra.Group.Nat.Defs
import Mathlib.Tactic.Common

/-!
# Byte-addressed memory

A memory assigns a byte to every 64-bit address and keeps the history of the
addresses stored to. Words are little-endian. Address arithmetic is modular, so a
span of bytes may wrap around the end of the address space; `Span` says which
addresses it covers. `Writes` is the frame relation of a sequence of stores: the
history grows by addresses of a given set only, and every other byte is unchanged.
-/

namespace Symphony

/-- The address lies among the `count` bytes that start at `start`, modulo 2^64. -/
def Span (start : UInt64) (count : Nat) (a : UInt64) : Prop := (a - start).toNat < count

instance (start : UInt64) (count : Nat) : DecidablePred (Span start count) :=
  fun a => inferInstanceAs (Decidable ((a - start).toNat < count))

/-- The distance between two addresses, computed modulo the address space. -/
theorem toNat_sub_cases (a b : UInt64) :
    (b.toNat ≤ a.toNat ∧ (a - b).toNat + b.toNat = a.toNat) ∨
      (a.toNat < b.toNat ∧ (a - b).toNat + b.toNat = a.toNat + 2 ^ 64) := by
  have ha := a.toNat_lt
  have hb := b.toNat_lt
  rw [UInt64.toNat_sub]
  omega

/-- A sum of words that does not wrap is the natural sum. -/
theorem toNat_add_of_fits {a b : UInt64} (fits : a.toNat + b.toNat < 2 ^ 64) :
    (a + b).toNat = a.toNat + b.toNat := by
  rw [UInt64.toNat_add, Nat.mod_eq_of_lt fits]

/-- A word offset below the word size denotes its natural number. -/
theorem toNat_ofNat_of_fits {n : Nat} (fits : n < 2 ^ 64) : (UInt64.ofNat n).toNat = n := by
  rw [UInt64.toNat_ofNat', Nat.mod_eq_of_lt fits]

/-- An address is a known distance past another exactly when it is their sum. -/
theorem eq_add_ofNat_iff {a start : UInt64} {i : Nat} (fits : i < 2 ^ 64) :
    a = start + UInt64.ofNat i ↔ (a - start).toNat = i := by
  constructor
  · rintro rfl
    rw [show start + UInt64.ofNat i - start = UInt64.ofNat i by grind, toNat_ofNat_of_fits fits]
  · rintro rfl
    rw [UInt64.ofNat_toNat]
    grind

/-- The empty span covers nothing. -/
@[simp] theorem span_zero (start a : UInt64) : ¬ Span start 0 a := Nat.not_lt_zero _

/-- A nonempty span starts with its first address. -/
theorem span_succ {start a : UInt64} {count : Nat} (fits : count < 2 ^ 64) :
    Span start (count + 1) a ↔ a = start ∨ Span (start + 1) count a := by
  have ha := a.toNat_lt
  have hs := start.toNat_lt
  simp only [Span, ← UInt64.toNat_inj, UInt64.toNat_sub, UInt64.toNat_add]
  change _ ↔ _ ∨ (2 ^ 64 - (start.toNat + 1) % 2 ^ 64 + a.toNat) % 2 ^ 64 < count
  omega

/-- The address before a span lies outside it. -/
theorem not_span_succ (a : UInt64) {count : Nat} (fits : count < 2 ^ 64) :
    ¬ Span (a + 1) count a := by
  have distance : a - (a + 1) = UInt64.ofNat (2 ^ 64 - 1) := by grind
  rw [Span, distance, toNat_ofNat_of_fits (by decide)]
  omega

/-- A span that does not wrap covers a natural interval. -/
theorem span_iff {start a : UInt64} {count : Nat} (fits : start.toNat + count ≤ 2 ^ 64) :
    Span start count a ↔ start.toNat ≤ a.toNat ∧ a.toNat < start.toNat + count := by
  have ha := a.toNat_lt
  have distance := toNat_sub_cases a start
  unfold Span
  omega

/-- Byte-addressed memory of a 64-bit address space with the history of its stores. -/
structure Memory where
  /-- Contents. -/
  byte : UInt64 → UInt8
  /-- Addresses stored to, the latest first. -/
  log : List UInt64

namespace Memory

/-- Store one byte. -/
def store8 (m : Memory) (a : UInt64) (v : UInt8) : Memory where
  byte x := if x = a then v else m.byte x
  log := a :: m.log

/-- Little-endian value of the `count` bytes at an address. -/
def loadLE (m : Memory) (a : UInt64) : Nat → Nat
  | 0 => 0
  | count + 1 => (m.byte a).toNat + 256 * loadLE m (a + 1) count

/-- Store the low `count` little-endian bytes of a number. -/
def storeLE (m : Memory) (a : UInt64) (v : Nat) : Nat → Memory
  | 0 => m
  | count + 1 => storeLE (m.store8 a (UInt8.ofNat v)) (a + 1) (v / 256) count

/-- Load a 64-bit word. -/
def load64 (m : Memory) (a : UInt64) : UInt64 := UInt64.ofNat (m.loadLE a 8)

/-- Store a 64-bit word. -/
def store64 (m : Memory) (a v : UInt64) : Memory := m.storeLE a v.toNat 8

/-! ## Frames -/

/-- Stores at addresses of `area` lead from one memory to the other: the history
grows by such addresses only, and every byte that was not stored to is unchanged. -/
def Writes (area : UInt64 → Prop) (m m' : Memory) : Prop :=
  ∃ stored : List UInt64, m'.log = stored ++ m.log ∧ (∀ a ∈ stored, area a) ∧
    ∀ a, a ∉ stored → m'.byte a = m.byte a

namespace Writes

variable {area wider : UInt64 → Prop} {m m' m'' : Memory}

/-- Nothing stored. -/
@[refl] theorem refl : Writes area m m := ⟨[], rfl, by simp, fun _ _ => rfl⟩

/-- Stores compose. -/
theorem trans (first : Writes area m m') (second : Writes area m' m'') : Writes area m m'' := by
  obtain ⟨early, earlyLog, earlyArea, earlyByte⟩ := first
  obtain ⟨late, lateLog, lateArea, lateByte⟩ := second
  refine ⟨late ++ early, by rw [lateLog, earlyLog, List.append_assoc], ?_, ?_⟩
  · intro a member
    rcases List.mem_append.mp member with inLate | inEarly
    · exact lateArea a inLate
    · exact earlyArea a inEarly
  · intro a absent
    rw [List.mem_append, not_or] at absent
    rw [lateByte a absent.1, earlyByte a absent.2]

/-- The area of a frame may grow. -/
theorem mono (writes : Writes area m m') (grow : ∀ a, area a → wider a) : Writes wider m m' := by
  obtain ⟨stored, log, inside, same⟩ := writes
  exact ⟨stored, log, fun a member => grow a (inside a member), same⟩

/-- A byte outside the area is unchanged. -/
theorem byte_eq (writes : Writes area m m') {a : UInt64} (outside : ¬ area a) :
    m'.byte a = m.byte a := by
  obtain ⟨stored, _, inside, same⟩ := writes
  exact same a (fun member => outside (inside a member))

end Writes

/-- One byte store writes its address. -/
theorem store8_writes (m : Memory) (a : UInt64) (v : UInt8) :
    Writes (fun x => x = a) m (m.store8 a v) :=
  ⟨[a], rfl, by simp, fun x absent => by
    simp only [List.mem_singleton] at absent
    simp [store8, absent]⟩

/-- A multi-byte store writes its span. -/
theorem storeLE_writes (m : Memory) (a : UInt64) (v count : Nat) (fits : count ≤ 2 ^ 64) :
    Writes (Span a count) m (m.storeLE a v count) := by
  induction count generalizing m a v with
  | zero => exact Writes.refl
  | succ count ih =>
    have rest := ih (m.store8 a (UInt8.ofNat v)) (a + 1) (v / 256) (by omega)
    have first := store8_writes m a (UInt8.ofNat v)
    refine (first.mono ?_).trans (rest.mono ?_)
    · intro x same
      exact (span_succ (by omega)).mpr (Or.inl same)
    · intro x inside
      exact (span_succ (by omega)).mpr (Or.inr inside)

/-- A word store writes its eight bytes. -/
theorem store64_writes (m : Memory) (a v : UInt64) : Writes (Span a 8) m (m.store64 a v) :=
  storeLE_writes m a v.toNat 8 (by decide)

/-- Equal bytes give an equal little-endian value. -/
theorem loadLE_congr {m m' : Memory} {a : UInt64} {count : Nat} (fits : count ≤ 2 ^ 64)
    (same : ∀ x, Span a count x → m'.byte x = m.byte x) : m'.loadLE a count = m.loadLE a count := by
  induction count generalizing a with
  | zero => rfl
  | succ count ih =>
    have head := same a ((span_succ (by omega)).mpr (Or.inl rfl))
    have tail := ih (a := a + 1) (by omega)
      (fun x inside => same x ((span_succ (by omega)).mpr (Or.inr inside)))
    simp only [loadLE, head, tail]

/-- Equal bytes give an equal word. -/
theorem load64_congr {m m' : Memory} {a : UInt64}
    (same : ∀ x, Span a 8 x → m'.byte x = m.byte x) : m'.load64 a = m.load64 a := by
  rw [load64, load64, loadLE_congr (by decide) same]

/-- A stored number is read back modulo its width. -/
theorem loadLE_storeLE (m : Memory) (a : UInt64) (v count : Nat) (fits : count ≤ 2 ^ 64) :
    (m.storeLE a v count).loadLE a count = v % 256 ^ count := by
  induction count generalizing m a v with
  | zero => simp [loadLE, Nat.mod_one]
  | succ count ih =>
    have first : (m.storeLE a v (count + 1)).byte a = UInt8.ofNat v := by
      change ((m.store8 a (UInt8.ofNat v)).storeLE (a + 1) (v / 256) count).byte a = _
      rw [(storeLE_writes _ _ _ count (by omega)).byte_eq (not_span_succ a (by omega))]
      simp [store8]
    have rest := ih (m.store8 a (UInt8.ofNat v)) (a + 1) (v / 256) (by omega)
    rw [loadLE, first]
    change (UInt8.ofNat v).toNat + 256 * ((m.store8 a (UInt8.ofNat v)).storeLE (a + 1)
      (v / 256) count).loadLE (a + 1) count = _
    rw [rest, UInt8.toNat_ofNat', Nat.pow_succ 256, Nat.mul_comm (256 ^ count) 256, Nat.mod_mul]

/-- A stored word is read back. -/
@[simp] theorem load64_store64 (m : Memory) (a v : UInt64) : (m.store64 a v).load64 a = v := by
  have small : v.toNat < 256 ^ 8 := v.toNat_lt
  rw [load64, store64, loadLE_storeLE m a v.toNat 8 (by decide), Nat.mod_eq_of_lt small,
    UInt64.ofNat_toNat]

/-- A word whose bytes avoid a store keeps its value. -/
theorem Writes.load64_eq {area : UInt64 → Prop} {m m' : Memory} (writes : Writes area m m')
    {a : UInt64} (apart : ∀ x, Span a 8 x → ¬ area x) : m'.load64 a = m.load64 a :=
  load64_congr fun x inside => writes.byte_eq (apart x inside)

end Memory

end Symphony
