import Mathlib.Algebra.GroupWithZero.Nat
import Mathlib.Data.List.Chain
import Mathlib.Data.List.Nodup
import Mathlib.Data.List.Perm.Subperm
import Mathlib.Tactic.Common

/-!
# Lists of intervals

Half-open intervals of natural numbers, the sets they cover, and the merging of list
neighbours that touch. `coalesce` is invariant under the splitting of an interval in
place and under the coalescing of a prefix, so two lists with one coalescing cover the
same numbers, have the same total length, and are pairwise apart together.
-/

namespace Symphony

/-- The numbers from `start` up to but not including `start + len`. -/
structure Interval where
  /-- First number. -/
  start : Nat
  /-- Number of members. -/
  len : Nat
deriving DecidableEq

namespace Interval

/-- First number after the interval. -/
def stop (x : Interval) : Nat := x.start + x.len

/-- Membership. -/
def Has (x : Interval) (a : Nat) : Prop := x.start ≤ a ∧ a < x.stop

/-- One interval ends before the other starts. -/
def Apart (x y : Interval) : Prop := x.stop ≤ y.start ∨ y.stop ≤ x.start

/-- Separation is symmetric. -/
theorem Apart.symm {x y : Interval} (apart : x.Apart y) : y.Apart x := Or.symm apart

/-- Separated intervals share no number. -/
theorem Apart.not_has {x y : Interval} (apart : x.Apart y) {a : Nat} (inside : x.Has a) :
    ¬ y.Has a := by
  unfold Apart at apart
  unfold Has at *
  omega

/-- Intervals with members are separated when they share none. -/
theorem apart_of_disjoint {x y : Interval} (hasX : 0 < x.len) (hasY : 0 < y.len)
    (disjoint : ∀ a, x.Has a → ¬ y.Has a) : x.Apart y := by
  by_contra overlap
  apply disjoint (max x.start y.start)
  all_goals
    unfold Apart stop at overlap
    unfold Has stop
    omega

/-- Put an interval before a list and merge it with the first one where they touch. -/
def join (x : Interval) : List Interval → List Interval
  | [] => [x]
  | y :: rest => if x.stop = y.start then ⟨x.start, x.len + y.len⟩ :: rest else x :: y :: rest

/-- Merge all list neighbours that touch. -/
def coalesce : List Interval → List Interval
  | [] => []
  | x :: rest => join x (coalesce rest)

/-- Total length. -/
def total (xs : List Interval) : Nat := (xs.map len).sum

/-- Some interval of the list has the number. -/
def Covers (xs : List Interval) (a : Nat) : Prop := ∃ x ∈ xs, x.Has a

/-! ## Coalescing is a normal form -/

/-- Splitting an interval in place does not change the coalescing. -/
theorem join_split (start left right : Nat) (rest : List Interval) :
    join ⟨start, left⟩ (join ⟨start + left, right⟩ rest) = join ⟨start, left + right⟩ rest := by
  cases rest with
  | nil => simp [join, stop]
  | cons y rest =>
    by_cases touch : start + left + right = y.start
    · have touches : start + (left + right) = y.start := by omega
      simp [join, stop, touch, touches, Nat.add_assoc]
    · have apart : ¬ start + (left + right) = y.start := by omega
      simp [join, stop, touch, apart]

/-- Splitting an interval anywhere in a list does not change the coalescing. -/
theorem coalesce_split (before after : List Interval) (start left right : Nat) :
    coalesce (before ++ ⟨start, left⟩ :: ⟨start + left, right⟩ :: after) =
      coalesce (before ++ ⟨start, left + right⟩ :: after) := by
  induction before with
  | nil => exact join_split start left right (coalesce after)
  | cons x before ih => exact congrArg (join x) ih

/-- A prefix may be coalesced first. -/
theorem coalesce_prefix (xs ys : List Interval) :
    coalesce (coalesce xs ++ ys) = coalesce (xs ++ ys) := by
  induction xs with
  | nil => rfl
  | cons x xs ih =>
    change coalesce (join x (coalesce xs) ++ ys) = join x (coalesce (xs ++ ys))
    rw [← ih]
    cases merged : coalesce xs with
    | nil => rfl
    | cons y rest =>
      by_cases touch : x.stop = y.start
      · have second : (⟨x.start + x.len, y.len⟩ : Interval) = y := by
          cases y
          simp_all [stop]
        have split := join_split x.start x.len y.len (coalesce (rest ++ ys))
        rw [second] at split
        rw [join, if_pos touch]
        exact split.symm
      · rw [join, if_neg touch]
        rfl

/-- Lists with one coalescing keep it when the same intervals are appended. -/
theorem coalesce_append_congr {xs ys : List Interval} (same : coalesce xs = coalesce ys)
    (more : List Interval) : coalesce (xs ++ more) = coalesce (ys ++ more) := by
  rw [← coalesce_prefix xs, ← coalesce_prefix ys, same]

/-- A list without touching neighbours is its own coalescing. -/
theorem coalesce_eq_self {xs : List Interval}
    (gaps : xs.IsChain fun x y => x.stop ≠ y.start) : coalesce xs = xs := by
  induction xs with
  | nil => rfl
  | cons x rest ih =>
    rw [coalesce, ih gaps.tail]
    cases rest with
    | nil => rfl
    | cons y rest => simp [join, gaps.rel]

/-! ## What the coalescing preserves -/

/-- Joining covers what the two parts cover. -/
theorem covers_join (x : Interval) (xs : List Interval) (a : Nat) :
    Covers (join x xs) a ↔ x.Has a ∨ Covers xs a := by
  cases xs with
  | nil => simp [join, Covers]
  | cons y rest =>
    by_cases touch : x.stop = y.start
    · simp only [Covers, join, touch, ↓reduceIte, List.mem_cons, exists_eq_or_imp, ← or_assoc]
      refine or_congr_left ?_
      simp only [Has, stop] at *
      omega
    · simp [Covers, join, touch]

/-- Coalescing covers the same numbers. -/
theorem covers_coalesce (xs : List Interval) (a : Nat) : Covers (coalesce xs) a ↔ Covers xs a := by
  induction xs with
  | nil => rfl
  | cons x rest ih => rw [coalesce, covers_join, ih]; simp [Covers]

/-- Coalescing keeps the total length. -/
theorem total_coalesce (xs : List Interval) : total (coalesce xs) = total xs := by
  induction xs with
  | nil => rfl
  | cons x rest ih =>
    have joined : total (join x (coalesce rest)) = x.len + total (coalesce rest) := by
      cases coalesce rest with
      | nil => rfl
      | cons y rest =>
        by_cases touch : x.stop = y.start
        · simp [join, touch, total, Nat.add_assoc]
        · simp [join, touch, total]
    rw [coalesce, joined, ih]
    rfl

/-- Two lists with one coalescing cover the same numbers. -/
theorem covers_congr {xs ys : List Interval} (same : coalesce xs = coalesce ys) (a : Nat) :
    Covers xs a ↔ Covers ys a := by
  rw [← covers_coalesce xs, ← covers_coalesce ys, same]

/-- Two lists with one coalescing have the same total length. -/
theorem total_congr {xs ys : List Interval} (same : coalesce xs = coalesce ys) :
    total xs = total ys := by
  rw [← total_coalesce xs, ← total_coalesce ys, same]

/-! ## Tilings with used and free parts -/

/-- Merged intervals have members when all parts have some. -/
theorem coalesce_positive {xs : List Interval} (positive : ∀ x ∈ xs, 0 < x.len) :
    ∀ z ∈ coalesce xs, 0 < z.len := by
  induction xs with
  | nil =>
    intro z member
    cases member
  | cons x rest ih =>
    have first := positive x List.mem_cons_self
    have later := ih fun y member => positive y (List.mem_cons_of_mem x member)
    intro z member
    rw [coalesce] at member
    cases merged : coalesce rest with
    | nil =>
      rw [merged, join, List.mem_singleton] at member
      exact member ▸ first
    | cons y more =>
      rw [merged] at member later
      by_cases touch : x.stop = y.start
      · rw [join, if_pos touch, List.mem_cons] at member
        cases member with
        | inl here =>
          rw [here]
          exact Nat.add_pos_left first y.len
        | inr there => exact later z (List.mem_cons_of_mem y there)
      · rw [join, if_neg touch, List.mem_cons] at member
        cases member with
        | inl here => exact here ▸ first
        | inr there => exact later z there

/-- The merged list starts with an interval that contains the first one; where it goes beyond it,
the second interval touches the first. -/
theorem coalesce_cons (x : Interval) (rest : List Interval) :
    ∃ z more, coalesce (x :: rest) = z :: more ∧ z.start = x.start ∧ x.stop ≤ z.stop ∧
      (x.stop < z.stop → ∃ y later, rest = y :: later ∧ y.start = x.stop) := by
  induction rest generalizing x with
  | nil => exact ⟨x, [], rfl, rfl, Nat.le_refl _, fun beyond => absurd beyond (Nat.lt_irrefl _)⟩
  | cons y later ih =>
    obtain ⟨z, more, merged, start, -, -⟩ := ih y
    rw [coalesce, merged]
    by_cases touch : x.stop = z.start
    · refine ⟨⟨x.start, x.len + z.len⟩, more, by rw [join, if_pos touch], rfl, ?_, fun _ => ?_⟩
      · unfold stop
        exact Nat.add_le_add_left (Nat.le_add_right _ _) _
      · exact ⟨y, later, rfl, start.symm.trans touch.symm⟩
    · exact ⟨x, z :: more, by rw [join, if_neg touch], rfl, Nat.le_refl _,
        fun beyond => absurd beyond (Nat.lt_irrefl _)⟩

/-- Lists whose members are not empty are equal when they are joined with one interval to the same
list. -/
theorem join_cancel {x : Interval} {xs ys : List Interval} (positive : ∀ z ∈ xs, 0 < z.len)
    (positive' : ∀ z ∈ ys, 0 < z.len) (same : join x xs = join x ys) : xs = ys := by
  cases xs with
  | nil =>
    cases ys with
    | nil => rfl
    | cons y ys =>
      have some := positive' y List.mem_cons_self
      by_cases touch : x.stop = y.start
      · rw [join, join, if_pos touch, List.cons.injEq] at same
        have len := congrArg Interval.len same.1
        dsimp only at len
        omega
      · rw [join, join, if_neg touch] at same
        cases same
  | cons z xs =>
    have some := positive z List.mem_cons_self
    cases ys with
    | nil =>
      by_cases touch : x.stop = z.start
      · rw [join, join, if_pos touch, List.cons.injEq] at same
        have len := congrArg Interval.len same.1
        dsimp only at len
        omega
      · rw [join, join, if_neg touch] at same
        cases same
    | cons y ys =>
      have some' := positive' y List.mem_cons_self
      rw [join, join] at same
      by_cases touch : x.stop = z.start
      · by_cases touch' : x.stop = y.start
        · rw [if_pos touch, if_pos touch', List.cons.injEq] at same
          have len := congrArg Interval.len same.1
          dsimp only at len
          have first : z = y := by
            cases z
            cases y
            dsimp only at *
            rw [Interval.mk.injEq]
            omega
          rw [first, same.2]
        · rw [if_pos touch, if_neg touch', List.cons.injEq] at same
          have len := congrArg Interval.len same.1
          dsimp only at len
          omega
      · by_cases touch' : x.stop = y.start
        · rw [if_neg touch, if_pos touch', List.cons.injEq] at same
          have len := congrArg Interval.len same.1
          dsimp only at len
          omega
        · rw [if_neg touch, if_neg touch'] at same
          exact List.tail_eq_of_cons_eq same

section Tiling

variable {α : Type} {extent : α → Interval} {used : α → Bool}

/-- Parts of a memory, used or free: they are not empty, do not overlap, and no free one is
followed by a free one that touches it. -/
structure Tiling (extent : α → Interval) (used : α → Bool) (xs : List α) : Prop where
  /-- No part is empty. -/
  positive : ∀ x ∈ xs, 0 < (extent x).len
  /-- Parts do not overlap. -/
  apart : xs.Pairwise fun x y => (extent x).Apart (extent y)
  /-- Free neighbours do not touch. -/
  separate : xs.IsChain fun x y =>
    ¬ (used x = false ∧ used y = false ∧ (extent x).stop = (extent y).start)

namespace Tiling

variable {x y : α} {xs ys : List α}

/-- The parts behind the first one. -/
theorem tail (tiling : Tiling extent used (x :: xs)) : Tiling extent used xs where
  positive := fun y member => tiling.positive y (List.mem_cons_of_mem x member)
  apart := tiling.apart.of_cons
  separate := tiling.separate.tail

/-- Two parts of a tiling with a common member are the same. -/
theorem eq_of_has (tiling : Tiling extent used xs) (inX : x ∈ xs) (inY : y ∈ xs) {a : Nat}
    (hasX : (extent x).Has a) (hasY : (extent y).Has a) : x = y := by
  by_contra differ
  have symmetric : Std.Symm fun x y => (extent x).Apart (extent y) := ⟨fun _ _ => Apart.symm⟩
  have apart := tiling.apart.forall inX inY differ
  exact apart.not_has hasX hasY

/-- A part contains its first number. -/
theorem has_start (tiling : Tiling extent used xs) (member : x ∈ xs) :
    (extent x).Has (extent x).start :=
  ⟨Nat.le_refl _, Nat.lt_add_of_pos_right (tiling.positive x member)⟩

/-- A free part cannot be shorter than the free part of another tiling that starts with it: behind
it comes a used part, which lies in the other tiling, too. -/
theorem stop_le (first : Tiling extent used (x :: xs)) (second : Tiling extent used (y :: ys))
    (same : coalesce ((x :: xs).map extent) = coalesce ((y :: ys).map extent))
    (inUse : ∀ z, used z = true → (z ∈ x :: xs → z ∈ y :: ys))
    (freeX : used x = false) (freeY : used y = false) : (extent y).stop ≤ (extent x).stop := by
  by_contra longer
  obtain ⟨z, more, merged, start, -, next⟩ := coalesce_cons (extent x) (xs.map extent)
  obtain ⟨z', more', merged', start', stop', -⟩ := coalesce_cons (extent y) (ys.map extent)
  rw [List.map_cons, List.map_cons, merged, merged', List.cons.injEq] at same
  obtain ⟨i, later, rest, touch⟩ := next (by rw [same.1]; omega)
  obtain ⟨w, tail, rfl, rfl, -⟩ := List.map_eq_cons_iff.mp rest
  have usedW : used w = true := by
    by_contra free
    exact first.separate.rel ⟨freeX, by simpa using free, touch.symm⟩
  have inFirst : w ∈ x :: w :: tail := List.mem_cons_of_mem x List.mem_cons_self
  have inSecond := inUse w usedW inFirst
  have starts : (extent y).start = (extent x).start := by rw [← start, ← start', same.1]
  have inY : (extent y).Has (extent w).start := by
    unfold Has
    unfold stop at *
    omega
  have equal := second.eq_of_has List.mem_cons_self inSecond inY (first.has_start inFirst)
  rw [← equal, freeY] at usedW
  cases usedW

/-- A tiling is known by the numbers it covers and its used parts. -/
theorem unique (ext : ∀ x y, extent x = extent y → used x = used y → x = y)
    (first : Tiling extent used xs) (second : Tiling extent used ys)
    (same : coalesce (xs.map extent) = coalesce (ys.map extent))
    (inUse : ∀ z, used z = true → (z ∈ xs ↔ z ∈ ys)) : xs = ys := by
  induction xs generalizing ys with
  | nil =>
    cases ys with
    | nil => rfl
    | cons y ys =>
      obtain ⟨z, more, merged, -⟩ := coalesce_cons (extent y) (ys.map extent)
      rw [List.map_cons, merged] at same
      cases same
  | cons x xs ih =>
    cases ys with
    | nil =>
      obtain ⟨z, more, merged, -⟩ := coalesce_cons (extent x) (xs.map extent)
      rw [List.map_cons, merged] at same
      cases same
    | cons y ys =>
      have starts : (extent x).start = (extent y).start := by
        obtain ⟨z, more, merged, start, -⟩ := coalesce_cons (extent x) (xs.map extent)
        obtain ⟨z', more', merged', start', -⟩ := coalesce_cons (extent y) (ys.map extent)
        rw [List.map_cons, List.map_cons, merged, merged', List.cons.injEq] at same
        rw [← start, ← start', same.1]
      have hasX := first.has_start (List.mem_cons_self (a := x) (l := xs))
      have hasY := second.has_start (List.mem_cons_self (a := y) (l := ys))
      have heads : x = y := by
        cases usedX : used x with
        | true =>
          have member := (inUse x usedX).mp List.mem_cons_self
          exact second.eq_of_has member List.mem_cons_self hasX (starts ▸ hasY)
        | false =>
          cases usedY : used y with
          | true =>
            have member := (inUse y usedY).mpr List.mem_cons_self
            exact first.eq_of_has List.mem_cons_self member hasX (starts ▸ hasY)
          | false =>
            have longer := first.stop_le second same (fun z usedZ => (inUse z usedZ).mp) usedX usedY
            have shorter := second.stop_le first same.symm (fun z usedZ => (inUse z usedZ).mpr) usedY
              usedX
            apply ext x y _ (usedX.trans usedY.symm)
            unfold stop at longer shorter
            generalize extent x = i at *
            generalize extent y = j at *
            cases i
            cases j
            dsimp only at *
            rw [Interval.mk.injEq]
            omega
      subst heads
      have rests : coalesce (xs.map extent) = coalesce (ys.map extent) := by
        refine join_cancel (coalesce_positive ?_) (coalesce_positive ?_) same
        · intro i member
          obtain ⟨w, inside, rfl⟩ := List.mem_map.mp member
          exact first.positive w (List.mem_cons_of_mem x inside)
        · intro i member
          obtain ⟨w, inside, rfl⟩ := List.mem_map.mp member
          exact second.positive w (List.mem_cons_of_mem x inside)
      rw [ih first.tail second.tail rests fun z usedZ => ?_]
      have all := inUse z usedZ
      have absent (tiling : Tiling extent used (x :: xs)) : x ∉ xs := by
        intro member
        exact (List.rel_of_pairwise_cons tiling.apart member).not_has hasX hasX
      have absent' : x ∉ ys := by
        intro member
        exact (List.rel_of_pairwise_cons second.apart member).not_has hasX hasX
      by_cases equal : z = x
      · rw [equal]
        exact iff_of_false (absent first) absent'
      · rwa [List.mem_cons, List.mem_cons, or_iff_right equal, or_iff_right equal] at all

end Tiling

end Tiling

/-! ## Total length of separated intervals -/

/-- Separated intervals below a bound have at most that total length. -/
theorem total_le {xs : List Interval} {bound : Nat} (apart : xs.Pairwise Apart)
    (below : ∀ x ∈ xs, x.stop ≤ bound) : total xs ≤ bound := by
  have disjoint : (xs.flatMap fun x => List.range' x.start x.len).Nodup := by
    refine List.nodup_flatMap.mpr ⟨fun x _ => List.nodup_range', apart.imp ?_⟩
    intro x y separated a inX inY
    rw [List.mem_range'_1] at inX inY
    exact separated.not_has inX inY
  have inside : (xs.flatMap fun x => List.range' x.start x.len) ⊆ List.range bound := by
    intro a member
    obtain ⟨x, inList, inX⟩ := List.mem_flatMap.mp member
    rw [List.mem_range'_1] at inX
    have := below x inList
    rw [List.mem_range]
    unfold stop at this
    omega
  have lengths := (List.Nodup.subperm disjoint inside).length_le
  rw [List.length_range, List.length_flatMap] at lengths
  simpa [total, Function.comp_def] using lengths

end Interval

end Symphony
