import Mathlib.Tactic.Common

/-!
# Doubly linked lists

A segment of a doubly linked list is a list of items with addresses. The cell of an item
holds the address before it and the address behind it; at the ends of the segment these
are the addresses of its surroundings. A change inside a list is the replacement of a
segment that starts at the same address, together with the link back from what follows.
-/

namespace Symphony

variable {A B : Type} {addr : B → A}

/-- Address of the first item, or what follows an empty segment. -/
def firstOr (addr : B → A) : List B → A → A
  | [], next => next
  | b :: _, _ => addr b

/-- Address of the last item, or what precedes an empty segment. -/
def lastOr (addr : B → A) : A → List B → A
  | prev, [] => prev
  | _, b :: rest => lastOr addr (addr b) rest

/-- The cells of the items hold the addresses of their neighbours. -/
def Linked (addr : B → A) (cell : B → A → A → Prop) : A → List B → A → Prop
  | _, [], _ => True
  | prev, b :: rest, next =>
    cell b prev (firstOr addr rest next) ∧ Linked addr cell (addr b) rest next

/-- First address of two segments. -/
@[simp] theorem firstOr_append (xs ys : List B) (next : A) :
    firstOr addr (xs ++ ys) next = firstOr addr xs (firstOr addr ys next) := by
  cases xs with
  | nil => rfl
  | cons x xs => rfl

/-- Last address of two segments. -/
@[simp] theorem lastOr_append (prev : A) (xs ys : List B) :
    lastOr addr prev (xs ++ ys) = lastOr addr (lastOr addr prev xs) ys := by
  induction xs generalizing prev with
  | nil => rfl
  | cons x xs ih => exact ih (addr x)

/-- The last address of a segment with items is that of an item. -/
theorem lastOr_mem (prev : A) (x : B) (xs : List B) :
    ∃ b ∈ x :: xs, lastOr addr prev (x :: xs) = addr b := by
  induction xs generalizing prev x with
  | nil => exact ⟨x, List.mem_singleton_self x, rfl⟩
  | cons y ys ih =>
    obtain ⟨b, inside, last⟩ := ih (addr x) y
    exact ⟨b, List.mem_cons_of_mem x inside, last⟩

variable {cell cell' : B → A → A → Prop}

/-- Two segments are linked when each is, up to the seam. -/
theorem linked_append {prev next : A} {xs ys : List B} :
    Linked addr cell prev (xs ++ ys) next ↔
      Linked addr cell prev xs (firstOr addr ys next) ∧
        Linked addr cell (lastOr addr prev xs) ys next := by
  induction xs generalizing prev with
  | nil => exact (and_iff_right trivial).symm
  | cons x xs ih =>
    rw [List.cons_append, Linked, Linked, firstOr_append, ih, and_assoc]
    rfl

namespace Linked

/-- Cells that stay keep a segment. -/
theorem imp {prev next : A} {xs : List B} (linked : Linked addr cell prev xs next)
    (same : ∀ b ∈ xs, ∀ p n, cell b p n → cell' b p n) : Linked addr cell' prev xs next := by
  induction xs generalizing prev with
  | nil => trivial
  | cons x xs ih =>
    obtain ⟨here, rest⟩ := linked
    exact ⟨same x List.mem_cons_self _ _ here,
      ih rest fun b later => same b (List.mem_cons_of_mem x later)⟩

/-- The cell of an item inside a list. -/
theorem cell_mid {prev next : A} {before after : List B} {b : B}
    (linked : Linked addr cell prev (before ++ b :: after) next) :
    cell b (lastOr addr prev before) (firstOr addr after next) :=
  (linked_append.mp linked).2.1

/-- A segment is replaced by one that starts at the same address. -/
theorem replace {prev next : A} {before old new after : List B}
    (linked : Linked addr cell prev (before ++ (old ++ after)) next)
    (start : firstOr addr new (firstOr addr after next) = firstOr addr old (firstOr addr after next))
    (kept : ∀ b ∈ before, ∀ p n, cell b p n → cell' b p n)
    (middle : Linked addr cell' (lastOr addr prev before) new (firstOr addr after next))
    (behind : Linked addr cell' (lastOr addr (lastOr addr prev before) new) after next) :
    Linked addr cell' prev (before ++ (new ++ after)) next := by
  have front := (linked_append.mp linked).1.imp kept
  rw [firstOr_append, ← start, ← firstOr_append] at front
  exact linked_append.mpr ⟨front, linked_append.mpr ⟨middle, behind⟩⟩

/-- Cells that determine their items and links determine a segment from its start on. -/
theorem unique {prev prev' next : A} {xs ys : List B} (linked : Linked addr cell prev xs next)
    (linked' : Linked addr cell prev' ys next)
    (determines : ∀ b c p p' n n', cell b p n → cell c p' n' → addr b = addr c → b = c ∧ n = n')
    (inner : ∀ b ∈ xs, addr b ≠ next) (inner' : ∀ b ∈ ys, addr b ≠ next)
    (start : firstOr addr xs next = firstOr addr ys next) : xs = ys := by
  induction xs generalizing ys prev prev' with
  | nil =>
    cases ys with
    | nil => rfl
    | cons y ys => exact absurd start.symm (inner' y List.mem_cons_self)
  | cons x xs ih =>
    cases ys with
    | nil => exact absurd start (inner x List.mem_cons_self)
    | cons y ys =>
      obtain ⟨rfl, behind⟩ := determines x y _ _ _ _ linked.1 linked'.1 start
      rw [ih linked.2 linked'.2 (fun b later => inner b (List.mem_cons_of_mem x later))
        (fun b later => inner' b (List.mem_cons_of_mem x later)) behind]

end Linked

/-- A segment of a list with pairwise related members is replaced. -/
theorem pairwise_replace {R : B → B → Prop} {before old new after : List B}
    (pairwise : (before ++ (old ++ after)).Pairwise R) (inside : new.Pairwise R)
    (front : ∀ x ∈ before, (∀ y ∈ old, R x y) → ∀ z ∈ new, R x z)
    (behind : ∀ x ∈ after, (∀ y ∈ old, R y x) → ∀ z ∈ new, R z x) :
    (before ++ (new ++ after)).Pairwise R := by
  simp only [List.pairwise_append, List.mem_append] at pairwise ⊢
  obtain ⟨first, ⟨-, last, across⟩, cross⟩ := pairwise
  refine ⟨first, ⟨inside, last, ?_⟩, ?_⟩
  · intro z isNew x isAfter
    exact behind x isAfter (fun y isOld => across y isOld x isAfter) z isNew
  · intro x isBefore z either
    cases either with
    | inl isNew => exact front x isBefore (fun y isOld => cross x isBefore y (Or.inl isOld)) z isNew
    | inr isAfter => exact cross x isBefore z (Or.inr isAfter)

end Symphony
