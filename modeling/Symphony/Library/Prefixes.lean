import Symphony.Library.Forest
import Mathlib.Algebra.Order.BigOperators.Group.Finset

/-!
# Counting the nodes of a tree

The nodes of a tree in a forest are as many as its paths. Where the paths are the prefixes of
some paths of one length, they are counted by their lengths: the empty one, and for each positive
length as many as the paths have different prefixes of that length.
-/

namespace Symphony

variable {N I A B C : Type}

/-- The nodes of a tree are as many as its paths. -/
theorem Forest.length_eq_card [DecidableEq N] {child : N → I → Option N} {live : N → Prop}
    {depth : Nat} {root : N} {nodes : List N} {paths : Finset (List I)}
    (forest : Forest child live depth) (isLive : live root) (once : nodes.Nodup)
    (isNode : ∀ n, n ∈ nodes ↔ ∃ path, path.length ≤ depth ∧ follow child root path = some n)
    (isPath : ∀ path, path ∈ paths ↔ path.length ≤ depth ∧ ∃ n, follow child root path = some n) :
    nodes.length = paths.card := by
  have image : nodes.toFinset = paths.image fun path => (follow child root path).getD root := by
    ext n
    rw [List.mem_toFinset, isNode, Finset.mem_image]
    constructor
    · rintro ⟨path, short, reached⟩
      exact ⟨path, (isPath path).mpr ⟨short, n, reached⟩, by rw [reached]; rfl⟩
    · rintro ⟨path, member, rfl⟩
      obtain ⟨short, n, reached⟩ := (isPath path).mp member
      exact ⟨path, short, by rw [reached]; rfl⟩
  rw [← List.toFinset_card_of_nodup once, image]
  apply Finset.card_image_of_injOn
  intro p inP q inQ same
  obtain ⟨shortP, n, reachedP⟩ := (isPath p).mp inP
  obtain ⟨shortQ, m, reachedQ⟩ := (isPath q).mp inQ
  dsimp only at same
  rw [reachedP, reachedQ, Option.getD_some, Option.getD_some] at same
  exact (forest root p root q n isLive isLive shortP shortQ reachedP (same ▸ reachedQ)).2

/-- Functions that tell the same members apart have as many values. -/
theorem card_image_congr [DecidableEq B] [DecidableEq C] {f : A → B} {g : A → C} (s : Finset A)
    (same : ∀ a ∈ s, ∀ b ∈ s, f a = f b ↔ g a = g b) : (s.image f).card = (s.image g).card := by
  have pairs (x : B × C) (inX : x ∈ s.image fun a => (f a, g a)) : ∃ a ∈ s, (f a, g a) = x :=
    Finset.mem_image.mp inX
  have first : Set.InjOn Prod.fst (s.image fun a => (f a, g a) : Set (B × C)) := by
    intro x inX y inY equal
    obtain ⟨a, inA, rfl⟩ := pairs x inX
    obtain ⟨b, inB, rfl⟩ := pairs y inY
    exact Prod.ext equal ((same a inA b inB).mp equal)
  have second : Set.InjOn Prod.snd (s.image fun a => (f a, g a) : Set (B × C)) := by
    intro x inX y inY equal
    obtain ⟨a, inA, rfl⟩ := pairs x inX
    obtain ⟨b, inB, rfl⟩ := pairs y inY
    exact Prod.ext ((same a inA b inB).mpr equal) equal
  calc (s.image f).card = ((s.image fun a => (f a, g a)).image Prod.fst).card := by
        rw [Finset.image_image]
        rfl
    _ = (s.image fun a => (f a, g a)).card := Finset.card_image_of_injOn first
    _ = ((s.image fun a => (f a, g a)).image Prod.snd).card :=
        (Finset.card_image_of_injOn second).symm
    _ = (s.image g).card := by
        rw [Finset.image_image]
        rfl

/-! ## Missing nodes -/

/-- Number of nodes that are missing on a path from a node. -/
def missing (child : N → I → Option N) : N → List I → Nat
  | _, [] => 0
  | n, i :: path =>
    match child n i with
    | none => path.length + 1
    | some m => missing child m path

variable {child child' : N → I → Option N} {n : N} {depth : Nat}

/-- No more nodes are missing than the path has steps. -/
theorem missing_le (child : N → I → Option N) (n : N) (path : List I) :
    missing child n path ≤ path.length := by
  induction path generalizing n with
  | nil => exact Nat.le_refl 0
  | cons i path ih =>
    rw [missing, List.length_cons]
    cases child n i with
    | none => exact Nat.le_refl _
    | some m => exact Nat.le_succ_of_le (ih m)

/-- The missing nodes are the last ones of the path. -/
theorem follow_take_eq_none {path : List I} {k : Nat} (short : k ≤ path.length) :
    follow child n (path.take k) = none ↔ path.length < k + missing child n path := by
  induction path generalizing n k with
  | nil =>
    rw [List.length_nil, Nat.le_zero] at short
    rw [short, missing]
    simp [follow]
  | cons i path ih =>
    cases k with
    | zero =>
      have bound := missing_le child n (i :: path)
      constructor
      · intro absurd
        cases absurd
      · intro beyond
        omega
    | succ k =>
      rw [List.length_cons] at short
      rw [List.take_succ_cons, follow, missing, List.length_cons]
      cases child n i with
      | none =>
        have beyond : path.length + 1 < k + 1 + (path.length + 1) := by omega
        exact ⟨fun _ => beyond, fun _ => rfl⟩
      | some m =>
        rw [Option.bind_some, ih (by omega)]
        dsimp only
        omega

/-- A path that an extension completes leads to a node without children. -/
theorem Extends.missing_last {live : N → Prop} {root g : N} {path : List I}
    (extends' : Extends child child' live depth root path) (isLive : live root)
    (none : follow child root path = none) (reached : follow child' root path = some g)
    (rest : List I) (short : path.length + rest.length ≤ depth) :
    missing child' g rest = rest.length := by
  cases rest with
  | nil => rfl
  | cons j rest =>
    rw [List.length_cons] at short
    rw [missing, List.length_cons]
    cases edge : child' g j with
    | none => rfl
    | some n =>
      have longer : follow child' root (path ++ [j]) = some n := by
        rw [follow_concat, reached]
        exact edge
      rcases extends'.added root _ n isLive (by simp; omega) longer with old | new
      · obtain ⟨m, before, -⟩ := exists_of_follow_concat old
        rw [none] at before
        cases before
      · have length := new.2.1.length_le
        rw [List.length_append, List.length_singleton] at length
        omega

/-! ## Prefixes -/

variable [DecidableEq I]

/-- The empty path and the prefixes of some paths. -/
def prefixes (depth : Nat) (paths : Finset (List I)) : Finset (List I) :=
  insert [] ((Finset.range depth).biUnion fun k => paths.image (List.take (k + 1)))

variable {paths : Finset (List I)}

/-- Members are prefixes. -/
theorem mem_prefixes (full : ∀ p ∈ paths, p.length = depth) {q : List I} :
    q ∈ prefixes depth paths ↔ q = [] ∨ ∃ p ∈ paths, q <+: p := by
  rw [prefixes, Finset.mem_insert, Finset.mem_biUnion]
  refine or_congr_right' fun notEmpty => ⟨?_, ?_⟩
  · rintro ⟨k, -, member⟩
    obtain ⟨p, inPaths, rfl⟩ := Finset.mem_image.mp member
    exact ⟨p, inPaths, List.take_prefix (k + 1) p⟩
  · rintro ⟨p, inPaths, isPrefix⟩
    have positive := List.length_pos_of_ne_nil notEmpty
    have short := isPrefix.length_le
    have length := full p inPaths
    refine ⟨q.length - 1, Finset.mem_range.mpr (by omega), Finset.mem_image.mpr ⟨p, inPaths, ?_⟩⟩
    rw [Nat.sub_add_cancel positive]
    exact (List.prefix_iff_eq_take.mp isPrefix).symm

/-- Prefixes are counted by their lengths. -/
theorem card_prefixes (full : ∀ p ∈ paths, p.length = depth) :
    (prefixes depth paths).card =
      1 + ∑ k ∈ Finset.range depth, (paths.image (List.take (k + 1))).card := by
  have length {k : Nat} (below : k < depth) {q : List I} (member : q ∈ paths.image (List.take (k + 1))) :
      q.length = k + 1 := by
    obtain ⟨p, inPaths, rfl⟩ := Finset.mem_image.mp member
    rw [List.length_take, full p inPaths]
    omega
  rw [prefixes, Finset.card_insert_of_notMem, Finset.card_biUnion, Nat.add_comm]
  · intro j belowJ k belowK different
    refine Finset.disjoint_left.mpr fun q inJ inK => ?_
    have lengthJ := length (Finset.mem_range.mp belowJ) inJ
    have lengthK := length (Finset.mem_range.mp belowK) inK
    omega
  · intro member
    obtain ⟨k, below, inImage⟩ := Finset.mem_biUnion.mp member
    have zero := length (Finset.mem_range.mp below) inImage
    cases zero

/-- The paths of a set that lead to no node. -/
def absent (child : N → I → Option N) (root : N) (paths : Finset (List I)) : Finset (List I) :=
  paths.filter fun path => (follow child root path).isNone

/-- The missing nodes of a path are counted by its prefixes that lead to no node. -/
theorem exists_missing (child : N → I → Option N) (root : N) (path : List I) :
    ∃ lost : Finset (List I), lost.card = missing child root path ∧
      ∀ q, q ∈ lost ↔ q <+: path ∧ follow child root q = none := by
  have bound := missing_le child root path
  refine ⟨(Finset.range (missing child root path)).image fun k => path.take (path.length - k), ?_, ?_⟩
  · rw [Finset.card_image_of_injOn, Finset.card_range]
    intro j belowJ k belowK same
    have lengths := congrArg List.length same
    simp only [Finset.coe_range, Set.mem_Iio, List.length_take] at belowJ belowK lengths
    omega
  · intro q
    rw [Finset.mem_image]
    constructor
    · rintro ⟨k, below, rfl⟩
      rw [Finset.mem_range] at below
      exact ⟨List.take_prefix _ path, (follow_take_eq_none (by omega)).mpr (by omega)⟩
    · rintro ⟨isPrefix, none⟩
      have length := isPrefix.length_le
      have same := List.prefix_iff_eq_take.mp isPrefix
      rw [same] at none
      have below := (follow_take_eq_none length).mp none
      refine ⟨path.length - q.length, Finset.mem_range.mpr (by omega), ?_⟩
      rw [Nat.sub_sub_self length]
      exact same.symm

/-- Missing nodes are absent. -/
theorem missing_le_absent {root : N} {path : List I} (inside : ∀ q, q <+: path → q ∈ paths) :
    missing child root path ≤ (absent child root paths).card := by
  obtain ⟨lost, card, member⟩ := exists_missing child root path
  rw [← card]
  apply Finset.card_le_card
  intro q wasLost
  obtain ⟨isPrefix, none⟩ := (member q).mp wasLost
  exact Finset.mem_filter.mpr ⟨inside q isPrefix, by rw [none]; rfl⟩

/-- Once a path is there in whole, its missing nodes are what is no longer absent. -/
theorem Extends.card_absent {live : N → Prop} {root m : N} {path : List I}
    (extends' : Extends child child' live depth root path) (isLive : live root)
    (whole : follow child' root path = some m) (inside : ∀ q, q <+: path → q ∈ paths)
    (short : ∀ q ∈ paths, q.length ≤ depth) :
    (absent child' root paths).card + missing child root path = (absent child root paths).card := by
  obtain ⟨lost, card, member⟩ := exists_missing child root path
  have reached (q : List I) (inPaths : q ∈ paths) := extends'.reached_iff isLive whole (short q inPaths)
  have apart : Disjoint (absent child' root paths) lost := by
    apply Finset.disjoint_left.mpr
    intro q isAbsent wasLost
    obtain ⟨inPaths, none⟩ := Finset.mem_filter.mp isAbsent
    obtain ⟨n, found⟩ := (reached q inPaths).mpr (Or.inr ((member q).mp wasLost).1)
    rw [found] at none
    cases none
  have union : absent child' root paths ∪ lost = absent child root paths := by
    ext q
    rw [Finset.mem_union, absent, absent, Finset.mem_filter, Finset.mem_filter, member]
    simp only [Option.isNone_iff_eq_none]
    constructor
    · rintro (⟨inPaths, none⟩ | ⟨isPrefix, none⟩)
      · refine ⟨inPaths, ?_⟩
        cases before : follow child root q with
        | none => rfl
        | some n => rw [extends'.stays root q n isLive (short q inPaths) before] at none; cases none
      · exact ⟨inside q isPrefix, none⟩
    · rintro ⟨inPaths, none⟩
      by_cases isPrefix : q <+: path
      · exact Or.inr ⟨isPrefix, none⟩
      · refine Or.inl ⟨inPaths, ?_⟩
        cases after : follow child' root q with
        | none => rfl
        | some n =>
          rcases (reached q inPaths).mp ⟨n, after⟩ with ⟨n, before⟩ | inside'
          · rw [before] at none
            cases none
          · exact absurd inside' isPrefix
  rw [← union, Finset.card_union_of_disjoint apart, card]

end Symphony
