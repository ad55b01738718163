import Mathlib.Data.List.Induction
import Mathlib.Tactic.Common

/-!
# Forests of fixed depth in a store

A store of nodes is given by its edges: at some indices a node has a child. `follow`
walks a path of indices, and `lookup` reads a value in the node that a path leads to. In
a `Forest` every node has one root and one path. A forest grows by a root without
children or by an edge to a new node without children; neither changes what `lookup`
reads, and a write into one node changes one index of one path only.
-/

namespace Symphony

variable {N I V : Type}

/-- The node that a path leads to. -/
def follow (child : N → I → Option N) : N → List I → Option N
  | n, [] => some n
  | n, i :: path => (child n i).bind fun m => follow child m path

/-- Paths compose. -/
theorem follow_append (child : N → I → Option N) (n : N) (before after : List I) :
    follow child n (before ++ after) =
      (follow child n before).bind fun m => follow child m after := by
  induction before generalizing n with
  | nil => rfl
  | cons i before ih =>
    cases edge : child n i with
    | none => simp only [List.cons_append, follow, edge, Option.bind_none]
    | some m => simp only [List.cons_append, follow, edge, Option.bind_some, ih]

/-- The last step of a path. -/
theorem follow_concat (child : N → I → Option N) (n : N) (path : List I) (i : I) :
    follow child n (path ++ [i]) = (follow child n path).bind fun m => child m i := by
  rw [follow_append]
  cases follow child n path with
  | none => rfl
  | some m =>
    cases edge : child m i with
    | none => simp only [Option.bind_some, follow, edge, Option.bind_none]
    | some k => simp only [Option.bind_some, follow, edge]

/-- The node before the last step of a path. -/
theorem exists_of_follow_concat {child : N → I → Option N} {n m : N} {path : List I} {i : I}
    (reached : follow child n (path ++ [i]) = some m) :
    ∃ k, follow child n path = some k ∧ child k i = some m := by
  rw [follow_concat] at reached
  cases before : follow child n path with
  | none =>
    rw [before, Option.bind_none] at reached
    cases reached
  | some k =>
    rw [before, Option.bind_some] at reached
    exact ⟨k, rfl, reached⟩

/-- The nodes on a path of three steps. -/
theorem exists_of_follow_three {child : N → I → Option N} {n m : N} {i j k : I}
    (reached : follow child n [i, j, k] = some m) :
    ∃ a b, child n i = some a ∧ child a j = some b ∧ child b k = some m := by
  have last : follow child n ([i, j] ++ [k]) = some m := reached
  obtain ⟨b, reachedB, edgeM⟩ := exists_of_follow_concat last
  have middle : follow child n ([i] ++ [j]) = some b := reachedB
  obtain ⟨a, reachedA, edgeB⟩ := exists_of_follow_concat middle
  have first : follow child n ([] ++ [i]) = some a := reachedA
  obtain ⟨root, same, edgeA⟩ := exists_of_follow_concat first
  rw [follow, Option.some.injEq] at same
  exact ⟨a, b, same ▸ edgeA, edgeB, edgeM⟩

/-- A path to a node passes a node at each of its prefixes. -/
theorem exists_of_follow_prefix {child : N → I → Option N} {n m : N} {before path : List I}
    (isPrefix : before <+: path) (reached : follow child n path = some m) :
    ∃ k, follow child n before = some k := by
  obtain ⟨after, rfl⟩ := isPrefix
  rw [follow_append] at reached
  obtain ⟨k, here, -⟩ := Option.bind_eq_some_iff.mp reached
  exact ⟨k, here⟩

/-- A tree without edges is its root. -/
theorem follow_leaf_iff {child : N → I → Option N} {root : N} (leaf : ∀ i, child root i = none)
    (path : List I) (n : N) : follow child root path = some n ↔ path = [] ∧ n = root := by
  cases path with
  | nil => simp [follow, eq_comm]
  | cons i path => simp [follow, leaf]

/-- Equal edges along a path lead to the same node. -/
theorem follow_congr {child child' : N → I → Option N} {n : N} {path : List I}
    (same : ∀ before i after m, path = before ++ i :: after → follow child n before = some m →
      child' m i = child m i) : follow child' n path = follow child n path := by
  induction path generalizing n with
  | nil => rfl
  | cons i path ih =>
    have first := same [] i path n rfl rfl
    rw [follow, follow, first]
    cases edge : child n i with
    | none => rfl
    | some m =>
      apply ih
      intro before j after k split reached
      apply same (i :: before) j after k
      · rw [split, List.cons_append]
      · rw [follow, edge]
        exact reached

/-- Nodes within some depth of the live roots. -/
def Within (child : N → I → Option N) (live : N → Prop) (depth : Nat) (n : N) : Prop :=
  ∃ root path, live root ∧ path.length ≤ depth ∧ follow child root path = some n

/-- Nodes above the given depth: those whose edges lead to nodes within the depth. -/
def Above (child : N → I → Option N) (live : N → Prop) (depth : Nat) (n : N) : Prop :=
  ∃ root path, live root ∧ path.length < depth ∧ follow child root path = some n

/-- Inner nodes are nodes. -/
theorem Above.within {child : N → I → Option N} {live : N → Prop} {depth : Nat} {n : N}
    (above : Above child live depth n) : Within child live depth n := by
  obtain ⟨root, path, isLive, short, reached⟩ := above
  exact ⟨root, path, isLive, Nat.le_of_lt short, reached⟩

/-- Every node within the depth has one root and one path. -/
def Forest (child : N → I → Option N) (live : N → Prop) (depth : Nat) : Prop :=
  ∀ root path root' path' n, live root → live root' → path.length ≤ depth →
    path'.length ≤ depth → follow child root path = some n → follow child root' path' = some n →
    root = root' ∧ path = path'

/-- The value at an index of the node that a path leads to, or a default. -/
def lookup (child : N → I → Option N) (value : N → I → V) (missing : V) (root : N)
    (path : List I) (i : I) : V :=
  (follow child root path).elim missing fun n => value n i

section Congruence

variable {child child' : N → I → Option N} {live : N → Prop} {depth : Nat}

/-- Equal edges of the inner nodes lead to the same nodes. -/
theorem follow_eq_of_above (same : ∀ m i, Above child live depth m → child' m i = child m i)
    {root : N} {path : List I} (isLive : live root) (short : path.length ≤ depth) :
    follow child' root path = follow child root path := by
  apply follow_congr
  intro before i after m split reached
  apply same
  have length := congrArg List.length split
  rw [List.length_append, List.length_cons] at length
  exact ⟨root, before, isLive, by omega, reached⟩

/-- Equal edges of the inner nodes form the same forest. -/
theorem Forest.congr (forest : Forest child live depth)
    (same : ∀ m i, Above child live depth m → child' m i = child m i) :
    Forest child' live depth := by
  intro root path root' path' n isLive isLive' short short' reached reached'
  rw [follow_eq_of_above same isLive short] at reached
  rw [follow_eq_of_above same isLive' short'] at reached'
  exact forest root path root' path' n isLive isLive' short short' reached reached'

/-- Equal edges of the inner nodes have the same nodes. -/
theorem within_congr (same : ∀ m i, Above child live depth m → child' m i = child m i) (n : N) :
    Within child' live depth n ↔ Within child live depth n := by
  constructor
  · intro within
    obtain ⟨root, path, isLive, short, reached⟩ := within
    rw [follow_eq_of_above same isLive short] at reached
    exact ⟨root, path, isLive, short, reached⟩
  · intro within
    obtain ⟨root, path, isLive, short, reached⟩ := within
    rw [← follow_eq_of_above same isLive short] at reached
    exact ⟨root, path, isLive, short, reached⟩

/-- Equal edges of the inner nodes and equal values of the nodes give equal lookups. -/
theorem lookup_congr {value value' : N → I → V} {missing : V}
    (same : ∀ m i, Above child live depth m → child' m i = child m i)
    (values : ∀ m j, Within child live depth m → value' m j = value m j) {root : N}
    {path : List I} {j : I} (isLive : live root) (short : path.length ≤ depth) :
    lookup child' value' missing root path j = lookup child value missing root path j := by
  rw [lookup, lookup, follow_eq_of_above same isLive short]
  cases target : follow child root path with
  | none => rfl
  | some m => exact values m j ⟨root, path, isLive, short, target⟩

/-- A write to one index of a node at the full depth changes that index of its path only. -/
theorem lookup_write [DecidableEq N] [DecidableEq I] {value value' : N → I → V} {missing : V}
    (forest : Forest child live depth)
    (same : ∀ m i, Above child live depth m → child' m i = child m i)
    {root : N} {path : List I} {n : N} {i : I} {v : V} (isLive : live root)
    (full : path.length = depth) (reached : follow child root path = some n)
    (written : value' n i = v)
    (others : ∀ m j, Within child live depth m → ¬ (m = n ∧ j = i) → value' m j = value m j)
    {root' : N} {path' : List I} {j : I} (isLive' : live root') (full' : path'.length = depth) :
    lookup child' value' missing root' path' j =
      if root' = root ∧ path' = path ∧ j = i then v
      else lookup child value missing root' path' j := by
  have follows := follow_eq_of_above same isLive' (Nat.le_of_eq full')
  rw [lookup, lookup, follows]
  by_cases here : root' = root ∧ path' = path ∧ j = i
  · obtain ⟨rfl, rfl, rfl⟩ := here
    rw [if_pos ⟨rfl, rfl, rfl⟩, reached]
    exact written
  · rw [if_neg here]
    cases target : follow child root' path' with
    | none => rfl
    | some m =>
      apply others m j ⟨root', path', isLive', Nat.le_of_eq full', target⟩
      intro both
      obtain ⟨rfl, rfl⟩ := both
      obtain ⟨sameRoot, samePath⟩ := forest root' path' root path m isLive' isLive
        (Nat.le_of_eq full') (Nat.le_of_eq full) target reached
      exact here ⟨sameRoot, samePath, rfl⟩

end Congruence

/-! ## Growth by an edge -/

/-- A new node without children becomes the child of an inner node at a free index. -/
structure Grows (child child' : N → I → Option N) (live : N → Prop) (depth : Nat)
    (n : N) (i : I) (fresh : N) : Prop where
  /-- The parent is an inner node. -/
  parent : Above child live depth n
  /-- Its index is free. -/
  free : child n i = none
  /-- The new edge. -/
  edge : child' n i = some fresh
  /-- The child is new. -/
  isNew : ¬ Within child live depth fresh
  /-- The child has no children. -/
  empty : ∀ j, child' fresh j = none
  /-- The other edges stay. -/
  others : ∀ m j, Above child live depth m → ¬ (m = n ∧ j = i) → child' m j = child m j

namespace Grows

variable {child child' : N → I → Option N} {live : N → Prop} {depth : Nat} {n fresh : N} {i : I}

/-- A path to an old node still leads there. -/
theorem follow_old (grows : Grows child child' live depth n i fresh) {root : N} {path : List I}
    {m : N} (isLive : live root) (short : path.length ≤ depth)
    (reached : follow child root path = some m) : follow child' root path = some m := by
  rw [← reached]
  apply follow_congr
  intro before j after k split prior
  have length := congrArg List.length split
  rw [List.length_append, List.length_cons] at length
  apply grows.others k j ⟨root, before, isLive, by omega, prior⟩
  intro both
  obtain ⟨rfl, rfl⟩ := both
  -- A successful path does not use the free index.
  rw [split, follow_append, prior, Option.bind_some, follow, grows.free,
    Option.bind_none] at reached
  cases reached

/-- A path leads to an old node as before, or through the new edge to the new node. -/
theorem follow_new (grows : Grows child child' live depth n i fresh) {root : N} {path : List I}
    {m : N} (isLive : live root) (short : path.length ≤ depth)
    (reached : follow child' root path = some m) :
    follow child root path = some m ∨
      m = fresh ∧ ∃ before, path = before ++ [i] ∧ follow child root before = some n := by
  induction path using List.reverseRecOn generalizing m with
  | nil => exact Or.inl reached
  | append_singleton path j ih =>
    rw [List.length_append, List.length_singleton] at short
    rw [follow_concat] at reached
    cases prior : follow child' root path with
    | none =>
      rw [prior, Option.bind_none] at reached
      cases reached
    | some k =>
      rw [prior, Option.bind_some] at reached
      cases ih (by omega) prior with
      | inl old =>
        by_cases here : k = n ∧ j = i
        · obtain ⟨rfl, rfl⟩ := here
          rw [grows.edge, Option.some.injEq] at reached
          exact Or.inr ⟨reached.symm, path, rfl, old⟩
        · rw [grows.others k j ⟨root, path, isLive, by omega, old⟩ here] at reached
          left
          rw [follow_concat, old]
          exact reached
      | inr new =>
        rw [new.1, grows.empty] at reached
        cases reached

/-- The nodes are the old ones and the new one. -/
theorem within_iff (grows : Grows child child' live depth n i fresh) (m : N) :
    Within child' live depth m ↔ Within child live depth m ∨ m = fresh := by
  constructor
  · intro within
    obtain ⟨root, path, isLive, short, reached⟩ := within
    cases grows.follow_new isLive short reached with
    | inl old => exact Or.inl ⟨root, path, isLive, short, old⟩
    | inr new => exact Or.inr new.1
  · intro cases'
    cases cases' with
    | inl within =>
      obtain ⟨root, path, isLive, short, reached⟩ := within
      exact ⟨root, path, isLive, short, grows.follow_old isLive short reached⟩
    | inr same =>
      obtain ⟨root, path, isLive, short, reached⟩ := grows.parent
      refine ⟨root, path ++ [i], isLive, by simpa using Nat.succ_le_of_lt short, ?_⟩
      rw [follow_concat, grows.follow_old isLive (Nat.le_of_lt short) reached, same]
      exact grows.edge

/-- The inner nodes after the growth are old inner nodes or the new one. -/
theorem above (grows : Grows child child' live depth n i fresh) {m : N}
    (inner : Above child' live depth m) : Above child live depth m ∨ m = fresh := by
  obtain ⟨root, path, isLive, short, reached⟩ := inner
  cases grows.follow_new isLive (Nat.le_of_lt short) reached with
  | inl old => exact Or.inl ⟨root, path, isLive, short, old⟩
  | inr new => exact Or.inr new.1

/-- The growth keeps the forest. -/
theorem forest (grows : Grows child child' live depth n i fresh)
    (old : Forest child live depth) : Forest child' live depth := by
  intro root path root' path' m isLive isLive' short short' reached reached'
  cases grows.follow_new isLive short reached with
  | inl before =>
    cases grows.follow_new isLive' short' reached' with
    | inl before' => exact old root path root' path' m isLive isLive' short short' before before'
    | inr new' =>
      rw [new'.1] at before
      exact absurd ⟨root, path, isLive, short, before⟩ grows.isNew
  | inr new =>
    obtain ⟨isFresh, before, split, parent⟩ := new
    cases grows.follow_new isLive' short' reached' with
    | inl before' =>
      rw [isFresh] at before'
      exact absurd ⟨root', path', isLive', short', before'⟩ grows.isNew
    | inr new' =>
      obtain ⟨-, before', split', parent'⟩ := new'
      rw [split, List.length_append, List.length_singleton] at short
      rw [split', List.length_append, List.length_singleton] at short'
      obtain ⟨sameRoot, samePath⟩ := old root before root' before' n isLive isLive' (by omega)
        (by omega) parent parent'
      exact ⟨sameRoot, by rw [split, split', samePath]⟩

/-- The growth does not change what a lookup reads. -/
theorem lookup_eq (grows : Grows child child' live depth n i fresh) {value value' : N → I → V}
    {missing : V} (others : ∀ m j, Within child live depth m → m ≠ n → value' m j = value m j)
    (zero : ∀ j, value' fresh j = missing) (forest : Forest child live depth)
    {root : N} {path : List I} {j : I} (isLive : live root) (full : path.length = depth) :
    lookup child' value' missing root path j = lookup child value missing root path j := by
  rw [lookup, lookup]
  cases target : follow child' root path with
  | none =>
    cases before : follow child root path with
    | none => rfl
    | some m =>
      rw [grows.follow_old isLive (Nat.le_of_eq full) before] at target
      cases target
  | some m =>
    cases grows.follow_new isLive (Nat.le_of_eq full) target with
    | inl before =>
      rw [before]
      apply others m j ⟨root, path, isLive, Nat.le_of_eq full, before⟩
      intro same
      -- The parent lies above the full depth.
      obtain ⟨root', path', isLive', short, reached⟩ := grows.parent
      rw [← same] at reached
      have length := (forest root path root' path' m isLive isLive' (Nat.le_of_eq full)
        (Nat.le_of_lt short) before reached).2
      rw [← length] at short
      omega
    | inr new =>
      obtain ⟨isFresh, before, split, parent⟩ := new
      have none : follow child root path = none := by
        rw [split, follow_concat, parent]
        exact grows.free
      rw [none, isFresh]
      exact zero j

end Grows

/-! ## Growth along a path -/

/-- The nodes stay where they are, and new nodes are found on one path of one root only. -/
structure Extends (child child' : N → I → Option N) (live : N → Prop) (depth : Nat) (root : N)
    (path : List I) : Prop where
  /-- A path to a node still leads there. -/
  stays : ∀ r p n, live r → p.length ≤ depth → follow child r p = some n → follow child' r p = some n
  /-- Another path leads to a new node. -/
  added : ∀ r p n, live r → p.length ≤ depth → follow child' r p = some n →
    follow child r p = some n ∨ r = root ∧ p <+: path ∧ ¬ Within child live depth n

namespace Extends

variable {child child' child'' : N → I → Option N} {live : N → Prop} {depth : Nat} {root : N}
  {path longer : List I}

/-- Equal edges of the inner nodes add nothing. -/
theorem of_edges (same : ∀ m i, Above child live depth m → child' m i = child m i) (root : N)
    (path : List I) : Extends child child' live depth root path := by
  constructor
  · intro r p n isLive short reached
    rw [follow_eq_of_above same isLive short]
    exact reached
  · intro r p n isLive short reached
    rw [follow_eq_of_above same isLive short] at reached
    exact Or.inl reached

/-- What is found on the way of a path is found on the way of a longer one. -/
theorem mono (extends' : Extends child child' live depth root path) (isPrefix : path <+: longer) :
    Extends child child' live depth root longer := by
  refine ⟨extends'.stays, fun r p n isLive short reached => ?_⟩
  exact (extends'.added r p n isLive short reached).imp_right
    fun new => ⟨new.1, new.2.1.trans isPrefix, new.2.2⟩

/-- Two extensions along one path. -/
theorem trans (first : Extends child child' live depth root path)
    (second : Extends child' child'' live depth root path) :
    Extends child child'' live depth root path := by
  constructor
  · intro r p n isLive short reached
    exact second.stays r p n isLive short (first.stays r p n isLive short reached)
  · intro r p n isLive short reached
    cases second.added r p n isLive short reached with
    | inl old => exact first.added r p n isLive short old
    | inr new =>
      refine Or.inr ⟨new.1, new.2.1, fun within => new.2.2 ?_⟩
      obtain ⟨r', p', isLive', short', reached'⟩ := within
      exact ⟨r', p', isLive', short', first.stays r' p' n isLive' short' reached'⟩

/-- Once the path is there in whole, the paths from its root are the old ones and its prefixes. -/
theorem reached_iff (extends' : Extends child child' live depth root path) (isLive : live root) {m : N}
    (whole : follow child' root path = some m) {p : List I} (short : p.length ≤ depth) :
    (∃ n, follow child' root p = some n) ↔ (∃ n, follow child root p = some n) ∨ p <+: path := by
  constructor
  · rintro ⟨n, reached⟩
    rcases extends'.added root p n isLive short reached with old | new
    · exact Or.inl ⟨n, old⟩
    · exact Or.inr new.2.1
  · rintro (⟨n, reached⟩ | isPrefix)
    · exact ⟨n, extends'.stays root p n isLive short reached⟩
    · exact exists_of_follow_prefix isPrefix whole

/-- The other roots find what they found. -/
theorem follow_eq_of_ne (extends' : Extends child child' live depth root path) {r : N} {p : List I}
    (isLive : live r) (short : p.length ≤ depth) (different : r ≠ root) :
    follow child' r p = follow child r p := by
  cases before : follow child r p with
  | some n => exact extends'.stays r p n isLive short before
  | none =>
    cases after : follow child' r p with
    | none => rfl
    | some n =>
      cases extends'.added r p n isLive short after with
      | inl old =>
        rw [before] at old
        cases old
      | inr new => exact absurd new.1 different

end Extends

/-- A new child extends the path of its parent. -/
theorem Grows.extends {child child' : N → I → Option N} {live : N → Prop} {depth : Nat}
    {n fresh root : N} {i : I} {path : List I} (grows : Grows child child' live depth n i fresh)
    (forest : Forest child live depth) (isLive : live root) (short : path.length < depth)
    (reached : follow child root path = some n) :
    Extends child child' live depth root (path ++ [i]) := by
  constructor
  · intro r p m isLive' short' reached'
    exact grows.follow_old isLive' short' reached'
  · intro r p m isLive' short' reached'
    cases grows.follow_new isLive' short' reached' with
    | inl old => exact Or.inl old
    | inr new =>
      obtain ⟨isFresh, before, split, parent⟩ := new
      rw [split, List.length_append, List.length_singleton] at short'
      obtain ⟨sameRoot, samePath⟩ := forest r before root path n isLive' isLive (by omega)
        (Nat.le_of_lt short) parent reached
      have whole : p = path ++ [i] := by rw [split, samePath]
      exact Or.inr ⟨sameRoot, whole ▸ List.prefix_refl p, isFresh ▸ grows.isNew⟩

/-! ## Growth by a root -/

/-- A new node without children becomes a live root. -/
structure Plants (child child' : N → I → Option N) (live : N → Prop) (depth : Nat)
    (fresh : N) : Prop where
  /-- The root is new. -/
  isNew : ¬ Within child live depth fresh
  /-- The root has no children. -/
  empty : ∀ j, child' fresh j = none
  /-- The edges stay. -/
  others : ∀ m j, Above child live depth m → child' m j = child m j

namespace Plants

variable {child child' : N → I → Option N} {live : N → Prop} {depth : Nat} {fresh : N}

/-- Only the empty path starts at the new root. -/
theorem follow_fresh (plants : Plants child child' live depth fresh) {path : List I} {m : N}
    (reached : follow child' fresh path = some m) : path = [] ∧ m = fresh := by
  cases path with
  | nil => exact ⟨rfl, (Option.some.inj reached).symm⟩
  | cons j path =>
    rw [follow, plants.empty, Option.bind_none] at reached
    cases reached

/-- A path from a live root leads to an old node as before or is the new root itself. -/
theorem follow_new (plants : Plants child child' live depth fresh) {root : N} {path : List I}
    {m : N} (isLive : live root ∨ root = fresh) (short : path.length ≤ depth)
    (reached : follow child' root path = some m) :
    live root ∧ follow child root path = some m ∨ root = fresh ∧ path = [] ∧ m = fresh := by
  cases isLive with
  | inl old =>
    rw [follow_eq_of_above plants.others old short] at reached
    exact Or.inl ⟨old, reached⟩
  | inr new =>
    rw [new] at reached
    exact Or.inr ⟨new, plants.follow_fresh reached⟩

/-- The nodes are the old ones and the new root. -/
theorem within_iff (plants : Plants child child' live depth fresh) (m : N) :
    Within child' (fun n => live n ∨ n = fresh) depth m ↔ Within child live depth m ∨ m = fresh := by
  constructor
  · intro within
    obtain ⟨root, path, isLive, short, reached⟩ := within
    cases plants.follow_new isLive short reached with
    | inl old => exact Or.inl ⟨root, path, old.1, short, old.2⟩
    | inr new => exact Or.inr new.2.2
  · intro cases'
    cases cases' with
    | inl within =>
      obtain ⟨root, path, isLive, short, reached⟩ := within
      rw [← follow_eq_of_above plants.others isLive short] at reached
      exact ⟨root, path, Or.inl isLive, short, reached⟩
    | inr same => exact ⟨fresh, [], Or.inr rfl, Nat.zero_le _, by rw [same]; rfl⟩

/-- The inner nodes after the growth are old inner nodes or the new root. -/
theorem above (plants : Plants child child' live depth fresh) {m : N}
    (inner : Above child' (fun n => live n ∨ n = fresh) depth m) :
    Above child live depth m ∨ m = fresh := by
  obtain ⟨root, path, isLive, short, reached⟩ := inner
  cases plants.follow_new isLive (Nat.le_of_lt short) reached with
  | inl old => exact Or.inl ⟨root, path, old.1, short, old.2⟩
  | inr new => exact Or.inr new.2.2

/-- The growth keeps the forest. -/
theorem forest (plants : Plants child child' live depth fresh) (old : Forest child live depth) :
    Forest child' (fun n => live n ∨ n = fresh) depth := by
  intro root path root' path' m isLive isLive' short short' reached reached'
  cases plants.follow_new isLive short reached with
  | inl before =>
    cases plants.follow_new isLive' short' reached' with
    | inl before' =>
      exact old root path root' path' m before.1 before'.1 short short' before.2 before'.2
    | inr new' =>
      have reachedOld := before.2
      rw [new'.2.2] at reachedOld
      exact absurd ⟨root, path, before.1, short, reachedOld⟩ plants.isNew
  | inr new =>
    cases plants.follow_new isLive' short' reached' with
    | inl before' =>
      have reachedOld := before'.2
      rw [new.2.2] at reachedOld
      exact absurd ⟨root', path', before'.1, short', reachedOld⟩ plants.isNew
    | inr new' => exact ⟨new.1.trans new'.1.symm, new.2.1.trans new'.2.1.symm⟩

/-- Lookups from the old roots read what they read before. -/
theorem lookup_eq (plants : Plants child child' live depth fresh) {value value' : N → I → V}
    {missing : V} (others : ∀ m j, Within child live depth m → value' m j = value m j)
    {root : N} {path : List I} {j : I} (isLive : live root) (full : path.length = depth) :
    lookup child' value' missing root path j = lookup child value missing root path j :=
  lookup_congr plants.others others isLive (Nat.le_of_eq full)

/-- Lookups from the new root find nothing. -/
theorem lookup_fresh (plants : Plants child child' live depth fresh) {value' : N → I → V}
    {missing : V} {path : List I} {j : I} (positive : 0 < path.length) :
    lookup child' value' missing fresh path j = missing := by
  rw [lookup]
  cases target : follow child' fresh path with
  | none => rfl
  | some m =>
    rw [(plants.follow_fresh target).1] at positive
    exact absurd positive (Nat.lt_irrefl 0)

end Plants

end Symphony
