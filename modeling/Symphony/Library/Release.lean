import Symphony.Library.Forest

/-!
# Releasing a tree

A tree in a store is released from its leaves up: a node is read index by index, and each
child is freed when everything below it is. `visits` is the sequence of these reads and frees.
Where no node has two paths, a node is neither read nor freed again after it was freed, and the
freed nodes are those that a path leads to.
-/

namespace Symphony

variable {N I : Type}

/-- An access to a node. -/
inductive Event (N : Type) where
  | read (n : N)
  | free (n : N)

/-- The second access does not use a node that the first one freed. -/
def Event.Spares (first second : Event N) : Prop :=
  ∀ n, first = .free n → second ≠ .read n ∧ second ≠ .free n

/-- A node that was freed is neither read nor freed again. -/
def Ordered (events : List (Event N)) : Prop := events.Pairwise Event.Spares

/-- One index of a node: the node is read, and what is below the child is visited before the
child is freed. -/
def turn (child : N → I → Option N) (below : N → List (Event N)) (n : N) (i : I) : List (Event N) :=
  .read n :: (child n i).elim [] fun m => below m ++ [.free m]

/-- The accesses below a node. The indices of a node may depend on the depth that is left. -/
def visits (child : N → I → Option N) (indices : Nat → N → List I) : Nat → N → List (Event N)
  | 0, _ => []
  | depth + 1, n => (indices (depth + 1) n).flatMap (turn child (visits child indices depth) n)

/-- A path of visited indices leads to a node. -/
def Leads (child : N → I → Option N) (indices : Nat → N → List I) : Nat → N → List I → N → Prop
  | _, n, [], m => n = m
  | 0, _, _ :: _, _ => False
  | depth + 1, n, i :: path, m =>
    i ∈ indices (depth + 1) n ∧ ∃ k, child n i = some k ∧ Leads child indices depth k path m

variable {child : N → I → Option N} {indices : Nat → N → List I} {depth : Nat} {n m : N}
  {path : List I}

/-- Visited paths are paths. -/
theorem Leads.follow (leads : Leads child indices depth n path m) :
    follow child n path = some m := by
  induction path generalizing depth n with
  | nil =>
    have same : n = m := by cases depth <;> exact leads
    rw [same]
    rfl
  | cons i path ih =>
    cases depth with
    | zero => exact leads.elim
    | succ depth =>
      obtain ⟨-, k, edge, rest⟩ := leads
      rw [Symphony.follow, edge]
      exact ih rest

/-- Visited paths are no longer than the depth. -/
theorem Leads.length_le (leads : Leads child indices depth n path m) : path.length ≤ depth := by
  induction path generalizing depth n with
  | nil => exact Nat.zero_le depth
  | cons i path ih =>
    cases depth with
    | zero => exact leads.elim
    | succ depth =>
      obtain ⟨-, k, -, rest⟩ := leads
      exact Nat.succ_le_succ (ih rest)

/-- On a visited path each index is visited. -/
theorem Leads.visited {before after : List I} {i : I} {k : N}
    (leads : Leads child indices depth n (before ++ i :: after) m)
    (reached : Symphony.follow child n before = some k) : i ∈ indices (depth - before.length) k := by
  induction before generalizing depth n with
  | nil =>
    cases depth with
    | zero => exact leads.elim
    | succ depth =>
      obtain ⟨visited, -⟩ := leads
      rw [Symphony.follow, Option.some.injEq] at reached
      exact reached ▸ visited
  | cons j before ih =>
    cases depth with
    | zero => exact leads.elim
    | succ depth =>
      obtain ⟨-, k', edge, rest⟩ := leads
      rw [Symphony.follow, edge] at reached
      rw [List.length_cons, Nat.add_sub_add_right]
      exact ih rest reached

/-- A path on which each index is visited is a visited path. -/
theorem leads_of_follow (short : path.length ≤ depth) (reached : Symphony.follow child n path = some m)
    (visited : ∀ before i after k, path = before ++ i :: after →
      Symphony.follow child n before = some k → i ∈ indices (depth - before.length) k) :
    Leads child indices depth n path m := by
  induction path generalizing depth n with
  | nil =>
    have same : n = m := Option.some.inj reached
    cases depth <;> exact same
  | cons i path ih =>
    cases depth with
    | zero => exact absurd short (Nat.not_succ_le_zero _)
    | succ depth =>
      rw [Symphony.follow, Option.bind_eq_some_iff] at reached
      obtain ⟨k, edge, rest⟩ := reached
      refine ⟨visited [] i path n rfl rfl, k, edge, ih (Nat.le_of_succ_le_succ short) rest ?_⟩
      intro before j after k' split prior
      have longer := visited (i :: before) j after k' (by rw [split, List.cons_append])
        (by rw [Symphony.follow, edge]; exact prior)
      rwa [List.length_cons, Nat.add_sub_add_right] at longer

/-- Every node leads to itself. -/
theorem Leads.refl (child : N → I → Option N) (indices : Nat → N → List I) (depth : Nat) (n : N) :
    Leads child indices depth n [] n := by
  cases depth <;> rfl

/-- What a turn frees: the child, and what is freed below it. -/
theorem free_mem_turn {below : N → List (Event N)} {i : I} :
    .free m ∈ turn child below n i ↔ ∃ k, child n i = some k ∧ (.free m ∈ below k ∨ m = k) := by
  unfold turn
  cases edge : child n i with
  | none => simp
  | some k => simp

/-- What a turn reads: the node, and what is read below the child. -/
theorem read_mem_turn {below : N → List (Event N)} {i : I} :
    .read m ∈ turn child below n i ↔ m = n ∨ ∃ k, child n i = some k ∧ .read m ∈ below k := by
  unfold turn
  cases edge : child n i with
  | none => simp
  | some k => simp

/-- The freed nodes are those that visited paths lead to. -/
theorem free_mem_visits :
    .free m ∈ visits child indices depth n ↔
      ∃ i path, Leads child indices depth n (i :: path) m := by
  induction depth generalizing n with
  | zero => simp [visits, Leads]
  | succ depth ih =>
    simp only [visits, List.mem_flatMap, free_mem_turn, ih]
    constructor
    · rintro ⟨i, visited, k, edge, below⟩
      rcases below with ⟨j, path, leads⟩ | same
      · exact ⟨i, j :: path, visited, k, edge, leads⟩
      · exact ⟨i, [], visited, k, edge, same ▸ Leads.refl child indices depth m⟩
    · rintro ⟨i, path, visited, k, edge, leads⟩
      refine ⟨i, visited, k, edge, ?_⟩
      cases path with
      | nil =>
        right
        cases depth <;> exact leads.symm
      | cons j path => exact Or.inl ⟨j, path, leads⟩

/-- The nodes that are read lie above the depth. -/
theorem exists_of_read_mem_visits (accessed : .read m ∈ visits child indices depth n) :
    ∃ path, path.length < depth ∧ Leads child indices depth n path m := by
  induction depth generalizing n with
  | zero => cases accessed
  | succ depth ih =>
    rw [visits, List.mem_flatMap] at accessed
    obtain ⟨i, visited, accessed⟩ := accessed
    rcases read_mem_turn.mp accessed with same | ⟨k, edge, below⟩
    · exact ⟨[], Nat.succ_pos depth, same ▸ Leads.refl child indices (depth + 1) m⟩
    · obtain ⟨path, short, leads⟩ := ih below
      exact ⟨i :: path, Nat.succ_lt_succ short, visited, k, edge, leads⟩

/-- What a turn frees lies on a path that starts with its index. -/
theorem leads_of_free_mem_turn {i : I} (visited : i ∈ indices (depth + 1) n)
    (freed : .free m ∈ turn child (visits child indices depth) n i) :
    ∃ path, Leads child indices (depth + 1) n (i :: path) m := by
  obtain ⟨k, edge, freed⟩ := free_mem_turn.mp freed
  rcases freed with below | same
  · obtain ⟨j, path, leads⟩ := free_mem_visits.mp below
    exact ⟨j :: path, visited, k, edge, leads⟩
  · exact ⟨[], visited, k, edge, same ▸ Leads.refl child indices depth m⟩

/-- What a turn reads is its node, or lies on a path that starts with its index. -/
theorem leads_of_read_mem_turn {i : I} (visited : i ∈ indices (depth + 1) n)
    (accessed : .read m ∈ turn child (visits child indices depth) n i) :
    m = n ∨ ∃ path, Leads child indices (depth + 1) n (i :: path) m := by
  rcases read_mem_turn.mp accessed with same | ⟨k, edge, below⟩
  · exact Or.inl same
  · obtain ⟨path, -, leads⟩ := exists_of_read_mem_visits below
    exact Or.inr ⟨path, visited, k, edge, leads⟩

/-- Within one turn the node is read first and its child is freed last. -/
theorem ordered_turn {i : I} (visited : i ∈ indices (depth + 1) n)
    (below : ∀ k, child n i = some k → Ordered (visits child indices depth k))
    (unique : ∀ path path' m, Leads child indices (depth + 1) n path m →
      Leads child indices (depth + 1) n path' m → path = path') :
    Ordered (turn child (visits child indices depth) n i) := by
  rw [Ordered, turn, List.pairwise_cons]
  refine ⟨fun e _ m freed => (nomatch freed), ?_⟩
  cases edge : child n i with
  | none => exact List.Pairwise.nil
  | some k =>
    rw [Option.elim_some, List.pairwise_append]
    refine ⟨below k edge, List.pairwise_singleton _ _, ?_⟩
    intro e inBelow e' isLast m freed
    rw [List.mem_singleton] at isLast
    subst isLast freed
    refine ⟨fun other => (nomatch other), fun same => ?_⟩
    rw [Event.free.injEq] at same
    subst same
    obtain ⟨j, path, leads⟩ := free_mem_visits.mp inBelow
    have loop := unique (i :: j :: path) [i] k ⟨visited, k, edge, leads⟩
      ⟨visited, k, edge, Leads.refl child indices depth k⟩
    cases loop

/-- Where no node has two paths, the visits below a node use no node that was freed. -/
theorem ordered_visits (distinct : ∀ depth n, (indices depth n).Nodup)
    (unique : ∀ path path' m, Leads child indices depth n path m →
      Leads child indices depth n path' m → path = path') :
    Ordered (visits child indices depth n) := by
  induction depth generalizing n with
  | zero => exact List.Pairwise.nil
  | succ depth ih =>
    rw [Ordered, visits, List.pairwise_flatMap]
    constructor
    · intro i visited
      apply ordered_turn visited _ unique
      intro k edge
      apply ih
      intro path path' m leads leads'
      exact (List.cons.inj (unique (i :: path) (i :: path') m ⟨visited, k, edge, leads⟩
        ⟨visited, k, edge, leads'⟩)).2
    · -- What is freed at one index is not found at a later one.
      apply (distinct (depth + 1) n).imp_of_mem
      intro i j inI inJ different e first e' second m freed
      subst freed
      obtain ⟨path, leads⟩ := leads_of_free_mem_turn inI first
      constructor
      · intro read
        subst read
        rcases leads_of_read_mem_turn inJ second with same | ⟨path', leads'⟩
        · have loop := unique _ [] m leads (same ▸ Leads.refl child indices (depth + 1) m)
          cases loop
        · exact different (List.cons.inj (unique _ _ m leads leads')).1
      · intro free
        subst free
        obtain ⟨path', leads'⟩ := leads_of_free_mem_turn inJ second
        exact different (List.cons.inj (unique _ _ m leads leads')).1

end Symphony
