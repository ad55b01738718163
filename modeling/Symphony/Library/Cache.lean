import Mathlib.Logic.Function.Basic
import Mathlib.Data.List.Basic
import Mathlib.Tactic.Common

/-!
# Caches of a changing table

A cache holds values of a table under their keys. It fills itself with values of the table and
evicts values whenever it likes; not every value may be cached. Whoever changes the table has to
invalidate what was cached of it. A cache stays coherent through a change, whatever it does in
between, exactly if no value that was cachable on the way differs from the value in the end.
-/

namespace Symphony

variable {K V : Type} {cachable : V → Prop}

/-- What is cached under each key. -/
abbrev Cache (K V : Type) : Type := K → Option V

namespace Cache

/-- Every cached value is cachable, and that of the table. -/
def Coherent (cachable : V → Prop) (c : Cache K V) (table : K → V) : Prop :=
  ∀ k v, c k = some v → cachable v ∧ table k = v

/-- Fills from a table and evictions: what is cached was cached before or comes from the table. -/
def Settles (cachable : V → Prop) (table : K → V) (c d : Cache K V) : Prop :=
  ∀ k v, d k = some v → c k = some v ∨ cachable v ∧ table k = v

/-- Fills and evictions while the table takes on some states one after another. -/
def Passes (cachable : V → Prop) : List (K → V) → Cache K V → Cache K V → Prop
  | [], c, d => c = d
  | table :: tables, c, d => ∃ e, Settles cachable table c e ∧ Passes cachable tables e d

/-- What is cached under a key is dropped. -/
def invalidate [DecidableEq K] (c : Cache K V) (k : K) : Cache K V := Function.update c k none

/-- An empty cache is coherent. -/
theorem coherent_empty (table : K → V) : Coherent cachable (fun _ => none) table := by
  intro k v cached
  cases cached

/-- Fills and evictions keep a cache coherent. -/
theorem Coherent.settles {c d : Cache K V} {table : K → V} (coherent : Coherent cachable c table)
    (settles : Settles cachable table c d) : Coherent cachable d table := by
  intro k v cached
  cases settles k v cached with
  | inl before => exact coherent k v before
  | inr current => exact current

/-- A cache need not change. -/
theorem settles_refl (table : K → V) (c : Cache K V) : Settles cachable table c c :=
  fun _ _ => Or.inl

/-- A cache need not change while the table does. -/
theorem passes_refl (tables : List (K → V)) (c : Cache K V) : Passes cachable tables c c := by
  induction tables with
  | nil => rfl
  | cons table tables ih => exact ⟨c, settles_refl table c, ih⟩

/-- Whatever is cached in the end was cached before or comes from one of the states. -/
theorem Passes.origin {tables : List (K → V)} {c d : Cache K V} (passes : Passes cachable tables c d)
    {k : K} {v : V} (cached : d k = some v) :
    c k = some v ∨ ∃ table ∈ tables, cachable v ∧ table k = v := by
  induction tables generalizing c with
  | nil =>
    have same : c = d := passes
    exact Or.inl (same ▸ cached)
  | cons table tables ih =>
    obtain ⟨e, first, rest⟩ := passes
    cases ih rest with
    | inr later =>
      obtain ⟨other, member, current⟩ := later
      exact Or.inr ⟨other, List.mem_cons_of_mem table member, current⟩
    | inl before =>
      cases first k v before with
      | inl old => exact Or.inl old
      | inr current => exact Or.inr ⟨table, List.mem_cons_self, current⟩

/-- One value is filled in. -/
theorem settles_update [DecidableEq K] {table : K → V} {k : K} (may : cachable (table k))
    (c : Cache K V) : Settles cachable table c (Function.update c k (some (table k))) := by
  intro k' v cached
  by_cases same : k' = k
  · subst same
    rw [Function.update_self] at cached
    obtain rfl := Option.some.inj cached
    exact Or.inr ⟨may, rfl⟩
  · rw [Function.update_of_ne same] at cached
    exact Or.inl cached

/-- Values of the first states are cached if a fill comes at the right time. -/
theorem passes_fill {tables : List (K → V)} {table : K → V} (member : table ∈ tables) {k : K}
    (may : cachable (table k)) (c : Cache K V) :
    ∃ d, Passes cachable tables c d ∧ d k = some (table k) := by
  classical
  induction tables with
  | nil => cases member
  | cons first tables ih =>
    cases List.mem_cons.mp member with
    | inl here =>
      subst here
      exact ⟨Function.update c k (some (table k)),
        ⟨_, settles_update may c, passes_refl tables _⟩, Function.update_self k _ c⟩
    | inr later =>
      obtain ⟨d, passes, filled⟩ := ih later
      exact ⟨d, ⟨c, settles_refl first c, passes⟩, filled⟩

/-- A cache is coherent after a change, whatever it did in between, exactly if nothing that could
be cached on the way differs from the table in the end. -/
theorem passes_coherent_iff {table : K → V} {tables : List (K → V)} {final : K → V} {c : Cache K V}
    (coherent : Coherent cachable c table) :
    (∀ d, Passes cachable (table :: tables) c d → Coherent cachable d final) ↔
      ∀ stage ∈ table :: tables, ∀ k, cachable (stage k) → final k = stage k := by
  constructor
  · intro always stage member k may
    obtain ⟨d, passes, filled⟩ := passes_fill member may c
    exact (always d passes k (stage k) filled).2
  · intro current d passes k v cached
    cases passes.origin cached with
    | inl before =>
      obtain ⟨may, same⟩ := coherent k v before
      refine ⟨may, ?_⟩
      rw [← same] at may ⊢
      exact current table List.mem_cons_self k may
    | inr filled =>
      obtain ⟨stage, member, may, same⟩ := filled
      refine ⟨may, ?_⟩
      rw [← same] at may ⊢
      exact current stage member k may

/-- If the states differ under one key only, and that key is invalidated in the end, the cache is
coherent. -/
theorem coherent_invalidate [DecidableEq K] {table : K → V} {tables : List (K → V)}
    {final : K → V} {c d : Cache K V} {k : K} (coherent : Coherent cachable c table)
    (passes : Passes cachable (table :: tables) c d)
    (others : ∀ stage ∈ table :: tables, ∀ k', k' ≠ k → final k' = stage k') :
    Coherent cachable (d.invalidate k) final := by
  intro k' v cached
  by_cases same : k' = k
  · subst same
    rw [invalidate, Function.update_self] at cached
    cases cached
  · rw [invalidate, Function.update_of_ne same] at cached
    cases passes.origin cached with
    | inl before =>
      obtain ⟨may, value⟩ := coherent k' v before
      exact ⟨may, (others table List.mem_cons_self k' same).trans value⟩
    | inr filled =>
      obtain ⟨stage, member, may, value⟩ := filled
      exact ⟨may, (others stage member k' same).trans value⟩

end Cache

end Symphony
