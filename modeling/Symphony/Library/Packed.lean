import Mathlib.Data.Finset.Card
import Mathlib.Data.Finset.Union
import Mathlib.Tactic.Common

/-!
# Taking the least members of a set

A first-fit allocator of single places takes the least free place again and again. `Packed`
relates the free places before and after so many of these steps. The relation composes, and it
determines what is left: the places with enough free places below them.
-/

namespace Symphony

/-- The set of numbers has at least so many members. -/
def AtLeast (count : Nat) (set : Nat → Prop) : Prop :=
  ∃ members : List Nat, members.Nodup ∧ count ≤ members.length ∧ ∀ p ∈ members, set p

/-- A larger set has as many members. -/
theorem AtLeast.mono {count fewer : Nat} {set larger : Nat → Prop} (many : AtLeast count set)
    (less : fewer ≤ count) (subset : ∀ p, set p → larger p) : AtLeast fewer larger := by
  obtain ⟨members, distinct, enough, inside⟩ := many
  exact ⟨members, distinct, Nat.le_trans less enough, fun p member => subset p (inside p member)⟩

/-- The members of a finite set. -/
theorem AtLeast.of_finset {set : Nat → Prop} (members : Finset Nat) (inside : ∀ p ∈ members, set p) :
    AtLeast members.card set :=
  ⟨members.toList, members.nodup_toList, Nat.le_of_eq members.length_toList.symm,
    fun p member => inside p (Finset.mem_toList.mp member)⟩

/-- A set with enough members has a finite part with as many. -/
theorem AtLeast.finset {count : Nat} {set : Nat → Prop} (many : AtLeast count set) :
    ∃ members : Finset Nat, count ≤ members.card ∧ ∀ p ∈ members, set p := by
  obtain ⟨members, distinct, enough, inside⟩ := many
  refine ⟨members.toFinset, ?_, fun p member => inside p (List.mem_toFinset.mp member)⟩
  rwa [List.toFinset_card_of_nodup distinct]

/-- A finite part of a set may be removed. -/
theorem AtLeast.remove {count : Nat} {set : Nat → Prop} (removed : Finset Nat)
    (many : AtLeast (removed.card + count) set) : AtLeast count fun p => set p ∧ p ∉ removed := by
  obtain ⟨members, enough, member⟩ := many.finset
  have kept : count ≤ (members \ removed).card := by
    have bound := Finset.le_card_sdiff removed members
    omega
  have isLeft : ∀ p ∈ members \ removed, set p ∧ p ∉ removed := by
    intro p both
    obtain ⟨inMembers, notRemoved⟩ := Finset.mem_sdiff.mp both
    exact ⟨member p inMembers, notRemoved⟩
  exact (AtLeast.of_finset _ isLeft).mono kept fun _ => id

/-- Between two sets the least members of the first were removed, as many as told. -/
def Packed (count : Nat) (before after : Nat → Prop) : Prop :=
  ∃ taken : Finset Nat, taken.card = count ∧ (∀ p ∈ taken, before p) ∧
    (∀ p, after p ↔ before p ∧ p ∉ taken) ∧ ∀ p ∈ taken, ∀ q, after q → p < q

namespace Packed

variable {count more : Nat} {before middle after : Nat → Prop}

/-- Nothing is removed. -/
theorem refl (set : Nat → Prop) : Packed 0 set set := by
  refine ⟨∅, Finset.card_empty, by simp, fun p => ?_, by simp⟩
  simp

/-- The least member is removed. -/
theorem one {least : Nat} (member : before least) (below : ∀ p, before p → least ≤ p)
    (rest : ∀ p, after p ↔ before p ∧ p ≠ least) : Packed 1 before after := by
  refine ⟨{least}, Finset.card_singleton least, ?_, fun p => ?_, ?_⟩
  · intro p inTaken
    rwa [Finset.mem_singleton.mp inTaken]
  · rw [rest, Finset.mem_singleton]
  · intro p inTaken q left
    rw [Finset.mem_singleton.mp inTaken]
    have different := ((rest q).mp left).2
    have lower := below q ((rest q).mp left).1
    omega

/-- The least members are removed in two steps. -/
theorem trans (first : Packed count before middle) (second : Packed more middle after) :
    Packed (count + more) before after := by
  obtain ⟨taken, card, inside, left, below⟩ := first
  obtain ⟨taken', card', inside', left', below'⟩ := second
  have apart : Disjoint taken taken' := by
    apply Finset.disjoint_left.mpr
    intro p old new
    exact ((left p).mp (inside' p new)).2 old
  refine ⟨taken ∪ taken', ?_, fun p member => ?_, fun p => ?_, fun p member q isAfter => ?_⟩
  · rw [Finset.card_union_of_disjoint apart, card, card']
  · cases Finset.mem_union.mp member with
    | inl old => exact inside p old
    | inr new => exact ((left p).mp (inside' p new)).1
  · rw [left', left, Finset.mem_union, not_or, and_assoc]
  · cases Finset.mem_union.mp member with
    | inl old => exact below p old q ((left' q).mp isAfter).1
    | inr new => exact below' p new q isAfter

/-- What is left was there before. -/
theorem subset (packed : Packed count before after) {p : Nat} (left : after p) : before p := by
  obtain ⟨taken, -, -, rest, -⟩ := packed
  exact ((rest p).mp left).1

/-- The removed members were there. -/
theorem enough (packed : Packed count before after) : AtLeast count before := by
  obtain ⟨taken, card, inside, -, -⟩ := packed
  rw [← card]
  exact AtLeast.of_finset taken inside

/-- What is left is what was there less the removed members. -/
theorem atLeast_iff (packed : Packed count before after) (rest : Nat) :
    AtLeast (count + rest) before ↔ AtLeast rest after := by
  obtain ⟨taken, card, inside, left, -⟩ := packed
  constructor
  · intro many
    rw [← card] at many
    exact (many.remove taken).mono le_rfl fun p => (left p).mpr
  · intro many
    obtain ⟨members, enough, member⟩ := many.finset
    have apart : Disjoint taken members := by
      apply Finset.disjoint_left.mpr
      intro p old new
      exact ((left p).mp (member p new)).2 old
    have union : ∀ p ∈ taken ∪ members, before p := by
      intro p either
      cases Finset.mem_union.mp either with
      | inl old => exact inside p old
      | inr new => exact ((left p).mp (member p new)).1
    apply (AtLeast.of_finset _ union).mono _ fun _ => id
    rw [Finset.card_union_of_disjoint apart]
    omega

/-- A member is left exactly if enough members are below it. -/
theorem after_iff (packed : Packed count before after) (q : Nat) :
    after q ↔ before q ∧ AtLeast count fun p => before p ∧ p < q := by
  obtain ⟨taken, card, inside, left, below⟩ := packed
  constructor
  · intro isAfter
    refine ⟨((left q).mp isAfter).1, ?_⟩
    rw [← card]
    exact AtLeast.of_finset taken fun p member => ⟨inside p member, below p member q isAfter⟩
  · rintro ⟨isBefore, many⟩
    refine (left q).mpr ⟨isBefore, fun removed => ?_⟩
    -- Everything below a removed member was removed with it.
    obtain ⟨members, enough, member⟩ := many.finset
    have part : members ⊆ taken.erase q := by
      intro p inMembers
      have here := member p inMembers
      rw [Finset.mem_erase]
      refine ⟨Nat.ne_of_lt here.2, ?_⟩
      by_contra notTaken
      have upper := below q removed p ((left p).mpr ⟨here.1, notTaken⟩)
      omega
    have bound := Finset.card_le_card part
    have smaller := Finset.card_erase_lt_of_mem removed
    omega

/-- A run of members is left exactly if enough members are below the run. -/
theorem run_iff (packed : Packed count before after) {first length : Nat} (positive : 0 < length) :
    (∀ p, first ≤ p → p < first + length → after p) ↔
      (∀ p, first ≤ p → p < first + length → before p) ∧
        AtLeast count fun p => before p ∧ p < first := by
  constructor
  · intro run
    refine ⟨fun p lower upper => packed.subset (run p lower upper), ?_⟩
    exact ((packed.after_iff first).mp (run first (Nat.le_refl first) (by omega))).2
  · rintro ⟨run, many⟩ p lower upper
    refine (packed.after_iff p).mpr ⟨run p lower upper, many.mono (Nat.le_refl count) ?_⟩
    rintro q ⟨isBefore, below⟩
    exact ⟨isBefore, by omega⟩

end Packed

end Symphony
