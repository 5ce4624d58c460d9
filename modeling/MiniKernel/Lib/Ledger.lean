import Mathlib.Data.List.Basic

/-!
# Who owns what is in use

Things come out of a pool and go back to it. Some of those in use were so from the start,
some have an owner, and of the others there is a list; nothing is on it twice, and nothing on
it has an owner.
-/
namespace MiniKernel.Lib.Ledger

variable {α : Type*} {start used used₁ used₂ owned owned₁ owned₂ : α → Prop}
  {listed more more₁ more₂ : List α}

structure Balanced (start used owned : α → Prop) (listed : List α) : Prop where
  all : ∀ f, used f ↔ start f ∨ owned f ∨ f ∈ listed
  once : listed.Nodup
  apart : ∀ f ∈ listed, ¬ start f ∧ ¬ owned f

/-- What is taken out of the pool has an owner or is put on the list, as is what loses its
owner; only what has an owner is given back. -/
structure Step (start used owned used₁ owned₁ : α → Prop) (more : List α) : Prop where
  took : ∀ f, used₁ f → used f ∨ owned₁ f ∨ f ∈ more
  gave : ∀ f, used f → ¬ used₁ f → owned f ∧ ¬ start f
  kept : ∀ f, owned f → used₁ f → owned₁ f ∨ f ∈ more
  origin : ∀ f, owned₁ f → used₁ f ∧ (owned f ∨ ¬ used f)
  listed : ∀ f ∈ more, used₁ f ∧ ¬ start f ∧ ¬ owned₁ f ∧ (owned f ∨ ¬ used f)
  once : more.Nodup

theorem Step.refl (taken : ∀ f, owned f → used f) : Step start used owned used owned [] where
  took := fun _ h => Or.inl h
  gave := fun _ h none => absurd h none
  kept := fun _ h _ => Or.inl h
  origin := fun f h => ⟨taken f h, Or.inl h⟩
  listed := fun _ h => by cases h
  once := List.nodup_nil

theorem Step.trans (first : Step start used owned used₁ owned₁ more₁)
    (second : Step start used₁ owned₁ used₂ owned₂ more₂) :
    Step start used owned used₂ owned₂ (more₁ ++ more₂) where
  took := fun f h => by
    rcases second.took f h with h | h | h
    · rcases first.took f h with h' | h' | h'
      · exact Or.inl h'
      · exact Or.inr ((second.kept f h' ‹_›).imp id fun h => List.mem_append_right _ h)
      · exact Or.inr (Or.inr (List.mem_append_left _ h'))
    · exact Or.inr (Or.inl h)
    · exact Or.inr (Or.inr (List.mem_append_right _ h))
  gave := fun f h none => by
    by_cases between : used₁ f
    · obtain ⟨mine, notStart⟩ := second.gave f between none
      exact ⟨(first.origin f mine).2.resolve_right fun no => no h, notStart⟩
    · exact first.gave f h between
  kept := fun f h after => by
    by_cases between : used₁ f
    · rcases first.kept f h between with h | h
      · exact (second.kept f h after).imp id fun h => List.mem_append_right _ h
      · exact Or.inr (List.mem_append_left _ h)
    · rcases second.took f after with h | h | h
      · exact absurd h between
      · exact Or.inl h
      · exact Or.inr (List.mem_append_right _ h)
  origin := fun f h => by
    obtain ⟨after, from_⟩ := second.origin f h
    refine ⟨after, ?_⟩
    rcases from_ with h | none
    · exact (first.origin f h).2
    · by_cases before : used f
      · exact Or.inl (first.gave f before none).1
      · exact Or.inr before
  listed := fun f h => by
    rcases List.mem_append.mp h with h | h
    · obtain ⟨between, notStart, notOwned, from_⟩ := first.listed f h
      refine ⟨?_, notStart, fun h => ?_, from_⟩
      · by_contra none
        exact notOwned (second.gave f between none).1
      · rcases (second.origin f h).2 with h | none
        · exact notOwned h
        · exact none between
    · obtain ⟨after, notStart, notOwned, from_⟩ := second.listed f h
      refine ⟨after, notStart, notOwned, ?_⟩
      rcases from_ with h | none
      · exact (first.origin f h).2
      · by_cases before : used f
        · exact Or.inl (first.gave f before none).1
        · exact Or.inr before
  once := by
    refine List.nodup_append.mpr ⟨first.once, second.once, ?_⟩
    rintro f h g h' rfl
    obtain ⟨between, -, notOwned, -⟩ := first.listed f h
    rcases (second.listed f h').2.2.2 with h | none
    · exact notOwned h
    · exact none between

theorem Balanced.step (balanced : Balanced start used owned listed)
    (step : Step start used owned used₁ owned₁ more) :
    Balanced start used₁ owned₁ (more ++ listed) where
  all := fun f => by
    have stays (h : used f) (notOwned : start f ∨ ¬ owned f) : used₁ f := by
      by_contra none
      obtain ⟨mine, notStart⟩ := step.gave f h none
      exact notOwned.elim notStart fun no => no mine
    constructor
    · intro h
      rcases step.took f h with before | h | h
      · rcases (balanced.all f).mp before with old | mine | on
        · exact Or.inl old
        · exact Or.inr ((step.kept f mine h).imp id fun h => List.mem_append_left _ h)
        · exact Or.inr (Or.inr (List.mem_append_right _ on))
      · exact Or.inr (Or.inl h)
      · exact Or.inr (Or.inr (List.mem_append_left _ h))
    · rintro (old | mine | on)
      · exact stays ((balanced.all f).mpr (Or.inl old)) (Or.inl old)
      · exact (step.origin f mine).1
      · rcases List.mem_append.mp on with h | h
        · exact (step.listed f h).1
        · exact stays ((balanced.all f).mpr (Or.inr (Or.inr h))) (Or.inr (balanced.apart f h).2)
  once := by
    refine List.nodup_append.mpr ⟨step.once, balanced.once, ?_⟩
    rintro f h g on rfl
    rcases (step.listed f h).2.2.2 with mine | none
    · exact (balanced.apart f on).2 mine
    · exact none ((balanced.all f).mpr (Or.inr (Or.inr on)))
  apart := fun f h => by
    rcases List.mem_append.mp h with h | h
    · exact ⟨(step.listed f h).2.1, (step.listed f h).2.2.1⟩
    · refine ⟨(balanced.apart f h).1, fun mine => ?_⟩
      rcases (step.origin f mine).2 with mine | none
      · exact (balanced.apart f h).2 mine
      · exact none ((balanced.all f).mpr (Or.inr (Or.inr h)))

end MiniKernel.Lib.Ledger
