import Mathlib.Data.List.Basic
import Mathlib.Tactic.Common

/-!
# Sparse tables

A table has slots below a bound, and some of them are used. Two ways to reach the
used slot with a given number: a scan that counts, and stepping from one used slot
to the next.
-/
namespace MiniKernel.Lib

/-- The used slots among those at `i` and behind, in their order. -/
def slotsFrom (used : Nat → Bool) (bound i : Nat) : List Nat :=
  (List.range' i (bound - i)).filter used

def slots (used : Nat → Bool) (bound : Nat) : List Nat := slotsFrom used bound 0

/-- The first used slot at `i` or behind. -/
def firstSlot (used : Nat → Bool) (bound i : Nat) : Option Nat :=
  (List.range' i (bound - i)).find? used

/-- The entry with number `index`, where `seen` used ones have been passed. -/
def countedSlot (used : Nat → Bool) (index : Nat) : List Nat → Nat → Option Nat
  | [], _ => none
  | i :: rest, seen =>
    if ¬ used i then countedSlot used index rest seen
    else if seen = index then some i
    else countedSlot used index rest (seen + 1)

/-- `steps` times the next used slot. -/
def steppedSlot (used : Nat → Bool) (bound : Nat) : Nat → Option Nat → Option Nat
  | steps + 1, some i => steppedSlot used bound steps (firstSlot used bound (i + 1))
  | _, at? => at?

section Slots
variable {used : Nat → Bool} {bound : Nat}

theorem slotsFrom_end {i : Nat} (past : bound ≤ i) : slotsFrom used bound i = [] := by
  rw [slotsFrom, Nat.sub_eq_zero_of_le past]
  rfl

theorem slotsFrom_step {i : Nat} (inside : i < bound) :
    slotsFrom used bound i =
      if used i then i :: slotsFrom used bound (i + 1) else slotsFrom used bound (i + 1) := by
  have split : bound - i = (bound - (i + 1)) + 1 := by omega
  rw [slotsFrom, split, List.range'_succ, List.filter_cons]
  rfl

theorem mem_slotsFrom {i k : Nat} :
    k ∈ slotsFrom used bound i ↔ i ≤ k ∧ k < bound ∧ used k = true := by
  rw [slotsFrom, List.mem_filter, List.mem_range'_1]
  constructor
  · intro ⟨⟨low, high⟩, isUsed⟩
    exact ⟨low, by omega, isUsed⟩
  · intro ⟨low, high, isUsed⟩
    exact ⟨⟨low, by omega⟩, isUsed⟩

theorem firstSlot_eq (i : Nat) : firstSlot used bound i = (slotsFrom used bound i).head? := by
  rw [slotsFrom, List.head?_filter]
  rfl

/-- Behind the first used slot come the others. -/
theorem slotsFrom_tail {i k : Nat} {rest : List Nat}
    (listed : slotsFrom used bound i = k :: rest) : rest = slotsFrom used bound (k + 1) := by
  obtain ⟨left, away⟩ : ∃ left, bound - i = left := ⟨_, rfl⟩
  induction left generalizing i with
  | zero =>
    rw [slotsFrom_end (by omega)] at listed
    exact absurd listed nofun
  | succ left ih =>
    rw [slotsFrom_step (by omega)] at listed
    split at listed
    · obtain ⟨rfl, same⟩ := List.cons.inj listed
      exact same.symm
    · exact ih listed (by omega)

/-- Stepping from the first used slot visits them all, in order. -/
theorem steppedSlot_eq (steps i : Nat) :
    steppedSlot used bound steps (firstSlot used bound i) = (slotsFrom used bound i)[steps]? := by
  induction steps generalizing i with
  | zero =>
    rw [firstSlot_eq, List.head?_eq_getElem?]
    cases (slotsFrom used bound i)[0]? <;> rfl
  | succ steps ih =>
    rw [firstSlot_eq]
    cases listed : slotsFrom used bound i with
    | nil => rfl
    | cons k rest =>
      rw [List.head?_cons, steppedSlot, ih, List.getElem?_cons_succ, slotsFrom_tail listed]

theorem countedSlot_eq {index seen : Nat} (rest : List Nat) (ahead : seen ≤ index) :
    countedSlot used index rest seen = (rest.filter used)[index - seen]? := by
  induction rest generalizing seen with
  | nil => rfl
  | cons i rest ih =>
    rw [countedSlot, List.filter_cons]
    cases isUsed : used i with
    | false => exact ih ahead
    | true =>
      simp only [not_true_eq_false, if_false, if_true]
      split
      · next here => rw [here, Nat.sub_self, List.getElem?_cons_zero]
      · next later =>
        have gap : index - seen = (index - (seen + 1)) + 1 := by omega
        rw [ih (by omega), gap, List.getElem?_cons_succ]

theorem slots_eq : slots used bound = (List.range bound).filter used := by
  rw [slots, slotsFrom, Nat.sub_zero, List.range_eq_range']

theorem countedSlot_slots (index : Nat) :
    countedSlot used index (List.range bound) 0 = (slots used bound)[index]? := by
  rw [countedSlot_eq _ (Nat.zero_le _), slots_eq, Nat.sub_zero]

theorem slots_nodup : (slots used bound).Nodup :=
  (List.nodup_range' ..).filter _

end Slots
end MiniKernel.Lib
