import Mathlib.Tactic

/-!
# Linked lists in a memory

`Node m x next` says that memory `m` holds the node `x`, linked to the address
`next`; `addr x` is the node's address, and no node has address 0. `Segment` is a
piece of such a list, a whole list is a segment that ends at 0.
-/
namespace MiniKernel.Lib

variable {M α : Type*} (addr : α → Nat) (Node : M → α → Nat → Prop)

def Segment (m : M) : Nat → List α → Nat → Prop
  | a, [], z => a = z
  | a, x :: xs, z => a = addr x ∧ a ≠ 0 ∧ ∃ next, Node m x next ∧ Segment m next xs z

variable {addr Node}

theorem segment_append {m : M} {a z : Nat} {xs ys : List α} :
    Segment addr Node m a (xs ++ ys) z ↔
      ∃ y, Segment addr Node m a xs y ∧ Segment addr Node m y ys z := by
  induction xs generalizing a with
  | nil => simp [Segment]
  | cons x xs ih =>
    simp only [List.cons_append, Segment, ih]
    constructor
    · rintro ⟨at_x, nonzero, next, node, y, left, right⟩
      exact ⟨y, ⟨at_x, nonzero, next, node, left⟩, right⟩
    · rintro ⟨y, ⟨at_x, nonzero, next, node, left⟩, right⟩
      exact ⟨at_x, nonzero, next, node, y, left, right⟩

/-- A segment whose nodes are as before. -/
theorem segment_congr {m m' : M} {a z : Nat} {xs : List α}
    (same : ∀ x ∈ xs, ∀ next, Node m x next → Node m' x next)
    (segment : Segment addr Node m a xs z) : Segment addr Node m' a xs z := by
  induction xs generalizing a with
  | nil => exact segment
  | cons x xs ih =>
    obtain ⟨at_x, nonzero, next, node, rest⟩ := segment
    exact ⟨at_x, nonzero, next, same x List.mem_cons_self next node,
      ih (fun y hy => same y (List.mem_cons_of_mem x hy)) rest⟩

/-- A memory holds one list from an address on, where it holds one node at an address. -/
theorem segment_unique {m : M} {a : Nat} {xs ys : List α}
    (single : ∀ x y z w, Node m x z → Node m y w → addr x = addr y → x = y ∧ z = w)
    (first : Segment addr Node m a xs 0) (second : Segment addr Node m a ys 0) : xs = ys := by
  induction xs generalizing a ys with
  | nil =>
    cases ys with
    | nil => rfl
    | cons y ys => exact absurd first second.2.1
  | cons x xs ih =>
    obtain ⟨at_x, nonzero, next, node, rest⟩ := first
    cases ys with
    | nil => exact absurd second nonzero
    | cons y ys =>
      obtain ⟨at_y, _, next', node', rest'⟩ := second
      obtain ⟨rfl, rfl⟩ := single x y next next' node node' (at_x.symm.trans at_y)
      rw [ih rest rest']

/-- The walk `for (a = head; a != 0; a = a->next) if (wanted(a)) break;`, with
`fuel` steps: the node found, 0 at the end of the list. -/
def findNode (next : Nat → Nat) (wanted : Nat → Bool) : Nat → Nat → Option Nat
  | 0, _ => none
  | fuel + 1, a =>
    if a = 0 then some 0
    else if wanted a then some a
    else findNode next wanted fuel (next a)

theorem findNode_spec {m : M} {next : Nat → Nat} {holds : α → Bool}
    (links : ∀ x z, Node m x z → next (addr x) = z) {fuel a : Nat} {xs : List α}
    (wanted : Nat → Bool)
    (tests : ∀ x ∈ xs, ∀ z, Node m x z → wanted (addr x) = holds x)
    (segment : Segment addr Node m a xs 0) (enough : xs.length < fuel) :
    findNode next wanted fuel a = some ((xs.find? holds).elim 0 addr) := by
  induction xs generalizing a fuel with
  | nil =>
    obtain ⟨fuel, rfl⟩ := Nat.exists_eq_succ_of_ne_zero (Nat.ne_of_gt enough)
    obtain rfl : a = 0 := segment
    rfl
  | cons x xs ih =>
    obtain ⟨fuel, rfl⟩ := Nat.exists_eq_succ_of_ne_zero (Nat.ne_of_gt (Nat.zero_lt_of_lt enough))
    obtain ⟨rfl, nonzero, z, node, rest⟩ := segment
    rw [findNode, if_neg nonzero, tests x List.mem_cons_self z node, links x z node, List.find?_cons]
    cases holds x with
    | true => simp
    | false =>
      rw [List.length_cons] at enough
      exact ih (fun y hy => tests y (List.mem_cons_of_mem x hy)) rest (by omega)

end MiniKernel.Lib
