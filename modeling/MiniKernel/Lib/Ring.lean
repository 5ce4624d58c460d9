import Mathlib.Tactic

/-!
# A ring of cells

A stretch of a ring starts at a cell and runs forward, past the last cell to the
first. `window` reads it, `store` writes it, both one cell at a time as a copy
loop does.
-/
namespace MiniKernel.Lib.Ring

variable {α : Type*} {size : Nat} [NeZero size]

/-- The cell `n` steps on. -/
def forward (pos : Fin size) : Nat → Fin size
  | 0 => pos
  | n + 1 => forward (pos + 1) n

/-- The `n` cells from `pos` on. -/
def window (cells : Fin size → α) (pos : Fin size) : Nat → List α
  | 0 => []
  | n + 1 => cells pos :: window cells (pos + 1) n

/-- Put the values into the cells from `pos` on. -/
def store (cells : Fin size → α) (pos : Fin size) : List α → Fin size → α
  | [] => cells
  | x :: xs => store (Function.update cells pos x) (pos + 1) xs

theorem forward_add (pos : Fin size) (m n : Nat) :
    forward pos (m + n) = forward (forward pos m) n := by
  induction m generalizing pos with
  | zero => rw [Nat.zero_add, forward]
  | succ m ih => rw [Nat.succ_add, forward, ih, forward]

theorem forward_succ (pos : Fin size) (n : Nat) : forward pos (n + 1) = forward pos n + 1 :=
  forward_add pos n 1

theorem forward_val (pos : Fin size) (n : Nat) : (forward pos n).val = (pos.val + n) % size := by
  induction n with
  | zero => rw [forward, Nat.add_zero, Nat.mod_eq_of_lt pos.isLt]
  | succ n ih =>
    rw [forward_succ, Fin.val_add, ih, Fin.val_one', Nat.add_mod_mod, Nat.mod_add_mod, Nat.add_assoc]

/-- A whole turn ends where it started. -/
theorem forward_size (pos : Fin size) : forward pos size = pos := by
  apply Fin.ext
  rw [forward_val, Nat.add_mod_right, Nat.mod_eq_of_lt pos.isLt]

/-- Less than a turn apart, two cells differ. -/
theorem forward_ne (pos : Fin size) {m n : Nat} (before : m < n) (turn : n < m + size) :
    forward pos m ≠ forward pos n := by
  intro same
  have cells : (pos.val + m) % size = (pos.val + n) % size := by
    rw [← forward_val, ← forward_val, same]
  have whole : size ∣ n - m := by
    have difference := (Nat.modEq_iff_dvd' (by omega)).mp cells
    rwa [Nat.add_sub_add_left] at difference
  have := Nat.le_of_dvd (by omega) whole
  omega

@[simp] theorem length_window (cells : Fin size → α) (pos : Fin size) (n : Nat) :
    (window cells pos n).length = n := by
  induction n generalizing pos with
  | zero => rfl
  | succ n ih => rw [window, List.length_cons, ih]

theorem window_append (cells : Fin size → α) (pos : Fin size) (m n : Nat) :
    window cells pos (m + n) = window cells pos m ++ window cells (forward pos m) n := by
  induction m generalizing pos with
  | zero => rw [Nat.zero_add, window, forward, List.nil_append]
  | succ m ih => rw [Nat.succ_add, window, ih, window, forward, List.cons_append]

/-- A cell that the window does not reach. -/
theorem window_update (cells : Fin size → α) (pos : Fin size) (n : Nat) (x : α)
    (fits : n < size) :
    window (Function.update cells (forward pos n) x) pos n = window cells pos n := by
  suffices outside : ∀ k m, k + m = n →
      window (Function.update cells (forward pos n) x) (forward pos k) m =
        window cells (forward pos k) m from outside 0 n (Nat.zero_add n)
  intro k m
  induction m generalizing k with
  | zero => intro _; rfl
  | succ m ih =>
    intro sum
    have next := ih (k + 1) (by omega)
    rw [forward_succ] at next
    rw [window, window, next, Function.update_of_ne (forward_ne pos (by omega) (by omega))]

/-- What is stored behind a window extends it. -/
theorem window_store (cells : Fin size → α) (pos : Fin size) (n : Nat) (xs : List α)
    (fits : n + xs.length ≤ size) :
    window (store cells (forward pos n) xs) pos (n + xs.length) = window cells pos n ++ xs := by
  induction xs generalizing cells n with
  | nil => rw [store, List.length_nil, Nat.add_zero, List.append_nil]
  | cons x xs ih =>
    rw [List.length_cons] at fits
    have rest := ih (Function.update cells (forward pos n) x) (n + 1) (by omega)
    have first : window (Function.update cells (forward pos n) x) pos (n + 1) =
        window cells pos n ++ [x] := by
      rw [window_append, window_update cells pos n x (by omega)]
      simp [window]
    rw [store, ← forward_succ, List.length_cons, Nat.add_comm xs.length 1, ← Nat.add_assoc, rest,
      first, List.append_assoc, List.singleton_append]

end MiniKernel.Lib.Ring
