import Mathlib.Tactic

/-!
# Write logs

A store is a function from addresses to values, a log a list of writes in their
order. What a power loss leaves behind is a prefix of the log on the old store.
-/
namespace MiniKernel.Lib.WriteLog

variable {α β : Type*} [DecidableEq α]

/-- The store after the writes of a log. -/
def replay (store : α → β) (log : List (α × β)) : α → β :=
  log.foldl (fun store w => Function.update store w.1 w.2) store

@[simp] theorem replay_nil (store : α → β) : replay store [] = store := rfl

theorem replay_cons (store : α → β) (w : α × β) (log : List (α × β)) :
    replay store (w :: log) = replay (Function.update store w.1 w.2) log := rfl

theorem replay_append (store : α → β) (first second : List (α × β)) :
    replay store (first ++ second) = replay (replay store first) second := by
  simp [replay, List.foldl_append]

theorem replay_concat (store : α → β) (log : List (α × β)) (w : α × β) :
    replay store (log ++ [w]) = Function.update (replay store log) w.1 w.2 := by
  simp [replay, List.foldl_append]

/-- An address no write goes to keeps its value. -/
theorem replay_other (store : α → β) (log : List (α × β)) (a : α) (h : ∀ w ∈ log, w.1 ≠ a) :
    replay store log a = store a := by
  induction log generalizing store with
  | nil => rfl
  | cons w log ih =>
    rw [replay_cons, ih _ (fun v hv => h v (List.mem_cons_of_mem w hv))]
    exact Function.update_of_ne (h w List.mem_cons_self).symm ..

/-- A cut of two logs falls into the first, or into the second. -/
theorem replay_take_append (store : α → β) (first second : List (α × β)) (j : Nat) :
    replay store ((first ++ second).take j) =
      if j ≤ first.length then replay store (first.take j)
      else replay (replay store first) (second.take (j - first.length)) := by
  split
  · next early => rw [List.take_append_of_le_length early]
  · next late =>
    rw [List.take_append, replay_append, List.take_of_length_le (by omega)]

end MiniKernel.Lib.WriteLog
