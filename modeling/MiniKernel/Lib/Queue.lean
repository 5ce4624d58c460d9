import Mathlib.Data.List.Basic

/-!
# Bounded queues

Values leave a queue in the order in which they were put in, and it never holds
more than its bound. A device is whatever is called like a queue; one that
refines the queue answers all calls as the queue does.
-/
namespace MiniKernel.Lib.Queue

variable {σ α : Type*}

/-- A call that may be refused: a push with its value, a pop with what the
caller's variable holds before. -/
inductive Call (α : Type*) where
  | push (value : α)
  | pop (out : α)

/-- What comes of a call; an empty queue leaves something in the variable too. -/
inductive Answer (α : Type*) where
  | pushed (value : α)
  | full
  | popped (value : α)
  | empty (out : α)
  deriving DecidableEq, Repr

/-- Both calls say whether they were accepted. -/
structure Device (σ α : Type*) where
  push : α → σ → Bool × σ
  pop : α → σ → Bool × α × σ

namespace Device

variable (d : Device σ α)

def call (s : σ) : Call α → Answer α × σ
  | .push value =>
    let r := d.push value s
    (if r.1 then .pushed value else .full, r.2)
  | .pop out =>
    let r := d.pop out s
    (if r.1 then .popped r.2.1 else .empty r.2.1, r.2.2)

/-- The state after the calls. -/
def after : σ → List (Call α) → σ
  | s, [] => s
  | s, c :: calls => after (d.call s c).2 calls

/-- The answers to the calls, in order. -/
def answers : σ → List (Call α) → List (Answer α)
  | _, [] => []
  | s, c :: calls => (d.call s c).1 :: answers (d.call s c).2 calls

end Device

/-- The values that were accepted. -/
def pushed : List (Answer α) → List α
  | [] => []
  | .pushed value :: as => value :: pushed as
  | _ :: as => pushed as

/-- The values that were handed out. -/
def popped : List (Answer α) → List α
  | [] => []
  | .popped value :: as => value :: popped as
  | _ :: as => popped as

/-- The queue itself: the values it holds, the oldest first. -/
def queue (bound : Nat) : Device (List α) α where
  push value q := if q.length < bound then (true, q ++ [value]) else (false, q)
  pop out q :=
    match q with
    | [] => (false, out, [])
    | value :: q => (true, value, q)

/-- Who holds the values `q` accepts a push below the bound and a pop of a held
value, and is the same after a refused call. -/
structure Serves (d : Device σ α) (bound : Nat) (s : σ) (q : List α) : Prop where
  bounded : q.length ≤ bound
  push : ∀ value, (d.push value s).1 = true ↔ q.length < bound
  pop : ∀ out, (d.pop out s).1 = true ↔ 1 ≤ q.length
  full : ∀ value, (d.push value s).1 = false → (d.push value s).2 = s
  empty : ∀ out, (d.pop out s).1 = false → (d.pop out s).2 = (out, s)

/-- A device whose state `s` stands for the values `q` where `R s q`. -/
structure Refines (d : Device σ α) (bound : Nat) (R : σ → List α → Prop) : Prop where
  bounded : ∀ {s q}, R s q → q.length ≤ bound
  push : ∀ {s q} value, R s q → q.length < bound →
    (d.push value s).1 = true ∧ R (d.push value s).2 (q ++ [value])
  full : ∀ {s q} value, R s q → q.length = bound → d.push value s = (false, s)
  pop : ∀ {s q} value out, R s (value :: q) →
    (d.pop out s).1 = true ∧ (d.pop out s).2.1 = value ∧ R (d.pop out s).2.2 q
  empty : ∀ {s} out, R s [] → d.pop out s = (false, out, s)

variable {d : Device σ α} {bound : Nat} {R : σ → List α → Prop} {s : σ} {q : List α}

theorem pushed_cons (a : Answer α) (as : List (Answer α)) :
    pushed (a :: as) = pushed [a] ++ pushed as := by
  cases a with
  | pushed value => rfl
  | full | popped | empty => rfl

theorem popped_cons (a : Answer α) (as : List (Answer α)) :
    popped (a :: as) = popped [a] ++ popped as := by
  cases a with
  | popped value => rfl
  | full | pushed | empty => rfl

/-- One call answers as the queue does, and the states still stand for each other. -/
theorem Refines.call (refines : Refines d bound R) (holds : R s q) (c : Call α) :
    (d.call s c).1 = ((queue bound).call q c).1 ∧
      R (d.call s c).2 ((queue bound).call q c).2 := by
  cases c with
  | push value =>
    by_cases room : q.length < bound
    · obtain ⟨accepted, next⟩ := refines.push value holds room
      simp only [Device.call, queue, if_pos room, accepted]
      exact ⟨trivial, next⟩
    · have refused := refines.full value holds (by have := refines.bounded holds; omega)
      simp only [Device.call, queue, if_neg room, refused]
      exact ⟨trivial, holds⟩
  | pop out =>
    cases q with
    | nil =>
      have refused := refines.empty out holds
      simp only [Device.call, queue, refused]
      exact ⟨rfl, holds⟩
    | cons value q =>
      obtain ⟨accepted, first, next⟩ := refines.pop value out holds
      simp only [Device.call, queue, accepted, first]
      exact ⟨trivial, next⟩

/-- The same over all calls. -/
theorem Refines.calls (refines : Refines d bound R) (holds : R s q) (calls : List (Call α)) :
    d.answers s calls = (queue bound).answers q calls ∧
      R (d.after s calls) ((queue bound).after q calls) := by
  induction calls generalizing s q with
  | nil => exact ⟨rfl, holds⟩
  | cons c calls ih =>
    obtain ⟨answer, next⟩ := refines.call holds c
    obtain ⟨answers, last⟩ := ih next
    refine ⟨?_, last⟩
    rw [Device.answers, Device.answers, answer, answers]

theorem Refines.serves (refines : Refines d bound R) (holds : R s q) : Serves d bound s q := by
  have few := refines.bounded holds
  constructor
  · exact few
  · intro value
    by_cases room : q.length < bound
    · exact iff_of_true (refines.push value holds room).1 room
    · rw [refines.full value holds (by omega)]
      exact iff_of_false Bool.false_ne_true room
  · intro out
    cases q with
    | nil =>
      rw [refines.empty out holds]
      exact iff_of_false Bool.false_ne_true (by simp)
    | cons value q => exact iff_of_true (refines.pop value out holds).1 (by simp)
  · intro value refused
    by_cases room : q.length < bound
    · rw [(refines.push value holds room).1] at refused
      cases refused
    · rw [refines.full value holds (by omega)]
  · intro out refused
    cases q with
    | nil => rw [refines.empty out holds]
    | cons value q =>
      rw [(refines.pop value out holds).1] at refused
      cases refused

/-- What one call takes in and hands out, beside what is held before and after it. -/
theorem queue_call (q : List α) (c : Call α) :
    q ++ pushed [((queue bound).call q c).1] =
      popped [((queue bound).call q c).1] ++ ((queue bound).call q c).2 := by
  cases c with
  | push value =>
    by_cases room : q.length < bound
    · simp only [Device.call, queue, if_pos room]
      rfl
    · simp only [Device.call, queue, if_neg room]
      exact List.append_nil q
  | pop out =>
    cases q with
    | nil => rfl
    | cons value q => exact List.append_nil _

/-- First in, first out: what is held in the end follows what was handed out. -/
theorem queue_calls (bound : Nat) (q : List α) (calls : List (Call α)) :
    q ++ pushed ((queue bound).answers q calls) =
      popped ((queue bound).answers q calls) ++ (queue bound).after q calls := by
  induction calls generalizing q with
  | nil => exact List.append_nil q
  | cons c calls ih =>
    rw [Device.answers, pushed_cons, popped_cons, ← List.append_assoc, queue_call,
      List.append_assoc, ih, List.append_assoc]
    rfl

/-- From the empty queue on. -/
theorem Refines.fifo (refines : Refines d bound R) (holds : R s []) (calls : List (Call α)) :
    d.answers s calls = (queue bound).answers [] calls ∧
      ∃ stored, pushed (d.answers s calls) = popped (d.answers s calls) ++ stored ∧
        Serves d bound (d.after s calls) stored := by
  obtain ⟨answers, last⟩ := refines.calls holds calls
  have order := queue_calls bound [] calls
  rw [List.nil_append] at order
  refine ⟨answers, (queue bound).after [] calls, ?_, refines.serves last⟩
  rw [answers]
  exact order

end MiniKernel.Lib.Queue
