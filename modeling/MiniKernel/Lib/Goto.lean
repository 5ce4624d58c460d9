import Mathlib.Tactic

/-!
# Programs of numbered commands

A program is a list of commands. A command changes the state or fails, and says
where control goes; behind the last command the program is done. An assertion at
each line that every command carries to where it leads holds throughout; with a
measure that every command lowers, the program comes to an end.
-/
namespace MiniKernel.Lib.Goto

/-- Where control goes from a command. -/
inductive Flow where
  | next
  | jump (line : Nat)
  | stop
  deriving DecidableEq, Repr

inductive Config (φ σ : Type*) where
  /-- Before the command of the line. -/
  | before (line : Nat) (s : σ)
  | done (s : σ)
  | failed (why : φ) (s : σ)
  deriving DecidableEq, Repr

variable {κ σ φ : Type*}

def Flow.config (flow : Flow) (line : Nat) (s : σ) : Config φ σ :=
  match flow with
  | .next => .before (line + 1) s
  | .jump target => .before target s
  | .stop => .done s

def step (exec : κ → σ → Except φ (Flow × σ)) (p : List κ) : Config φ σ → Config φ σ
  | .before line s =>
    match p[line]? with
    | none => .done s
    | some c =>
      match exec c s with
      | .error why => .failed why s
      | .ok (flow, t) => flow.config line t
  | .done s => .done s
  | .failed why s => .failed why s

def after (exec : κ → σ → Except φ (Flow × σ)) (p : List κ) : Nat → Config φ σ → Config φ σ
  | 0, c => c
  | n + 1, c => after exec p n (step exec p c)

/-- The command comes to an end, and then `post` holds where it leads. -/
def Wp (exec : κ → σ → Except φ (Flow × σ)) (c : κ) (post : Flow → σ → Prop) (s : σ) : Prop :=
  ∃ flow t, exec c s = .ok (flow, t) ∧ post flow t

/-- The assertion at the line that control goes to, or `Q` at the end. -/
def Arrives (A : Nat → σ → Prop) (Q : σ → Prop) (line : Nat) (flow : Flow) (t : σ) : Prop :=
  match flow with
  | .next => A (line + 1) t
  | .jump target => A target t
  | .stop => Q t

/-- No command fails, and each one carries the assertion of its line to where it leads. -/
structure Annotated (exec : κ → σ → Except φ (Flow × σ)) (p : List κ) (A : Nat → σ → Prop)
    (Q : σ → Prop) : Prop where
  command : ∀ line c s, p[line]? = some c → A line s → Wp exec c (Arrives A Q line) s
  leaves : ∀ line s, p[line]? = none → A line s → Q s

/-- Where control stays in the program, the measure has become less. -/
def Lower (m : Nat → σ → Nat) (line : Nat) (bound : Nat) (flow : Flow) (t : σ) : Prop :=
  match flow with
  | .next => m (line + 1) t < bound
  | .jump target => m target t < bound
  | .stop => True

/-- Every command lowers the measure. -/
def Decreasing (exec : κ → σ → Except φ (Flow × σ)) (p : List κ) (A : Nat → σ → Prop)
    (m : Nat → σ → Nat) : Prop :=
  ∀ line c s flow t, p[line]? = some c → A line s → exec c s = .ok (flow, t) →
    Lower m line (m line s) flow t

/-- What an annotation says of a state of the program. -/
def Holds (A : Nat → σ → Prop) (Q : σ → Prop) : Config φ σ → Prop
  | .before line s => A line s
  | .done s => Q s
  | .failed _ _ => False

/-! ## Steps -/

variable {exec : κ → σ → Except φ (Flow × σ)} {p : List κ} {line : Nat} {s t : σ}

theorem step_outside (outside : p[line]? = none) : step exec p (.before line s) = .done s := by
  rw [step, outside]

theorem step_command {c : κ} (here : p[line]? = some c) :
    step exec p (.before line s) = match exec c s with
      | .error why => .failed why s
      | .ok (flow, t) => flow.config line t := by
  rw [step, here]

theorem after_succ (n : Nat) (c : Config φ σ) :
    after exec p (n + 1) c = step exec p (after exec p n c) := by
  induction n generalizing c with
  | zero => rfl
  | succ n ih =>
    rw [after, ih]
    rfl

theorem after_add (n k : Nat) (c : Config φ σ) :
    after exec p (n + k) c = after exec p k (after exec p n c) := by
  induction n generalizing c with
  | zero => rw [Nat.zero_add, after]
  | succ n ih =>
    rw [Nat.succ_add, after, after]
    exact ih _

/-- An end is the end. -/
theorem after_ended {c : Config φ σ} (ended : step exec p c = c) (n : Nat) :
    after exec p n c = c := by
  induction n with
  | zero => rfl
  | succ n ih => rw [after, ended, ih]

theorem after_done (n : Nat) (s : σ) : after exec p n (.done s) = .done s := after_ended rfl n

theorem after_failed (n : Nat) (why : φ) (s : σ) :
    after exec p n (.failed why s) = .failed why s := after_ended rfl n

/-- Before any step to a state of the run, control is at a line, or the state was
already reached. -/
theorem after_at_or_ended (n : Nat) (c : Config φ σ) :
    (∃ line s, after exec p n c = .before line s) ∨
      after exec p (n + 1) c = after exec p n c := by
  rw [after_succ]
  cases after exec p n c with
  | before line s => exact Or.inl ⟨line, s, rfl⟩
  | done s => exact Or.inr rfl
  | failed why s => exact Or.inr rfl

/-- A run that has come to an end did so in a step from one of its lines. -/
theorem after_last {n : Nat} (ended : ∀ line' u, after exec p n (.before line s) ≠ .before line' u) :
    ∃ k < n, ∃ line' u, after exec p k (.before line s) = .before line' u ∧
      after exec p (k + 1) (.before line s) = after exec p n (.before line s) := by
  induction n with
  | zero => exact absurd rfl (ended line s)
  | succ n ih =>
    rcases after_at_or_ended n (.before line s : Config φ σ) with ⟨line', u, here⟩ | same
    · exact ⟨n, Nat.lt_succ_self n, line', u, here, rfl⟩
    · rw [same] at ended ⊢
      obtain ⟨k, less, at_⟩ := ih ended
      exact ⟨k, Nat.lt_succ_of_lt less, at_⟩

/-! ## Rules -/

variable {post post' : Flow → σ → Prop} {A : Nat → σ → Prop} {Q : σ → Prop} {m : Nat → σ → Nat}

/-- Consequence. -/
theorem Wp.mono {c : κ} (wp : Wp exec c post s) (weaker : ∀ flow t, post flow t → post' flow t) :
    Wp exec c post' s := by
  obtain ⟨flow, t, runs, holds⟩ := wp
  exact ⟨flow, t, runs, weaker flow t holds⟩

theorem wp_ok {c : κ} {flow : Flow} (runs : exec c s = .ok (flow, t)) :
    Wp exec c post s ↔ post flow t := by
  constructor
  · intro wp
    obtain ⟨flow', t', runs', holds⟩ := wp
    rw [runs] at runs'
    obtain ⟨rfl, rfl⟩ := Prod.mk.inj (Except.ok.inj runs')
    exact holds
  · intro holds
    exact ⟨flow, t, runs, holds⟩

theorem holds_step (annotated : Annotated exec p A Q) {c : Config φ σ} (holds : Holds A Q c) :
    Holds A Q (step exec p c) := by
  cases c with
  | before line s =>
    cases here : p[line]? with
    | none =>
      rw [step_outside here]
      exact annotated.leaves line s here holds
    | some c =>
      obtain ⟨flow, t, runs, arrives⟩ := annotated.command line c s here holds
      rw [step_command here, runs]
      cases flow with
      | next => exact arrives
      | jump target => exact arrives
      | stop => exact arrives
  | done s => exact holds
  | failed why s => exact holds

/-- The assertions hold throughout. -/
theorem Annotated.after (annotated : Annotated exec p A Q) (n : Nat) {c : Config φ σ}
    (start : Holds A Q c) : Holds A Q (after exec p n c) := by
  induction n with
  | zero => exact start
  | succ n ih =>
    rw [after_succ]
    exact holds_step annotated ih

/-- By induction on the measure: the program comes to its end, after no more steps
than the measure and one. -/
theorem Annotated.ends (annotated : Annotated exec p A Q)
    (decreasing : Decreasing exec p A m) (start : A line s) :
    ∃ n t, n ≤ m line s + 1 ∧ Goto.after exec p n (.before line s) = .done t ∧ Q t := by
  induction bound : m line s using Nat.strongRecOn generalizing line s with
  | ind k ih =>
    cases here : p[line]? with
    | none => exact ⟨1, s, Nat.le_add_left 1 k, step_outside here, annotated.leaves line s here start⟩
    | some c =>
      obtain ⟨flow, t, runs, arrives⟩ := annotated.command line c s here start
      have lower := decreasing line c s flow t here start runs
      have first : step exec p (.before line s) = flow.config line t := by
        rw [step_command here, runs]
      have later (target : Nat) (holds : A target t) (less : m target t < k)
          (goes : (flow.config line t : Config φ σ) = .before target t) :
          ∃ n u, n ≤ k + 1 ∧ Goto.after exec p n (.before line s) = .done u ∧ Q u := by
        obtain ⟨n, u, few, ends, post⟩ := ih _ less holds rfl
        refine ⟨n + 1, u, by omega, ?_, post⟩
        rw [Goto.after, first, goes, ends]
      rw [bound] at lower
      cases flow with
      | next => exact later (line + 1) arrives lower rfl
      | jump target => exact later target arrives lower rfl
      | stop => exact ⟨1, t, Nat.le_add_left 1 k, first, arrives⟩

end MiniKernel.Lib.Goto
