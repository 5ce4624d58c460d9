import Mathlib.Data.List.Flatten
import Mathlib.Data.List.Nodup
import Mathlib.Data.List.Basic
import Mathlib.Tactic

/-!
# Radix trees in a flat memory

A memory gives entry `i` of the table at an address. A tree is a root and a rule
telling which table the entry at a path leads to, if any. Paths are read from
the inside out: the head is the last index taken. One memory can hold many
trees; `Separate` says that no table serves two places.
-/
namespace MiniKernel.Lib.Radix

abbrev Path := List Nat

structure Tree (Addr Entry : Type) where
  root : Addr
  link : Path → Entry → Option Addr

variable {Addr Entry : Type}

/-- The table at a path. -/
def nodeAt (mem : Addr → Nat → Entry) (T : Tree Addr Entry) : Path → Option Addr
  | [] => some T.root
  | i :: p => (nodeAt mem T p).bind fun base => T.link (i :: p) (mem base i)

variable {mem mem' : Addr → Nat → Entry} {T : Tree Addr Entry} {p q : Path} {b c : Addr}
  {i : Nat}

@[simp] theorem nodeAt_root : nodeAt mem T [] = some T.root := rfl

theorem nodeAt_step (node : nodeAt mem T p = some b) (i : Nat) :
    nodeAt mem T (i :: p) = T.link (i :: p) (mem b i) := by
  rw [nodeAt, node, Option.bind_some]

/-- A table is reached through the tables above it. -/
theorem nodeAt_above (q : Path) (node : nodeAt mem T (q ++ p) = some c) :
    ∃ b, nodeAt mem T p = some b := by
  induction q generalizing c with
  | nil => exact ⟨c, node⟩
  | cons i q ih =>
    rw [List.cons_append, nodeAt] at node
    obtain ⟨base, above, -⟩ := Option.bind_eq_some_iff.mp node
    exact ih above

/-- Only what the entries of its tables lead to matters to a tree. -/
theorem nodeAt_congr_link (same : ∀ p b, nodeAt mem T p = some b → ∀ i,
    T.link (i :: p) (mem' b i) = T.link (i :: p) (mem b i)) (p : Path) :
    nodeAt mem' T p = nodeAt mem T p := by
  induction p with
  | nil => rfl
  | cons i p ih =>
    rw [nodeAt, nodeAt, ih]
    cases node : nodeAt mem T p with
    | none => rfl
    | some base => rw [Option.bind_some, Option.bind_some, same p base node]

/-- Only the tables of a tree matter to it. -/
theorem nodeAt_congr (same : ∀ p b, nodeAt mem T p = some b → mem' b = mem b) (p : Path) :
    nodeAt mem' T p = nodeAt mem T p :=
  nodeAt_congr_link (fun p b node i => by rw [same p b node]) p

section Put
variable [DecidableEq Addr]

/-- One entry replaced. -/
def put (mem : Addr → Nat → Entry) (b : Addr) (i : Nat) (e : Entry) : Addr → Nat → Entry :=
  Function.update mem b (Function.update (mem b) i e)

variable {e : Entry}

@[simp] theorem put_same : put mem b i e b i = e := by
  simp [put]

theorem put_table (other : c ≠ b) : put mem b i e c = mem c := by
  simp [put, other]

theorem put_index {j : Nat} (other : j ≠ i) : put mem b i e c j = mem c j := by
  unfold put
  by_cases at_b : c = b
  · rw [at_b, Function.update_self, Function.update_of_ne other]
  · rw [Function.update_of_ne at_b]

/-- An entry that differs from the replaced one in its table or its index. -/
theorem put_other {j : Nat} (other : ¬(c = b ∧ j = i)) : put mem b i e c j = mem c j := by
  by_cases at_b : c = b
  · exact put_index (fun at_i => other ⟨at_b, at_i⟩)
  · rw [put_table at_b]

@[simp] theorem put_put {e' : Entry} : put (put mem b i e) b i e' = put mem b i e' := by
  simp [put]

@[simp] theorem put_unchanged : put mem b i (mem b i) = mem := by
  simp [put]

/-- The table is at this path of the tree and at no other. -/
structure Sole (mem : Addr → Nat → Entry) (T : Tree Addr Entry) (p : Path) (b : Addr) :
    Prop where
  here : nodeAt mem T p = some b
  only : ∀ q, nodeAt mem T q = some b → q = p

/-- Replacing an entry leaves every path that does not run through it. -/
theorem nodeAt_put_other (sole : Sole mem T p b) (apart : ¬(i :: p) <:+ q) :
    nodeAt (put mem b i e) T q = nodeAt mem T q := by
  induction q with
  | nil => rfl
  | cons j q ih =>
    rw [List.suffix_cons_iff, not_or] at apart
    rw [nodeAt, nodeAt, ih apart.2]
    cases node : nodeAt mem T q with
    | none => rfl
    | some base =>
      rw [Option.bind_some, Option.bind_some, put_other]
      rintro ⟨rfl, rfl⟩
      exact apart.1 (by rw [sole.only q node])

/-- Replacing an entry by one that leads to the same place. -/
theorem nodeAt_put_relabel (sole : Sole mem T p b)
    (same : T.link (i :: p) e = T.link (i :: p) (mem b i)) (q : Path) :
    nodeAt (put mem b i e) T q = nodeAt mem T q := by
  induction q with
  | nil => rfl
  | cons j q ih =>
    rw [nodeAt, nodeAt, ih]
    cases node : nodeAt mem T q with
    | none => rfl
    | some base =>
      rw [Option.bind_some, Option.bind_some]
      by_cases here : base = b ∧ j = i
      · obtain ⟨rfl, rfl⟩ := here
        rw [put_same, sole.only q node, same]
      · rw [put_other here]

theorem not_suffix_self (i : Nat) (p : Path) : ¬(i :: p) <:+ p := by
  intro suffix
  have := suffix.length_le
  simp at this

theorem nodeAt_put_here (sole : Sole mem T p b) :
    nodeAt (put mem b i e) T (i :: p) = T.link (i :: p) e := by
  have kept : nodeAt (put mem b i e) T p = some b :=
    (nodeAt_put_other sole (not_suffix_self i p)).trans sole.here
  rw [nodeAt_step kept, put_same]

/-- Hanging a table that leads nowhere under an entry adds exactly that table;
what hung there before is gone. -/
theorem nodeAt_put_graft (sole : Sole mem T p b) (linked : T.link (i :: p) e = some c)
    (other : c ≠ b) (bare : ∀ j, T.link (j :: i :: p) (mem c j) = none) (q : Path) :
    nodeAt (put mem b i e) T q =
      if q = i :: p then some c else if (i :: p) <:+ q then none else nodeAt mem T q := by
  have hung : nodeAt (put mem b i e) T (i :: p) = some c := (nodeAt_put_here sole).trans linked
  induction q with
  | nil => rw [if_neg (by simp), if_neg (by simp)]; rfl
  | cons j q ih =>
    by_cases here : j :: q = i :: p
    · rw [if_pos here, here, hung]
    · rw [if_neg here]
      by_cases below : (i :: p) <:+ q
      · rw [if_pos (below.trans (List.suffix_cons j q)), nodeAt]
        by_cases at_c : q = i :: p
        · subst at_c
          rw [hung, Option.bind_some, put_table other, bare]
        · rw [ih, if_neg at_c, if_pos below, Option.bind_none]
      · have apart : ¬(i :: p) <:+ j :: q := by
          rw [List.suffix_cons_iff]
          rintro (same | suffix)
          · exact here same.symm
          · exact below suffix
        rw [if_neg apart, nodeAt_put_other sole apart]

end Put

/-! ## Trees side by side -/

/-- No table is at two paths of one tree, or in two trees. -/
def Separate (mem : Addr → Nat → Entry) (trees : Tree Addr Entry → Prop) : Prop :=
  ∀ S, trees S → ∀ T, trees T → ∀ p q b,
    nodeAt mem S p = some b → nodeAt mem T q = some b → S = T ∧ p = q

variable {trees : Tree Addr Entry → Prop}

/-- An address that is a table of no tree. -/
def Unlinked (mem : Addr → Nat → Entry) (trees : Tree Addr Entry → Prop) (c : Addr) : Prop :=
  ∀ T, trees T → ∀ p, nodeAt mem T p ≠ some c

theorem Separate.sole (sep : Separate mem trees) (member : trees T)
    (node : nodeAt mem T p = some b) : Sole mem T p b :=
  ⟨node, fun q again => (sep T member T member q p b again node).2⟩

theorem nodeAt_unlinked (fresh : Unlinked mem trees c) (member : trees T)
    (only : ∀ b, b ≠ c → mem' b = mem b) (p : Path) : nodeAt mem' T p = nodeAt mem T p := by
  refine nodeAt_congr (fun q b node => only b ?_) p
  rintro rfl
  exact fresh T member q node

theorem Separate.of_nodes (sep : Separate mem trees)
    (same : ∀ T, trees T → ∀ p, nodeAt mem' T p = nodeAt mem T p) : Separate mem' trees := by
  intro S hs T ht p q b at_p at_q
  rw [same S hs] at at_p
  rw [same T ht] at at_q
  exact sep S hs T ht p q b at_p at_q

section SeparatePut
variable [DecidableEq Addr] {e : Entry}

/-- An entry of one tree is none of another's business. -/
theorem Separate.nodeAt_elsewhere (sep : Separate mem trees) (member : trees T)
    (node : nodeAt mem T p = some b) {S : Tree Addr Entry} (other : trees S) (apart : S ≠ T)
    (q : Path) : nodeAt (put mem b i e) S q = nodeAt mem S q := by
  refine nodeAt_congr (fun r d at_d => ?_) q
  refine put_table ?_
  rintro rfl
  exact apart (sep S other T member r p d at_d node).1

theorem Separate.nodeAt_relabel (sep : Separate mem trees) (member : trees T)
    (node : nodeAt mem T p = some b) (same : T.link (i :: p) e = T.link (i :: p) (mem b i))
    {S : Tree Addr Entry} (hs : trees S) (q : Path) :
    nodeAt (put mem b i e) S q = nodeAt mem S q := by
  by_cases here : S = T
  · rw [here]
    exact nodeAt_put_relabel (sep.sole member node) same q
  · exact sep.nodeAt_elsewhere member node hs here q

/-- Trees stay separate when a table of none of them is hung into one. -/
theorem Separate.graft (sep : Separate mem trees) (member : trees T)
    (node : nodeAt mem T p = some b) (linked : T.link (i :: p) e = some c)
    (fresh : Unlinked mem trees c) (bare : ∀ j, T.link (j :: i :: p) (mem c j) = none) :
    Separate (put mem b i e) trees := by
  have sole := sep.sole member node
  have other : c ≠ b := by
    rintro rfl
    exact fresh T member p node
  have grafted := nodeAt_put_graft sole linked other bare
  -- A table after the change is the new one at its place, or was there before.
  have cases_of (S : Tree Addr Entry) (hs : trees S) (q : Path) (d : Addr)
      (at_q : nodeAt (put mem b i e) S q = some d) :
      (S = T ∧ q = i :: p ∧ d = c) ∨ nodeAt mem S q = some d := by
    by_cases here : S = T
    · rw [here, grafted] at at_q
      split at at_q
      · next at_c => exact Or.inl ⟨here, at_c, (Option.some.inj at_q).symm⟩
      · split at at_q
        · cases at_q
        · rw [here]
          exact Or.inr at_q
    · rw [sep.nodeAt_elsewhere member node hs here] at at_q
      exact Or.inr at_q
  intro S hs U hu q r d at_q at_r
  rcases cases_of S hs q d at_q with ⟨hS, hq, hd⟩ | old
  · rcases cases_of U hu r d at_r with ⟨hU, hr, -⟩ | old'
    · exact ⟨hS.trans hU.symm, hq.trans hr.symm⟩
    · exact absurd (hd ▸ old') (fresh U hu r)
  · rcases cases_of U hu r d at_r with ⟨-, -, hd⟩ | old'
    · exact absurd (hd ▸ old) (fresh S hs q)
    · exact sep S hs U hu q r d old old'

end SeparatePut

/-! ## Taking a tree down -/

/-- The tables under `b`, children before parents, to depth `n`. -/
def collect (width : Nat) (mem : Addr → Nat → Entry) (T : Tree Addr Entry) :
    Nat → Path → Addr → List Addr
  | 0, _, b => [b]
  | n + 1, p, b =>
    (List.range width).flatMap (fun i =>
      match T.link (i :: p) (mem b i) with
      | none => []
      | some c => collect width mem T n (i :: p) c) ++ [b]

/-- What is collected under one entry. -/
def collectEntry (width : Nat) (mem : Addr → Nat → Entry) (T : Tree Addr Entry) (n : Nat)
    (p : Path) (e : Entry) : List Addr :=
  match T.link p e with
  | none => []
  | some c => collect width mem T n p c

variable {width n : Nat}

theorem collect_succ : collect width mem T (n + 1) p b =
    (List.range width).flatMap (fun i => collectEntry width mem T n (i :: p) (mem b i)) ++ [b] :=
  rfl

theorem collectEntry_none {e : Entry} (nowhere : T.link p e = none) :
    collectEntry width mem T n p e = [] := by
  rw [collectEntry, nowhere]

theorem collectEntry_some {e : Entry} (linked : T.link p e = some c) :
    collectEntry width mem T n p e = collect width mem T n p c := by
  rw [collectEntry, linked]

/-- What is collected under a table is the tables whose path runs through it. -/
theorem mem_collect (bounded : ∀ i p e c, T.link (i :: p) e = some c → i < width)
    (node : nodeAt mem T p = some b) :
    c ∈ collect width mem T n p b ↔ ∃ q, q.length ≤ n ∧ nodeAt mem T (q ++ p) = some c := by
  induction n generalizing p b with
  | zero =>
    simp only [collect, List.mem_singleton, Nat.le_zero, List.length_eq_zero_iff]
    constructor
    · rintro rfl
      exact ⟨[], rfl, node⟩
    · rintro ⟨q, rfl, found⟩
      rw [List.nil_append, node] at found
      exact (Option.some.inj found).symm
  | succ n ih =>
    simp only [collect, List.mem_append, List.mem_flatMap, List.mem_range, List.mem_singleton]
    constructor
    · rintro (⟨i, -, inside⟩ | rfl)
      · cases linked : T.link (i :: p) (mem b i) with
        | none => simp [linked] at inside
        | some child =>
          simp only [linked] at inside
          have below : nodeAt mem T (i :: p) = some child := (nodeAt_step node i).trans linked
          obtain ⟨q, short, found⟩ := (ih below).mp inside
          exact ⟨q ++ [i], by simpa using short, by simpa using found⟩
      · exact ⟨[], Nat.zero_le _, node⟩
    · rintro ⟨q, short, found⟩
      rcases List.eq_nil_or_concat q with rfl | ⟨q, i, rfl⟩
      · rw [List.nil_append, node] at found
        exact Or.inr (Option.some.inj found).symm
      · rw [List.concat_eq_append, List.append_assoc, List.singleton_append] at found
        obtain ⟨child, below⟩ := nodeAt_above q found
        have linked : T.link (i :: p) (mem b i) = some child := by
          rw [← nodeAt_step node i, below]
        refine Or.inl ⟨i, bounded i p _ child linked, ?_⟩
        simp only [linked]
        exact (ih below).mpr ⟨q, by simpa using short, found⟩

theorem nodup_collect (bounded : ∀ i p e c, T.link (i :: p) e = some c → i < width)
    (once : ∀ q r d, nodeAt mem T q = some d → nodeAt mem T r = some d → q = r)
    (node : nodeAt mem T p = some b) : (collect width mem T n p b).Nodup := by
  induction n generalizing p b with
  | zero => simp [collect]
  | succ n ih =>
    -- Every collected table comes from one index, and has that index in its path.
    have chunk (i : Nat) (d : Addr)
        (inside : d ∈ match T.link (i :: p) (mem b i) with
          | none => []
          | some c => collect width mem T n (i :: p) c) :
        ∃ q, nodeAt mem T (q ++ i :: p) = some d := by
      cases linked : T.link (i :: p) (mem b i) with
      | none => simp [linked] at inside
      | some child =>
        simp only [linked] at inside
        obtain ⟨q, -, found⟩ := (mem_collect bounded ((nodeAt_step node i).trans linked)).mp inside
        exact ⟨q, found⟩
    rw [collect, List.nodup_append]
    refine ⟨List.nodup_flatMap.mpr ⟨fun i _ => ?_, ?_⟩, List.nodup_singleton _, ?_⟩
    · cases linked : T.link (i :: p) (mem b i) with
      | none => exact List.nodup_nil
      | some child => exact ih ((nodeAt_step node i).trans linked)
    · refine List.Pairwise.imp (fun {i j} different => ?_) List.nodup_range
      intro d left right
      obtain ⟨q, found⟩ := chunk i d left
      obtain ⟨r, found'⟩ := chunk j d right
      have same := once _ _ d found found'
      have tails : i :: p = j :: p :=
        (List.append_inj' same (by simp)).2
      exact different (List.cons.inj tails).1
    · intro d inside d' last
      rw [List.mem_flatMap] at inside
      obtain ⟨i, -, inside⟩ := inside
      obtain ⟨q, found⟩ := chunk i d inside
      rintro rfl
      rw [List.mem_singleton.mp last] at found
      have lengths := congrArg List.length (once _ _ b found node)
      simp at lengths
      omega

end MiniKernel.Lib.Radix
