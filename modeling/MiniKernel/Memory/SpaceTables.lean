import MiniKernel.Memory.KernelPages

/-!
# The tables of one space

Source: kernel/mm/vmm.c:34-52, 85-141. Here one space stands alone: its tables
are those the CPU can reach from `space`, whoever shares them, and nothing is
asked of the allocator but that it does not hand them out again.
-/
namespace MiniKernel.Memory.Paging
open Lib Lib.Radix

/-- The tables the CPU reaches under `space`. -/
def tablesOf (space : Word) : Tree Word Word := ⟨target space, treeLink (fun _ => true) false⟩

/-- The page-table entry the translation of `a` ends at, where it gets that far. -/
def leafEntry (mem : Tables) (cr3 a : Word) : Option Word :=
  (walkSlots mem cr3 a)[3]?.map fun s => mem s.1 s.2

/-- The page of `a` is mapped by a page table, for user mode as far as that goes. -/
def UserLeaf (mem : Tables) (cr3 a : Word) : Prop :=
  ∃ e, leafEntry mem cr3 a = some e ∧ present e = true ∧ user e = true

/-- No table serves two places, and none is free for the allocator; 2 MiB pages
are the supervisor's, as `map_2mb_identity` makes them; above a user page, every
entry has the user bit. -/
structure WellFormed (space : Word) (st : Vmm) : Prop where
  distinct : ∀ p q b, nodeAt st.mem (tablesOf space) p = some b →
    nodeAt st.mem (tablesOf space) q = some b → p = q
  taken : ∀ p b, nodeAt st.mem (tablesOf space) p = some b → st.usedAt b = true
  regions : ∀ p b, nodeAt st.mem (tablesOf space) p = some b → p.length = 2 →
    ∀ i < entriesPerTable, present (st.mem b i) = true → huge (st.mem b i) = true →
      user (st.mem b i) = false ∧ target (st.mem b i) = regionBase (st.mem b i)
  marked : ∀ a, UserLeaf st.mem space a →
    ∀ s ∈ walkSlots st.mem space a, user (st.mem s.1 s.2) = true

section
variable {space a b c : Word} {mem mem' : Tables} {st st' st'' : Vmm} {p q P : Path} {i k : Nat}

/-! ## Tables and walks -/

/-- Above the pages, a present entry leads down unless it maps 2 MiB. -/
theorem tablesOf_link (short : p.length ≤ 2) (hi : i < entriesPerTable) (e : Word) :
    (tablesOf space).link (i :: p) e =
      if present e = true ∧ (p.length = 2 → huge e = false) then some (target e) else none := by
  rcases p with _ | ⟨i₃, _ | ⟨i₄, _ | ⟨i₅, p⟩⟩⟩
  · simp [tablesOf, treeLink, follows, hi]
  · simp [tablesOf, treeLink, follows, hi]
  · simp [tablesOf, treeLink, follows, hi]
  · simp at short

/-- What is known of an entry that leads to a table. -/
theorem tablesOf_linked {e : Word} (linked : (tablesOf space).link (i :: p) e = some c) :
    i < entriesPerTable ∧ present e = true ∧ (p.length = 2 → huge e = false) ∧ target e = c := by
  obtain ⟨leads, same⟩ := treeLink_eq_some.mp linked
  refine ⟨follows_bounded leads, follows_present leads, fun deep => ?_, same⟩
  rcases p with _ | ⟨i₃, _ | ⟨i₄, _ | ⟨i₅, p⟩⟩⟩
  all_goals simp at deep
  simp only [follows, Bool.and_eq_true, Bool.not_eq_true'] at leads
  exact leads.2

/-- Nothing hangs below a page table. -/
theorem tablesOf_deep (deep : 4 ≤ p.length) (e : Word) : (tablesOf space).link p e = none := by
  rw [tablesOf, treeLink_eq_none]
  rcases p with _ | ⟨i₁, _ | ⟨i₂, _ | ⟨i₃, _ | ⟨i₄, _ | ⟨i₅, p⟩⟩⟩⟩⟩
  all_goals first | rfl | simp at deep

/-- Tables are aligned because entries hold frame numbers. -/
theorem tablesOf_aligned (node : nodeAt mem (tablesOf space) p = some b) : Aligned b := by
  cases p with
  | nil => exact Option.some.inj node ▸ aligned_target space
  | cons i p =>
    obtain ⟨d, -, linked⟩ := Option.bind_eq_some_iff.mp node
    rw [← (treeLink_eq_some.mp linked).2]
    exact aligned_target _

theorem tablesOf_depth (node : nodeAt mem (tablesOf space) p = some b) : p.length ≤ 3 := by
  cases p with
  | nil => exact Nat.zero_le 3
  | cons i p =>
    obtain ⟨d, -, linked⟩ := Option.bind_eq_some_iff.mp node
    by_contra deep
    rw [tablesOf_deep (by omega)] at linked
    cases linked

/-- A walk looks at the tables along the path of its address. -/
theorem walk_table (at_k : (walkSlots mem space a)[k]? = some (b, i)) :
    ∃ q, nodeAt mem (tablesOf space) q = some b ∧ q.length = k ∧ i :: q <:+ pathOf a := by
  have below (j : Nat) (q : Path) (d : Word) (short : q.length ≤ 2) (hj : j < entriesPerTable)
      (node : nodeAt mem (tablesOf space) q = some d) (there : present (mem d j) = true)
      (small : q.length = 2 → huge (mem d j) = false) :
      nodeAt mem (tablesOf space) (j :: q) = some (target (mem d j)) := by
    rw [nodeAt_step node, tablesOf_link short hj, if_pos ⟨there, small⟩]
  have top : nodeAt mem (tablesOf space) [] = some (target space) := rfl
  simp only [walkSlots] at at_k
  rcases k with _ | k
  · simp only [List.getElem?_cons_zero, Option.some.injEq, Prod.mk.injEq] at at_k
    obtain ⟨rfl, rfl⟩ := at_k
    exact ⟨[], top, rfl, [levelIndex 12 a, levelIndex 21 a, levelIndex 30 a], rfl⟩
  rw [List.getElem?_cons_succ] at at_k
  cases p4 : present (mem (target space) (levelIndex 39 a)) with
  | false => simp [p4] at at_k
  | true =>
  have first := below _ [] _ (by simp) (levelIndex_lt 39 a) top p4 (by simp)
  simp only [p4, Bool.true_eq_false, if_false] at at_k
  rcases k with _ | k
  · simp only [List.getElem?_cons_zero, Option.some.injEq, Prod.mk.injEq] at at_k
    obtain ⟨rfl, rfl⟩ := at_k
    exact ⟨_, first, rfl, [levelIndex 12 a, levelIndex 21 a], rfl⟩
  rw [List.getElem?_cons_succ] at at_k
  cases p3 : present (mem (target (mem (target space) (levelIndex 39 a))) (levelIndex 30 a)) with
  | false => simp [p3] at at_k
  | true =>
  have second := below _ [_] _ (by simp) (levelIndex_lt 30 a) first p3 (by simp)
  simp only [p3, Bool.true_eq_false, if_false] at at_k
  rcases k with _ | k
  · simp only [List.getElem?_cons_zero, Option.some.injEq, Prod.mk.injEq] at at_k
    obtain ⟨rfl, rfl⟩ := at_k
    exact ⟨_, second, rfl, [levelIndex 12 a], rfl⟩
  rw [List.getElem?_cons_succ] at at_k
  split at at_k
  · simp at at_k
  · next leads =>
    rw [not_or] at leads
    have third := below _ [_, _] _ (by simp) (levelIndex_lt 21 a) second
      (by simpa using leads.1) (fun _ => by simpa using leads.2)
    rcases k with _ | k
    · simp only [List.getElem?_cons_zero, Option.some.injEq, Prod.mk.injEq] at at_k
      obtain ⟨rfl, rfl⟩ := at_k
      exact ⟨_, third, rfl, [], rfl⟩
    · simp at at_k

/-- A page table that is there is where the walks of its addresses end. -/
theorem walk_leaf (node : nodeAt mem (tablesOf space) (tablePath a) = some b) :
    (walkSlots mem space a)[3]? = some (b, levelIndex 12 a) := by
  obtain ⟨t₃, t₂, -, -, l4, l3, l2⟩ := table_entries ⟨_, _, rfl⟩ node
  have top : (tablesOf space).root = target space := rfl
  rw [top] at l4
  simp [walkSlots, l4.1, l4.2, l3.1, l3.2, l2.1, l2.2.1, l2.2.2]

/-- Walks depend on the entries they look at. -/
theorem walkSlots_alike {exact : Bool}
    (same : ∀ s ∈ walkSlots mem space a, Alike exact (mem s.1 s.2) (mem' s.1 s.2)) :
    walkSlots mem' space a = walkSlots mem space a := by
  have s4 := same (target space, levelIndex 39 a) (by simp [walkSlots])
  simp only [walkSlots]
  rw [s4.present, s4.target]
  generalize h4 : mem (target space) (levelIndex 39 a) = l4 at *
  cases p4 : present l4 with
  | false => simp
  | true =>
  have s3 := same (target l4, levelIndex 30 a) (by simp [walkSlots, h4, p4])
  rw [s3.present, s3.target]
  generalize h3 : mem (target l4) (levelIndex 30 a) = l3 at *
  cases p3 : present l3 with
  | false => simp
  | true =>
  have s2 := same (target l3, levelIndex 21 a) (by simp [walkSlots, h4, p4, h3, p3])
  rw [s2.present, s2.target, s2.huge]

theorem walkSlots_kept (same : ∀ s ∈ walkSlots mem space a, mem' s.1 s.2 = mem s.1 s.2) :
    walkSlots mem' space a = walkSlots mem space a :=
  walkSlots_alike fun s on => (Alike.of_eq (same s on) : Alike true _ _)

/-! ## The user right -/

/-- A page translates for user mode only if its leaf says so, and a well-formed
table has no other say in it. -/
theorem WellFormed.user_iff (wf : WellFormed space st) {t : Translation}
    (found : translate st.mem space a = some t) :
    t.user = true ↔ UserLeaf st.mem space a := by
  have marked := wf.marked a
  have region (b : Word) (at_2 : (walkSlots st.mem space a)[2]? = some (b, levelIndex 21 a))
      (there : present (st.mem b (levelIndex 21 a)) = true)
      (large : huge (st.mem b (levelIndex 21 a)) = true) :
      user (st.mem b (levelIndex 21 a)) = false := by
    obtain ⟨q, node, deep, -⟩ := walk_table at_2
    exact (wf.regions q b node deep _ (levelIndex_lt 21 a) there large).1
  simp only [UserLeaf, leafEntry, walkSlots] at marked region ⊢
  simp only [translate] at found
  generalize h4 : st.mem (target space) (levelIndex 39 a) = l4 at *
  generalize h3 : st.mem (target l4) (levelIndex 30 a) = l3 at *
  cases p4 : present l4 with
  | false => simp [p4] at found
  | true =>
  cases p3 : present l3 with
  | false => simp [p4, p3] at found
  | true =>
  cases p2 : present (st.mem (target l3) (levelIndex 21 a)) with
  | false => simp [p4, p3, p2] at found
  | true =>
  cases large : huge (st.mem (target l3) (levelIndex 21 a)) with
  | true =>
    have no := region (target l3) (by simp [p4, p3]) p2 large
    simp only [p4, p3, p2, large, Bool.true_eq_false, if_false, if_true, Option.some.injEq] at found
    simp [← found, no]
  | false =>
    simp only [p4, p3, p2, large, Bool.true_eq_false, Bool.false_eq_true, or_self, if_false,
      List.getElem?_cons_succ, List.getElem?_cons_zero, Option.map_some, Option.some.injEq,
      exists_eq_left', List.mem_cons, List.not_mem_nil, or_false, forall_eq_or_imp, forall_eq]
      at marked found ⊢
    split at found
    · cases found
    · next there =>
      simp only [Bool.not_eq_false] at there
      rw [← Option.some.inj found]
      constructor
      · intro all
        simp only [Bool.and_eq_true] at all
        exact ⟨there, all.2⟩
      · intro leaf
        obtain ⟨u4, u3, u2, u1⟩ := marked leaf
        rw [h4] at u4
        rw [h3] at u3
        simp [u4, u3, u2, u1]

/-- Between well-formed tables, a page that leads to the same place with the
same leaf right is translated the same. -/
theorem WellFormed.translate_eq (wf : WellFormed space st) (wf' : WellFormed space st')
    (seen : looks false (translate st'.mem space a) = looks false (translate st.mem space a))
    (leaf : UserLeaf st'.mem space a ↔ UserLeaf st.mem space a) :
    translate st'.mem space a = translate st.mem space a := by
  cases before : translate st.mem space a with
  | none =>
    rw [before] at seen
    exact Option.map_eq_none_iff.mp seen
  | some t =>
    rw [before] at seen
    obtain ⟨t', after, same⟩ := Option.map_eq_some_iff.mp seen
    have right : t'.user = t.user := by
      rw [Bool.eq_iff_iff, wf'.user_iff after, wf.user_iff before, leaf]
    simp only [Translation.view, Bool.false_and, Prod.mk.injEq, and_true] at same
    rw [after]
    cases t
    cases t'
    simp_all

theorem UserLeaf.translated (leaf : UserLeaf mem space a) : translate mem space a ≠ none := by
  obtain ⟨e, found, there, -⟩ := leaf
  simp only [leafEntry, walkSlots] at found
  simp only [translate]
  split at found
  · simp at found
  · split at found
    · simp at found
    · split at found
      · simp at found
      · next p4 p3 leads =>
        rw [not_or] at leads
        simp only [List.getElem?_cons_succ, List.getElem?_cons_zero, Option.map_some,
          Option.some.injEq] at found
        rw [if_neg p4, if_neg p3, if_neg leads.1, if_neg leads.2, found, if_neg (by simp [there])]
        simp

/-! ## Placing a table -/

/-- An entry that can be met on a walk is met at its own depth. -/
theorem WellFormed.walk_place (wf : WellFormed space st)
    (node : nodeAt st.mem (tablesOf space) p = some b)
    (at_k : (walkSlots st.mem space a)[k]? = some (b, i)) :
    k = p.length ∧ i :: p <:+ pathOf a := by
  obtain ⟨q, at_q, rfl, suffix⟩ := walk_table at_k
  rw [wf.distinct p q b node at_q]
  exact ⟨rfl, suffix⟩

theorem WellFormed.walk_taken (wf : WellFormed space st) (on : (b, i) ∈ walkSlots st.mem space a) :
    st.usedAt b = true := by
  obtain ⟨k, at_k⟩ := List.mem_iff_getElem?.mp on
  obtain ⟨q, at_q, -⟩ := walk_table at_k
  exact wf.taken q b at_q

/-- Tables were placed along the path `P`; no translation changed. -/
structure Extended (space : Word) (P : Path) (st st' : Vmm) : Prop where
  wf : WellFormed space st'
  kernel : st'.kernelPml4 = st.kernelPml4
  grows : Grows st.pmm st'.pmm
  kept : ∀ q d, nodeAt st.mem (tablesOf space) q = some d →
    nodeAt st'.mem (tablesOf space) q = some d
  fresh : ∀ q d, nodeAt st.mem (tablesOf space) q = none →
    nodeAt st'.mem (tablesOf space) q = some d → st.usedAt d = false
  took : ∀ f, isUsed st'.pmm f = true → isUsed st.pmm f = true ∨
    ∃ q d, nodeAt st'.mem (tablesOf space) q = some d ∧ f = frameOf d.toNat
  count : st'.freeCount + missing st.mem (tablesOf space) P =
    st.freeCount + missing st'.mem (tablesOf space) P
  frame : ∀ d, st.usedAt d = true → (∀ q, nodeAt st.mem (tablesOf space) q ≠ some d) →
    st'.mem d = st.mem d
  translated : ∀ a, translate st'.mem space a = translate st.mem space a
  rights : UpperWritable st.mem (tablesOf space) → UpperWritable st'.mem (tablesOf space)
  marks : ∀ d j, st.usedAt d = true → user (st.mem d j) = true → user (st'.mem d j) = true

theorem Extended.refl (wf : WellFormed space st) : Extended space P st st where
  wf := wf
  kernel := rfl
  grows := Grows.refl _
  kept := fun _ _ node => node
  fresh := fun q d absent node => by rw [absent] at node; cases node
  took := fun _ used => Or.inl used
  count := rfl
  frame := fun _ _ _ => rfl
  translated := fun _ => rfl
  rights := fun upper => upper
  marks := fun _ _ _ allowed => allowed

/-- What is no table stays none, if the allocator counts it as taken. -/
theorem Extended.unlinked (step : Extended space P st st') (used : st.usedAt c = true)
    (apart : ∀ q, nodeAt st.mem (tablesOf space) q ≠ some c) (q : Path) :
    nodeAt st'.mem (tablesOf space) q ≠ some c := by
  intro node
  cases before : nodeAt st.mem (tablesOf space) q with
  | none =>
    rw [step.fresh q c before node] at used
    cases used
  | some d =>
    have same := (step.kept q d before).symm.trans node
    rw [Option.some.inj same] at before
    exact apart q before

theorem Extended.trans (first : Extended space P st st') (second : Extended space P st' st'') :
    Extended space P st st'' where
  wf := second.wf
  kernel := second.kernel.trans first.kernel
  grows := first.grows.trans second.grows
  kept := fun q d node => second.kept q d (first.kept q d node)
  fresh := fun q d absent node => by
    cases between : nodeAt st'.mem (tablesOf space) q with
    | none =>
      have free := second.fresh q d between node
      cases used : st.usedAt d with
      | false => rfl
      | true =>
        have later := first.grows _ used
        rw [Vmm.usedAt, later] at free
        cases free
    | some e =>
      have same := (second.kept q e between).symm.trans node
      rw [← Option.some.inj same]
      exact first.fresh q e absent between
  took := fun f used => by
    rcases second.took f used with used | new
    · rcases first.took f used with used | ⟨q, d, node, rfl⟩
      · exact Or.inl used
      · exact Or.inr ⟨q, d, second.kept q d node, rfl⟩
    · exact Or.inr new
  count := by
    have h₁ := first.count
    have h₂ := second.count
    omega
  frame := fun d used apart => by
    rw [second.frame d (first.grows _ used) (first.unlinked used apart), first.frame d used apart]
  translated := fun a => (second.translated a).trans (first.translated a)
  rights := fun upper => second.rights (first.rights upper)
  marks := fun d j used allowed =>
    second.marks d j (first.grows _ used) (first.marks d j used allowed)

theorem leafEntry_kept (walks : walkSlots mem' space a = walkSlots mem space a)
    (kept : ∀ d j, (walkSlots mem space a)[3]? = some (d, j) → mem' d j = mem d j) :
    leafEntry mem' space a = leafEntry mem space a := by
  rw [leafEntry, leafEntry, walks]
  cases at_3 : (walkSlots mem space a)[3]? with
  | none => rfl
  | some s => simp [kept s.1 s.2 at_3]

/-- A space is its tables: memory elsewhere may change, and so may frames be
given back that are none of them. -/
theorem WellFormed.of_tables (wf : WellFormed space st)
    (same : ∀ q d, nodeAt st.mem (tablesOf space) q = some d → st'.mem d = st.mem d)
    (taken : ∀ q d, nodeAt st.mem (tablesOf space) q = some d → st'.usedAt d = true) :
    WellFormed space st' ∧
      (∀ q, nodeAt st'.mem (tablesOf space) q = nodeAt st.mem (tablesOf space) q) ∧
      ∀ a, translate st'.mem space a = translate st.mem space a := by
  have nodes := nodeAt_congr same
  have entries (a : Word) (s : Word × Nat) (on : s ∈ walkSlots st.mem space a) :
      st'.mem s.1 s.2 = st.mem s.1 s.2 := by
    obtain ⟨k, at_k⟩ := List.mem_iff_getElem?.mp on
    obtain ⟨q, at_q, -⟩ := walk_table at_k
    rw [same q s.1 at_q]
  have walks (a : Word) : walkSlots st'.mem space a = walkSlots st.mem space a :=
    walkSlots_kept (entries a)
  refine ⟨?_, nodes, fun a => looks_true (translate_alike fun s on => Alike.of_eq (entries a s on))⟩
  constructor
  case distinct =>
    intro p q d at_p at_q
    rw [nodes] at at_p at_q
    exact wf.distinct p q d at_p at_q
  case taken =>
    intro q d at_q
    rw [nodes] at at_q
    exact taken q d at_q
  case regions =>
    intro q d at_q deep j hj there large
    rw [nodes] at at_q
    rw [same q d at_q] at there large ⊢
    exact wf.regions q d at_q deep j hj there large
  case marked =>
    intro a leaf s on
    rw [UserLeaf, leafEntry_kept (walks a)
      fun d j at_3 => entries a (d, j) (List.mem_of_getElem? at_3)] at leaf
    rw [walks] at on
    rw [entries a s on]
    exact wf.marked a leaf s on

/-- An entry was written that leaves every table where it was. -/
theorem WellFormed.relabelled {e : Word} (wf : WellFormed space st)
    (nodes : ∀ q, nodeAt (put st.mem b i e) (tablesOf space) q = nodeAt st.mem (tablesOf space) q)
    (regions : ∀ q d, nodeAt st.mem (tablesOf space) q = some d → q.length = 2 →
      ∀ j < entriesPerTable, present (put st.mem b i e d j) = true →
        huge (put st.mem b i e d j) = true → user (put st.mem b i e d j) = false ∧
          target (put st.mem b i e d j) = regionBase (put st.mem b i e d j))
    (marked : ∀ a, UserLeaf (put st.mem b i e) space a →
      ∀ s ∈ walkSlots (put st.mem b i e) space a, user (put st.mem b i e s.1 s.2) = true) :
    WellFormed space (st.setEntry b i e) := by
  constructor
  case distinct =>
    intro q r d at_q at_r
    rw [Vmm.setEntry_mem, nodes] at at_q at_r
    exact wf.distinct q r d at_q at_r
  case taken =>
    intro q d at_q
    rw [Vmm.setEntry_mem, nodes] at at_q
    exact wf.taken q d at_q
  case regions =>
    intro q d at_q
    rw [Vmm.setEntry_mem, nodes] at at_q
    rw [Vmm.setEntry_mem]
    exact regions q d at_q
  case marked =>
    rw [Vmm.setEntry_mem]
    exact marked

theorem WellFormed.sole (wf : WellFormed space st)
    (node : nodeAt st.mem (tablesOf space) p = some b) : Sole st.mem (tablesOf space) p b :=
  ⟨node, fun q at_q => wf.distinct q p b at_q node⟩

/-- Setting the user bit of an entry that leads to a table. -/
theorem WellFormed.mark (wf : WellFormed space st)
    (node : nodeAt st.mem (tablesOf space) p = some b)
    (below : nodeAt st.mem (tablesOf space) (i :: p) = some c) :
    Extended space P st (st.setEntry b i (st.mem b i ||| pageUser)) ∧
      nodeAt (put st.mem b i (st.mem b i ||| pageUser)) (tablesOf space) (i :: p) = some c := by
  have short : p.length ≤ 2 := Nat.le_of_succ_le_succ (tablesOf_depth below)
  have linked := (nodeAt_step node i).symm.trans below
  obtain ⟨hi, there, small, -⟩ := tablesOf_linked linked
  have same : (tablesOf space).link (i :: p) (st.mem b i ||| pageUser) =
      (tablesOf space).link (i :: p) (st.mem b i) := by
    rw [tablesOf_link short hi, tablesOf_link short hi]
    simp [target_or]
  have nodes := nodeAt_put_relabel (wf.sole node) same
  have alike (d : Word) (j : Nat) :
      Alike false (st.mem d j) (put st.mem b i (st.mem b i ||| pageUser) d j) := by
    by_cases here : d = b ∧ j = i
    · obtain ⟨rfl, rfl⟩ := here
      rw [put_same]
      exact Alike.mark (by simp)
    · exact Alike.of_eq (put_other here)
  have walks (a : Word) : walkSlots (put st.mem b i (st.mem b i ||| pageUser)) space a =
      walkSlots st.mem space a := walkSlots_alike fun s _ => alike s.1 s.2
  -- the entry lies above the page tables
  have leaves (a : Word) : UserLeaf (put st.mem b i (st.mem b i ||| pageUser)) space a ↔
      UserLeaf st.mem space a := by
    rw [UserLeaf, UserLeaf, leafEntry_kept (walks a)]
    intro d j at_3
    refine put_other ?_
    rintro ⟨rfl, rfl⟩
    have deep := (wf.walk_place node at_3).1
    omega
  have wf' : WellFormed space (st.setEntry b i (st.mem b i ||| pageUser)) := by
    apply wf.relabelled nodes
    case regions =>
      intro q d at_q deep j hj present_ large
      have other : ¬(d = b ∧ j = i) := by
        rintro ⟨rfl, rfl⟩
        rw [put_same, huge_or, small (wf.distinct p q d node at_q ▸ deep)] at large
        cases large
      rw [put_other other] at present_ large ⊢
      exact wf.regions q d at_q deep j hj present_ large
    case marked =>
      intro a leaf s on
      rw [walks] at on
      have before := wf.marked a ((leaves a).mp leaf) s on
      by_cases here : s.1 = b ∧ s.2 = i
      · rw [here.1, here.2, put_same]
        simp
      · rw [put_other here, before]
  refine ⟨⟨wf', rfl, Grows.refl _, ?_, ?_, fun _ used => Or.inl used, ?_, ?_, ?_, ?_, ?_⟩,
    (nodes _).trans below⟩
  case refine_1 => exact fun q d at_q => (nodes q).trans at_q
  case refine_2 =>
    intro q d absent at_q
    rw [Vmm.setEntry_mem, nodes, absent] at at_q
    cases at_q
  case refine_3 => simp only [missing, Vmm.setEntry_mem, nodes, Vmm.setEntry_freeCount]
  case refine_4 =>
    intro d _ apart
    refine put_table ?_
    rintro rfl
    exact apart p node
  case refine_5 =>
    exact fun a => wf.translate_eq wf' (translate_alike fun s _ => alike s.1 s.2) (leaves a)
  case refine_6 =>
    intro upper q d at_q high j hj present_
    rw [Vmm.setEntry_mem, nodes] at at_q
    rw [Vmm.setEntry_mem, (alike d j).present] at present_
    rw [Vmm.setEntry_mem, (alike d j).writable]
    exact upper q d at_q high j hj present_
  case refine_7 =>
    intro d j _ allowed
    rw [Vmm.setEntry_mem]
    by_cases here : d = b ∧ j = i
    · rw [here.1, here.2, put_same]
      simp
    · rw [put_other here, allowed]

/-- A new table `c` hangs under entry `i` of the table `b` at `p`, which led
nowhere: blank, or the 2 MiB page of that entry in pieces. -/
structure Hung (space : Word) (p : Path) (b : Word) (i : Nat) (st st' : Vmm) (c : Word) : Prop where
  node : nodeAt st.mem (tablesOf space) p = some b
  absent : nodeAt st.mem (tablesOf space) (i :: p) = none
  short : p.length ≤ 2
  index : i < entriesPerTable
  taken : ∃ st₁, Taken st st₁ c ∧ st'.pmm = st₁.pmm
  kernel : st'.kernelPml4 = st.kernelPml4
  entry : st'.mem b i = c ||| pagePresent ||| pageWritable ||| pageUser
  filled : ∀ j < entriesPerTable, st'.mem c j =
    if present (st.mem b i) then Vmm.splitEntry (st.mem b i) j else 0
  frame : ∀ d j, d ≠ c → ¬(d = b ∧ j = i) → st'.mem d j = st.mem d j

namespace Hung

theorem aligned (hung : Hung space p b i st st' c) : Aligned c :=
  hung.taken.elim fun _ taken => taken.1.aligned

theorem free (hung : Hung space p b i st st' c) : st.usedAt c = false :=
  hung.taken.elim fun _ taken => taken.1.free

theorem used (hung : Hung space p b i st st' c) (f : Nat) :
    isUsed st'.pmm f = (isUsed st.pmm f || decide (f = frameOf c.toNat)) := by
  obtain ⟨st₁, taken, pmm⟩ := hung.taken
  rw [pmm, taken.used]

theorem grows (hung : Hung space p b i st st' c) : Grows st.pmm st'.pmm := by
  intro f used
  rw [hung.used, used]
  rfl

/-- A frame in use is not the new table. -/
theorem other (hung : Hung space p b i st st' c) {d : Word} (used : st.usedAt d = true) :
    d ≠ c := by
  rintro rfl
  rw [hung.free] at used
  cases used

theorem kept (hung : Hung space p b i st st' c) {d : Word} {j : Nat} (used : st.usedAt d = true)
    (apart : ¬(d = b ∧ j = i)) : st'.mem d j = st.mem d j :=
  hung.frame d j (hung.other used) apart

/-- Entries that lead nowhere are absent, or map 2 MiB. -/
theorem nowhere (hung : Hung space p b i st st' c) :
    present (st.mem b i) = false ∨
      p.length = 2 ∧ present (st.mem b i) = true ∧ huge (st.mem b i) = true := by
  have absent := hung.absent
  rw [nodeAt_step hung.node, tablesOf_link hung.short hung.index] at absent
  cases there : present (st.mem b i) with
  | false => exact Or.inl rfl
  | true =>
    right
    split at absent
    · cases absent
    · next no =>
      simp only [there, true_and, Classical.not_imp, Bool.not_eq_false] at no
      exact ⟨no.1, rfl, no.2⟩

theorem leads (hung : Hung space p b i st st' c) :
    present (st'.mem b i) = true ∧ huge (st'.mem b i) = false ∧ target (st'.mem b i) = c := by
  have aligned := hung.aligned
  rw [hung.entry]
  refine ⟨by simp, by simp [huge_of_aligned aligned], ?_⟩
  simp [target_or, show target c = c from aligned]

/-- The tables are those there were, and the new one. -/
theorem nodes (wf : WellFormed space st) (hung : Hung space p b i st st' c) (q : Path) :
    nodeAt st'.mem (tablesOf space) q =
      if q = i :: p then some c else nodeAt st.mem (tablesOf space) q := by
  have other : b ≠ c := hung.other (wf.taken p b hung.node)
  -- the new table filled, its entry not yet written
  have blank (q : Path) : nodeAt (Function.update st.mem c (st'.mem c)) (tablesOf space) q =
      nodeAt st.mem (tablesOf space) q := by
    refine nodeAt_congr (fun r d at_r => ?_) q
    exact Function.update_of_ne (hung.other (wf.taken r d at_r)) _ _
  have whole : st'.mem = put (Function.update st.mem c (st'.mem c)) b i (st'.mem b i) := by
    funext d j
    by_cases at_entry : d = b ∧ j = i
    · rw [at_entry.1, at_entry.2, put_same]
    · rw [put_other at_entry]
      by_cases at_c : d = c
      · rw [at_c, Function.update_self]
      · rw [Function.update_of_ne at_c, hung.frame d j at_c at_entry]
  have sole : Sole (Function.update st.mem c (st'.mem c)) (tablesOf space) p b := by
    refine ⟨(blank p).trans hung.node, fun q at_q => ?_⟩
    rw [blank] at at_q
    exact wf.distinct q p b at_q hung.node
  have linked : (tablesOf space).link (i :: p) (st'.mem b i) = some c := by
    rw [tablesOf_link hung.short hung.index, if_pos ⟨hung.leads.1, fun _ => hung.leads.2.1⟩,
      hung.leads.2.2]
  have bare (j : Nat) :
      (tablesOf space).link (j :: i :: p) (Function.update st.mem c (st'.mem c) c j) = none := by
    rw [Function.update_self]
    rcases hung.nowhere with absent | ⟨deep, -, -⟩
    · cases leads : (tablesOf space).link (j :: i :: p) (st'.mem c j) with
      | none => rfl
      | some d =>
        obtain ⟨hj, there, -⟩ := tablesOf_linked leads
        rw [hung.filled j hj, absent] at there
        simp at there
    · exact tablesOf_deep (by simp [deep]) _
  rw [whole, nodeAt_put_graft sole linked (Ne.symm other) bare, blank]
  split
  · rfl
  · split
    · next below =>
      -- nothing hung below an entry that led nowhere
      obtain ⟨q', rfl⟩ := below
      exact (nodeAt_below_none q' hung.absent).symm
    · rfl

/-- A table after the step was there before, or is the new one. -/
theorem origin (wf : WellFormed space st) (hung : Hung space p b i st st' c) {d : Word}
    (node : nodeAt st'.mem (tablesOf space) q = some d) :
    nodeAt st.mem (tablesOf space) q = some d ∨ (q = i :: p ∧ d = c) := by
  rw [hung.nodes wf] at node
  split at node
  · next here => exact Or.inr ⟨here, (Option.some.inj node).symm⟩
  · exact Or.inl node

/-- Walks that do not meet the entry are as before. -/
theorem off_walk (wf : WellFormed space st) (hung : Hung space p b i st st' c)
    (off : (b, i) ∉ walkSlots st.mem space a) :
    walkSlots st'.mem space a = walkSlots st.mem space a ∧
      ∀ s ∈ walkSlots st.mem space a, st'.mem s.1 s.2 = st.mem s.1 s.2 := by
  have same (s : Word × Nat) (on : s ∈ walkSlots st.mem space a) :
      st'.mem s.1 s.2 = st.mem s.1 s.2 := by
    refine hung.kept (wf.walk_taken on) ?_
    rintro ⟨h₁, h₂⟩
    exact off (by rw [← h₁, ← h₂]; exact on)
  exact ⟨walkSlots_kept same, same⟩

/-- A walk that meets the entry leads where it led, and for user mode nowhere. -/
theorem on_walk (wf : WellFormed space st) (hung : Hung space p b i st st' c)
    (on : (b, i) ∈ walkSlots st.mem space a) :
    ¬UserLeaf st'.mem space a ∧ ¬UserLeaf st.mem space a ∧
      looks false (translate st'.mem space a) = looks false (translate st.mem space a) := by
  obtain ⟨there', small', leads⟩ := hung.leads
  obtain ⟨k, at_k⟩ := List.mem_iff_getElem?.mp on
  obtain ⟨rfl, suffix⟩ := wf.walk_place hung.node at_k
  have others (s : Word × Nat) (hs : s ∈ walkSlots st.mem space a) (apart : s ≠ (b, i)) :
      st'.mem s.1 s.2 = st.mem s.1 s.2 :=
    hung.kept (wf.walk_taken hs) (fun same => apart (Prod.ext same.1 same.2))
  rcases hung.nowhere with absent | ⟨deep, there, large⟩
  · obtain ⟨j, hj, next⟩ := walk_next at_k hung.short others absent there' small'
    rw [leads] at next
    have blank : present (st'.mem c j) = false := by
      rw [hung.filled j hj, absent]
      simp
    have before := translate_absent on absent
    have after := translate_absent next blank
    exact ⟨fun leaf => leaf.translated after, fun leaf => leaf.translated before,
      by rw [before, after]⟩
  · obtain ⟨super, region⟩ := wf.regions p b hung.node deep i hung.index there large
    refine ⟨?_, fun leaf => ?_, ?_⟩
    · -- the leaf would be one of the pieces, which are the supervisor's
      rintro ⟨e, found, -, allowed⟩
      obtain ⟨⟨d, j⟩, at_3, rfl⟩ := Option.map_eq_some_iff.mp found
      obtain ⟨q, node, length, path⟩ := walk_table at_3
      have whole : j :: q = pathOf a := path.eq_of_length (by simp [length, pathOf])
      have same : i :: p = q := by
        rw [← whole, List.suffix_cons_iff] at suffix
        rcases suffix with bad | suffix
        · have lengths := congrArg List.length bad
          simp only [List.length_cons] at lengths
          omega
        · exact suffix.eq_of_length (by simp [length, deep])
      rw [hung.nodes wf, if_pos same.symm] at node
      cases Option.some.inj node
      rw [hung.filled j (index_lt path), there] at allowed
      simp at allowed
    · have marked := wf.marked a leaf _ on
      rw [super] at marked
      cases marked
    · refine translate_split (deep ▸ at_k)
        (fun k' at_k' => (wf.walk_place hung.node at_k').1.trans deep) others there large there'
        small' (by simp [hung.entry]) region ?_
      intro j hj
      rw [leads, hung.filled j hj, there]
      rfl

theorem wellFormed (wf : WellFormed space st) (hung : Hung space p b i st st' c) :
    WellFormed space st' := by
  have old (q : Path) (at_c : nodeAt st.mem (tablesOf space) q = some c) : False := by
    have free := hung.free
    rw [wf.taken q c at_c] at free
    cases free
  constructor
  case distinct =>
    intro q r d at_q at_r
    rcases hung.origin wf at_q with left | ⟨rfl, rfl⟩
    · rcases hung.origin wf at_r with right | ⟨rfl, rfl⟩
      · exact wf.distinct q r d left right
      · exact (old q left).elim
    · rcases hung.origin wf at_r with right | ⟨rfl, -⟩
      · exact (old r right).elim
      · rfl
  case taken =>
    intro q d at_q
    rcases hung.origin wf at_q with before | ⟨-, rfl⟩
    · exact hung.grows _ (wf.taken q d before)
    · rw [Vmm.usedAt, hung.used]
      simp
  case regions =>
    intro q d at_q deep j hj there large
    rcases hung.origin wf at_q with before | ⟨rfl, rfl⟩
    · by_cases at_entry : d = b ∧ j = i
      · rw [at_entry.1, at_entry.2, hung.leads.2.1] at large
        cases large
      · rw [hung.kept (wf.taken q d before) at_entry] at there large ⊢
        exact wf.regions q d before deep j hj there large
    · rcases hung.nowhere with absent | ⟨bad, -, -⟩
      · rw [hung.filled j hj, absent] at there
        simp at there
      · rw [List.length_cons] at deep
        omega
  case marked =>
    intro a leaf
    by_cases on : (b, i) ∈ walkSlots st.mem space a
    · exact ((hung.on_walk wf on).1 leaf).elim
    · obtain ⟨walks, same⟩ := hung.off_walk wf on
      have before : UserLeaf st.mem space a := by
        rw [UserLeaf, leafEntry_kept walks fun d j at_3 => same (d, j) (List.mem_of_getElem? at_3)]
          at leaf
        exact leaf
      intro s hs
      rw [walks] at hs
      rw [same s hs]
      exact wf.marked a before s hs

theorem translated (wf : WellFormed space st) (hung : Hung space p b i st st' c) (a : Word) :
    translate st'.mem space a = translate st.mem space a := by
  by_cases on : (b, i) ∈ walkSlots st.mem space a
  · obtain ⟨after, before, seen⟩ := hung.on_walk wf on
    exact wf.translate_eq (hung.wellFormed wf) seen (iff_of_false after before)
  · exact looks_true (translate_alike fun s hs => Alike.of_eq ((hung.off_walk wf on).2 s hs))

/-- One more table on the way down `P`. -/
theorem extended (wf : WellFormed space st) (hung : Hung space p b i st st' c)
    (onPath : i :: p <:+ P) : Extended space P st st' where
  wf := hung.wellFormed wf
  kernel := hung.kernel
  grows := hung.grows
  kept := fun q d before => by
    rw [hung.nodes wf, if_neg, before]
    rintro rfl
    rw [hung.absent] at before
    cases before
  fresh := fun q d absent after => by
    rcases hung.origin wf after with before | ⟨-, rfl⟩
    · rw [absent] at before
      cases before
    · exact hung.free
  took := fun f used => by
    rw [hung.used, Bool.or_eq_true, decide_eq_true_iff] at used
    rcases used with used | rfl
    · exact Or.inl used
    · exact Or.inr ⟨i :: p, c, by rw [hung.nodes wf, if_pos rfl], rfl⟩
  count := by
    have split : (P.tails.toFinset.filter fun q => nodeAt st.mem (tablesOf space) q = none) =
        insert (i :: p)
          (P.tails.toFinset.filter fun q => nodeAt st'.mem (tablesOf space) q = none) := by
      ext q
      simp only [Finset.mem_filter, Finset.mem_insert, List.mem_toFinset, List.mem_tails,
        hung.nodes wf]
      by_cases here : q = i :: p
      · simp [here, hung.absent, onPath]
      · simp [here]
    have new : i :: p ∉
        P.tails.toFinset.filter fun q => nodeAt st'.mem (tablesOf space) q = none := by
      simp [hung.nodes wf]
    obtain ⟨st₁, taken, pmm⟩ := hung.taken
    have counted := taken.count
    rw [missing, split, Finset.card_insert_of_notMem new, ← missing]
    simp only [Vmm.freeCount] at counted ⊢
    rw [pmm]
    omega
  frame := fun d used apart => by
    funext j
    refine hung.kept used ?_
    rintro ⟨rfl, -⟩
    exact apart p hung.node
  translated := hung.translated wf
  rights := fun upper q d at_q short j hj there => by
    by_cases at_entry : d = b ∧ j = i
    · rw [at_entry.1, at_entry.2, hung.entry]
      simp
    · rcases hung.origin wf at_q with before | ⟨rfl, rfl⟩
      · rw [hung.kept (wf.taken q d before) at_entry] at there ⊢
        exact upper q d before short j hj there
      · rcases hung.nowhere with absent | ⟨bad, -, -⟩
        · rw [hung.filled j hj, absent] at there
          simp at there
        · rw [List.length_cons] at short
          omega
  marks := fun d j used allowed => by
    by_cases at_entry : d = b ∧ j = i
    · rw [at_entry.1, at_entry.2, hung.entry]
      simp
    · rw [hung.kept used at_entry, allowed]

end Hung

theorem WellFormed.hang (wf : WellFormed space st)
    (node : nodeAt st.mem (tablesOf space) p = some b)
    (absent : nodeAt st.mem (tablesOf space) (i :: p) = none) (short : p.length ≤ 2)
    (hi : i < entriesPerTable) {st₁ st₂ : Vmm} (taken : Taken st st₁ c) (pmm : st₂.pmm = st₁.pmm)
    (kernel : st₂.kernelPml4 = st.kernelPml4) (others : ∀ d, d ≠ c → st₂.mem d = st.mem d)
    (filled : ∀ j < entriesPerTable,
      st₂.mem c j = if present (st.mem b i) then Vmm.splitEntry (st.mem b i) j else 0) :
    Hung space p b i st
      (st₂.setEntry b i (c ||| pagePresent ||| pageWritable ||| pageUser)) c := by
  have other : c ≠ b := by
    rintro rfl
    have free := taken.free
    rw [wf.taken p c node] at free
    cases free
  refine ⟨node, absent, short, hi, ⟨st₁, taken, pmm⟩, kernel, put_same, fun j hj => ?_,
    fun d j apart off => ?_⟩
  · rw [Vmm.setEntry_mem, put_table other, filled j hj]
  · rw [Vmm.setEntry_mem, put_other off, others d apart]

end
end MiniKernel.Memory.Paging
