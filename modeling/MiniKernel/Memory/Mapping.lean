import MiniKernel.Memory.Translations

/-!
# Mapping a page

Source: kernel/mm/vmm.c:34-156. `Grown` sums up what any number of placed
tables along one path does; `vmm_map_page_in` is that and one entry on top.
-/
namespace MiniKernel.Memory.Paging
open Lib Lib.Radix

section
variable {K : Nat → Bool} {roots : List Word} {st st' st'' : Vmm} {T : Tree Word Word}
  {p P : Path} {r a b c d : Word} {i j : Nat}

/-- How many tables on the way down `P` are still missing. -/
def missing (mem : Tables) (T : Tree Word Word) (P : Path) : Nat :=
  (P.tails.toFinset.filter fun q => nodeAt mem T q = none).card

/-- Tables were placed along the path `P` of the tree `T`, and nothing else
happened. -/
structure Grown (K : Nat → Bool) (roots : List Word) (T : Tree Word Word) (P : Path)
    (st st' : Vmm) : Prop where
  inv : Spaces K roots st'
  kernel : st'.kernelPml4 = st.kernelPml4
  grows : Grows st.pmm st'.pmm
  elsewhere : ∀ S, forest K st.kernelPml4 roots S → ∀ q, ¬(S = T ∧ q <:+ P) →
    nodeAt st'.mem S q = nodeAt st.mem S q
  kept : ∀ q d, nodeAt st.mem T q = some d → nodeAt st'.mem T q = some d
  fresh : ∀ q d, nodeAt st.mem T q = none → nodeAt st'.mem T q = some d → st.usedAt d = false
  took : ∀ f, isUsed st'.pmm f = true → isUsed st.pmm f = true ∨
    ∃ q d, nodeAt st.mem T q = none ∧ nodeAt st'.mem T q = some d ∧ f = frameOf d.toNat
  count : st'.freeCount + missing st.mem T P = st.freeCount + missing st'.mem T P
  frame : ∀ d j, st.usedAt d = true → (∀ q, j :: q <:+ P → nodeAt st.mem T q ≠ some d) →
    st'.mem d j = st.mem d j
  looks : ∀ exact, (exact = true → T ≠ kernelTree K st.kernelPml4) → ∀ r a, Live roots st r →
    looks exact (translate st'.mem r a) = looks exact (translate st.mem r a)
  rights : UpperWritable st.mem T → UpperWritable st'.mem T

theorem Grown.refl (inv : Spaces K roots st) : Grown K roots T P st st where
  inv := inv
  kernel := rfl
  grows := Grows.refl _
  elsewhere := fun _ _ _ _ => rfl
  kept := fun _ _ node => node
  fresh := fun q d absent node => by rw [absent] at node; cases node
  took := fun _ used => Or.inl used
  count := rfl
  frame := fun _ _ _ _ => rfl
  looks := fun _ _ _ _ _ => rfl
  rights := fun upper => upper

theorem Grown.trans (first : Grown K roots T P st st') (second : Grown K roots T P st' st'') :
    Grown K roots T P st st'' where
  inv := second.inv
  kernel := second.kernel.trans first.kernel
  grows := first.grows.trans second.grows
  elsewhere := fun S hs q apart => by
    rw [second.elsewhere S (first.kernel.symm ▸ hs) q apart, first.elsewhere S hs q apart]
  kept := fun q d node => second.kept q d (first.kept q d node)
  fresh := fun q d absent node => by
    cases between : nodeAt st'.mem T q with
    | none =>
      have free := second.fresh q d between node
      cases used : st.usedAt d with
      | false => rfl
      | true =>
        have := first.grows _ used
        rw [Vmm.usedAt, this] at free
        cases free
    | some e =>
      have := (second.kept q e between).symm.trans node
      rw [← Option.some.inj this]
      exact first.fresh q e absent between
  took := fun f used => by
    rcases second.took f used with used | ⟨q, d, absent, node, rfl⟩
    · rcases first.took f used with used | ⟨q, d, absent, node, rfl⟩
      · exact Or.inl used
      · exact Or.inr ⟨q, d, absent, second.kept q d node, rfl⟩
    · refine Or.inr ⟨q, d, ?_, node, rfl⟩
      cases before : nodeAt st.mem T q with
      | none => rfl
      | some e =>
        rw [first.kept q e before] at absent
        cases absent
  count := by
    have h₁ := first.count
    have h₂ := second.count
    omega
  frame := fun d j used off => by
    rw [second.frame d j (first.grows _ used) ?_, first.frame d j used off]
    intro q suffix node
    cases before : nodeAt st.mem T q with
    | none =>
      rw [first.fresh q d before node] at used
      cases used
    | some e =>
      have := (first.kept q e before).symm.trans node
      rw [Option.some.inj this] at before
      exact off q suffix before
  looks := fun exact owned r a live => by
    have live' : Live roots st' r := by rwa [Live, first.kernel]
    rw [second.looks exact (first.kernel.symm ▸ owned) r a live', first.looks exact owned r a live]
  rights := fun upper => second.rights (first.rights upper)

theorem Placed.kept (placed : Placed K roots T p b i st st' c)
    (member : forest K st.kernelPml4 roots T) (q : Path) (d : Word)
    (before : nodeAt st.mem T q = some d) : nodeAt st'.mem T q = some d := by
  by_cases here : q = i :: p
  · subst here
    rcases placed.how with ⟨found, -⟩ | ⟨absent, -⟩
    · rw [placed.node, ← found, before]
    · rw [absent] at before
      cases before
  · rw [placed.elsewhere T member q (fun at_q => here at_q.2), before]

/-- Tables are hung under entries that can be written through. -/
theorem Placed.rights (inv : Spaces K roots st) (placed : Placed K roots T p b i st st' c)
    (member : forest K st.kernelPml4 roots T) (node : nodeAt st.mem T p = some b)
    (upper : UpperWritable st.mem T) : UpperWritable st'.mem T := by
  intro q d at_q short j hj there
  by_cases at_entry : d = b ∧ j = i
  · obtain ⟨rfl, rfl⟩ := at_entry
    rcases placed.how with ⟨-, -, marked⟩ | ⟨-, -, hung, -⟩
    · have before : nodeAt st.mem T q = some d := by
        by_cases here : q = j :: p
        · -- the table is at `p`, and not below itself
          obtain ⟨-, same⟩ := placed.inv.separate T (placed.kernel.symm ▸ member) T
            (placed.kernel.symm ▸ member) q p d at_q (placed.kept member p d node)
          rw [here] at same
          exact absurd (congrArg List.length same) (by simp)
        · rw [← placed.elsewhere T member q fun at_q => here at_q.2]
          exact at_q
      rw [marked] at there ⊢
      simp only [present_or, present_pageUser, Bool.or_false] at there
      rw [writable_or, upper q d before short j hj there, Bool.true_or]
    · rw [hung]
      simp
  · by_cases here : q = i :: p
    · subst here
      cases Option.some.inj (at_q.symm.trans placed.node)
      rcases placed.how with ⟨found, -, -⟩ | ⟨absent, ⟨st₁, taken, -⟩, -, filled⟩
      · have used := (inv.tables T member _ c found).2
        rw [placed.frame c j used at_entry] at there ⊢
        exact upper _ c found short j hj there
      · rw [filled j hj] at there ⊢
        cases was : present (st.mem b i) with
        | false => simp [was] at there
        | true =>
          simp only [if_true]
          rw [writable_splitEntry]
          have linked := (nodeAt_step (placed.kept member p b node) i).symm.trans placed.node
          exact upper p b node (by simp at short; omega) i
            (forest_bounded member i p _ c linked) was
    · rw [placed.elsewhere T member q fun at_q => here at_q.2] at at_q
      rw [placed.frame d j (inv.tables T member q d at_q).2 at_entry] at there ⊢
      exact upper q d at_q short j hj there

theorem Placed.grown (inv : Spaces K roots st) (placed : Placed K roots T p b i st st' c)
    (member : forest K st.kernelPml4 roots T) (node : nodeAt st.mem T p = some b)
    (short : p.length ≤ 2)
    (inside : p = [] → T ≠ kernelTree K st.kernelPml4 ∧ K i = false) (onPath : i :: p <:+ P) :
    Grown K roots T P st st' where
  inv := placed.inv
  kernel := placed.kernel
  grows := by
    rcases placed.how with ⟨-, pmm, -⟩ | ⟨-, ⟨st₁, taken, pmm⟩, -⟩
    · exact pmm ▸ Grows.refl _
    · exact pmm ▸ taken.grows
  elsewhere := fun S hs q apart => placed.elsewhere S hs q (by
    rintro ⟨rfl, rfl⟩
    exact apart ⟨rfl, onPath⟩)
  kept := placed.kept member
  fresh := fun q d absent after => by
    by_cases here : q = i :: p
    · subst here
      rcases placed.how with ⟨found, -⟩ | ⟨-, ⟨st₁, taken, -⟩, -⟩
      · rw [found] at absent
        cases absent
      · rw [placed.node] at after
        rw [← Option.some.inj after]
        exact taken.free
    · rw [placed.elsewhere T member q (fun at_q => here at_q.2), absent] at after
      cases after
  took := fun f used => by
    rcases placed.how with ⟨-, pmm, -⟩ | ⟨absent, ⟨st₁, taken, pmm⟩, -⟩
    · exact Or.inl (pmm ▸ used)
    · rw [pmm, taken.used, Bool.or_eq_true, decide_eq_true_iff] at used
      rcases used with used | rfl
      · exact Or.inl used
      · exact Or.inr ⟨_, c, absent, placed.node, rfl⟩
  count := by
    rcases placed.how with ⟨found, pmm, -⟩ | ⟨absent, ⟨st₁, taken, pmm⟩, -⟩
    · have same (q : Path) : nodeAt st'.mem T q = nodeAt st.mem T q := by
        by_cases here : q = i :: p
        · rw [here, placed.node, found]
        · exact placed.elsewhere T member q (fun at_q => here at_q.2)
      simp only [missing, same, Vmm.freeCount, pmm]
    · have split : (P.tails.toFinset.filter fun q => nodeAt st.mem T q = none) =
          insert (i :: p) (P.tails.toFinset.filter fun q => nodeAt st'.mem T q = none) := by
        ext q
        simp only [Finset.mem_filter, Finset.mem_insert, List.mem_toFinset, List.mem_tails]
        by_cases here : q = i :: p
        · simp [here, absent, onPath]
        · rw [placed.elsewhere T member q (fun at_q => here at_q.2)]
          simp [here]
      have new : i :: p ∉ P.tails.toFinset.filter fun q => nodeAt st'.mem T q = none := by
        simp [placed.node]
      have counted := taken.count
      rw [missing, split, Finset.card_insert_of_notMem new, ← missing]
      simp only [Vmm.freeCount] at counted ⊢
      rw [pmm]
      omega
  frame := fun d j used off => placed.frame d j used (by
    rintro ⟨rfl, rfl⟩
    exact off p onPath node)
  looks := fun exact owned r a live => placed.looks inv member node short inside owned live
  rights := placed.rights inv member node

/-! ## The functions of the source -/

theorem enterTable_eq (b : Word) (i : Nat) (st : Vmm) :
    st.enterTable b i =
      (some (target (st.mem b i)), st.setEntry b i (st.mem b i ||| pageUser)) := by
  unfold Vmm.enterTable
  simp only [Vmm.setEntry_mem, put_same, and_pageAddrMask, target_or, target_pageUser]
  rw [show target (st.mem b i) ||| 0 = target (st.mem b i) from BitVec.or_zero]

theorem getOrCreateTable_present (there : present (st.mem b i) = true) :
    st.getOrCreateTable b i = st.enterTable b i := by
  rw [Vmm.getOrCreateTable, if_neg (by rw [and_pagePresent, there]; decide)]

theorem getOrCreateTable_absent (absent : present (st.mem b i) = false) :
    st.getOrCreateTable b i = st.createTable b i := by
  rw [Vmm.getOrCreateTable, if_pos (by rw [and_pagePresent, absent])]

theorem createTable_none (failed : st.allocFrame = (0, st')) :
    st.createTable b i = (none, st') := by
  rw [Vmm.createTable, failed]
  exact if_pos rfl

theorem createTable_some {frame : Word} {st₁ : Vmm} (alloc : st.allocFrame = (frame, st₁))
    (nonzero : frame ≠ 0) :
    st.createTable b i = ((st₁.fillTable frame (fun _ => 0) entriesPerTable).setEntry b i
      (frame ||| pagePresent ||| pageWritable)).enterTable b i := by
  rw [Vmm.createTable, alloc]
  exact if_neg nonzero

/-- What the allocator's answer and a filled table come to. -/
theorem fillTable_taken {frame : Word} {st₁ : Vmm} (taken : Taken st st₁ frame)
    (entry : Nat → Word) :
    ∃ st₂, st₁.fillTable frame entry entriesPerTable = st₂ ∧ st₂.pmm = st₁.pmm ∧
      st₂.kernelPml4 = st.kernelPml4 ∧ (∀ d, d ≠ frame → st₂.mem d = st.mem d) ∧
      ∀ j < entriesPerTable, st₂.mem frame j = entry j := by
  refine ⟨_, rfl, Vmm.fillTable_pmm .., (Vmm.fillTable_kernelPml4 ..).trans taken.kernel, ?_, ?_⟩
  · intro d apart
    funext j
    rw [Vmm.fillTable_mem, if_neg (fun at_frame => apart at_frame.1), taken.mem]
  · intro j hj
    rw [Vmm.fillTable_mem, if_pos ⟨rfl, hj⟩]

/-- An empty entry leads nowhere, in any tree. -/
theorem forest_blank (member : forest K b roots T) : T.link p 0 = none := by
  obtain ⟨slots, leaves, link⟩ := forest_link member
  rw [link, treeLink_eq_none]
  cases leads : follows slots leaves p 0 with
  | false => rfl
  | true => exact absurd (follows_present leads) (by decide)

/-- `get_or_create_table` fails only when there is no table and no frame. -/
theorem getOrCreateTable_spec (inv : Spaces K roots st) (member : forest K st.kernelPml4 roots T)
    (node : nodeAt st.mem T p = some b) (short : p.length ≤ 1) (hi : i < entriesPerTable)
    (inside : p = [] → T ≠ kernelTree K st.kernelPml4 ∧ K i = false) :
    (∃ c st', st.getOrCreateTable b i = (some c, st') ∧ Placed K roots T p b i st st' c) ∨
      (st.getOrCreateTable b i = (none, st) ∧ nodeAt st.mem T (i :: p) = none ∧
        st.freeCount = 0) := by
  have down := forest_follows member (e := st.mem b i) (by omega) hi inside
  have flat : p.length ≠ 2 := by omega
  cases there : present (st.mem b i) with
  | true =>
    have below : nodeAt st.mem T (i :: p) = some (target (st.mem b i)) := by
      rw [nodeAt_step node, down, if_pos ⟨there, fun deep => absurd deep flat⟩]
    left
    rw [getOrCreateTable_present there, enterTable_eq]
    exact ⟨_, _, rfl, inv.mark member node below (by omega) inside⟩
  | false =>
    have absent : nodeAt st.mem T (i :: p) = none := by
      rw [nodeAt_step node, down, if_neg (by simp [there])]
    rw [getOrCreateTable_absent there]
    rcases Vmm.allocFrame_spec inv.zero with ⟨failed, none_⟩ | ⟨c, st₁, alloc, taken⟩
    · right
      exact ⟨createTable_none failed, absent, none_⟩
    · left
      rw [createTable_some alloc taken.nonzero]
      obtain ⟨st₂, made, pmm, kernel, others, zeroed⟩ := fillTable_taken taken (fun _ => 0)
      rw [made, enterTable_eq]
      have placed := inv.hang member node absent (by omega) hi inside taken pmm kernel others
        (fun j hj => by rw [zeroed j hj, there]; simp)
        (fun j hj => by rw [zeroed j hj]; exact forest_blank member) (fun _ => there)
      refine ⟨_, _, rfl, ?_⟩
      rw [Vmm.setEntry_mem, put_same, target_table taken.aligned, Vmm.setEntry, Vmm.setEntry_mem,
        put_put]
      exact placed

/-- At the top level, a kernel slot is found as it is. -/
theorem getOrCreateTable_shared (inv : Spaces K roots st) (live : Live roots st r)
    (hi : i < entriesPerTable) (slot : K i = true) :
    ∃ c, st.getOrCreateTable r i = (some c, st) ∧
      nodeAt st.mem (kernelTree K st.kernelPml4) [i] = some c := by
  have same : st.mem r i = st.mem st.kernelPml4 i := by
    rcases live with rfl | live
    · rfl
    · exact inv.shared r live i hi slot
  have there : present (st.mem st.kernelPml4 i) = true := (inv.kernelSlots i hi).trans slot
  have user_ : user (st.mem r i) = true := same ▸ inv.kernelUser i hi slot
  refine ⟨target (st.mem r i), ?_, ?_⟩
  · rw [getOrCreateTable_present (same ▸ there), enterTable_eq, or_pageUser_of_user user_,
      Vmm.setEntry, put_unchanged]
  · rw [same]
    simp [nodeAt, kernelTree, treeLink, follows, hi, slot, there]

theorem newPageTable_none {entry : Nat → Word} (failed : st.allocFrame = (0, st')) :
    st.newPageTable b i entry = (none, st') := by
  rw [Vmm.newPageTable, failed]
  exact if_pos rfl

theorem newPageTable_some {entry : Nat → Word} {frame : Word} {st₁ : Vmm}
    (alloc : st.allocFrame = (frame, st₁)) (nonzero : frame ≠ 0) :
    st.newPageTable b i entry =
      (some frame, (st₁.fillTable frame entry entriesPerTable).setEntry b i
        (frame ||| pagePresent ||| pageWritable ||| pageUser)) := by
  rw [Vmm.newPageTable, alloc]
  exact if_neg nonzero

theorem pageTableOf_table (there : present (st.mem b i) = true)
    (small : huge (st.mem b i) = false) :
    st.pageTableOf b i = (some (target (st.mem b i)), st) := by
  simp only [Vmm.pageTableOf]
  rw [if_pos (by rw [ne_eq, and_pagePresent, there]; decide),
    if_neg (by rw [not_ne_iff, and_pageSize2Mb, small]), and_pageAddrMask]

theorem pageTableOf_new (leadsNowhere : present (st.mem b i) = true → huge (st.mem b i) = true) :
    st.pageTableOf b i = st.newPageTable b i fun j =>
      if present (st.mem b i) then Vmm.splitEntry (st.mem b i) j else 0 := by
  simp only [Vmm.pageTableOf]
  cases there : present (st.mem b i) with
  | true =>
    rw [if_pos (by rw [ne_eq, and_pagePresent, there]; decide),
      if_pos (by rw [ne_eq, and_pageSize2Mb, leadsNowhere there]; decide)]
    simp
  | false =>
    rw [if_neg (by rw [not_ne_iff, and_pagePresent, there])]
    simp

/-- The end of `get_or_split_pt_entry`, from the page directory on. -/
theorem pageTableOf_spec (inv : Spaces K roots st) (member : forest K st.kernelPml4 roots T)
    (node : nodeAt st.mem T p = some b) (deep : p.length = 2) (hi : i < entriesPerTable) :
    (∃ c st', st.pageTableOf b i = (some c, st') ∧
        Placed K roots T p b i st (st'.setEntry b i (st'.mem b i ||| pageUser)) c) ∨
      (st.pageTableOf b i = (none, st) ∧ nodeAt st.mem T (i :: p) = none ∧ st.freeCount = 0) := by
  have inside : p = [] → T ≠ kernelTree K st.kernelPml4 ∧ K i = false := by
    rintro rfl
    cases deep
  have down := forest_follows member (e := st.mem b i) deep.le hi inside
  by_cases leads : present (st.mem b i) = true ∧ huge (st.mem b i) = false
  · have below : nodeAt st.mem T (i :: p) = some (target (st.mem b i)) := by
      rw [nodeAt_step node, down, if_pos ⟨leads.1, fun _ => leads.2⟩]
    left
    rw [pageTableOf_table leads.1 leads.2]
    exact ⟨_, _, rfl, inv.mark member node below deep.le inside⟩
  · have absent : nodeAt st.mem T (i :: p) = none := by
      rw [nodeAt_step node, down, if_neg (fun yes => leads ⟨yes.1, yes.2 deep⟩)]
    have nowhere : present (st.mem b i) = true → huge (st.mem b i) = true := by
      intro there
      by_contra small
      exact leads ⟨there, by simpa using small⟩
    rw [pageTableOf_new nowhere]
    rcases Vmm.allocFrame_spec inv.zero with ⟨failed, none_⟩ | ⟨c, st₁, alloc, taken⟩
    · right
      exact ⟨newPageTable_none failed, absent, none_⟩
    · left
      rw [newPageTable_some alloc taken.nonzero]
      obtain ⟨st₂, made, pmm, kernel, others, filled⟩ := fillTable_taken taken
        (fun j => if present (st.mem b i) then Vmm.splitEntry (st.mem b i) j else 0)
      rw [made]
      have bare (j : Nat) (hj : j < entriesPerTable) : T.link (j :: i :: p) (st₂.mem c j) = none := by
        rw [filled j hj]
        cases there : present (st.mem b i) with
        | false => exact forest_blank member
        | true =>
          -- only the kernel has 2 MiB pages, and its tree ends at page tables
          rcases member with rfl | ⟨r, live, rfl⟩
          · rcases p with _ | ⟨i₃, _ | ⟨i₄, _ | ⟨i₅, p⟩⟩⟩ <;> simp at deep
            simp [kernelTree, treeLink, follows]
          · have own := inv.own r live p b node deep.le i hi (fun top => (inside top).2) there
            rw [nowhere there] at own
            cases own.2
      have placed := inv.hang member node absent deep.le hi inside taken pmm kernel others filled
        bare (fun shallow => by omega)
      refine ⟨_, _, rfl, ?_⟩
      rw [Vmm.setEntry_mem, put_same, or_pageUser_of_user (by simp), Vmm.setEntry,
        Vmm.setEntry_mem, put_put]
      exact placed

theorem spaceTree_ne_kernelTree (K : Nat → Bool) (r s : Word) : spaceTree K r ≠ kernelTree K s := by
  intro same
  have link := congrArg (fun T => Tree.link T [0, 0, 0, 0] (pagePresent ||| pageUser)) same
  simp [spaceTree, kernelTree, treeLink, follows, entriesPerTable] at link

theorem Spaces.root_ne_kernel (inv : Spaces K roots st) (live : r ∈ roots) : r ≠ st.kernelPml4 := by
  rintro rfl
  exact spaceTree_ne_kernelTree K _ _
    (inv.separate _ (forest_space K _ live) _ (forest_kernel K _ roots) [] [] _ rfl rfl).1

theorem nodeAt_below_none (q : Path) (absent : nodeAt st.mem T p = none) :
    nodeAt st.mem T (q ++ p) = none := by
  cases found : nodeAt st.mem T (q ++ p) with
  | none => rfl
  | some c =>
    obtain ⟨b, above⟩ := nodeAt_above q found
    rw [absent] at above
    cases above

variable {va : Word}

/-- The path of an address down to its page table. -/
def tablePath (a : Word) : Path := [levelIndex 21 a, levelIndex 30 a, levelIndex 39 a]

/-- A mapping may be asked for in a space, anywhere, and in the kernel's own
space under the slots the kernel uses. -/
def Reaches (K : Nat → Bool) (roots : List Word) (st : Vmm) (r va : Word) : Prop :=
  Live roots st r ∧ (K (levelIndex 39 va) = true ∨ r ∈ roots)

/-- The first step of `get_or_split_pt_entry`. -/
theorem topTable_spec (inv : Spaces K roots st) (reach : Reaches K roots st r va) :
    (∃ c st', st.getOrCreateTable r (levelIndex 39 va) = (some c, st') ∧
        Grown K roots (walkTree K st.kernelPml4 r va) (tablePath va) st st' ∧
        nodeAt st'.mem (walkTree K st.kernelPml4 r va) [levelIndex 39 va] = some c) ∨
      (st.getOrCreateTable r (levelIndex 39 va) = (none, st) ∧
        nodeAt st.mem (walkTree K st.kernelPml4 r va) [levelIndex 39 va] = none ∧
        st.freeCount = 0) := by
  have hi : levelIndex 39 va < entriesPerTable := levelIndex_lt 39 va
  cases slot : K (levelIndex 39 va) with
  | true =>
    obtain ⟨c, found, node⟩ := getOrCreateTable_shared inv reach.1 hi slot
    rw [walkTree, if_pos slot]
    exact Or.inl ⟨c, st, found, Grown.refl inv, node⟩
  | false =>
    have own : r ∈ roots := reach.2.resolve_left (by simp [slot])
    have member := forest_space K st.kernelPml4 own
    have inside : ([] : Path) = [] → spaceTree K r ≠ kernelTree K st.kernelPml4 ∧
        K (levelIndex 39 va) = false := fun _ => ⟨spaceTree_ne_kernelTree K _ _, slot⟩
    rw [walkTree, if_neg (by simp [slot]), if_neg (inv.root_ne_kernel own)]
    rcases getOrCreateTable_spec inv member (b := r) rfl (Nat.zero_le _) hi inside with
      ⟨c, st', made, placed⟩ | failed
    · left
      refine ⟨c, st', made, placed.grown inv member rfl (Nat.zero_le _) inside ?_, placed.node⟩
      exact ⟨[levelIndex 21 va, levelIndex 30 va], rfl⟩
    · exact Or.inr failed

/-- `get_or_split_pt_entry` grows the tree along the address, and fails only
when the frames run out before the page table is there. -/
theorem getOrSplitPtEntry_spec (inv : Spaces K roots st) (reach : Reaches K roots st r va) :
    (∃ pt st', st.getOrSplitPtEntry r va = (some (pt, levelIndex 12 va), st') ∧
        Grown K roots (walkTree K st.kernelPml4 r va) (tablePath va) st st' ∧
        nodeAt st'.mem (walkTree K st.kernelPml4 r va) (tablePath va) = some pt) ∨
      (∃ st', st.getOrSplitPtEntry r va = (none, st') ∧
        Grown K roots (walkTree K st.kernelPml4 r va) (tablePath va) st st' ∧
        nodeAt st'.mem (walkTree K st.kernelPml4 r va) (tablePath va) = none ∧
        st'.freeCount = 0) := by
  have member : forest K st.kernelPml4 roots (walkTree K st.kernelPml4 r va) :=
    walkTree_forest reach.1
  have top := topTable_spec inv reach
  simp only [Vmm.getOrSplitPtEntry, pml4Index_eq, pdptIndex_eq, pdIndex_eq, ptIndex_eq]
  generalize walkTree K st.kernelPml4 r va = T at member top
  rcases top with ⟨pdpt, st₁, made₁, grown₁, node₁⟩ | ⟨failed, absent, none_⟩
  swap
  · right
    rw [failed]
    exact ⟨st, rfl, Grown.refl inv,
      nodeAt_below_none [levelIndex 21 va, levelIndex 30 va] absent, none_⟩
  have member₁ : forest K st₁.kernelPml4 roots T := grown₁.kernel.symm ▸ member
  have inside₁ : [levelIndex 39 va] = [] → T ≠ kernelTree K st₁.kernelPml4 ∧
      K (levelIndex 30 va) = false := by simp
  rw [made₁]
  dsimp only
  rcases getOrCreateTable_spec grown₁.inv member₁ node₁ (Nat.le_refl 1) (levelIndex_lt 30 va)
    inside₁ with ⟨pd, st₂, made₂, placed₂⟩ | ⟨failed, absent, none_⟩
  swap
  · right
    rw [failed]
    exact ⟨st₁, rfl, grown₁, nodeAt_below_none [levelIndex 21 va] absent, none_⟩
  have grown₂ := grown₁.trans (placed₂.grown grown₁.inv member₁ node₁ (by simp) inside₁
    (P := tablePath va) ⟨[levelIndex 21 va], rfl⟩)
  have member₂ : forest K st₂.kernelPml4 roots T := grown₂.kernel.symm ▸ member
  rw [made₂]
  dsimp only
  rcases pageTableOf_spec grown₂.inv member₂ placed₂.node rfl (levelIndex_lt 21 va) with
    ⟨pt, st₃, made₃, placed₃⟩ | ⟨failed, absent, none_⟩
  swap
  · right
    rw [failed]
    exact ⟨st₂, rfl, grown₂, absent, none_⟩
  left
  rw [made₃]
  exact ⟨pt, _, rfl, grown₂.trans (placed₃.grown grown₂.inv member₂ placed₂.node (Nat.le_refl 2)
    (by simp) (P := tablePath va) ⟨[], rfl⟩), placed₃.node⟩

/-! ## The page itself -/

theorem pathOf_eq (a : Word) : pathOf a = levelIndex 12 a :: tablePath a := rfl

theorem suffix_pathOf {q : Path} {a : Word} : q <:+ pathOf a ↔ q = pathOf a ∨ q <:+ tablePath a :=
  List.suffix_cons_iff

theorem pathOf_not_suffix (a : Word) : ¬pathOf a <:+ tablePath a := not_suffix_self _ _

theorem spaceTree_inj {K : Nat → Bool} {r s : Word} (same : spaceTree K r = spaceTree K s) : r = s :=
  congrArg Tree.root same

/-- No table is missing above a table that is there. -/
theorem missing_eq_zero {pt : Word} (node : nodeAt st.mem T P = some pt) :
    missing st.mem T P = 0 := by
  rw [missing, Finset.card_eq_zero, Finset.filter_eq_empty_iff]
  intro q suffix absent
  obtain ⟨q', rfl⟩ := (List.mem_tails _ _).mp (List.mem_toFinset.mp suffix)
  obtain ⟨above, there⟩ := nodeAt_above q' node
  rw [absent] at there
  cases there

theorem link_entry {e : Word} (link : ∃ slots leaves, T.link = treeLink slots leaves)
    (linked : T.link p e = some c) : present e = true ∧ target e = c := by
  obtain ⟨slots, leaves, link⟩ := link
  rw [link, treeLink_eq_some] at linked
  exact ⟨follows_present linked.1, linked.2⟩

/-- The entries on the way down to a page table that is there. -/
theorem table_entries {mem : Tables} {pt : Word}
    (link : ∃ slots leaves, T.link = treeLink slots leaves)
    (node : nodeAt mem T (tablePath va) = some pt) :
    ∃ t₃ t₂, nodeAt mem T [levelIndex 39 va] = some t₃ ∧
      nodeAt mem T [levelIndex 30 va, levelIndex 39 va] = some t₂ ∧
      (present (mem T.root (levelIndex 39 va)) = true ∧
        target (mem T.root (levelIndex 39 va)) = t₃) ∧
      (present (mem t₃ (levelIndex 30 va)) = true ∧
        target (mem t₃ (levelIndex 30 va)) = t₂) ∧
      present (mem t₂ (levelIndex 21 va)) = true ∧ huge (mem t₂ (levelIndex 21 va)) = false ∧
        target (mem t₂ (levelIndex 21 va)) = pt := by
  obtain ⟨t₂, node₂⟩ := nodeAt_above [levelIndex 21 va] node
  obtain ⟨t₃, node₃⟩ := nodeAt_above [levelIndex 30 va] node₂
  have l4 := node₃
  have l3 := node₂
  have l2 := node
  rw [nodeAt_step (@nodeAt_root _ _ mem T)] at l4
  rw [nodeAt_step node₃] at l3
  rw [tablePath, nodeAt_step node₂] at l2
  have small : huge (mem t₂ (levelIndex 21 va)) = false := by
    obtain ⟨slots, leaves, link⟩ := link
    rw [link, treeLink_eq_some] at l2
    have leads := l2.1
    simp only [follows, Bool.and_eq_true, Bool.not_eq_true'] at leads
    exact leads.2
  have e₂ := link_entry link l2
  exact ⟨t₃, t₂, node₃, node₂, link_entry link l4, link_entry link l3, e₂.1, small, e₂.2⟩

/-- Where the page table of a private address is there, its entry decides. -/
theorem Spaces.translate_leaf (inv : Spaces K roots st) (own : r ∈ roots)
    (slot : K (levelIndex 39 va) = false) {pt : Word}
    (node : nodeAt st.mem (spaceTree K r) (tablePath va) = some pt) :
    if present (st.mem pt (levelIndex 12 va)) = true then
      ∃ w, translate st.mem r va =
        some ⟨target (st.mem pt (levelIndex 12 va)), w, user (st.mem pt (levelIndex 12 va))⟩
    else translate st.mem r va = none := by
  have member := forest_space K st.kernelPml4 own
  obtain ⟨t₃, t₂, node₃, node₂, l4, l3, l2⟩ := table_entries (forest_link member) node
  have root : target r = r := (inv.rootTable own).1
  have u4 := inv.own r own [] r rfl (by simp) _ (levelIndex_lt 39 va) (fun _ => slot) l4.1
  have u3 := inv.own r own _ t₃ node₃ (by simp) _ (levelIndex_lt 30 va) (by simp) l3.1
  have u2 := inv.own r own _ t₂ node₂ (by simp) _ (levelIndex_lt 21 va) (by simp) l2.1
  have top : (spaceTree K r).root = r := rfl
  rw [top] at l4
  simp only [translate, root, l4.1, l4.2, l3.1, l3.2, l2.1, l2.2.1, l2.2.2, u4.1, u3.1, u2.1,
    Bool.true_eq_false, Bool.false_eq_true, if_false, Bool.true_and]
  cases there : present (st.mem pt (levelIndex 12 va)) with
  | false => simp
  | true => simp

/-- An entry of a page table is met on walks of its own page only. -/
theorem Spaces.leaf_translate {pt : Word} (inv : Spaces K roots st)
    (member : forest K st.kernelPml4 roots T) (node : nodeAt st.mem T (tablePath va) = some pt)
    (live : Live roots st r)
    (apart : ¬(walkTree K st.kernelPml4 r a = T ∧ pathOf a = pathOf va)) (e : Word) :
    translate (put st.mem pt (levelIndex 12 va) e) r a = translate st.mem r a := by
  change translate (st.setEntry pt (levelIndex 12 va) e).mem r a = _
  refine inv.translate_frame live (fun on => apart ?_)
    (fun d j _ other => put_other other)
  obtain ⟨k, at_k⟩ := List.mem_iff_getElem?.mp on
  obtain ⟨S, q, hs, at_q, deep, suffix, tree⟩ := inv.walk_node live at_k
  obtain ⟨rfl, rfl⟩ := inv.separate S hs T member q _ pt at_q node
  refine ⟨(tree (by simp [← deep, tablePath])).symm, ?_⟩
  exact (suffix.eq_of_length (by simp [tablePath, pathOf])).symm

/-- `vmm_map_page_in` has put a user page at a private address. -/
structure Mapped (K : Nat → Bool) (roots : List Word) (r va phys : Word) (st st' : Vmm) :
    Prop where
  inv : Spaces K roots st'
  kernel : st'.kernelPml4 = st.kernelPml4
  grows : Grows st.pmm st'.pmm
  node : nodeAt st'.mem (spaceTree K r) (pathOf va) = some phys
  elsewhere : ∀ S, forest K st.kernelPml4 roots S → ∀ q, ¬(S = spaceTree K r ∧ q <:+ pathOf va) →
    nodeAt st'.mem S q = nodeAt st.mem S q
  kept : ∀ q d, q ≠ pathOf va → nodeAt st.mem (spaceTree K r) q = some d →
    nodeAt st'.mem (spaceTree K r) q = some d
  tabled : ∀ q, q <:+ tablePath va → ∃ d, nodeAt st'.mem (spaceTree K r) q = some d
  fresh : ∀ q d, q ≠ pathOf va → nodeAt st.mem (spaceTree K r) q = none →
    nodeAt st'.mem (spaceTree K r) q = some d → st.usedAt d = false
  took : ∀ f, isUsed st'.pmm f = true → isUsed st.pmm f = true ∨
    ∃ q d, q ≠ pathOf va ∧ nodeAt st.mem (spaceTree K r) q = none ∧
      nodeAt st'.mem (spaceTree K r) q = some d ∧ f = frameOf d.toNat
  count : st'.freeCount + missing st.mem (spaceTree K r) (tablePath va) = st.freeCount
  frame : ∀ d j, st.usedAt d = true →
    (∀ q, j :: q <:+ pathOf va → nodeAt st.mem (spaceTree K r) q ≠ some d) →
    st'.mem d j = st.mem d j
  translated : ∀ s a, Live roots st s → ¬(s = r ∧ pathOf a = pathOf va) →
    translate st'.mem s a = translate st.mem s a
  here : ∃ w, translate st'.mem r va = some ⟨phys, w, true⟩

variable {phys flags : Word}

/-- The entry `vmm_map_page_in` writes. -/
def pageEntry (phys flags : Word) : Word :=
  (phys &&& pageAddrMask) ||| (flags &&& 0xFFF) ||| pagePresent

theorem present_pageEntry (phys flags : Word) : present (pageEntry phys flags) = true := by
  simp [pageEntry]

theorem getLsbD_low_flags (flags : Word) (k : Nat) (low : k < 12) :
    (flags &&& 0xFFF).getLsbD k = flags.getLsbD k := by
  have mask : ∀ k < 12, (0xFFF : Word).getLsbD k = true := by decide
  rw [BitVec.getLsbD_and, mask k low, Bool.and_true]

theorem user_pageEntry (phys flags : Word) : user (pageEntry phys flags) = user flags := by
  have low : user (flags &&& 0xFFF) = user flags := getLsbD_low_flags flags 2 (by decide)
  simp only [pageEntry, and_pageAddrMask, user_or, user_target, user_pagePresent, low,
    Bool.false_or, Bool.or_false]

theorem writable_pageEntry (phys flags : Word) :
    writable (pageEntry phys flags) = writable flags := by
  have low : writable (flags &&& 0xFFF) = writable flags := getLsbD_low_flags flags 1 (by decide)
  simp only [pageEntry, and_pageAddrMask, writable_or, writable_target, writable_pagePresent, low,
    Bool.false_or, Bool.or_false]

theorem target_pageEntry (phys flags : Word) : target (pageEntry phys flags) = target phys := by
  have low : target (flags &&& 0xFFF) = 0#64 := by
    apply BitVec.eq_of_getLsbD_eq
    intro k hk
    rw [getLsbD_target, BitVec.getLsbD_and]
    have mask : ∀ k < 64, ((0xFFF : Word).getLsbD k && decide (12 ≤ k ∧ k < 52)) = false := by
      decide
    rw [Bool.and_assoc, mask k hk]
    simp
  rw [pageEntry, and_pageAddrMask, target_or, target_or, target_target, low, target_pagePresent]
  simp

/-- Frames in use that were no table of a forest are none after it has grown. -/
theorem Grown.unlinked (grown : Grown K roots T P st st') (used : st.usedAt c = true)
    (apart : Unlinked st.mem (forest K st.kernelPml4 roots) c) :
    Unlinked st'.mem (forest K st.kernelPml4 roots) c := by
  intro S hs q node
  by_cases here : S = T ∧ q <:+ P
  · obtain ⟨rfl, -⟩ := here
    cases before : nodeAt st.mem S q with
    | none =>
      rw [grown.fresh q c before node] at used
      cases used
    | some d =>
      have same := (grown.kept q d before).symm.trans node
      rw [Option.some.inj same] at before
      exact apart S hs q before
  · rw [grown.elsewhere S hs q here] at node
    exact apart S hs q node

/-- Writing a user entry into a page table of a space. -/
theorem Spaces.leaf (inv : Spaces K roots st) (own : r ∈ roots) {pt e : Word}
    (node : nodeAt st.mem (spaceTree K r) (tablePath va) = some pt)
    (there : present e = true) (allowed : user e = true) (leads : target e = c)
    (used : st.usedAt c = true) (apart : Unlinked st.mem (forest K st.kernelPml4 roots) c) :
    Spaces K roots (st.setEntry pt (levelIndex 12 va) e) ∧
      nodeAt (put st.mem pt (levelIndex 12 va) e) (spaceTree K r) (pathOf va) = some c ∧
      ∀ S, forest K st.kernelPml4 roots S → ∀ q, ¬(S = spaceTree K r ∧ q = pathOf va) →
        nodeAt (put st.mem pt (levelIndex 12 va) e) S q = nodeAt st.mem S q := by
  have member := forest_space K st.kernelPml4 own
  have hi : levelIndex 12 va < entriesPerTable := levelIndex_lt 12 va
  have linked : (spaceTree K r).link (pathOf va) e = some c := by
    simp [spaceTree, treeLink, follows, pathOf, hi, there, allowed, leads]
  have bare (j : Nat) (e' : Word) : (spaceTree K r).link (j :: pathOf va) e' = none := by
    simp [spaceTree, treeLink, follows, pathOf]
  have sole := inv.separate.sole member node
  have other : c ≠ pt := by
    rintro rfl
    exact apart _ member _ node
  have sep := inv.separate.graft member node linked apart (fun j => bare j _)
  have here := (nodeAt_put_here sole).trans linked
  have elsewhere (S : Tree Word Word) (hs : forest K st.kernelPml4 roots S) (q : Path)
      (off : ¬(S = spaceTree K r ∧ q = pathOf va)) :
      nodeAt (put st.mem pt (levelIndex 12 va) e) S q = nodeAt st.mem S q := by
    by_cases same : S = spaceTree K r
    · subst same
      rw [nodeAt_put_graft sole linked other (fun j => bare j _), ← pathOf_eq,
        if_neg (fun at_q => off ⟨rfl, at_q⟩)]
      split
      · next below =>
        -- pages have nothing below them
        obtain ⟨q', rfl⟩ := below
        rcases List.eq_nil_or_concat q' with rfl | ⟨q'', j, rfl⟩
        · exact absurd ⟨rfl, rfl⟩ off
        · have leaf : nodeAt st.mem (spaceTree K r) (j :: pathOf va) = none := by
            rw [nodeAt]
            cases nodeAt st.mem (spaceTree K r) (pathOf va) with
            | none => rfl
            | some d => exact bare j _
          have := nodeAt_below_none q'' leaf
          rw [List.concat_eq_append, List.append_assoc]
          exact this.symm
      · rfl
    · exact inv.separate.nodeAt_elsewhere member node hs same q
  have origin (S : Tree Word Word) (hs : forest K st.kernelPml4 roots S) (q : Path) (d : Word)
      (at_q : nodeAt (put st.mem pt (levelIndex 12 va) e) S q = some d) :
      nodeAt st.mem S q = some d ∨ (q = pathOf va ∧ d = c) := by
    by_cases new : S = spaceTree K r ∧ q = pathOf va
    · obtain ⟨rfl, rfl⟩ := new
      rw [pathOf_eq, here] at at_q
      exact Or.inr ⟨rfl, (Option.some.inj at_q).symm⟩
    · rw [elsewhere S hs q new] at at_q
      exact Or.inl at_q
  -- the page table is at depth 3, so tables further up keep their entries
  have upper (S : Tree Word Word) (hs : forest K st.kernelPml4 roots S) (q : Path) (d : Word)
      (at_q : nodeAt st.mem S q = some d) (short : q.length ≤ 2) :
      (st.setEntry pt (levelIndex 12 va) e).mem d = st.mem d := by
    refine put_table ?_
    rintro rfl
    obtain ⟨-, rfl⟩ := inv.separate S hs _ member q _ d at_q node
    simp [tablePath] at short
  refine ⟨?_, here, elsewhere⟩
  refine inv.of_entry member node (i := levelIndex 12 va) (by simp [tablePath]) rfl (Grows.refl _)
    (fun d j _ off => put_other off) sep ?_ ?_ ?_
  · intro S hs q d at_q
    rcases origin S hs q d at_q with old | ⟨-, rfl⟩
    · exact inv.tables S hs q d old
    · exact ⟨leads ▸ aligned_target e, used⟩
  · intro s live q d at_q short j hj private_ present_
    rcases origin _ (forest_space K _ live) q d at_q with old | ⟨rfl, -⟩
    · rw [upper _ (forest_space K _ live) q d old short] at present_ ⊢
      exact inv.own s live q d old short j hj private_ present_
    · simp [pathOf] at short
  · intro q d at_q deep j hj present_ large
    rcases origin _ (forest_kernel K _ roots) q d at_q with old | ⟨rfl, -⟩
    · rw [upper _ (forest_kernel K _ roots) q d old deep.le] at present_ large ⊢
      exact inv.regions q d old deep j hj present_ large
    · simp [pathOf] at deep

theorem walkTree_own (inv : Spaces K roots st) (own : r ∈ roots)
    (slot : K (levelIndex 39 va) = false) :
    walkTree K st.kernelPml4 r va = spaceTree K r := by
  rw [walkTree, if_neg (by simp [slot]), if_neg (inv.root_ne_kernel own)]

/-- `vmm_map_page_in` of a user page at a private address: the page is there
afterwards, or the frames ran out before its page table was. -/
theorem vmmMapPageIn_spec (inv : Spaces K roots st) (own : r ∈ roots)
    (slot : K (levelIndex 39 va) = false) (allowed : user flags = true) (aligned : Aligned phys)
    (used : st.usedAt phys = true)
    (apart : Unlinked st.mem (forest K st.kernelPml4 roots) phys) :
    (∃ st', st.vmmMapPageIn r va phys flags = (true, st') ∧ Mapped K roots r va phys st st') ∨
      (∃ st', st.vmmMapPageIn r va phys flags = (false, st') ∧
        Grown K roots (spaceTree K r) (tablePath va) st st' ∧
        nodeAt st'.mem (spaceTree K r) (tablePath va) = none ∧ st'.freeCount = 0) := by
  have root : spacePml4 r = r := by
    rw [spacePml4, and_pageAddrMask]
    exact (inv.rootTable own).1
  have tree := walkTree_own inv own slot
  simp only [Vmm.vmmMapPageIn, root]
  rcases getOrSplitPtEntry_spec inv
    (show Reaches K roots st r va from ⟨Or.inr own, Or.inr own⟩) with
    ⟨pt, st₁, made, grown, node⟩ | ⟨st₁, failed, grown, absent, none_⟩
  swap
  · right
    rw [tree] at grown absent
    rw [failed]
    exact ⟨st₁, rfl, grown, absent, none_⟩
  left
  rw [tree] at grown node
  rw [made]
  have kernel := grown.kernel
  have used₁ : st₁.usedAt phys = true := grown.grows _ used
  have leads : target (pageEntry phys flags) = phys := (target_pageEntry phys flags).trans aligned
  have user_ := (user_pageEntry phys flags).trans allowed
  obtain ⟨inv₂, here, elsewhere⟩ := grown.inv.leaf own node (present_pageEntry phys flags) user_
    leads used₁ (kernel.symm ▸ grown.unlinked used apart)
  rw [kernel] at elsewhere
  have member := forest_space K st.kernelPml4 own
  have keep (q : Path) (off : q ≠ pathOf va) :
      nodeAt (put st₁.mem pt (levelIndex 12 va) (pageEntry phys flags)) (spaceTree K r) q =
        nodeAt st₁.mem (spaceTree K r) q :=
    elsewhere _ member q (fun at_q => off at_q.2)
  refine ⟨_, rfl, ?_⟩
  constructor
  case inv => exact inv₂
  case kernel => exact kernel
  case grows => exact grown.grows
  case node => exact here
  case elsewhere =>
    intro S hs q off
    refine (elsewhere S hs q fun at_q => off ⟨at_q.1, at_q.2 ▸ List.suffix_refl _⟩).trans ?_
    exact grown.elsewhere S hs q fun on => off ⟨on.1, suffix_pathOf.mpr (Or.inr on.2)⟩
  case kept =>
    intro q d off before
    exact (keep q off).trans (grown.kept q d before)
  case tabled =>
    rintro q ⟨q', split⟩
    have node' := node
    rw [← split] at node'
    obtain ⟨d, above⟩ := nodeAt_above q' node'
    refine ⟨d, (keep q ?_).trans above⟩
    rintro rfl
    exact pathOf_not_suffix va ⟨q', split⟩
  case fresh =>
    intro q d off absent after
    exact grown.fresh q d absent ((keep q off).symm.trans after)
  case took =>
    intro f taken
    rcases grown.took f taken with old | ⟨q, d, absent, after, rfl⟩
    · exact Or.inl old
    · have off : q ≠ pathOf va := by
        rintro rfl
        have same := grown.elsewhere _ member (pathOf va) fun on => pathOf_not_suffix va on.2
        rw [after, absent] at same
        cases same
      exact Or.inr ⟨q, d, off, absent, (keep q off).trans after, rfl⟩
  case count =>
    have counted := grown.count
    rw [missing_eq_zero node, Nat.add_zero] at counted
    rw [Vmm.setEntry_freeCount, counted]
  case frame =>
    intro d j taken off
    have other : ¬(d = pt ∧ j = levelIndex 12 va) := by
      rintro ⟨rfl, rfl⟩
      cases before : nodeAt st.mem (spaceTree K r) (tablePath va) with
      | none =>
        rw [grown.fresh _ _ before node] at taken
        cases taken
      | some d' =>
        have same := (grown.kept _ _ before).symm.trans node
        rw [Option.some.inj same] at before
        exact off _ (pathOf_eq va ▸ List.suffix_refl _) before
    refine (put_other other).trans ?_
    exact grown.frame d j taken fun q on => off q (on.trans (List.suffix_cons _ _))
  case translated =>
    intro s a live off
    have live₁ : Live roots st₁ s := by rwa [Live, kernel]
    have same := grown.looks true (fun _ => spaceTree_ne_kernelTree K _ _) s a live
    refine Eq.trans (grown.inv.leaf_translate (kernel.symm ▸ member) node live₁ ?_ _) (looks_true same)
    rintro ⟨tree', path⟩
    refine off ⟨?_, path⟩
    rw [walkTree] at tree'
    split at tree'
    · exact absurd tree'.symm (spaceTree_ne_kernelTree K _ _)
    · split at tree'
      · exact absurd tree'.symm (spaceTree_ne_kernelTree K _ _)
      · exact spaceTree_inj tree'
  case here =>
    have node₂ : nodeAt (put st₁.mem pt (levelIndex 12 va) (pageEntry phys flags))
        (spaceTree K r) (tablePath va) = some pt := by
      rw [keep _ (fun same => pathOf_not_suffix va (same ▸ List.suffix_refl _))]
      exact node
    have leaf := inv₂.translate_leaf own slot node₂
    rw [Vmm.setEntry_mem, put_same, if_pos (present_pageEntry phys flags), leads, user_] at leaf
    exact leaf

end

end MiniKernel.Memory.Paging
