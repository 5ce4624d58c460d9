import MiniKernel.Memory.SpaceTables

/-!
# Mapping and unmapping a page of any space

Source: kernel/mm/vmm.c:34-71, 85-171, 348-370. A call places tables down to
that of its page and writes one entry there, or runs out of frames on the way;
no other page notices either.
-/
namespace MiniKernel.Memory.Paging
open Lib Lib.Radix

section
variable {space a b c : Word} {mem : Tables} {st st' st'' : Vmm} {p P : Path} {i : Nat}

/-! ## The functions of the source -/

/-- `pmm_alloc_frame` answered "none": the frames are all in use, or the one it
found was frame 0, which its callers take for "none". -/
structure Refused (st st' : Vmm) : Prop where
  mem : st'.mem = st.mem
  kernel : st'.kernelPml4 = st.kernelPml4
  grows : Grows st.pmm st'.pmm
  took : ∀ f, isUsed st'.pmm f = true → isUsed st.pmm f = true ∨ f = 0
  full : isUsed st.pmm 0 = true → st' = st ∧ st.freeCount = 0

theorem Vmm.allocFrame_cases (st : Vmm) :
    (∃ st', st.allocFrame = (0, st') ∧ Refused st st') ∨
      ∃ frame st', st.allocFrame = (frame, st') ∧ Taken st st' frame := by
  cases zero : isUsed st.pmm 0 with
  | true =>
    rcases allocFrame_spec zero with ⟨failed, none_⟩ | taken
    · exact Or.inl ⟨st, failed, rfl, rfl, Grows.refl _, fun _ used => Or.inl used,
        fun _ => ⟨rfl, none_⟩⟩
    · exact Or.inr taken
  | false =>
    have full : isUsed st.pmm 0 = true → st.allocFrame.2 = st ∧ st.freeCount = 0 := by simp [zero]
    rcases pmmAllocFrame_spec st.pmm with failed | ⟨f, addr, allocated⟩
    · left
      refine ⟨st, by rw [allocFrame, failed]; rfl, rfl, rfl, Grows.refl _,
        fun _ used => Or.inl used, ?_⟩
      simp [zero]
    · rcases Nat.eq_zero_or_pos f with rfl | positive
      · left
        refine ⟨st.allocFrame.2, ?_, rfl, rfl, allocated.grows, fun f used => ?_, full⟩
        · rw [allocFrame, addr]
          rfl
        · have used' := used
          rw [allocFrame, allocated.taken, Bool.or_eq_true, decide_eq_true_iff] at used'
          exact used'.imp_right fun only => by omega
      · exact Or.inr ⟨_, _, rfl, allocFrame_taken addr allocated (Nat.ne_of_gt positive)⟩

/-- `get_or_create_table` places a table and marks its entry, or gets no frame. -/
theorem WellFormed.getOrCreateTable (wf : WellFormed space st)
    (node : nodeAt st.mem (tablesOf space) p = some b) (short : p.length ≤ 1)
    (hi : i < entriesPerTable) (onPath : i :: p <:+ P) :
    (∃ c st', st.getOrCreateTable b i = (some c, st') ∧ Extended space P st st' ∧
        nodeAt st'.mem (tablesOf space) (i :: p) = some c ∧ user (st'.mem b i) = true) ∨
      ∃ st', st.getOrCreateTable b i = (none, st') ∧ Refused st st' ∧
        nodeAt st.mem (tablesOf space) (i :: p) = none := by
  have down := nodeAt_step node i
  rw [tablesOf_link (by omega) hi] at down
  cases there : present (st.mem b i) with
  | true =>
    left
    rw [if_pos ⟨there, fun deep => by omega⟩] at down
    obtain ⟨extended, below⟩ := wf.mark (P := P) node down
    rw [getOrCreateTable_present there, enterTable_eq]
    exact ⟨_, _, rfl, extended, below, by simp [Vmm.setEntry_mem]⟩
  | false =>
    rw [if_neg (by simp [there])] at down
    rw [getOrCreateTable_absent there]
    rcases st.allocFrame_cases with ⟨st', failed, refused⟩ | ⟨c, st₁, alloc, taken⟩
    · exact Or.inr ⟨st', createTable_none failed, refused, down⟩
    · left
      rw [createTable_some alloc taken.nonzero]
      obtain ⟨st₂, made, pmm, kernel, others, zeroed⟩ := fillTable_taken taken (fun _ => 0)
      have hung := wf.hang node down (by omega) hi taken pmm kernel others
        (fun j hj => by rw [zeroed j hj, there]; simp)
      rw [made, enterTable_eq]
      refine ⟨_, _, rfl, ?_⟩
      rw [Vmm.setEntry_mem, put_same, target_table taken.aligned, Vmm.setEntry, Vmm.setEntry_mem,
        put_put]
      refine ⟨hung.extended wf onPath, ?_, by simp⟩
      exact (hung.nodes wf _).trans (if_pos rfl)

/-- The end of `get_or_split_pt_entry`, from the page directory on. -/
theorem WellFormed.pageTableOf (wf : WellFormed space st)
    (node : nodeAt st.mem (tablesOf space) p = some b) (deep : p.length = 2)
    (hi : i < entriesPerTable) (onPath : i :: p <:+ P) :
    (∃ c st', st.pageTableOf b i = (some c, st') ∧
        Extended space P st (st'.setEntry b i (st'.mem b i ||| pageUser)) ∧
        nodeAt (put st'.mem b i (st'.mem b i ||| pageUser)) (tablesOf space) (i :: p) = some c) ∨
      ∃ st', st.pageTableOf b i = (none, st') ∧ Refused st st' ∧
        nodeAt st.mem (tablesOf space) (i :: p) = none := by
  have down := nodeAt_step node i
  rw [tablesOf_link deep.le hi] at down
  by_cases leads : present (st.mem b i) = true ∧ huge (st.mem b i) = false
  · left
    rw [if_pos ⟨leads.1, fun _ => leads.2⟩] at down
    rw [pageTableOf_table leads.1 leads.2]
    exact ⟨_, _, rfl, wf.mark node down⟩
  · rw [if_neg (fun yes => leads ⟨yes.1, yes.2 deep⟩)] at down
    have nowhere : present (st.mem b i) = true → huge (st.mem b i) = true := by
      intro there
      by_contra small
      exact leads ⟨there, by simpa using small⟩
    rw [pageTableOf_new nowhere]
    rcases st.allocFrame_cases with ⟨st', failed, refused⟩ | ⟨c, st₁, alloc, taken⟩
    · exact Or.inr ⟨st', newPageTable_none failed, refused, down⟩
    · left
      rw [newPageTable_some alloc taken.nonzero]
      obtain ⟨st₂, made, pmm, kernel, others, filled⟩ := fillTable_taken taken
        (fun j => if present (st.mem b i) then Vmm.splitEntry (st.mem b i) j else 0)
      have hung := wf.hang node down deep.le hi taken pmm kernel others filled
      rw [made]
      refine ⟨_, _, rfl, ?_⟩
      rw [Vmm.setEntry_mem, put_same, or_pageUser_of_user (by simp), Vmm.setEntry,
        Vmm.setEntry_mem, put_put]
      exact ⟨hung.extended wf onPath, (hung.nodes wf _).trans (if_pos rfl)⟩

/-- Every entry on the way down to the page table of `va` has the user bit. -/
def MarkedAbove (space va : Word) (mem : Tables) : Prop :=
  ∀ q d j, j :: q <:+ tablePath va → nodeAt mem (tablesOf space) q = some d →
    user (mem d j) = true

/-- `get_or_split_pt_entry` comes to the page table of an address, or runs out
of frames on the way. -/
theorem WellFormed.getOrSplitPtEntry (wf : WellFormed space st) (va : Word) :
    (∃ pt st', st.getOrSplitPtEntry (spacePml4 space) va = (some (pt, levelIndex 12 va), st') ∧
        Extended space (tablePath va) st st' ∧
        nodeAt st'.mem (tablesOf space) (tablePath va) = some pt ∧
        MarkedAbove space va st'.mem) ∨
      ∃ st₁ st', st.getOrSplitPtEntry (spacePml4 space) va = (none, st') ∧
        Extended space (tablePath va) st st₁ ∧ Refused st₁ st' ∧
        nodeAt st₁.mem (tablesOf space) (tablePath va) = none := by
  simp only [Vmm.getOrSplitPtEntry, pml4Index_eq, pdptIndex_eq, pdIndex_eq, ptIndex_eq, spacePml4,
    and_pageAddrMask]
  have root : nodeAt st.mem (tablesOf space) [] = some (target space) := rfl
  rcases wf.getOrCreateTable (P := tablePath va) root (Nat.zero_le 1) (levelIndex_lt 39 va)
    ⟨[levelIndex 21 va, levelIndex 30 va], rfl⟩ with
    ⟨pdpt, st₁, made₁, ext₁, node₁, user₁⟩ | ⟨st', failed, refused, absent⟩
  swap
  · right
    rw [failed]
    exact ⟨st, st', rfl, Extended.refl wf, refused,
      nodeAt_below_none [levelIndex 21 va, levelIndex 30 va] absent⟩
  rw [made₁]
  dsimp only
  rcases ext₁.wf.getOrCreateTable (P := tablePath va) node₁ (Nat.le_refl 1) (levelIndex_lt 30 va)
    ⟨[levelIndex 21 va], rfl⟩ with
    ⟨pd, st₂, made₂, ext₂, node₂, user₂⟩ | ⟨st', failed, refused, absent⟩
  swap
  · right
    rw [failed]
    exact ⟨st₁, st', rfl, ext₁, refused, nodeAt_below_none [levelIndex 21 va] absent⟩
  rw [made₂]
  dsimp only
  rcases ext₂.wf.pageTableOf (P := tablePath va) node₂ rfl (levelIndex_lt 21 va)
    (List.suffix_refl _) with ⟨pt, st₃, made₃, ext₃, node₃⟩ | ⟨st', failed, refused, absent⟩
  swap
  · right
    rw [failed]
    exact ⟨st₂, st', rfl, ext₁.trans ext₂, refused, absent⟩
  left
  rw [made₃]
  refine ⟨pt, _, rfl, (ext₁.trans ext₂).trans ext₃, node₃, ?_⟩
  intro q d j onPath node
  simp only [tablePath, List.suffix_cons_iff, List.suffix_nil, List.cons.injEq, reduceCtorEq,
    or_false] at onPath
  rcases onPath with ⟨rfl, rfl⟩ | ⟨rfl, rfl⟩ | ⟨rfl, rfl⟩
  · cases Option.some.inj ((ext₃.kept _ pd node₂).symm.trans node)
    rw [Vmm.setEntry_mem, put_same]
    simp
  · cases Option.some.inj ((ext₃.kept _ pdpt (ext₂.kept _ pdpt node₁)).symm.trans node)
    exact ext₃.marks _ _ (ext₂.wf.taken _ _ (ext₂.kept _ pdpt node₁)) user₂
  · cases Option.some.inj node
    refine ext₃.marks _ _ (ext₂.wf.taken [] _ rfl) ?_
    exact ext₂.marks _ _ (ext₁.wf.taken [] _ rfl) user₁

/-! ## The page itself -/

/-- Below marked entries, the leaf decides. -/
theorem translate_leaf {va pt : Word} (node : nodeAt mem (tablesOf space) (tablePath va) = some pt)
    (above : MarkedAbove space va mem) :
    (present (mem pt (levelIndex 12 va)) = false → translate mem space va = none) ∧
      (present (mem pt (levelIndex 12 va)) = true →
        ∃ w, translate mem space va =
            some ⟨target (mem pt (levelIndex 12 va)), w, user (mem pt (levelIndex 12 va))⟩ ∧
          (UpperWritable mem (tablesOf space) → w = writable (mem pt (levelIndex 12 va)))) := by
  obtain ⟨t₃, t₂, node₃, node₂, l4, l3, l2⟩ := table_entries ⟨_, _, rfl⟩ node
  have top : (tablesOf space).root = target space := rfl
  rw [top] at l4
  have root : nodeAt mem (tablesOf space) [] = some (target space) := rfl
  have u4 := above [] _ _ ⟨[levelIndex 21 va, levelIndex 30 va], rfl⟩ root
  have u3 := above _ t₃ _ ⟨[levelIndex 21 va], rfl⟩ node₃
  have u2 := above _ t₂ _ (List.suffix_refl _) node₂
  simp only [translate, l4.1, l4.2, l3.1, l3.2, l2.1, l2.2.1, l2.2.2, u4, u3, u2,
    Bool.true_eq_false, Bool.false_eq_true, if_false, Bool.true_and]
  refine ⟨fun absent => by simp [absent], fun there => ?_⟩
  rw [if_neg (by simp [there])]
  refine ⟨_, rfl, fun upper => ?_⟩
  rw [upper [] _ root (Nat.zero_le 2) _ (levelIndex_lt 39 va) l4.1,
    upper _ t₃ node₃ (by simp) _ (levelIndex_lt 30 va) l3.1,
    upper _ t₂ node₂ (by simp) _ (levelIndex_lt 21 va) l2.1]
  simp

/-- The entry of one page is now `e`; everything else is as it was. -/
structure LeafWritten (space va e : Word) (st st' : Vmm) : Prop where
  wf : WellFormed space st'
  nodes : ∀ q, nodeAt st'.mem (tablesOf space) q = nodeAt st.mem (tablesOf space) q
  others : ∀ a, pathOf a ≠ pathOf va → translate st'.mem space a = translate st.mem space a
  rights : UpperWritable st.mem (tablesOf space) → UpperWritable st'.mem (tablesOf space)
  leaf : leafEntry st'.mem space va = some e
  gone : present e = false → translate st'.mem space va = none
  here : present e = true → ∃ w, translate st'.mem space va = some ⟨target e, w, user e⟩ ∧
    (UpperWritable st.mem (tablesOf space) → w = writable e)

/-- Writing an entry of a page table below marked entries. -/
theorem WellFormed.leaf {va pt : Word} (wf : WellFormed space st)
    (node : nodeAt st.mem (tablesOf space) (tablePath va) = some pt)
    (above : MarkedAbove space va st.mem) (e : Word) :
    LeafWritten space va e st (st.setEntry pt (levelIndex 12 va) e) := by
  have nodes := nodeAt_put_relabel (i := levelIndex 12 va) (e := e) (wf.sole node)
    ((tablesOf_deep (by simp [tablePath]) _).trans (tablesOf_deep (by simp [tablePath]) _).symm)
  have upper (q : Path) (d : Word) (at_q : nodeAt st.mem (tablesOf space) q = some d)
      (short : q.length ≤ 2) : d ≠ pt := by
    rintro rfl
    rw [wf.distinct q _ d at_q node] at short
    simp [tablePath] at short
  -- other pages' walks do not meet the entry
  have off (a : Word) (other : pathOf a ≠ pathOf va) (s : Word × Nat)
      (on : s ∈ walkSlots st.mem space a) : put st.mem pt (levelIndex 12 va) e s.1 s.2 =
        st.mem s.1 s.2 := by
    refine put_other ?_
    rintro ⟨h₁, h₂⟩
    obtain ⟨k, at_k⟩ := List.mem_iff_getElem?.mp on
    obtain ⟨-, suffix⟩ := wf.walk_place (i := s.2) (h₁ ▸ node) at_k
    rw [h₂, ← pathOf_eq] at suffix
    exact other (suffix.eq_of_length rfl).symm
  have walks (a : Word) (other : pathOf a ≠ pathOf va) :
      walkSlots (put st.mem pt (levelIndex 12 va) e) space a = walkSlots st.mem space a :=
    walkSlots_kept (off a other)
  have node' := (nodes _).trans node
  have above' : MarkedAbove space va (put st.mem pt (levelIndex 12 va) e) := by
    intro q d j suffix at_q
    rw [nodes] at at_q
    have short := suffix.length_le
    simp only [tablePath, List.length_cons, List.length_nil] at short
    rw [put_table (upper q d at_q (by omega))]
    exact above q d j suffix at_q
  have decided := translate_leaf node' above'
  rw [put_same] at decided
  have rights (writable_ : UpperWritable st.mem (tablesOf space)) :
      UpperWritable (put st.mem pt (levelIndex 12 va) e) (tablesOf space) := by
    intro q d at_q short j hj present_
    rw [nodes] at at_q
    rw [put_table (upper q d at_q short)] at present_ ⊢
    exact writable_ q d at_q short j hj present_
  refine ⟨?_, nodes, fun a other => ?_, rights, ?_, decided.1, fun there => ?_⟩
  case refine_2 => exact looks_true (translate_alike fun s on => Alike.of_eq (off a other s on))
  case refine_3 =>
    rw [Vmm.setEntry_mem, leafEntry, walk_leaf node', Option.map_some, put_same]
  case refine_4 =>
    obtain ⟨w, found, same⟩ := decided.2 there
    exact ⟨w, found, fun writable_ => same (rights writable_)⟩
  apply wf.relabelled nodes
  case regions =>
    intro q d at_q deep j hj there large
    rw [put_table (upper q d at_q deep.le)] at there large ⊢
    exact wf.regions q d at_q deep j hj there large
  case marked =>
    intro a leaf s on
    by_cases same : pathOf a = pathOf va
    · obtain ⟨k, at_k⟩ := List.mem_iff_getElem?.mp on
      obtain ⟨q, at_q, rfl, suffix⟩ := walk_table at_k
      rw [same, suffix_pathOf] at suffix
      rcases suffix with whole | suffix
      · -- the leaf itself
        have deep : q.length = 3 := by
          have lengths := congrArg List.length whole
          simpa [pathOf] using lengths
        obtain ⟨e', found, -, allowed⟩ := leaf
        rw [leafEntry, ← deep, at_k] at found
        have entry : put st.mem pt (levelIndex 12 va) e s.1 s.2 = e' := Option.some.inj found
        rw [entry]
        exact allowed
      · exact above' q s.1 s.2 suffix at_q
    · rw [walks a same] at on
      rw [UserLeaf, leafEntry_kept (walks a same)
        fun d j at_3 => off a same (d, j) (List.mem_of_getElem? at_3)] at leaf
      rw [off a same s on]
      exact wf.marked a leaf s on

theorem WellFormed.refused (wf : WellFormed space st) (refused : Refused st st') :
    WellFormed space st' :=
  (wf.of_tables (fun _ d _ => by rw [refused.mem])
    (fun q d node => refused.grows _ (wf.taken q d node))).1

variable {va phys flags : Word}

/-- `vmm_map_page_in`: tables down to the page's, and then its entry, or too few
frames for the tables. -/
theorem WellFormed.vmmMapPageIn (wf : WellFormed space st) (va phys flags : Word) :
    (∃ pt st₁, st.vmmMapPageIn space va phys flags =
          (true, st₁.setEntry pt (levelIndex 12 va) (pageEntry phys flags)) ∧
        Extended space (tablePath va) st st₁ ∧
        nodeAt st₁.mem (tablesOf space) (tablePath va) = some pt ∧
        MarkedAbove space va st₁.mem) ∨
      ∃ st₁ st', st.vmmMapPageIn space va phys flags = (false, st') ∧
        Extended space (tablePath va) st st₁ ∧ Refused st₁ st' ∧
        nodeAt st₁.mem (tablesOf space) (tablePath va) = none := by
  rcases wf.getOrSplitPtEntry va with ⟨pt, st₁, made, rest⟩ | ⟨st₁, st', failed, rest⟩
  · left
    refine ⟨pt, st₁, ?_, rest⟩
    rw [Vmm.vmmMapPageIn, made]
    rfl
  · right
    refine ⟨st₁, st', ?_, rest⟩
    rw [Vmm.vmmMapPageIn, failed]

/-- The space is well-formed still, and pages other than that of `va` are
translated as before. -/
structure OthersKept (space va : Word) (st st' : Vmm) : Prop where
  wf : WellFormed space st'
  upper : UpperWritable st.mem (tablesOf space) → UpperWritable st'.mem (tablesOf space)
  others : ∀ a, pathOf a ≠ pathOf va → translate st'.mem space a = translate st.mem space a

theorem Extended.othersKept (extended : Extended space P st st') : OthersKept space va st st' :=
  ⟨extended.wf, extended.rights, fun a _ => extended.translated a⟩

theorem OthersKept.refused (kept : OthersKept space va st st') (refused : Refused st' st'') :
    OthersKept space va st st'' := by
  refine ⟨kept.wf.refused refused, refused.mem ▸ kept.upper, fun a other => ?_⟩
  rw [refused.mem]
  exact kept.others a other

theorem LeafWritten.othersKept {e : Word} (written : LeafWritten space va e st' st'')
    (extended : Extended space P st st') : OthersKept space va st st'' :=
  ⟨written.wf, fun upper => written.rights (extended.rights upper),
    fun a other => (written.others a other).trans (extended.translated a)⟩

/-! ## From boot on -/

/-- Entries above the page tables can be written through, too: every table the
kernel makes is hung under such an entry. -/
structure Built (space : Word) (st : Vmm) : Prop where
  wf : WellFormed space st
  upper : UpperWritable st.mem (tablesOf space)

theorem Built.extended (built : Built space st) (extended : Extended space P st st') :
    Built space st' :=
  ⟨extended.wf, extended.rights built.upper⟩

theorem Built.refused (built : Built space st) (refused : Refused st st') : Built space st' :=
  ⟨built.wf.refused refused, refused.mem ▸ built.upper⟩

theorem BootTables.upper (boot : BootTables mem 0x2003) : UpperWritable mem (tablesOf 0x1000) := by
  intro p b node short i hi there
  have root : (tablesOf 0x1000).root = 0x1000 := by decide
  have place := boot.node (by decide) root rfl node
  simp only [List.mem_cons, Prod.mk.injEq, List.not_mem_nil, or_false] at place
  have first (e : Word) (held : mem b i = if i = 0 then e else 0) (w : writable e = true) :
      writable (mem b i) = true := by
    by_cases at0 : i = 0
    · rw [held, if_pos at0, w]
    · rw [held, if_neg at0] at there
      cases there
  rcases place with ⟨rfl, rfl⟩ | ⟨rfl, rfl⟩ | ⟨rfl, rfl⟩ | ⟨rfl, rfl⟩
  · exact first _ (boot.pml4 i hi) (by decide)
  · exact first _ (boot.pdpt i hi) (by decide)
  · exact first _ (boot.pd i hi) (by decide)
  · simp at short

/-- The bootloader's tables are such tables. -/
theorem BootTables.wellFormed (boot : BootTables st.mem 0x2003)
    (low : ∀ f < 8, isUsed st.pmm f = true) : WellFormed 0x1000 st := by
  have root : (tablesOf 0x1000).root = 0x1000 := by decide
  have places (p : Path) (b : Word) (node : nodeAt st.mem (tablesOf 0x1000) p = some b) :=
    boot.node (by decide) root rfl node
  simp only [List.mem_cons, Prod.mk.injEq, List.not_mem_nil, or_false] at places
  constructor
  case distinct =>
    intro p q b at_p at_q
    rcases places p b at_p with ⟨rfl, rfl⟩ | ⟨rfl, rfl⟩ | ⟨rfl, rfl⟩ | ⟨rfl, rfl⟩ <;>
      rcases places q _ at_q with ⟨rfl, same⟩ | ⟨rfl, same⟩ | ⟨rfl, same⟩ | ⟨rfl, same⟩ <;>
      first | rfl | exact absurd same (by decide)
  case taken =>
    intro p b node
    rcases places p b node with ⟨-, rfl⟩ | ⟨-, rfl⟩ | ⟨-, rfl⟩ | ⟨-, rfl⟩ <;>
      exact low _ (by decide)
  case regions =>
    intro p b node deep i hi there large
    rcases places p b node with ⟨rfl, rfl⟩ | ⟨rfl, rfl⟩ | ⟨rfl, rfl⟩ | ⟨rfl, rfl⟩
    all_goals try simp at deep
    rw [boot.pd i hi] at large
    split at large <;> cases large
  case marked =>
    -- all of its pages are the supervisor's
    rintro a ⟨e, found, -, allowed⟩
    obtain ⟨⟨d, j⟩, at_3, rfl⟩ := Option.map_eq_some_iff.mp found
    obtain ⟨q, node, length, suffix⟩ := walk_table at_3
    rcases places q d node with ⟨rfl, rfl⟩ | ⟨rfl, rfl⟩ | ⟨rfl, rfl⟩ | ⟨rfl, rfl⟩
    all_goals try simp at length
    have pages : ∀ j < entriesPerTable, user (0x3 + BitVec.ofNat 64 j * 0x1000) = false := by
      unfold entriesPerTable
      decide +kernel
    simp only at allowed
    rw [boot.pt j (index_lt suffix), pages j (index_lt suffix)] at allowed
    cases allowed

theorem user_region (whole : a.toNat % 2 ^ 21 = 0) : user (regionEntry a) = false := by
  have low : user a = false := by
    rw [user, ← BitVec.testBit_toNat, ← Nat.div_add_mod' a.toNat (2 ^ 21), whole, Nat.add_zero,
      Nat.testBit_mul_two_pow, decide_eq_false (by decide), Bool.false_and]
  have flag : user pageSize2Mb = false := by decide
  simp [regionEntry, low, flag]

/-- A 2 MiB page in an empty entry of a page directory. -/
theorem Built.region {pd : Word} (built : Built space st)
    (node : nodeAt st.mem (tablesOf space) p = some pd) (deep : p.length = 2)
    (hi : i < entriesPerTable) (absent : present (st.mem pd i) = false)
    (whole : a.toNat % 2 ^ 21 = 0) : Built space (st.setEntry pd i (regionEntry a)) := by
  have wf := built.wf
  have before : (tablesOf space).link (i :: p) (st.mem pd i) = none := by
    rw [tablesOf_link deep.le hi, if_neg (by simp [absent])]
  have after : (tablesOf space).link (i :: p) (regionEntry a) = none := by
    rw [tablesOf_link deep.le hi, if_neg (by simp [deep, huge_region])]
  have nodes := nodeAt_put_relabel (wf.sole node) (after.trans before.symm)
  refine ⟨?_, fun q d at_q short j hj there => ?_⟩
  swap
  · rw [Vmm.setEntry_mem, nodes] at at_q
    rw [Vmm.setEntry_mem] at there ⊢
    by_cases here : d = pd ∧ j = i
    · rw [here.1, here.2, put_same]
      exact writable_region
    · rw [put_other here] at there ⊢
      exact built.upper q d at_q short j hj there
  apply wf.relabelled nodes
  case regions =>
    intro q d at_q short j hj there large
    by_cases here : d = pd ∧ j = i
    · rw [here.1, here.2, put_same]
      exact ⟨user_region whole, target_region whole⟩
    · rw [put_other here] at there large ⊢
      exact wf.regions q d at_q short j hj there large
  case marked =>
    intro a' leaf
    have off (s : Word × Nat) (on : s ∈ walkSlots st.mem space a') :
        put st.mem pd i (regionEntry a) s.1 s.2 = st.mem s.1 s.2 := by
      refine put_other ?_
      rintro ⟨h₁, h₂⟩
      obtain ⟨k, at_k⟩ := List.mem_iff_getElem?.mp on
      obtain ⟨-, above⟩ := wf.walk_place (i := s.2) (h₁ ▸ node) at_k
      -- below the entry there is no table that the leaf could be in
      obtain ⟨e, found, -, -⟩ := leaf
      obtain ⟨⟨d, j⟩, at_3, rfl⟩ := Option.map_eq_some_iff.mp found
      obtain ⟨q, at_q, length, path⟩ := walk_table at_3
      have whole : j :: q = pathOf a' := path.eq_of_length (by simp [length, pathOf])
      rw [h₂, ← whole, List.suffix_cons_iff] at above
      rcases above with bad | above
      · have lengths := congrArg List.length bad
        simp only [List.length_cons] at lengths
        omega
      · rw [nodes, ← above.eq_of_length (by simp [length, deep]), nodeAt_step node, before] at at_q
        cases at_q
    have walks : walkSlots (put st.mem pd i (regionEntry a)) space a' = walkSlots st.mem space a' :=
      walkSlots_kept off
    intro s on
    rw [walks] at on
    rw [UserLeaf, leafEntry_kept walks fun d j at_3 => off (d, j) (List.mem_of_getElem? at_3)]
      at leaf
    rw [off s on]
    exact wf.marked a' leaf s on

theorem Built.map2mbIdentity (built : Built space st) (root : st.kernelPml4 = target space)
    (whole : a.toNat % 2 ^ 21 = 0) :
    Built space (st.map2mbIdentity a) ∧ (st.map2mbIdentity a).kernelPml4 = st.kernelPml4 := by
  simp only [Vmm.map2mbIdentity, pml4Index_eq, pdptIndex_eq, pdIndex_eq, root]
  have top : nodeAt st.mem (tablesOf space) [] = some (target space) := rfl
  rcases built.wf.getOrCreateTable (P := tablePath a) top (Nat.zero_le 1) (levelIndex_lt 39 a)
    ⟨[levelIndex 21 a, levelIndex 30 a], rfl⟩ with
    ⟨pdpt, st₁, made₁, ext₁, node₁, -⟩ | ⟨st', failed, refused, -⟩
  swap
  · rw [failed]
    exact ⟨built.refused refused, refused.kernel.trans root⟩
  rw [made₁]
  dsimp only
  rcases ext₁.wf.getOrCreateTable (P := tablePath a) node₁ (Nat.le_refl 1) (levelIndex_lt 30 a)
    ⟨[levelIndex 21 a], rfl⟩ with ⟨pd, st₂, made₂, ext₂, node₂, -⟩ | ⟨st', failed, refused, -⟩
  swap
  · rw [failed]
    exact ⟨(built.extended ext₁).refused refused,
      refused.kernel.trans (ext₁.kernel.trans root)⟩
  rw [made₂]
  have built₂ := (built.extended ext₁).extended ext₂
  have kernel := ext₂.kernel.trans (ext₁.kernel.trans root)
  simp only [and_pagePresent]
  split
  · next absent => exact ⟨built₂.region node₂ rfl (levelIndex_lt 21 a) absent whole, kernel⟩
  · exact ⟨built₂, kernel⟩

theorem Built.mapRegions {n : Nat} (built : Built space st)
    (root : st.kernelPml4 = target space) (whole : a.toNat % 2 ^ 21 = 0) :
    Built space (st.mapRegions n a) ∧ (st.mapRegions n a).kernelPml4 = st.kernelPml4 := by
  induction n generalizing st a with
  | zero => exact ⟨built, rfl⟩
  | succ n ih =>
    obtain ⟨built₁, kernel⟩ := built.map2mbIdentity root whole
    have next : (a + page2mbSize).toNat % 2 ^ 21 = 0 := by
      rw [BitVec.toNat_add, show page2mbSize.toNat = 2 ^ 21 from rfl]
      omega
    obtain ⟨built₂, kernel₂⟩ := ih built₁ (kernel.trans root) next
    exact ⟨built₂, kernel₂.trans kernel⟩

theorem Built.vmmInit (map : List E820Entry) (built : Built space st)
    (root : st.kernelPml4 = target space) (done : st.vmmInit map = some st') :
    Built space st' := by
  induction map generalizing st with
  | nil => exact Option.some.inj done ▸ built
  | cons e map ih =>
    rw [Vmm.vmmInit, List.foldlM_cons] at done
    obtain ⟨st₁, first, rest⟩ := Option.bind_eq_some_iff.mp done
    have step : Built space st₁ ∧ st₁.kernelPml4 = st.kernelPml4 := by
      unfold Vmm.initEntry at first
      split at first
      · exact Option.some.inj first ▸ ⟨built, rfl⟩
      · simp only at first
        split at first
        · cases first
        · rw [← Option.some.inj first]
          refine built.mapRegions root ?_
          rw [toNat_regionStart]
          omega
    exact ih step.1 (step.2.trans root) rest

/-- The kernel's tables are so when it has booted, whatever memory there is. -/
theorem bootVmm_built {map : List E820Entry} {kernelEnd : Nat}
    (booted : bootVmm mem map kernelEnd = some st) : Built 0x1000 st := by
  have low (f : Nat) (hf : f < 8) :
      isUsed (initPt ⟨mem, pmmInit map kernelEnd, 0x1000⟩).pmm f = true := by
    rw [initPt_pmm]
    exact pmmInit_low map kernelEnd hf
  have tables := initPt_tables ⟨mem, pmmInit map kernelEnd, 0x1000⟩
  have first : Built 0x1000 (initPt ⟨mem, pmmInit map kernelEnd, 0x1000⟩) :=
    ⟨tables.wellFormed low, tables.upper⟩
  refine first.vmmInit map ?_ booted
  rw [initPt_kernelPml4]
  exact (by decide : (0x1000 : Word) = target 0x1000)

/-- A frame in hand is no table, and the space does not notice it. -/
theorem Built.handed (built : Built space st) (handed : Handed st st' c) :
    Built space st' ∧
      (∀ q, nodeAt st'.mem (tablesOf space) q = nodeAt st.mem (tablesOf space) q) ∧
      (∀ a, translate st'.mem space a = translate st.mem space a) ∧
      ∀ q, nodeAt st'.mem (tablesOf space) q ≠ some c := by
  have other (q : Path) (d : Word) (node : nodeAt st.mem (tablesOf space) q = some d) : d ≠ c := by
    rintro rfl
    have free := handed.free
    rw [built.wf.taken q d node] at free
    cases free
  obtain ⟨wf, nodes, translated⟩ := built.wf.of_tables
    (fun q d node => handed.others d (other q d node))
    (fun q d node => handed.grows _ (built.wf.taken q d node))
  refine ⟨⟨wf, ?_⟩, nodes, translated, ?_⟩
  · intro q d node short i hi there
    rw [nodes] at node
    rw [handed.others d (other q d node)] at there ⊢
    exact built.upper q d node short i hi there
  · intro q node
    rw [nodes] at node
    exact other q c node rfl

/-- Below the top level, a new space is the one its entries were copied from. -/
theorem nodes_copied {mem : Tables} (aligned : Aligned c)
    (copied : ∀ j < entriesPerTable, mem c j = mem (target space) j) (q : Path) (deep : q ≠ []) :
    nodeAt mem (tablesOf c) q = nodeAt mem (tablesOf space) q := by
  have top : nodeAt mem (tablesOf c) [] = some c := congrArg some aligned
  have top' : nodeAt mem (tablesOf space) [] = some (target space) := rfl
  induction q with
  | nil => exact absurd rfl deep
  | cons i q ih =>
    by_cases first : q = []
    · subst first
      rw [nodeAt_step top, nodeAt_step top']
      rcases Nat.lt_or_ge i entriesPerTable with hi | beyond
      · rw [copied i hi]
        rfl
      · have nowhere (s e : Word) : (tablesOf s).link [i] e = none := by
          cases linked : (tablesOf s).link [i] e with
          | none => rfl
          | some d => exact absurd (tablesOf_linked linked).1 (Nat.not_lt.mpr beyond)
        rw [nowhere, nowhere]
    · rw [nodeAt, nodeAt, ih first]
      rfl

/-- `vmm_create_address_space` makes such a space out of the kernel's. -/
theorem Built.create (built : Built space st) (handed : Handed st st' c)
    (copied : ∀ j < entriesPerTable, st'.mem c j = st.mem (target space) j) : Built c st' := by
  obtain ⟨⟨wf, upper⟩, -, -, apart⟩ := built.handed handed
  have aligned : target c = c := handed.aligned
  have root : nodeAt st'.mem (tablesOf space) [] = some (target space) := rfl
  have kernel (j : Nat) (hj : j < entriesPerTable) : st'.mem c j = st'.mem (target space) j := by
    rw [copied j hj, handed.others]
    intro same
    exact apart [] (same ▸ root)
  have nodes := nodes_copied aligned kernel
  have top (p : Path) (b : Word) (node : nodeAt st'.mem (tablesOf c) p = some b) :
      (p = [] ∧ b = c) ∨ (p ≠ [] ∧ nodeAt st'.mem (tablesOf space) p = some b) := by
    by_cases first : p = []
    · subst first
      exact Or.inl ⟨rfl, (Option.some.inj node).symm.trans aligned⟩
    · exact Or.inr ⟨first, nodes p first ▸ node⟩
  -- walks differ in their first table only
  have walks (a : Word) : ∃ rest, walkSlots st'.mem c a = (c, levelIndex 39 a) :: rest ∧
      walkSlots st'.mem space a = (target space, levelIndex 39 a) :: rest := by
    simp only [walkSlots, aligned, kernel _ (levelIndex_lt 39 a)]
    exact ⟨_, rfl, rfl⟩
  refine ⟨⟨?_, ?_, ?_, ?_⟩, ?_⟩
  case refine_1 =>
    intro p q b at_p at_q
    rcases top p b at_p with ⟨rfl, rfl⟩ | ⟨-, below⟩
    · rcases top q _ at_q with ⟨rfl, -⟩ | ⟨-, below⟩
      · rfl
      · exact (apart q below).elim
    · rcases top q b at_q with ⟨rfl, rfl⟩ | ⟨-, below'⟩
      · exact (apart p below).elim
      · exact wf.distinct p q b below below'
  case refine_2 =>
    intro p b node
    rcases top p b node with ⟨-, rfl⟩ | ⟨-, below⟩
    · exact handed.usedAt
    · exact wf.taken p b below
  case refine_3 =>
    intro p b node deep
    rcases top p b node with ⟨rfl, -⟩ | ⟨-, below⟩
    · cases deep
    · exact wf.regions p b below deep
  case refine_4 =>
    intro a leaf s on
    obtain ⟨rest, own, shared⟩ := walks a
    have same : UserLeaf st'.mem space a := by
      obtain ⟨e, found, rights⟩ := leaf
      refine ⟨e, ?_, rights⟩
      simp only [leafEntry, own, shared, List.getElem?_cons_succ] at found ⊢
      exact found
    have marked := wf.marked a same
    rw [own, List.mem_cons] at on
    rw [shared] at marked
    rcases on with rfl | on
    · have first := marked (target space, levelIndex 39 a) List.mem_cons_self
      rw [kernel _ (levelIndex_lt 39 a)]
      exact first
    · exact marked s (List.mem_cons_of_mem _ on)
  case refine_5 =>
    intro p b node short i hi there
    rcases top p b node with ⟨rfl, rfl⟩ | ⟨-, below⟩
    · rw [kernel i hi] at there ⊢
      exact upper [] _ root short i hi there
    · exact upper p b below short i hi there

/-! ## Result -/

theorem WellFormed.mapped_alone (wf : WellFormed space st) (va phys flags : Word) :
    OthersKept space va st (st.vmmMapPageIn space va phys flags).2 ∧
      if (st.vmmMapPageIn space va phys flags).1 then
        leafEntry (st.vmmMapPageIn space va phys flags).2.mem space va =
          some (pageEntry phys flags) ∧
        ∃ w, translate (st.vmmMapPageIn space va phys flags).2.mem space va =
          some ⟨target phys, w, user flags⟩
      else translate (st.vmmMapPageIn space va phys flags).2.mem space va =
        translate st.mem space va := by
  rcases wf.vmmMapPageIn va phys flags with
    ⟨pt, st₁, made, extended, node, above⟩ | ⟨st₁, st', failed, extended, refused, -⟩
  · have written := extended.wf.leaf node above (pageEntry phys flags)
    obtain ⟨w, found, -⟩ := written.here (present_pageEntry phys flags)
    rw [made]
    refine ⟨written.othersKept extended, written.leaf, w, ?_⟩
    rw [found, target_pageEntry, user_pageEntry]
  · rw [failed]
    refine ⟨extended.othersKept.refused refused, ?_⟩
    rw [if_neg Bool.false_ne_true, refused.mem, extended.translated]

theorem WellFormed.unmapped_alone (wf : WellFormed space st) :
    OthersKept space va st (st.vmmUnmapPageIn space va).2 ∧
      if (st.vmmUnmapPageIn space va).1 then
        translate (st.vmmUnmapPageIn space va).2.mem space va = none
      else translate (st.vmmUnmapPageIn space va).2.mem space va = translate st.mem space va := by
  rcases vmmUnmapPageIn_cases st space va with ⟨absent, same⟩ | cleared
  · rw [same]
    exact ⟨(Extended.refl (P := []) wf).othersKept, absent⟩
  rcases wf.getOrSplitPtEntry va with
    ⟨pt, st₁, made, extended, node, above⟩ | ⟨st₁, st', failed, extended, refused, -⟩
  · have written := extended.wf.leaf node above 0
    rw [cleared, made]
    exact ⟨written.othersKept extended, written.gone (by decide)⟩
  · rw [cleared, failed]
    refine ⟨extended.othersKept.refused refused, ?_⟩
    rw [if_neg Bool.false_ne_true, refused.mem, extended.translated]

/-- In every well-formed table, mapping a page writes its leaf and unmapping it
makes it unmapped; no other page notices, nor does any when the call fails. -/
theorem page_mapped_alone (wf : WellFormed space st) (va phys flags : Word) :
    OthersKept space va st (st.vmmMapPageIn space va phys flags).2 ∧
      OthersKept space va st (st.vmmUnmapPageIn space va).2 ∧
      (if (st.vmmMapPageIn space va phys flags).1 then
          leafEntry (st.vmmMapPageIn space va phys flags).2.mem space va =
            some (pageEntry phys flags) ∧
          ∃ w, translate (st.vmmMapPageIn space va phys flags).2.mem space va =
            some ⟨target phys, w, user flags⟩
        else translate (st.vmmMapPageIn space va phys flags).2.mem space va =
          translate st.mem space va) ∧
      (if (st.vmmUnmapPageIn space va).1 then
          translate (st.vmmUnmapPageIn space va).2.mem space va = none
        else translate (st.vmmUnmapPageIn space va).2.mem space va =
          translate st.mem space va) :=
  ⟨(wf.mapped_alone va phys flags).1, wf.unmapped_alone.1, (wf.mapped_alone va phys flags).2,
    wf.unmapped_alone.2⟩

/-- A page of the first 2 MiB beyond the bootloader's, in the kernel that has
booted with one GiB. -/
theorem page_mapped_alone_boot : ∃ st, bootVmm (fun _ _ => 0) [⟨0, 0x40000000, true⟩] 0x200000 =
    some st ∧ OthersKept 0x1000 0x201000 st (st.vmmMapPageIn 0x1000 0x201000 0x5000 0x3).2 := by
  have below : Below512Gb [⟨0, 0x40000000, true⟩] := by
    intro e member _
    rw [List.mem_singleton.mp member]
    decide
  obtain ⟨st, booted, -⟩ := bootVmm_ready (fun _ _ => 0) below 0x200000
  exact ⟨st, booted, (page_mapped_alone (bootVmm_built booted).wf 0x201000 0x5000 0x3).1⟩

end
end MiniKernel.Memory.Paging
