import MiniKernel.Memory.Mapping

/-!
# Frames in and out of address spaces

Source: kernel/mm/vmm.c:284-346 and kernel/mm/pmm.c:126-137. Creating a space
takes one frame; destroying it walks the private tree and frees what it finds.
-/
namespace MiniKernel.Memory.Paging
open Lib Lib.Radix

namespace Vmm

/-- `pmm_alloc_zeroed_frame`; the 4096 bytes are cleared as 512 words. -/
def allocZeroedFrame (st : Vmm) : Word × Vmm :=
  let (frame, st) := st.allocFrame
  if frame = 0 then (0, st) else (frame, st.fillTable frame (fun _ => 0) entriesPerTable)

/-- Frames freed one after the other. -/
def freeAll (frames : List Word) (st : Vmm) : Vmm := frames.foldl (fun st f => st.freeFrame f) st

theorem freeAll_append (a b : List Word) (st : Vmm) :
    st.freeAll (a ++ b) = (st.freeAll a).freeAll b := by
  rw [freeAll, List.foldl_append]
  rfl

@[simp] theorem freeAll_mem (frames : List Word) (st : Vmm) : (st.freeAll frames).mem = st.mem := by
  induction frames generalizing st with
  | nil => rfl
  | cons f frames ih => exact ih _

@[simp] theorem freeAll_kernelPml4 (frames : List Word) (st : Vmm) :
    (st.freeAll frames).kernelPml4 = st.kernelPml4 := by
  induction frames generalizing st with
  | nil => rfl
  | cons f frames ih => exact ih _

theorem isUsed_freeFrame (addr : Word) (st : Vmm) (f : Nat) :
    isUsed (st.freeFrame addr).pmm f =
      (isUsed st.pmm f && !decide (f < pmmMaxFrames ∧ f = frameOf addr.toNat)) := by
  rw [freeFrame, pmmFreeFrame]
  rcases Nat.lt_or_ge (frameOf addr.toNat) pmmMaxFrames with tracked | beyond
  · rw [isUsed_setFree _ _ _ tracked]
    by_cases here : f = frameOf addr.toNat
    · simp [here, tracked]
    · simp [here]
  · rw [setFree_untracked beyond]
    by_cases here : f = frameOf addr.toNat
    · simp [here, Nat.not_lt.mpr beyond]
    · simp [here]

theorem isUsed_freeAll (frames : List Word) (st : Vmm) (f : Nat) :
    isUsed (st.freeAll frames).pmm f =
      (isUsed st.pmm f && !decide (f < pmmMaxFrames ∧ ∃ d ∈ frames, f = frameOf d.toNat)) := by
  induction frames generalizing st with
  | nil => simp [freeAll]
  | cons d frames ih =>
    rw [freeAll, List.foldl_cons, ← freeAll, ih, isUsed_freeFrame, Bool.and_assoc, ← Bool.not_or,
      ← Bool.decide_or]
    congr 2
    rw [decide_eq_decide, ← and_or_left]
    simp

@[simp] theorem freeAll_nil (st : Vmm) : st.freeAll [] = st := rfl

@[simp] theorem freeAll_singleton (f : Word) (st : Vmm) : st.freeAll [f] = st.freeFrame f := rfl

/-- A loop whose every turn frees some frames. -/
theorem forEntries_freeAll {body : Nat → Vmm → Vmm} (mem : Tables) (found : Nat → List Word)
    (n : Nat) (st : Vmm) (same : st.mem = mem)
    (turn : ∀ i < n, ∀ t, t.mem = mem → t.kernelPml4 = st.kernelPml4 →
      body i t = t.freeAll (found i)) :
    st.forEntries body n = st.freeAll ((List.range n).flatMap found) := by
  induction n with
  | zero => rfl
  | succ n ih =>
    rw [forEntries, ih fun i hi => turn i (by omega), List.range_succ, List.flatMap_append,
      freeAll_append, turn n (Nat.lt_succ_self n) _ ((freeAll_mem _ _).trans same)
        (freeAll_kernelPml4 _ _)]
    simp

/-- A table whose entries are freed one by one, and then the table. -/
theorem freeTable_eq {body : Nat → Vmm → Vmm} {T : Tree Word Word} {n : Nat} {p : Path}
    (table : Word) (st : Vmm)
    (turn : ∀ i < entriesPerTable, ∀ t, t.mem = st.mem → t.kernelPml4 = st.kernelPml4 →
      body i t = t.freeAll (collectEntry entriesPerTable st.mem T n (i :: p) (st.mem table i))) :
    (st.forEntries body entriesPerTable).freeFrame table =
      st.freeAll (collect entriesPerTable st.mem T (n + 1) p table) := by
  rw [forEntries_freeAll st.mem _ _ st rfl turn, collect_succ, freeAll_append, freeAll_singleton]

end Vmm

/-! ## Handing out and giving back -/

section Handing
variable {K : Nat → Bool} {roots roots' : List Word} {st st' st'' : Vmm} {T : Tree Word Word}
  {p : Path} {r a b c d : Word}

/-- One frame handed out; only its own contents may have changed. -/
structure Handed (st st' : Vmm) (frame : Word) : Prop where
  taken : ∃ st₁, Taken st st₁ frame ∧ st'.pmm = st₁.pmm
  kernel : st'.kernelPml4 = st.kernelPml4
  others : ∀ d, d ≠ frame → st'.mem d = st.mem d

theorem Taken.handed (taken : Taken st st' c) : Handed st st' c :=
  ⟨⟨st', taken, rfl⟩, taken.kernel, fun d _ => by rw [taken.mem]⟩

theorem Handed.fill (handed : Handed st st' c) (entry : Nat → Word) :
    Handed st (st'.fillTable c entry entriesPerTable) c := by
  obtain ⟨st₁, taken, pmm⟩ := handed.taken
  refine ⟨⟨st₁, taken, (Vmm.fillTable_pmm ..).trans pmm⟩,
    (Vmm.fillTable_kernelPml4 ..).trans handed.kernel, fun d apart => ?_⟩
  rw [← handed.others d apart]
  funext j
  rw [Vmm.fillTable_mem, if_neg (fun at_c => apart at_c.1)]

theorem Handed.aligned (handed : Handed st st' c) : Aligned c := handed.taken.elim
  fun _ h => h.1.aligned

theorem Handed.nonzero (handed : Handed st st' c) : c ≠ 0 := handed.taken.elim fun _ h => h.1.nonzero

theorem Handed.free (handed : Handed st st' c) : st.usedAt c = false := handed.taken.elim
  fun _ h => h.1.free

theorem Handed.used (handed : Handed st st' c) (f : Nat) :
    isUsed st'.pmm f = (isUsed st.pmm f || decide (f = frameOf c.toNat)) := by
  obtain ⟨st₁, taken, pmm⟩ := handed.taken
  rw [pmm, taken.used]

theorem Handed.grows (handed : Handed st st' c) : Grows st.pmm st'.pmm := by
  intro f used
  rw [handed.used, used]
  rfl

theorem Handed.usedAt (handed : Handed st st' c) : st'.usedAt c = true := by
  rw [Vmm.usedAt, handed.used]
  simp

theorem Handed.count (handed : Handed st st' c) : st'.freeCount + 1 = st.freeCount := by
  obtain ⟨st₁, taken, pmm⟩ := handed.taken
  rw [← taken.count, Vmm.freeCount, Vmm.freeCount, pmm]

/-- `pmm_alloc_zeroed_frame` fails exactly when no frame is left. -/
theorem Vmm.allocZeroedFrame_spec (zero : isUsed st.pmm 0 = true) :
    (st.allocZeroedFrame = (0, st) ∧ st.freeCount = 0) ∨
      ∃ frame st', st.allocZeroedFrame = (frame, st') ∧ Handed st st' frame ∧
        ∀ j < entriesPerTable, st'.mem frame j = 0 := by
  rcases allocFrame_spec zero with ⟨failed, none⟩ | ⟨frame, st₁, alloc, taken⟩
  · left
    refine ⟨?_, none⟩
    rw [allocZeroedFrame, failed]
    exact if_pos rfl
  · right
    refine ⟨frame, st₁.fillTable frame (fun _ => 0) entriesPerTable, ?_, taken.handed.fill _, ?_⟩
    · rw [allocZeroedFrame, alloc]
      exact if_neg taken.nonzero
    · intro j hj
      rw [fillTable_mem, if_pos ⟨rfl, hj⟩]

theorem Spaces.tablesKept (inv : Spaces K roots st) (handed : Handed st st' c) :
    TablesKept K roots st st' := by
  intro T member p b node _
  refine handed.others b ?_
  rintro rfl
  exact inv.unlinked handed.free T member p node

/-- A frame in hand is no table. -/
theorem Spaces.handed (inv : Spaces K roots st) (handed : Handed st st' c) :
    Spaces K roots st' ∧ Unlinked st'.mem (forest K st'.kernelPml4 roots) c := by
  have kept := inv.tablesKept handed
  constructor
  · refine inv.restrict (fun r live => live) handed.kernel (handed.grows _ inv.zero) kept ?_
    intro T member p b node
    exact handed.grows _ (inv.tables T member p b node).2
  · rw [handed.kernel]
    intro T member p node
    rw [kept.nodes member] at node
    exact inv.unlinked handed.free T member p node

/-- A new space has its PML4 and nothing else. -/
theorem spaceTree_new (inv : Spaces K roots st)
    (copied : ∀ j < entriesPerTable, st'.mem c j = st.mem st.kernelPml4 j) (p : Path) :
    nodeAt st'.mem (spaceTree K c) p = if p = [] then some c else none := by
  induction p with
  | nil => rfl
  | cons i p ih =>
    rw [nodeAt, ih, if_neg (List.cons_ne_nil i p)]
    by_cases top : p = []
    · rw [if_pos top, Option.bind_some, top]
      by_cases hi : i < entriesPerTable
      · simp [spaceTree, treeLink, follows, copied i hi, inv.kernelSlots i hi]
      · simp [spaceTree, treeLink, follows, hi]
    · rw [if_neg top, Option.bind_none]

theorem forest_cons : forest K b (c :: roots) T ↔ T = spaceTree K c ∨ forest K b roots T := by
  unfold forest
  simp only [List.mem_cons, exists_eq_or_imp]
  exact or_left_comm

/-- `vmm_create_address_space`: the kernel's entries, and nothing private. -/
theorem Spaces.create (inv : Spaces K roots st) (handed : Handed st st' c)
    (copied : ∀ j < entriesPerTable, st'.mem c j = st.mem st.kernelPml4 j) :
    Spaces K (c :: roots) st' := by
  obtain ⟨inv', apart⟩ := inv.handed handed
  have new := spaceTree_new inv copied
  have kernelKept : st'.mem st.kernelPml4 = st.mem st.kernelPml4 :=
    inv.tablesKept handed _ (forest_kernel K _ roots) [] _ rfl (Nat.zero_le _)
  have only (p : Path) (b : Word) (node : nodeAt st'.mem (spaceTree K c) p = some b) :
      p = [] ∧ b = c := by
    rw [new] at node
    split at node
    · next top => exact ⟨top, (Option.some.inj node).symm⟩
    · cases node
  have absent (i : Nat) (hi : i < entriesPerTable) (private_ : K i = false) :
      present (st'.mem c i) = false := by
    rw [copied i hi, inv.kernelSlots i hi, private_]
  constructor
  case zero => exact inv'.zero
  case nonzero =>
    intro r live
    rcases List.mem_cons.mp live with rfl | old
    · exact handed.nonzero
    · exact inv'.nonzero r old
  case separate =>
    intro S hs U hu p q b at_p at_q
    rcases forest_cons.mp hs with rfl | hs <;> rcases forest_cons.mp hu with rfl | hu
    · exact ⟨rfl, (only p b at_p).1.trans (only q b at_q).1.symm⟩
    · rw [(only p b at_p).2] at at_q
      exact absurd at_q (apart U hu q)
    · rw [(only q b at_q).2] at at_p
      exact absurd at_p (apart S hs p)
    · exact inv'.separate S hs U hu p q b at_p at_q
  case tables =>
    intro T member p b node
    rcases forest_cons.mp member with rfl | old
    · rw [(only p b node).2]
      exact ⟨handed.aligned, handed.usedAt⟩
    · exact inv'.tables T old p b node
  case kernelSlots => exact inv'.kernelSlots
  case kernelUser => exact inv'.kernelUser
  case shared =>
    intro r live i hi slot
    rcases List.mem_cons.mp live with rfl | old
    · rw [copied i hi, handed.kernel, kernelKept]
    · exact inv'.shared r old i hi slot
  case own =>
    intro r live p b node short i hi private_ there
    rcases List.mem_cons.mp live with rfl | old
    · obtain ⟨rfl, rfl⟩ := only p b node
      rw [absent i hi (private_ rfl)] at there
      cases there
    · exact inv'.own r old p b node short i hi private_ there
  case regions => exact inv'.regions

/-- `vmm_create_address_space` hands out the PML4, or there is no frame left. -/
theorem vmmCreateAddressSpace_spec (zero : isUsed st.pmm 0 = true) :
    (st.vmmCreateAddressSpace = (0, st) ∧ st.freeCount = 0) ∨
      ∃ frame st', st.vmmCreateAddressSpace = (frame, st') ∧ Handed st st' frame ∧
        ∀ j < entriesPerTable, st'.mem frame j = st.mem st.kernelPml4 j := by
  rcases Vmm.allocFrame_spec zero with ⟨failed, none⟩ | ⟨frame, st₁, alloc, taken⟩
  · left
    refine ⟨?_, none⟩
    rw [Vmm.vmmCreateAddressSpace, failed]
    exact if_pos rfl
  · right
    refine ⟨frame, st₁.fillTable frame (st₁.mem st₁.kernelPml4) entriesPerTable, ?_,
      taken.handed.fill _, fun j hj => ?_⟩
    · rw [Vmm.vmmCreateAddressSpace, alloc]
      exact if_neg taken.nonzero
    · rw [Vmm.fillTable_mem, if_pos ⟨rfl, hj⟩, taken.mem, taken.kernel]

/-- Frames that are no tables may be freed. -/
theorem Spaces.freeAll (inv : Spaces K roots st) (fewer : ∀ r ∈ roots', r ∈ roots)
    {frames : List Word} (aligned : ∀ d ∈ frames, Aligned d)
    (apart : ∀ d ∈ frames, Unlinked st.mem (forest K st.kernelPml4 roots') d)
    (zero : ∀ d ∈ frames, frameOf d.toNat ≠ 0) : Spaces K roots' (st.freeAll frames) := by
  refine inv.restrict fewer (Vmm.freeAll_kernelPml4 ..) ?_ (fun T member p b node _ => ?_) ?_
  · rw [Vmm.isUsed_freeAll, inv.zero, Bool.true_and, Bool.not_eq_true', decide_eq_false_iff_not]
    rintro ⟨-, d, inside, at0⟩
    exact zero d inside at0.symm
  · rw [Vmm.freeAll_mem]
  · intro T member p b node
    have wider : forest K st.kernelPml4 roots T := by
      rcases member with rfl | ⟨r, live, rfl⟩
      · exact forest_kernel K _ roots
      · exact forest_space K _ (fewer r live)
    obtain ⟨whole, used⟩ := inv.tables T wider p b node
    rw [Vmm.usedAt, Vmm.isUsed_freeAll, ← Vmm.usedAt, used, Bool.true_and, Bool.not_eq_true',
      decide_eq_false_iff_not]
    rintro ⟨-, d, inside, same⟩
    rw [frameOf_inj whole (aligned d inside) same] at node
    exact apart d inside T member p node

end Handing

/-! ## Destroying -/

/-- The tree `vmm_destroy_address_space` walks: top-level entries are followed
where they differ from the kernel's. -/
def destroyTree (kernelEntry : Nat → Word) (root : Word) : Tree Word Word where
  root := root
  link path e :=
    match path with
    | [i] => if i < entriesPerTable ∧ present e = true ∧ e ≠ kernelEntry i then some (target e) else none
    | path => treeLink (fun _ => false) true path e

section Destroy
variable {K : Nat → Bool} {roots : List Word} {st : Vmm} {T : Tree Word Word}
  {p q : Path} {r a b c d : Word} {i j : Nat} {kernelEntry : Nat → Word} {root : Word}

theorem freePage_eq (mem : Tables) (e : Word) (st : Vmm) (i₂ i₃ i₄ : Nat)
    (hi : i < entriesPerTable) :
    st.freePage e = st.freeAll (collectEntry entriesPerTable mem (destroyTree kernelEntry root) 0
      [i, i₂, i₃, i₄] e) := by
  unfold Vmm.freePage
  simp only [and_presentUser, and_pageAddrMask]
  by_cases both : present e = true ∧ user e = true
  · have linked : (destroyTree kernelEntry root).link [i, i₂, i₃, i₄] e = some (target e) := by
      simp [destroyTree, treeLink, follows, hi, both]
    rw [if_pos both, collectEntry_some linked, collect, Vmm.freeAll_singleton]
  · have nowhere : (destroyTree kernelEntry root).link [i, i₂, i₃, i₄] e = none := by
      rw [not_and, Bool.not_eq_true] at both
      cases there : present e with
      | false => simp [destroyTree, treeLink, follows, there]
      | true => simp [destroyTree, treeLink, follows, both there]
    rw [if_neg both, collectEntry_none nowhere, Vmm.freeAll_nil]

theorem freePageTable_eq (e : Word) (st : Vmm) (i₃ i₄ : Nat) (hi : i < entriesPerTable) :
    st.freePageTable e = st.freeAll (collectEntry entriesPerTable st.mem
      (destroyTree kernelEntry root) 1 [i, i₃, i₄] e) := by
  unfold Vmm.freePageTable
  simp only [and_pagePresent, ne_eq, and_pageSize2Mb, and_pageAddrMask]
  cases there : present e with
  | false =>
    rw [collectEntry_none (by simp [destroyTree, treeLink, follows, there]), if_pos rfl,
      Vmm.freeAll_nil]
  | true =>
  cases large : huge e with
  | true =>
    rw [collectEntry_none (by simp [destroyTree, treeLink, follows, large]), if_neg (by simp),
      if_pos (by simp), Vmm.freeAll_nil]
  | false =>
  have linked : (destroyTree kernelEntry root).link [i, i₃, i₄] e = some (target e) := by
    simp [destroyTree, treeLink, follows, there, large, hi]
  rw [if_neg (by simp), if_neg (by simp), collectEntry_some linked]
  refine Vmm.freeTable_eq (target e) st fun j hj t same _ => ?_
  rw [same]
  exact freePage_eq st.mem _ t i i₃ i₄ hj

theorem freePageDirectory_eq (e : Word) (st : Vmm) (i₄ : Nat) (hi : i < entriesPerTable) :
    st.freePageDirectory e = st.freeAll (collectEntry entriesPerTable st.mem
      (destroyTree kernelEntry root) 2 [i, i₄] e) := by
  unfold Vmm.freePageDirectory
  simp only [and_pagePresent, and_pageAddrMask]
  cases there : present e with
  | false =>
    rw [collectEntry_none (by simp [destroyTree, treeLink, follows, there]), if_pos rfl,
      Vmm.freeAll_nil]
  | true =>
  have linked : (destroyTree kernelEntry root).link [i, i₄] e = some (target e) := by
    simp [destroyTree, treeLink, follows, there, hi]
  rw [if_neg (by simp), collectEntry_some linked]
  refine Vmm.freeTable_eq (target e) st fun j hj t same _ => ?_
  rw [same, ← same]
  exact freePageTable_eq _ t i i₄ hj

theorem freeBranch_eq (e : Word) (st : Vmm) (hi : i < entriesPerTable) :
    st.freeBranch e (kernelEntry i) = st.freeAll (collectEntry entriesPerTable st.mem
      (destroyTree kernelEntry root) 3 [i] e) := by
  unfold Vmm.freeBranch
  simp only [and_pagePresent, and_pageAddrMask]
  by_cases skip : present e = false ∨ e = kernelEntry i
  · have nowhere : (destroyTree kernelEntry root).link [i] e = none := by
      refine if_neg fun yes => ?_
      rcases skip with absent | same
      · rw [absent] at yes
        cases yes.2.1
      · exact yes.2.2 same
    rw [if_pos skip, collectEntry_none nowhere, Vmm.freeAll_nil]
  · rw [if_neg skip]
    rw [not_or, Bool.not_eq_false] at skip
    have linked : (destroyTree kernelEntry root).link [i] e = some (target e) :=
      if_pos ⟨hi, skip.1, skip.2⟩
    rw [collectEntry_some linked]
    refine Vmm.freeTable_eq (target e) st fun j hj t same _ => ?_
    rw [same, ← same]
    exact freePageDirectory_eq _ t i hj

/-- Destroying a space frees what hangs below its private top-level entries,
children before parents, and last the PML4. -/
theorem vmmDestroyAddressSpace_eq (nonzero : root ≠ 0) (aligned : Aligned root)
    (other : root ≠ st.kernelPml4) :
    st.vmmDestroyAddressSpace root = st.freeAll
      (collect entriesPerTable st.mem (destroyTree (st.mem st.kernelPml4) root) 4 [] root) := by
  unfold Vmm.vmmDestroyAddressSpace
  rw [if_neg (not_or.mpr ⟨nonzero, other⟩)]
  simp only [spacePml4, and_pageAddrMask, show target root = root from aligned]
  refine Vmm.freeTable_eq root st fun j hj t same kernel => ?_
  rw [same, kernel, ← same]
  exact freeBranch_eq _ t hj

/-- Under the invariant the walk of `vmm_destroy_address_space` meets exactly
the private tree. -/
theorem destroyTree_nodes (inv : Spaces K roots st) (own : r ∈ roots) (p : Path) :
    nodeAt st.mem (destroyTree (st.mem st.kernelPml4) r) p = nodeAt st.mem (spaceTree K r) p := by
  induction p with
  | nil => rfl
  | cons i p ih =>
    rw [nodeAt, nodeAt, ih]
    cases node : nodeAt st.mem (spaceTree K r) p with
    | none => rfl
    | some b =>
      rw [Option.bind_some, Option.bind_some]
      rcases p with _ | ⟨i', p⟩
      · cases Option.some.inj node
        simp only [destroyTree, spaceTree, treeLink, follows, Bool.and_eq_true, decide_eq_true_iff,
          Bool.not_eq_true']
        by_cases hi : i < entriesPerTable
        · cases slot : K i with
          | true => simp [inv.shared r own i hi slot]
          | false =>
            have absent := (inv.kernelSlots i hi).trans slot
            by_cases there : present (st.mem r i) = true
            · have differ : st.mem r i ≠ st.mem st.kernelPml4 i := by
                intro same
                rw [same, absent] at there
                cases there
              simp [hi, there, differ]
            · simp [there]
        · simp [hi]
      · rcases p with _ | ⟨i'', _ | ⟨i₃, _ | ⟨i₄, p⟩⟩⟩ <;> rfl

/-- Paths of a private tree end at its pages. -/
theorem spaceTree_depth (node : nodeAt st.mem (spaceTree K r) p = some b) : p.length ≤ 4 := by
  rcases p with _ | ⟨i₁, _ | ⟨i₂, _ | ⟨i₃, _ | ⟨i₄, _ | ⟨i₅, p⟩⟩⟩⟩⟩
  all_goals try simp
  rw [nodeAt] at node
  obtain ⟨c, -, linked⟩ := Option.bind_eq_some_iff.mp node
  simp [spaceTree, treeLink, follows] at linked

/-- The frames `vmm_destroy_address_space` gives back, in order: the PML4, the
private tables and the user pages, each once. -/
theorem destroy_spec (inv : Spaces K roots st) (own : r ∈ roots) :
    ∃ frames, st.vmmDestroyAddressSpace r = st.freeAll frames ∧ frames.Nodup ∧
      (∀ d, d ∈ frames ↔ ∃ p, nodeAt st.mem (spaceTree K r) p = some d) ∧
      ∀ d ∈ frames, Aligned d ∧ st.usedAt d = true := by
  have bounded (i : Nat) (p : Path) (e c : Word)
      (linked : (destroyTree (st.mem st.kernelPml4) r).link (i :: p) e = some c) :
      i < entriesPerTable := by
    rcases p with _ | ⟨i', p⟩
    · by_contra beyond
      simp [destroyTree, beyond] at linked
    · exact follows_bounded (treeLink_eq_some.mp linked).1
  have member := forest_space K st.kernelPml4 own
  have nodes := destroyTree_nodes inv own
  have found (d : Word) : d ∈ collect entriesPerTable st.mem
      (destroyTree (st.mem st.kernelPml4) r) 4 [] r ↔
        ∃ p, nodeAt st.mem (spaceTree K r) p = some d := by
    rw [mem_collect bounded (show nodeAt st.mem _ [] = some r from rfl)]
    constructor
    · rintro ⟨q, -, node⟩
      rw [List.append_nil, nodes] at node
      exact ⟨q, node⟩
    · rintro ⟨q, node⟩
      refine ⟨q, spaceTree_depth node, ?_⟩
      rw [List.append_nil, nodes]
      exact node
  refine ⟨_, vmmDestroyAddressSpace_eq (inv.nonzero r own) (inv.rootTable own).1
    (inv.root_ne_kernel own), ?_, found, ?_⟩
  · refine nodup_collect bounded (fun p q d at_p at_q => ?_)
      (show nodeAt st.mem _ [] = some r from rfl)
    rw [nodes] at at_p at_q
    exact (inv.separate _ member _ member p q d at_p at_q).2
  · intro d collected
    obtain ⟨p, node⟩ := (found d).mp collected
    exact inv.tables _ member p d node

end Destroy

end MiniKernel.Memory.Paging
