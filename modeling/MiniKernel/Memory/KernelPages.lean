import MiniKernel.Memory.SpaceFrames
import MiniKernel.Memory.VmmInit

/-!
# Pages of the kernel's own tables

Source: kernel/mm/vmm.c:134-171. Under the slots the kernel uses, mapping and
unmapping a page acts on tables that all address spaces share. A 2 MiB page is
split on the way, which shows in no translation but the user right.
-/
namespace MiniKernel.Memory.Paging
open Lib Lib.Radix

section
variable {K : Nat → Bool} {roots : List Word} {st st' : Vmm} {r cur a va pt e : Word}

/-- `vmm_is_mapped_in` says whether the CPU finds a translation. -/
theorem vmmIsMappedIn_eq (st : Vmm) (space va : Word) :
    st.vmmIsMappedIn space va = (translate st.mem space va).isSome := by
  simp only [Vmm.vmmIsMappedIn, Vmm.getPdEntry, translate, spacePml4, and_pageAddrMask,
    and_pagePresent, pml4Index_eq, pdptIndex_eq, pdIndex_eq, ptIndex_eq, ne_eq, and_pageSize2Mb]
  cases p4 : present (st.mem (target space) (levelIndex 39 va)) with
  | false => simp
  | true =>
  cases p3 : present (st.mem (target (st.mem (target space) (levelIndex 39 va)))
      (levelIndex 30 va)) with
  | false => simp
  | true =>
  simp only [Bool.true_eq_false, if_false]
  generalize st.mem (target (st.mem (target (st.mem (target space) (levelIndex 39 va)))
    (levelIndex 30 va))) (levelIndex 21 va) = l2
  cases p2 : present l2 with
  | false => simp
  | true =>
  cases large : huge l2 with
  | true => simp
  | false => cases present (st.mem (target l2) (levelIndex 12 va)) <;> simp

/-- The pages of two addresses. -/
theorem pathOf_eq_iff {a b : Word} :
    pathOf a = pathOf b ↔ a.toNat / 2 ^ 12 % 2 ^ 36 = b.toNat / 2 ^ 12 % 2 ^ 36 := by
  simp only [pathOf, List.cons.injEq, and_true, levelIndex]
  omega

/-! ## Entries of the kernel's page tables -/

/-- Where the page table of a kernel address is there, its entry decides. -/
theorem Spaces.translate_kernelLeaf (inv : Spaces K roots st)
    (upper : UpperWritable st.mem (kernelTree K st.kernelPml4)) (live : Live roots st r)
    (slot : K (levelIndex 39 va) = true)
    (node : nodeAt st.mem (kernelTree K st.kernelPml4) (tablePath va) = some pt) :
    if present (st.mem pt (levelIndex 12 va)) = true then
      ∃ u, translate st.mem r va = some ⟨target (st.mem pt (levelIndex 12 va)),
        writable (st.mem pt (levelIndex 12 va)), u⟩
    else translate st.mem r va = none := by
  have member := forest_kernel K st.kernelPml4 roots
  obtain ⟨t₃, t₂, node₃, node₂, l4, l3, l2⟩ := table_entries (forest_link member) node
  have root : target st.kernelPml4 = st.kernelPml4 := inv.kernelTable.1
  have w4 := upper [] _ rfl (Nat.zero_le _) _ (levelIndex_lt 39 va) l4.1
  have w3 := upper _ t₃ node₃ (by simp) _ (levelIndex_lt 30 va) l3.1
  have w2 := upper _ t₂ node₂ (by simp) _ (levelIndex_lt 21 va) l2.1
  have top : (kernelTree K st.kernelPml4).root = st.kernelPml4 := rfl
  rw [top] at l4 w4
  rw [inv.translate_shared live slot]
  simp only [translate, root, l4.1, l4.2, l3.1, l3.2, l2.1, l2.2.1, l2.2.2, w4, w3, w2,
    Bool.true_eq_false, Bool.false_eq_true, if_false, Bool.true_and]
  cases there : present (st.mem pt (levelIndex 12 va)) with
  | false => simp
  | true => simp

/-- What writing an entry of a kernel page table keeps. -/
structure LeafSet (K : Nat → Bool) (roots : List Word) (va : Word) (st st' : Vmm) : Prop where
  inv : Spaces K roots st'
  kernel : st'.kernelPml4 = st.kernelPml4
  pmm : st'.pmm = st.pmm
  nodes : ∀ S, forest K st.kernelPml4 roots S → ∀ q, nodeAt st'.mem S q = nodeAt st.mem S q
  upper : UpperWritable st'.mem (kernelTree K st.kernelPml4)
  translated : ∀ s a, Live roots st s → pathOf a ≠ pathOf va →
    translate st'.mem s a = translate st.mem s a

theorem Spaces.kernelLeaf (inv : Spaces K roots st)
    (upper : UpperWritable st.mem (kernelTree K st.kernelPml4))
    (node : nodeAt st.mem (kernelTree K st.kernelPml4) (tablePath va) = some pt) (e : Word) :
    LeafSet K roots va st (st.setEntry pt (levelIndex 12 va) e) := by
  have member := forest_kernel K st.kernelPml4 roots
  -- the kernel's tree ends at its page tables
  have nowhere (e' : Word) :
      (kernelTree K st.kernelPml4).link (levelIndex 12 va :: tablePath va) e' = none := by
    simp [kernelTree, treeLink, follows, tablePath]
  have nodes (S : Tree Word Word) (hs : forest K st.kernelPml4 roots S) (q : Path) :
      nodeAt (put st.mem pt (levelIndex 12 va) e) S q = nodeAt st.mem S q :=
    inv.separate.nodeAt_relabel member node ((nowhere _).trans (nowhere _).symm) hs q
  have above (S : Tree Word Word) (hs : forest K st.kernelPml4 roots S) (q : Path) (d : Word)
      (at_q : nodeAt st.mem S q = some d) (short : q.length ≤ 2) : d ≠ pt := by
    rintro rfl
    obtain ⟨-, rfl⟩ := inv.separate S hs _ member q _ d at_q node
    simp [tablePath] at short
  constructor
  case inv =>
    refine inv.of_entry member node (i := levelIndex 12 va) (by simp [tablePath]) rfl
      (Grows.refl _) (fun d j _ other => put_other other) (inv.separate.of_nodes nodes) ?_ ?_ ?_
    · intro S hs q d at_q
      exact inv.tables S hs q d ((nodes S hs q).symm.trans at_q)
    · intro s live q d at_q short j hj private_ there
      have old := (nodes _ (forest_space K _ live) q).symm.trans at_q
      rw [Vmm.setEntry_mem, put_table (above _ (forest_space K _ live) q d old short)] at there ⊢
      exact inv.own s live q d old short j hj private_ there
    · intro q d at_q deep j hj there large
      have old := (nodes _ member q).symm.trans at_q
      rw [Vmm.setEntry_mem, put_table (above _ member q d old deep.le)] at there large ⊢
      exact inv.regions q d old deep j hj there large
  case kernel => rfl
  case pmm => rfl
  case nodes => exact nodes
  case upper =>
    intro q d at_q short j hj there
    have old := (nodes _ member q).symm.trans at_q
    rw [Vmm.setEntry_mem, put_table (above _ member q d old short)] at there ⊢
    exact upper q d old short j hj there
  case translated =>
    intro s a live off
    exact inv.leaf_translate member node live (fun on => off on.2) e

/-- Tables that grew were there, or come out of free frames. -/
theorem Grown.origin {T S : Tree Word Word} {P q : Path} {d : Word}
    (grown : Grown K roots T P st st') (hs : forest K st.kernelPml4 roots S)
    (node : nodeAt st'.mem S q = some d) :
    nodeAt st.mem S q = some d ∨ st.usedAt d = false := by
  by_cases here : S = T ∧ q <:+ P
  · obtain ⟨rfl, -⟩ := here
    cases before : nodeAt st.mem S q with
    | none => exact Or.inr (grown.fresh q d before node)
    | some c => exact Or.inl ((grown.kept q c before).symm.trans node)
  · rw [grown.elsewhere S hs q here] at node
    exact Or.inl node

/-- A page of the kernel's now translates as `view` says, and nothing else has
changed but the user right of pages and tables out of free frames. -/
structure PageSet (K : Nat → Bool) (roots : List Word) (va : Word)
    (view : Option (Word × Bool × Bool)) (st st' : Vmm) : Prop where
  inv : Spaces K roots st'
  kernel : st'.kernelPml4 = st.kernelPml4
  grows : Grows st.pmm st'.pmm
  upper : UpperWritable st'.mem (kernelTree K st.kernelPml4)
  table : ∃ pt, nodeAt st'.mem (kernelTree K st.kernelPml4) (tablePath va) = some pt
  kept : ∀ q d, nodeAt st.mem (kernelTree K st.kernelPml4) q = some d →
    nodeAt st'.mem (kernelTree K st.kernelPml4) q = some d
  origin : ∀ S, forest K st.kernelPml4 roots S → ∀ q d, nodeAt st'.mem S q = some d →
    nodeAt st.mem S q = some d ∨ st.usedAt d = false
  here : ∀ s, Live roots st s → looks false (translate st'.mem s va) = view
  looks : ∀ s a, Live roots st s → pathOf a ≠ pathOf va →
    looks false (translate st'.mem s a) = looks false (translate st.mem s a)

/-- What an entry of a kernel page table shows. -/
def entryView (e : Word) : Option (Word × Bool × Bool) :=
  if present e then some (target e, writable e, false) else none

/-- Tables along an address of the kernel's, and then the entry of its page. -/
theorem Grown.pageSet {st₁ : Vmm}
    (grown : Grown K roots (kernelTree K st.kernelPml4) (tablePath va) st st₁)
    (upper : UpperWritable st.mem (kernelTree K st.kernelPml4))
    (slot : K (levelIndex 39 va) = true)
    (node : nodeAt st₁.mem (kernelTree K st.kernelPml4) (tablePath va) = some pt) (e : Word) :
    PageSet K roots va (entryView e) st (st₁.setEntry pt (levelIndex 12 va) e) := by
  have kernel := grown.kernel
  have upper₁ := grown.rights upper
  rw [← kernel] at upper₁ node
  have leaf := grown.inv.kernelLeaf upper₁ node e
  have member := forest_kernel K st₁.kernelPml4 roots
  have live₁ (s : Word) (at_s : Live roots st s) : Live roots st₁ s := by rwa [Live, kernel]
  have node₂ := (leaf.nodes _ member _).trans node
  constructor
  case inv => exact leaf.inv
  case kernel => exact kernel
  case grows => exact grown.grows
  case upper => exact kernel ▸ leaf.upper
  case table =>
    rw [← kernel]
    exact ⟨pt, node₂⟩
  case kept =>
    intro q d before
    have kept := grown.kept q d before
    rw [← kernel] at kept ⊢
    exact (leaf.nodes _ member q).trans kept
  case origin =>
    intro S hs q d after
    rw [leaf.nodes S (kernel.symm ▸ hs)] at after
    exact grown.origin hs after
  case here =>
    intro s at_s
    have result := leaf.inv.translate_kernelLeaf leaf.upper (live₁ s at_s) slot node₂
    rw [Vmm.setEntry_mem, put_same] at result
    unfold entryView
    split at result
    · next there =>
      obtain ⟨u, result⟩ := result
      rw [if_pos there, Vmm.setEntry_mem, result]
      simp [Paging.looks, Translation.view]
    · next absent =>
      rw [if_neg absent, Vmm.setEntry_mem, result]
      rfl
  case looks =>
    intro s a at_s off
    rw [leaf.translated s a (live₁ s at_s) off, grown.looks false (by simp) s a at_s]

theorem Spaces.live_pml4 (inv : Spaces K roots st) (live : Live roots st r) : spacePml4 r = r := by
  rw [spacePml4, and_pageAddrMask]
  exact inv.live_aligned live

theorem walkTree_kernel (slot : K (levelIndex 39 va) = true) :
    walkTree K st.kernelPml4 r va = kernelTree K st.kernelPml4 := by
  rw [walkTree, if_pos slot]

/-- A translated page has an entry in a page directory. -/
theorem getPdEntry_of_mapped (mapped : translate st.mem cur va ≠ none) :
    ∃ pd pdi, st.getPdEntry (spacePml4 cur) va = some (pd, pdi) ∧
      present (st.mem pd pdi) = true := by
  have isMapped : st.vmmIsMappedIn cur va = true := by
    rw [vmmIsMappedIn_eq]
    exact Option.isSome_iff_ne_none.mpr mapped
  simp only [Vmm.vmmIsMappedIn] at isMapped
  cases found : st.getPdEntry (spacePml4 cur) va with
  | none => simp [found] at isMapped
  | some entry =>
    refine ⟨entry.1, entry.2, rfl, ?_⟩
    by_contra absent
    have clear := (and_pagePresent (st.mem entry.1 entry.2)).mpr (by simpa using absent)
    simp [found, clear] at isMapped

/-- `vmm_unmap_page_in` leaves a page that is not mapped alone, or clears its
entry in the page table it comes to. -/
theorem vmmUnmapPageIn_cases (st : Vmm) (cur va : Word) :
    (translate st.mem cur va = none ∧ st.vmmUnmapPageIn cur va = (true, st)) ∨
      st.vmmUnmapPageIn cur va =
        match st.getOrSplitPtEntry (spacePml4 cur) va with
        | (none, st') => (false, st')
        | (some (pt, i), st') => (true, st'.setEntry pt i 0) := by
  by_cases entry : ∃ pd pdi, st.getPdEntry (spacePml4 cur) va = some (pd, pdi) ∧
      present (st.mem pd pdi) = true
  · right
    obtain ⟨pd, pdi, found, there⟩ := entry
    rw [Vmm.vmmUnmapPageIn, found]
    exact if_neg (by rw [and_pagePresent, there]; decide)
  · left
    constructor
    · by_contra mapped
      exact entry (getPdEntry_of_mapped mapped)
    · simp only [Vmm.vmmUnmapPageIn, and_pagePresent]
      cases found : st.getPdEntry (spacePml4 cur) va with
      | none => rfl
      | some slot =>
        have absent : present (st.mem slot.1 slot.2) = false := by
          by_contra there
          exact entry ⟨slot.1, slot.2, found, by simpa using there⟩
        exact if_pos absent

/-- `vmm_unmap_page_in` of a page of the kernel's: there was no page table, or
the page is gone, or the frames ran out before its 2 MiB page was split. -/
theorem vmmUnmapPageIn_kernel (inv : Spaces K roots st)
    (upper : UpperWritable st.mem (kernelTree K st.kernelPml4)) (live : Live roots st cur)
    (slot : K (levelIndex 39 va) = true) :
    (translate st.mem cur va = none ∧ st.vmmUnmapPageIn cur va = (true, st)) ∨
      (∃ st', st.vmmUnmapPageIn cur va = (true, st') ∧ PageSet K roots va none st st') ∨
      ∃ st', st.vmmUnmapPageIn cur va = (false, st') ∧
        Grown K roots (kernelTree K st.kernelPml4) (tablePath va) st st' := by
  rcases vmmUnmapPageIn_cases st cur va with unmapped | cleared
  · exact Or.inl unmapped
  right
  rw [cleared, inv.live_pml4 live]
  rcases getOrSplitPtEntry_spec inv (show Reaches K roots st cur va from ⟨live, Or.inl slot⟩)
    with ⟨pt, st₁, made, grown, node⟩ | ⟨st₁, failed, grown, -, -⟩
  · left
    rw [walkTree_kernel slot] at grown node
    rw [made]
    exact ⟨_, rfl, grown.pageSet upper slot node 0⟩
  · right
    rw [walkTree_kernel slot] at grown
    rw [failed]
    exact ⟨st₁, rfl, grown⟩

/-- `vmm_map_page_in` of a page of the kernel's: the page is there, or the
frames ran out before its page table was. -/
theorem vmmMapPageIn_kernel (inv : Spaces K roots st)
    (upper : UpperWritable st.mem (kernelTree K st.kernelPml4)) (live : Live roots st cur)
    (slot : K (levelIndex 39 va) = true) (phys flags : Word) :
    (∃ st', st.vmmMapPageIn cur va phys flags = (true, st') ∧
      PageSet K roots va (some (target phys, writable flags, false)) st st') ∨
      ∃ st', st.vmmMapPageIn cur va phys flags = (false, st') ∧
        Grown K roots (kernelTree K st.kernelPml4) (tablePath va) st st' ∧
        nodeAt st.mem (kernelTree K st.kernelPml4) (tablePath va) = none := by
  simp only [Vmm.vmmMapPageIn, inv.live_pml4 live]
  rcases getOrSplitPtEntry_spec inv (show Reaches K roots st cur va from ⟨live, Or.inl slot⟩) with
    ⟨pt, st₁, made, grown, node⟩ | ⟨st₁, failed, grown, absent, -⟩
  · left
    rw [walkTree_kernel slot] at grown node
    have set := grown.pageSet upper slot node (pageEntry phys flags)
    rw [entryView, if_pos (present_pageEntry phys flags), target_pageEntry,
      writable_pageEntry] at set
    rw [made]
    exact ⟨_, rfl, set⟩
  · right
    rw [walkTree_kernel slot] at grown absent
    rw [failed]
    refine ⟨st₁, rfl, grown, ?_⟩
    -- a table that was there would still be
    cases before : nodeAt st.mem (kernelTree K st.kernelPml4) (tablePath va) with
    | none => rfl
    | some pt =>
      rw [grown.kept _ _ before] at absent
      cases absent

end
end MiniKernel.Memory.Paging
