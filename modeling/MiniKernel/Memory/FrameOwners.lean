import MiniKernel.Lib.Ledger
import MiniKernel.Memory.GuardedStacks

/-!
# Every frame in use has an owner

Source: kernel/mm/pmm.c, kernel/mm/vmm.c:34-346, kernel/sched/thread.c:116-154, 173-192 and
kernel/core/elf/elf_loader.c:64-81. A frame that was free after boot is in use as a table or a
page of one address space, or in one thread's stack, or it was taken for the heap, or it was
lost when a page of an image was loaded.
-/
namespace MiniKernel.Memory.Paging
open Lib Lib.Radix
open Lib.Ledger (Balanced Step)

/-- A frame that the kernel's tables or those of a space lead to, the tables among them. -/
def NodeFrame (st : Vmm) (roots : List Word) (f : Nat) : Prop :=
  ∃ T, forest slot0 st.kernelPml4 roots T ∧ ∃ p d, nodeAt st.mem T p = some d ∧
    frameOf d.toNat = f

def StackFrame (guarded : Nat → Option GuardedStack) (f : Nat) : Prop :=
  ∃ tid k, guarded tid = some k ∧ ∃ d ∈ k.frames, frameOf d.toNat = f

/-- A frame with an owner; frames in `hand` are between two of them. -/
def Owned (st : Vmm) (roots : List Word) (guarded : Nat → Option GuardedStack)
    (hand : List Word) (f : Nat) : Prop :=
  NodeFrame st roots f ∨ StackFrame guarded f ∨ ∃ d ∈ hand, frameOf d.toNat = f

/-- What happened between two states: which frames were taken and given back, and `more` of
them have no owner any more. -/
def Moves (boot : Pmm) (st : Vmm) (roots : List Word) (guarded : Nat → Option GuardedStack)
    (hand : List Word) (st' : Vmm) (roots' : List Word) (guarded' : Nat → Option GuardedStack)
    (hand' : List Word) (more : List Nat) : Prop :=
  Step (isUsed boot · = true) (isUsed st.pmm · = true) (Owned st roots guarded hand)
    (isUsed st'.pmm · = true) (Owned st' roots' guarded' hand') more

/-! ## Tables that grow -/

section
variable {boot : Pmm} {roots : List Word} {guarded : Nat → Option GuardedStack}
  {st st' st₁ st₂ : Vmm} {r c d va : Word} {hand frames : List Word} {k : GuardedStack} {tid : Nat}

/-- Tables were added to the trees, out of free frames, and nothing else happened. -/
structure Extends (roots : List Word) (st st' : Vmm) : Prop where
  inv : Spaces slot0 roots st'
  kernel : st'.kernelPml4 = st.kernelPml4
  grows : Grows st.pmm st'.pmm
  kept : ∀ T, forest slot0 st.kernelPml4 roots T → ∀ p d, nodeAt st.mem T p = some d →
    nodeAt st'.mem T p = some d
  origin : ∀ T, forest slot0 st.kernelPml4 roots T → ∀ p d, nodeAt st'.mem T p = some d →
    nodeAt st.mem T p = some d ∨ st.usedAt d = false
  took : ∀ f, isUsed st'.pmm f = true → isUsed st.pmm f = true ∨ NodeFrame st' roots f

theorem Grown.extends {T : Tree Word Word} {P : Path}
    (member : forest slot0 st.kernelPml4 roots T) (grown : Grown slot0 roots T P st st') :
    Extends roots st st' where
  inv := grown.inv
  kernel := grown.kernel
  grows := grown.grows
  kept := fun S hs p d node => by
    by_cases here : S = T ∧ p <:+ P
    · rw [here.1] at node ⊢
      exact grown.kept p d node
    · rw [grown.elsewhere S hs p here, node]
  origin := fun S hs p d node => grown.origin hs node
  took := fun f used => (grown.took f used).imp_right fun ⟨q, d, _, node, same⟩ =>
    ⟨T, grown.kernel ▸ member, q, d, node, same.symm⟩

/-- Writing an entry of a kernel page table adds none. -/
theorem Extends.leaf (extends_ : Extends roots st st₁) (leaf : LeafSet slot0 roots va st₁ st₂) :
    Extends roots st st₂ where
  inv := leaf.inv
  kernel := leaf.kernel.trans extends_.kernel
  grows := leaf.pmm ▸ extends_.grows
  kept := fun T hT p d node => by
    rw [leaf.nodes T (extends_.kernel ▸ hT)]
    exact extends_.kept T hT p d node
  origin := fun T hT p d node => by
    rw [leaf.nodes T (extends_.kernel ▸ hT)] at node
    exact extends_.origin T hT p d node
  took := fun f used => by
    rw [leaf.pmm] at used
    refine (extends_.took f used).imp_right ?_
    rintro ⟨T, hT, p, d, node, same⟩
    exact ⟨T, leaf.kernel ▸ hT, p, d, (leaf.nodes T hT p).trans node, same⟩

theorem Extends.refl (inv : Spaces slot0 roots st) : Extends roots st st :=
  Grown.extends (forest_kernel slot0 _ roots) (P := []) (Grown.refl inv)

/-- `get_or_split_pt_entry` for a page of the kernel's, and then a new entry. -/
theorem Held.splitExtends {cur : Word} (held : Held boot roots guarded st)
    (live : Live roots st cur) (slot : slot0 (levelIndex 39 va) = true) (e : Word) :
    match st.getOrSplitPtEntry cur va with
    | (none, st') => Extends roots st st'
    | (some (pt, i), st') => Extends roots st (st'.setEntry pt i e) := by
  rcases getOrSplitPtEntry_spec held.spaces
    (show Reaches slot0 roots st cur va from ⟨live, Or.inl slot⟩) with
    ⟨pt, st₁, made, grown, node⟩ | ⟨st₁, failed, grown, -, -⟩
  · rw [walkTree_kernel slot] at grown node
    rw [made]
    have upper := grown.rights held.upper
    have extends_ := grown.extends (forest_kernel slot0 _ roots)
    rw [← grown.kernel] at upper node
    exact extends_.leaf (grown.inv.kernelLeaf upper node e)
  · rw [failed]
    exact grown.extends (walkTree_forest live)

theorem Held.unmapExtends {cur : Word} (held : Held boot roots guarded st)
    (live : Live roots st cur) (slot : slot0 (levelIndex 39 va) = true) :
    Extends roots st (st.vmmUnmapPageIn cur va).2 := by
  rcases vmmUnmapPageIn_cases st cur va with ⟨-, unchanged⟩ | cleared
  · rw [unchanged]
    exact Extends.refl held.spaces
  · rw [cleared, held.spaces.live_pml4 live]
    have split_ := held.splitExtends live slot 0
    rcases made : st.getOrSplitPtEntry cur va with ⟨_ | ⟨pt, i⟩, st'⟩
    all_goals
      rw [made] at split_
      exact split_

theorem Held.remapExtends {cur : Word} (held : Held boot roots guarded st)
    (live : Live roots st cur) (slot : slot0 (levelIndex 39 va) = true) (phys flags : Word) :
    Extends roots st (st.vmmMapPageIn cur va phys flags).2 := by
  simp only [Vmm.vmmMapPageIn, held.spaces.live_pml4 live]
  have split_ := held.splitExtends live slot (pageEntry phys flags)
  rcases made : st.getOrSplitPtEntry cur va with ⟨_ | ⟨pt, i⟩, st'⟩
  all_goals
    rw [made] at split_
    exact split_

/-! ## What moves from owner to owner -/

/-- The frames in hand are in use, aligned and no one else's. -/
structure InHand (boot : Pmm) (st : Vmm) (roots : List Word)
    (guarded : Nat → Option GuardedStack) (hand : List Word) : Prop where
  fresh : ∀ d ∈ hand, Fresh boot roots guarded st d
  once : hand.Nodup

theorem InHand.nothing : InHand boot st roots guarded [] :=
  ⟨fun _ h => (by cases h), List.nodup_nil⟩

theorem InHand.extends (hand_ : InHand boot st roots guarded hand)
    (extends_ : Extends roots st st') :
    InHand boot st' roots guarded hand where
  fresh := fun d inside => by
    have fresh := hand_.fresh d inside
    refine ⟨fresh.aligned, extends_.grows _ fresh.used, fresh.free, ?_, fresh.apart⟩
    intro T hT p node
    rw [extends_.kernel] at hT
    rcases extends_.origin T hT p d node with old | free
    · exact fresh.unlinked T hT p old
    · rw [fresh.used] at free
      cases free
  once := hand_.once

theorem Held.node_used (held : Held boot roots guarded st) {f : Nat} (node : NodeFrame st roots f) :
    isUsed st.pmm f = true := by
  obtain ⟨T, hT, p, d, at_p, rfl⟩ := node
  exact (held.spaces.tables T hT p d at_p).2

theorem Held.stack_used (held : Held boot roots guarded st) {f : Nat}
    (stack : StackFrame guarded f) :
    isUsed st.pmm f = true := by
  obtain ⟨tid, k, at_tid, d, inside, rfl⟩ := stack
  exact (held.taken tid k at_tid d inside).1

theorem Held.owned_used (held : Held boot roots guarded st)
    (hand_ : InHand boot st roots guarded hand) {f : Nat} (owned : Owned st roots guarded hand f) :
    isUsed st.pmm f = true := by
  rcases owned with node | stack | ⟨d, inside, rfl⟩
  · exact held.node_used node
  · exact held.stack_used stack
  · exact (hand_.fresh d inside).used

/-- Owners may change among themselves. -/
theorem Moves.same {roots' : List Word} {guarded' : Nat → Option GuardedStack} {hand' : List Word}
    (held : Held boot roots guarded st) (hand_ : InHand boot st roots guarded hand)
    (pmm : st'.pmm = st.pmm)
    (owners : ∀ f, Owned st' roots' guarded' hand' f ↔ Owned st roots guarded hand f) :
    Moves boot st roots guarded hand st' roots' guarded' hand' [] := by
  have same : Owned st' roots' guarded' hand' = Owned st roots guarded hand :=
    funext fun f => propext (owners f)
  unfold Moves
  rw [pmm, same]
  exact Step.refl fun f => held.owned_used hand_

/-- Tables of free frames. -/
theorem Extends.moves (held : Held boot roots guarded st)
    (hand_ : InHand boot st roots guarded hand) (extends_ : Extends roots st st') :
    Moves boot st roots guarded hand st' roots guarded hand [] where
  took := fun f used => (extends_.took f used).imp_right fun node => Or.inl (Or.inl node)
  gave := fun f used gone => absurd (extends_.grows f used) gone
  kept := fun f owned _ => by
    left
    rcases owned with ⟨T, hT, p, d, node, same⟩ | rest
    · exact Or.inl ⟨T, extends_.kernel.symm ▸ hT, p, d, extends_.kept T hT p d node, same⟩
    · exact Or.inr rest
  origin := fun f owned => by
    rcases owned with ⟨T, hT, p, d, node, rfl⟩ | rest
    · refine ⟨(extends_.inv.tables T hT p d node).2, ?_⟩
      rw [extends_.kernel] at hT
      rcases extends_.origin T hT p d node with old | free
      · exact Or.inl (Or.inl ⟨T, hT, p, d, old, rfl⟩)
      · exact Or.inr (by rw [← Vmm.usedAt, free]; decide)
    · exact ⟨extends_.grows f (held.owned_used hand_ (Or.inr rest)), Or.inl (Or.inr rest)⟩
  listed := fun f h => by cases h
  once := List.nodup_nil

/-- A frame taken into the hand. -/
theorem Handed.moves (held : Held boot roots guarded st) (handed : Handed st st' c) :
    Moves boot st roots guarded [] st' roots guarded [c] [] := by
  have kept := held.spaces.tablesKept handed
  have nodes (f : Nat) : NodeFrame st' roots f ↔ NodeFrame st roots f := by
    unfold NodeFrame
    rw [handed.kernel]
    refine exists_congr fun T => and_congr_right fun hT => exists_congr fun p => ?_
    rw [kept.nodes hT]
  constructor
  case took =>
    intro f used
    rw [handed.used, Bool.or_eq_true, decide_eq_true_iff] at used
    exact used.imp id fun same => Or.inl (Or.inr (Or.inr ⟨c, List.mem_cons_self, same.symm⟩))
  case gave => exact fun f used gone => absurd (handed.grows f used) gone
  case kept =>
    intro f owned _
    left
    rcases owned with node | stack | ⟨d, none_, -⟩
    · exact Or.inl ((nodes f).mpr node)
    · exact Or.inr (Or.inl stack)
    · cases none_
  case origin =>
    intro f owned
    rcases owned with node | stack | ⟨d, inside, rfl⟩
    · have old := (nodes f).mp node
      exact ⟨handed.grows f (held.node_used old), Or.inl (Or.inl old)⟩
    · exact ⟨handed.grows f (held.stack_used stack), Or.inl (Or.inr (Or.inl stack))⟩
    · rw [List.mem_singleton.mp inside]
      exact ⟨handed.usedAt, Or.inr (by rw [← Vmm.usedAt, handed.free]; decide)⟩
  case listed => exact fun f h => by cases h
  case once => exact List.nodup_nil

/-- Frames in hand are given back. -/
theorem InHand.gives (held : Held boot roots guarded st)
    (hand_ : InHand boot st roots guarded (frames ++ hand)) :
    Moves boot st roots guarded (frames ++ hand) (st.freeAll frames) roots guarded hand [] := by
  obtain ⟨-, -, disjoint⟩ := List.nodup_append.mp hand_.once
  have gone (f : Nat) : isUsed (st.freeAll frames).pmm f = true ↔
      isUsed st.pmm f = true ∧ ∀ d ∈ frames, frameOf d.toNat ≠ f := by
    rw [Vmm.isUsed_freeAll, Bool.and_eq_true, Bool.not_eq_true', decide_eq_false_iff_not]
    refine and_congr_right fun _ => ⟨fun no d inside same => no ?_, ?_⟩
    · rw [← same]
      exact ⟨tracked_of_free (hand_.fresh d (List.mem_append_left _ inside)).free, d, inside, rfl⟩
    · rintro no ⟨-, d, inside, rfl⟩
      exact no d inside rfl
  have nodes (f : Nat) : NodeFrame (st.freeAll frames) roots f ↔ NodeFrame st roots f := by
    rw [NodeFrame, Vmm.freeAll_mem, Vmm.freeAll_kernelPml4]
    rfl
  constructor
  case took => exact fun f used => Or.inl ((gone f).mp used).1
  case gave =>
    intro f used free
    rw [gone] at free
    simp only [not_and, not_forall, Classical.not_not] at free
    obtain ⟨d, inside, rfl⟩ := free used
    have member := List.mem_append_left hand inside
    refine ⟨Or.inr (Or.inr ⟨d, member, rfl⟩), ?_⟩
    rw [(hand_.fresh d member).free]
    decide
  case kept =>
    intro f owned used
    left
    rcases owned with node | stack | ⟨d, inside, rfl⟩
    · exact Or.inl ((nodes f).mpr node)
    · exact Or.inr (Or.inl stack)
    · rcases List.mem_append.mp inside with freed | stays
      · exact absurd rfl (((gone _).mp used).2 d freed)
      · exact Or.inr (Or.inr ⟨d, stays, rfl⟩)
  case origin =>
    intro f owned
    have old : Owned st roots guarded (frames ++ hand) f := by
      rcases owned with node | stack | ⟨d, inside, same⟩
      · exact Or.inl ((nodes f).mp node)
      · exact Or.inr (Or.inl stack)
      · exact Or.inr (Or.inr ⟨d, List.mem_append_right _ inside, same⟩)
    refine ⟨(gone f).mpr ⟨held.owned_used hand_ old, fun d inside same => ?_⟩, Or.inl old⟩
    have fresh := hand_.fresh d (List.mem_append_left _ inside)
    rcases owned with node | ⟨tid, k, at_tid, e, member, rfl⟩ | ⟨e, member, rfl⟩
    · obtain ⟨T, hT, p, e, at_p, rfl⟩ := (nodes f).mp node
      rw [frameOf_inj fresh.aligned (held.spaces.tables T hT p e at_p).1 same] at fresh
      exact fresh.unlinked T hT p at_p
    · rw [frameOf_inj fresh.aligned (held.aligned tid k at_tid e member) same] at fresh
      exact fresh.apart tid k at_tid member
    · have other := hand_.fresh e (List.mem_append_right _ member)
      exact disjoint d inside e member (frameOf_inj fresh.aligned other.aligned same)
  case listed => exact fun f h => by cases h
  case once => exact List.nodup_nil

/-- All the frames in hand. -/
theorem InHand.givesAll (held : Held boot roots guarded st)
    (hand_ : InHand boot st roots guarded frames) :
    Moves boot st roots guarded frames (st.freeAll frames) roots guarded [] [] := by
  have gives : Moves boot st roots guarded (frames ++ []) (st.freeAll frames) roots guarded [] [] :=
    InHand.gives held (by rwa [List.append_nil])
  rwa [List.append_nil] at gives

/-- Frames in hand leave the accounts. -/
theorem InHand.loses (held : Held boot roots guarded st)
    (hand_ : InHand boot st roots guarded hand) :
    Moves boot st roots guarded hand st roots guarded [] (hand.map fun d => frameOf d.toNat) := by
  have others (f : Nat) (owned : Owned st roots guarded [] f) : Owned st roots guarded hand f :=
    owned.imp_right fun rest => rest.imp_right fun ⟨d, none_, _⟩ => by cases none_
  constructor
  case took => exact fun f used => Or.inl used
  case gave => exact fun f used gone => absurd used gone
  case kept =>
    rintro f (node | stack | ⟨d, inside, rfl⟩) _
    · exact Or.inl (Or.inl node)
    · exact Or.inl (Or.inr (Or.inl stack))
    · exact Or.inr (List.mem_map_of_mem inside)
  case origin =>
    exact fun f owned => ⟨held.owned_used hand_ (others f owned), Or.inl (others f owned)⟩
  case listed =>
    intro f h
    obtain ⟨c, inside, rfl⟩ := List.mem_map.mp h
    have fresh := hand_.fresh c inside
    refine ⟨fresh.used, by rw [fresh.free]; decide, ?_, Or.inl (Or.inr (Or.inr ⟨c, inside, rfl⟩))⟩
    rintro (⟨T, hT, p, e, at_p, same⟩ | ⟨tid, k, at_tid, e, member, same⟩ | ⟨e, none_, -⟩)
    · rw [frameOf_inj (held.spaces.tables T hT p e at_p).1 fresh.aligned same] at at_p
      exact fresh.unlinked T hT p at_p
    · rw [frameOf_inj (held.aligned tid k at_tid e member) fresh.aligned same] at member
      exact fresh.apart tid k at_tid member
    · cases none_
  case once =>
    refine List.Nodup.map_on (fun c inside d inside' same => ?_) hand_.once
    exact frameOf_inj (hand_.fresh c inside).aligned (hand_.fresh d inside').aligned same

/-- The frames of a region. -/
def regionFrames (f count : Nat) : List Word := (List.range count).map fun i => frameAddr (f + i)

theorem InHand.ofRegion {f count : Nat} (held : Held boot roots guarded st)
    (mem : st'.mem = st.mem) (kernel : st'.kernelPml4 = st.kernelPml4)
    (allocated : Allocated st.pmm st'.pmm f count) :
    InHand boot st' roots guarded (regionFrames f count) := by
  constructor
  · intro d inside
    obtain ⟨i, hi, rfl⟩ := List.mem_map.mp inside
    exact held.fresh mem kernel allocated (List.mem_range.mp hi)
  · refine List.Nodup.map_on (fun i hi j hj same => ?_) List.nodup_range
    have tracked (i : Nat) (hi : i ∈ List.range count) : f + i < pmmMaxFrames := by
      have := List.mem_range.mp hi
      exact tracked_of_free (allocated.free (f + i) (Nat.le_add_right f i) (by omega))
    have values := congrArg (fun w => frameOf (BitVec.toNat w)) same
    simp only [frameOf_frameAddr (tracked i hi), frameOf_frameAddr (tracked j hj)] at values
    omega

/-- A region taken into the hand. -/
theorem Held.takes {f count : Nat} (held : Held boot roots guarded st)
    (mem : st'.mem = st.mem) (kernel : st'.kernelPml4 = st.kernelPml4)
    (allocated : Allocated st.pmm st'.pmm f count) :
    Moves boot st roots guarded [] st' roots guarded (regionFrames f count) [] := by
  have nodes (g : Nat) : NodeFrame st' roots g ↔ NodeFrame st roots g := by
    unfold NodeFrame
    rw [mem, kernel]
  constructor
  case took =>
    intro g used
    rw [allocated.taken, Bool.or_eq_true, decide_eq_true_iff] at used
    refine used.imp id fun ⟨low, high⟩ => Or.inl (Or.inr (Or.inr ⟨frameAddr g, ?_, ?_⟩))
    · exact List.mem_map.mpr ⟨g - f, List.mem_range.mpr (by omega),
        by rw [Nat.add_sub_cancel' low]⟩
    · exact frameOf_frameAddr (tracked_of_free (allocated.free g low high))
  case gave => exact fun g used gone => absurd (allocated.grows g used) gone
  case kept =>
    rintro g (node | stack | ⟨d, none_, -⟩) _
    · exact Or.inl (Or.inl ((nodes g).mpr node))
    · exact Or.inl (Or.inr (Or.inl stack))
    · cases none_
  case origin =>
    rintro g (node | stack | ⟨d, inside, rfl⟩)
    · have old := (nodes g).mp node
      exact ⟨allocated.grows g (held.node_used old), Or.inl (Or.inl old)⟩
    · exact ⟨allocated.grows g (held.stack_used stack), Or.inl (Or.inr (Or.inl stack))⟩
    · obtain ⟨i, hi, rfl⟩ := List.mem_map.mp inside
      have bound := List.mem_range.mp hi
      have free := allocated.free (f + i) (Nat.le_add_right f i) (by omega)
      rw [frameOf_frameAddr (tracked_of_free free)]
      exact ⟨allocated.used (Nat.le_add_right f i) (by omega), Or.inr (by rw [free]; decide)⟩
  case listed => exact fun f h => by cases h
  case once => exact List.nodup_nil

/-- The frame that a space has for a page. -/
def pageFrame (st : Vmm) (space va : Word) : List Nat :=
  ((nodeAt st.mem (spaceTree slot0 space) (pathOf va)).map fun d => frameOf d.toNat).toList

theorem mem_pageFrame {f : Nat} : f ∈ pageFrame st r va ↔
    ∃ d, nodeAt st.mem (spaceTree slot0 r) (pathOf va) = some d ∧ frameOf d.toNat = f := by
  rw [pageFrame, Option.mem_toList, Option.map_eq_some_iff]

/-- A frame in hand becomes a page; the page it takes the place of leaves the accounts. -/
theorem Mapped.moves (held : Held boot roots guarded st)
    (hand_ : InHand boot st roots guarded [c]) (own : r ∈ roots)
    (done : Mapped slot0 roots r va c st st') :
    Moves boot st roots guarded [c] st' roots guarded [] (pageFrame st r va) := by
  have member := forest_space slot0 st.kernelPml4 own
  have fresh := hand_.fresh c List.mem_cons_self
  constructor
  case took =>
    intro f used
    refine (done.took f used).imp_right ?_
    rintro ⟨q, d, -, -, node, rfl⟩
    exact Or.inl (Or.inl ⟨_, forest_space slot0 _ own, q, d, node, rfl⟩)
  case gave => exact fun f used gone => absurd (done.grows f used) gone
  case kept =>
    rintro f (⟨T, hT, p, d, node, rfl⟩ | stack | ⟨d, inside, rfl⟩) _
    · by_cases here : T = spaceTree slot0 r
      · rw [here] at node
        by_cases page : p = pathOf va
        · rw [page] at node
          exact Or.inr (mem_pageFrame.mpr ⟨d, node, rfl⟩)
        · exact Or.inl (Or.inl ⟨_, forest_space slot0 _ own, p, d, done.kept p d page node, rfl⟩)
      · rw [← done.elsewhere T hT p fun on => here on.1] at node
        exact Or.inl (Or.inl ⟨T, done.kernel.symm ▸ hT, p, d, node, rfl⟩)
    · exact Or.inl (Or.inr (Or.inl stack))
    · rw [List.mem_singleton.mp inside]
      exact Or.inl (Or.inl ⟨_, forest_space slot0 _ own, pathOf va, c, done.node, rfl⟩)
  case origin =>
    rintro f (⟨T, hT, p, d, node, rfl⟩ | stack | ⟨d, none_, -⟩)
    · refine ⟨(done.inv.tables T hT p d node).2, ?_⟩
      rw [done.kernel] at hT
      rcases done.origin hT node with old | free | rfl
      · exact Or.inl (Or.inl ⟨T, hT, p, d, old, rfl⟩)
      · exact Or.inr (by rw [← Vmm.usedAt, free]; decide)
      · exact Or.inl (Or.inr (Or.inr ⟨d, List.mem_cons_self, rfl⟩))
    · exact ⟨done.grows f (held.stack_used stack), Or.inl (Or.inr (Or.inl stack))⟩
    · cases none_
  case listed =>
    intro f h
    obtain ⟨d, old, rfl⟩ := mem_pageFrame.mp h
    obtain ⟨aligned, used⟩ := held.spaces.tables _ member _ d old
    have other : d ≠ c := fun same => fresh.unlinked _ member _ (same ▸ old)
    refine ⟨done.grows _ used, by rw [held.own r own _ d old]; decide, ?_,
      Or.inl (Or.inl ⟨_, member, _, d, old, rfl⟩)⟩
    rintro (⟨T, hT, p, e, node, same⟩ | ⟨tid, k, at_tid, e, inside, same⟩ | ⟨e, none_, -⟩)
    · rw [frameOf_inj (done.inv.tables T hT p e node).1 aligned same] at node
      rw [done.kernel] at hT
      rcases done.origin hT node with before | free | at_c
      · -- only the page itself leads to its frame, and it leads to another one now
        obtain ⟨rfl, rfl⟩ := held.spaces.separate T hT _ member p _ d before old
        exact other (Option.some.inj (node.symm.trans done.node))
      · rw [used] at free
        cases free
      · exact other at_c
    · rw [frameOf_inj (held.aligned tid k at_tid e inside) aligned same] at inside
      exact held.unlinked tid k at_tid d inside _ member _ old
    · cases none_
  case once =>
    rw [pageFrame]
    cases nodeAt st.mem (spaceTree slot0 r) (pathOf va)
    · exact List.nodup_nil
    · exact List.nodup_singleton _

end

/-! ## The calls, one by one -/

section
variable {boot : Pmm} {roots : List Word} {guarded : Nat → Option GuardedStack}
  {st st' : Vmm} {r c va flags cur : Word} {k : GuardedStack} {tid f : Nat}

theorem stackFrame_update (k : GuardedStack) :
    StackFrame (Function.update guarded tid (some k)) f ↔
      StackFrame (Function.update guarded tid none) f ∨ ∃ d ∈ k.frames, frameOf d.toNat = f := by
  constructor
  · rintro ⟨t, l, at_t, d, inside, same⟩
    by_cases here : t = tid
    · rw [here, Function.update_self] at at_t
      cases at_t
      exact Or.inr ⟨d, inside, same⟩
    · rw [Function.update_of_ne here] at at_t
      exact Or.inl ⟨t, l, by rw [Function.update_of_ne here, at_t], d, inside, same⟩
  · rintro (⟨t, l, at_t, d, inside, same⟩ | ⟨d, inside, same⟩)
    · by_cases here : t = tid
      · rw [here, Function.update_self] at at_t
        cases at_t
      · rw [Function.update_of_ne here] at at_t
        exact ⟨t, l, by rw [Function.update_of_ne here, at_t], d, inside, same⟩
    · exact ⟨tid, k, Function.update_self .., d, inside, same⟩

theorem update_same {x : Option GuardedStack} (at_tid : guarded tid = x) :
    Function.update guarded tid x = guarded := at_tid ▸ Function.update_eq_self tid guarded

/-- A stack on the table, and its frames in hand once it is off the table. -/
theorem Owned.onTable (k : GuardedStack) (tid : Nat) {hand : List Word}
    (frames : ∀ d, d ∈ hand ↔ d ∈ k.frames) (f : Nat) :
    Owned st roots (Function.update guarded tid none) hand f ↔
      Owned st roots (Function.update guarded tid (some k)) [] f := by
  unfold Owned
  rw [stackFrame_update k]
  simp only [frames, List.not_mem_nil, false_and, exists_false, or_false]

/-- `alloc_guarded_stack` for a slot without a stack. -/
theorem Held.spawnMoves (held : Held boot roots guarded st) (live : Live roots st cur)
    (unused : guarded tid = none) :
    match st.allocGuardedStack cur with
    | (none, st') => Moves boot st roots guarded [] st' roots guarded [] []
    | (some (low, guard), st') => Moves boot st roots guarded [] st' roots
        (Function.update guarded tid (some ⟨low, guard, false⟩)) [] [] := by
  rcases allocContiguous_spec held.spaces.zero (threadStackPages + 1) with
    failed | ⟨f, st₁, alloc, mem, kernel, nonzero, -, bound, allocated⟩
  · have none_ : st.allocGuardedStack cur = (none, st) := by
      rw [Vmm.allocGuardedStack, failed]
      exact if_pos rfl
    rw [none_]
    exact Moves.same held InHand.nothing rfl fun f => Iff.rfl
  · have held₁ := held.taking mem kernel allocated.grows
    have live₁ : Live roots st₁ cur := by rwa [Live, kernel]
    have slot := slot0_frameAddr (f := f) (by unfold threadStackPages at bound; omega)
    have hand₁ := InHand.ofRegion held mem kernel allocated
    have extends_ := held₁.unmapExtends live₁ slot
    have moves := (held.takes mem kernel allocated).trans (extends_.moves held₁ hand₁)
    have held₂ := held₁.tuned (held₁.unmap live₁ slot)
    have hand₂ := hand₁.extends extends_
    have made : st.allocGuardedStack cur =
        if (st₁.vmmUnmapPageIn cur (frameAddr f)).2.vmmIsMappedIn cur (frameAddr f) then
          (none, (st₁.vmmUnmapPageIn cur (frameAddr f)).2.freeAll (regionFrames f 3))
        else (some (frameAddr f + 4096, frameAddr f),
          (st₁.vmmUnmapPageIn cur (frameAddr f)).2) := by
      rw [Vmm.allocGuardedStack, alloc, show regionFrames f 3 = _ from (region_frames bound).symm,
        ← freeRun_eq]
      exact if_neg nonzero
    rw [made]
    generalize (st₁.vmmUnmapPageIn cur (frameAddr f)).2 = st₂ at *
    by_cases mapped : st₂.vmmIsMappedIn cur (frameAddr f) = true
    · rw [if_pos mapped]
      exact moves.trans (hand₂.givesAll held₂)
    · rw [if_neg mapped]
      have frames := frames_new bound false
      refine moves.trans (Moves.same held₂ hand₂ rfl fun g => ?_)
      have table : Owned st₂ roots (Function.update guarded tid none)
          (regionFrames f (threadStackPages + 1)) g ↔ Owned st₂ roots
          (Function.update guarded tid (some ⟨frameAddr f + 4096, frameAddr f, false⟩)) [] g :=
        Owned.onTable _ tid (fun d => by rw [frames]; exact Iff.rfl) g
      rw [update_same unused] at table
      exact table.symm

theorem Held.exitMoves (held : Held boot roots guarded st) (at_tid : guarded tid = some k) :
    Moves boot st roots guarded [] st roots
      (Function.update guarded tid (some { k with zombie := true })) [] [] := by
  refine Moves.same held InHand.nothing rfl fun f => ?_
  have before : Owned st roots (Function.update guarded tid none) k.frames f ↔
      Owned st roots guarded [] f := by
    rw [Owned.onTable k tid (fun d => Iff.rfl), update_same at_tid]
  have after : Owned st roots (Function.update guarded tid none) k.frames f ↔ Owned st roots
      (Function.update guarded tid (some { k with zombie := true })) [] f :=
    Owned.onTable { k with zombie := true } tid (fun d => Iff.rfl) f
  exact after.symm.trans before

/-- `reap_zombie`: the frames of the stack are given back, the guard page last. -/
theorem Held.reapMoves (held : Held boot roots guarded st) (live : Live roots st cur)
    (at_tid : guarded tid = some k) :
    Moves boot st roots guarded [] (st.reapStack cur k.stackLow k.guardPage) roots
      (Function.update guarded tid none) [] [] := by
  obtain ⟨held₁, guard⟩ := held.freeStack at_tid
  have once := List.nodup_cons.mp (held.once tid k at_tid)
  have dropped : InHand boot st roots (Function.update guarded tid none)
      (k.stackFrames ++ [k.guardPage]) := by
    refine ⟨fun d inside => held.dropped at_tid ?_, ?_⟩
    · rcases List.mem_append.mp inside with inside | last
      · exact List.mem_cons_of_mem _ inside
      · rw [List.mem_singleton.mp last]
        exact List.mem_cons_self
    · refine List.nodup_append.mpr ⟨once.2, List.nodup_singleton _, fun d inside e last same => ?_⟩
      rw [same, List.mem_singleton.mp last] at inside
      exact once.1 inside
  have off : Moves boot st roots guarded [] st roots (Function.update guarded tid none)
      (k.stackFrames ++ [k.guardPage]) [] := by
    refine Moves.same held InHand.nothing rfl fun f => ?_
    rw [Owned.onTable k tid (fun d => ?_), update_same at_tid]
    rw [List.mem_append, List.mem_singleton, or_comm]
    exact List.mem_cons.symm
  have tracked := tracked_of_free guard.free
  have slot : slot0 (levelIndex 39 k.guardPage) = true :=
    frameAddr_frameOf guard.aligned tracked ▸ slot0_frameAddr tracked
  have live₁ : Live roots (st.freeAll k.stackFrames) cur := by
    rwa [Live, Vmm.freeAll_kernelPml4]
  have hand₁ : InHand boot (st.freeAll k.stackFrames) roots (Function.update guarded tid none)
      [k.guardPage] :=
    ⟨fun d inside => List.mem_singleton.mp inside ▸ guard, List.nodup_singleton _⟩
  have extends_ := held₁.remapExtends live₁ slot k.guardPage pageWritable
  have held₂ := held₁.tuned (held₁.remap live₁ slot k.guardPage pageWritable)
  rw [reapStack_eq (held.guard_ne_zero at_tid)]
  exact ((off.trans (InHand.gives held.drop dropped)).trans (extends_.moves held₁ hand₁)).trans
    ((hand₁.extends extends_).givesAll held₂)

/-- A region for the heap leaves the accounts. -/
theorem Held.heapMoves (held : Held boot roots guarded st) (mem : st'.mem = st.mem)
    (kernel : st'.kernelPml4 = st.kernelPml4) {count : Nat}
    (allocated : Allocated st.pmm st'.pmm f count) :
    Moves boot st roots guarded [] st' roots guarded [] ((List.range count).map (f + ·)) := by
  have held₁ := held.taking mem kernel allocated.grows
  have loses := (InHand.ofRegion held mem kernel allocated).loses held₁
  have frames : (regionFrames f count).map (fun d => frameOf d.toNat) =
      (List.range count).map (f + ·) := by
    rw [regionFrames, List.map_map]
    refine List.map_congr_left fun i hi => ?_
    have := List.mem_range.mp hi
    exact frameOf_frameAddr
      (tracked_of_free (allocated.free (f + i) (Nat.le_add_right f i) (by omega)))
  rw [frames] at loses
  exact (held.takes mem kernel allocated).trans loses

/-- `vmm_create_address_space`: the new PML4 is the space's only table. -/
theorem Held.createMoves (held : Held boot roots guarded st) (handed : Handed st st' c)
    (copied : ∀ j < entriesPerTable, st'.mem c j = st.mem st.kernelPml4 j) :
    Moves boot st roots guarded [] st' (c :: roots) guarded [] [] := by
  obtain ⟨held₁, fresh⟩ := held.handed handed
  have hand₁ : InHand boot st' roots guarded [c] :=
    ⟨fun d inside => List.mem_singleton.mp inside ▸ fresh, List.nodup_singleton _⟩
  refine (Handed.moves held handed).trans (Moves.same held₁ hand₁ rfl fun f => ?_)
  have nodes : NodeFrame st' (c :: roots) f ↔ frameOf c.toNat = f ∨ NodeFrame st' roots f := by
    unfold NodeFrame
    constructor
    · rintro ⟨T, hT, p, d, node, same⟩
      rcases forest_cons.mp hT with rfl | old
      · rw [spaceTree_new held.spaces copied] at node
        split at node
        · exact Or.inl (Option.some.inj node ▸ same)
        · cases node
      · exact Or.inr ⟨T, old, p, d, node, same⟩
    · rintro (same | ⟨T, hT, p, d, node, same⟩)
      · exact ⟨_, forest_cons.mpr (Or.inl rfl), [], c, rfl, same⟩
      · exact ⟨T, forest_cons.mpr (Or.inr hT), p, d, node, same⟩
  simp only [Owned, nodes, List.mem_singleton, exists_eq_left, List.not_mem_nil, false_and,
    exists_false, or_false]
  tauto

theorem node_translated {K : Nat → Bool} {mem : Tables} {d : Word} (aligned : Aligned r)
    (node : nodeAt mem (spaceTree K r) (pathOf va) = some d) : translate mem r va ≠ none := by
  rw [pathOf] at node
  obtain ⟨b₁, node₁, link₁⟩ := Option.bind_eq_some_iff.mp node
  obtain ⟨b₂, node₂, link₂⟩ := Option.bind_eq_some_iff.mp node₁
  obtain ⟨b₃, node₃, link₃⟩ := Option.bind_eq_some_iff.mp node₂
  obtain ⟨b₄, node₄, link₄⟩ := Option.bind_eq_some_iff.mp node₃
  have top : r = b₄ := Option.some.inj node₄
  have root : target r = r := aligned
  obtain ⟨f₁, -⟩ := treeLink_eq_some.mp link₁
  obtain ⟨f₂, rfl⟩ := treeLink_eq_some.mp link₂
  obtain ⟨f₃, rfl⟩ := treeLink_eq_some.mp link₃
  obtain ⟨f₄, rfl⟩ := treeLink_eq_some.mp link₄
  subst top
  simp only [follows, Bool.and_eq_true, Bool.not_eq_true'] at f₁ f₂ f₃ f₄
  simp [Memory.Paging.translate, root, f₁, f₂, f₃, f₄]

/-- A page that is not mapped has no frame. -/
theorem pageFrame_absent (held : Held boot roots guarded st) (own : r ∈ roots)
    (absent : st.vmmIsMappedIn r va = false) : pageFrame st r va = [] := by
  rw [vmmIsMappedIn_eq] at absent
  rw [pageFrame]
  cases node : nodeAt st.mem (spaceTree slot0 r) (pathOf va) with
  | none => rfl
  | some d =>
    have found := node_translated (held.spaces.rootTable own).1 node
    simp [Option.ne_none_iff_isSome.mp found] at absent

/-- What the calls for a page of a user have in common. -/
theorem Held.pageMoves (held : Held boot roots guarded st) (own : r ∈ roots)
    (slot : slot0 (levelIndex 39 va) = false) (allowed : user flags = true) :
    st.allocZeroedFrame = (0, st) ∨
      ∃ c st₁ st₂, st.allocZeroedFrame = (c, st₁) ∧ c ≠ 0 ∧
        ((st₁.vmmMapPageIn r va c flags = (true, st₂) ∧
            Moves boot st roots guarded [] st₂ roots guarded [] (pageFrame st r va)) ∨
          (st₁.vmmMapPageIn r va c flags = (false, st₂) ∧ Held boot roots guarded st₂ ∧
            InHand boot st₂ roots guarded [c] ∧
            Moves boot st roots guarded [] st₂ roots guarded [c] [])) := by
  rcases held.page own slot allowed with failed | ⟨c, st₁, alloc, nonzero, handed, page⟩
  · exact Or.inl failed
  · obtain ⟨held₁, fresh⟩ := held.handed handed
    have hand₁ : InHand boot st₁ roots guarded [c] :=
      ⟨fun d inside => List.mem_singleton.mp inside ▸ fresh, List.nodup_singleton _⟩
    have first := Handed.moves held handed
    rcases page with ⟨st₂, mapped, done⟩ | ⟨st₂, failed, grown⟩
    · have same : pageFrame st₁ r va = pageFrame st r va := by
        rw [pageFrame, pageFrame,
          (held.spaces.tablesKept handed).nodes (forest_space slot0 _ own)]
      have moves := first.trans (Mapped.moves held₁ hand₁ own done)
      rw [same] at moves
      exact Or.inr ⟨c, st₁, st₂, alloc, nonzero, Or.inl ⟨mapped, moves⟩⟩
    · have extends_ := Grown.extends (forest_space slot0 _ own) grown
      exact Or.inr ⟨c, st₁, st₂, alloc, nonzero, Or.inr ⟨failed, held₁.grown own grown,
        hand₁.extends extends_, first.trans (extends_.moves held₁ hand₁)⟩⟩

/-- `vmm_destroy_address_space` gives back the tables and pages of the space. -/
theorem Held.destroyMoves (held : Held boot roots guarded st) (own : r ∈ roots) :
    Moves boot st roots guarded [] (st.vmmDestroyAddressSpace r) (roots.erase r) guarded [] [] := by
  obtain ⟨frames, destroyed, once, found, held₁, fresh⟩ := held.closing own
  have hand₁ : InHand boot st (roots.erase r) guarded frames := ⟨fresh, once⟩
  rw [destroyed]
  suffices same : Moves boot st roots guarded [] st (roots.erase r) guarded frames [] from
    same.trans (hand₁.givesAll held₁)
  refine Moves.same held InHand.nothing rfl fun f => ?_
  have nodes : NodeFrame st roots f ↔
      NodeFrame st (roots.erase r) f ∨ ∃ d ∈ frames, frameOf d.toNat = f := by
    constructor
    · rintro ⟨T, hT, p, d, node, same⟩
      rcases hT with rfl | ⟨s, live, rfl⟩
      · exact Or.inl ⟨_, forest_kernel slot0 _ _, p, d, node, same⟩
      · by_cases here : s = r
        · rw [here] at node
          exact Or.inr ⟨d, (found d).mpr ⟨p, node⟩, same⟩
        · have kept := (List.mem_erase_of_ne here).mpr live
          exact Or.inl ⟨_, forest_space slot0 _ kept, p, d, node, same⟩
    · rintro (⟨T, hT, p, d, node, same⟩ | ⟨d, inside, same⟩)
      · refine ⟨T, hT.imp id ?_, p, d, node, same⟩
        rintro ⟨s, live, rfl⟩
        exact ⟨s, List.mem_of_mem_erase live, rfl⟩
      · obtain ⟨p, node⟩ := (found d).mp inside
        exact ⟨_, forest_space slot0 _ own, p, d, node, same⟩
  simp only [Owned, nodes, List.not_mem_nil, false_and, exists_false, or_false]
  rw [or_assoc, or_comm (a := StackFrame guarded f)]

end

/-! ## Accounts over whole runs -/

/-- The frames for which nothing answers after a call: a region for the heap, the frame of a
page that `load_segment` could not map, and the page it mapped over. -/
def MemState.unowned (s : MemState) : MemCall → List Nat
  | .heapGrow count =>
    let (region, _) := s.vmm.allocContiguous count
    if region = 0 then [] else (List.range count).map (frameOf region.toNat + ·)
  | .load space va flags =>
    let (frame, vmm) := s.vmm.allocZeroedFrame
    if frame = 0 then []
    else if (vmm.vmmMapPageIn space va frame flags).1 then pageFrame s.vmm space va
    else [frameOf frame.toNat]
  | _ => []

/-- A machine with the frames that have left the accounts. -/
structure FrameLedger where
  mem : MemState
  unowned : List Nat

def FrameLedger.step (l : FrameLedger) (call : MemCall) : Option FrameLedger :=
  (memStep l.mem call).map fun t => ⟨t, l.mem.unowned call ++ l.unowned⟩

section Runs
variable {boot : Pmm} {s t : MemState} {call : MemCall}

/-- What one call moves from owner to owner. -/
theorem memStep_moves (held : Held boot s.spaces s.guarded s.vmm)
    (stepped : memStep s call = some t) :
    Moves boot s.vmm s.spaces s.guarded [] t.vmm t.spaces t.guarded [] (s.unowned call) := by
  have still : Moves boot s.vmm s.spaces s.guarded [] s.vmm s.spaces s.guarded [] [] :=
    Moves.same held InHand.nothing rfl fun f => Iff.rfl
  cases call with
  | spawn tid cur =>
    simp only [memStep] at stepped
    split at stepped
    · next enabled =>
      have moves := held.spawnMoves enabled.1 enabled.2
      rcases made : s.vmm.allocGuardedStack cur with ⟨_ | ⟨low, guard⟩, vmm⟩
      all_goals
        rw [made] at moves stepped
        cases stepped
        exact moves
    · cases stepped
  | exit tid =>
    simp only [memStep] at stepped
    split at stepped
    · next k at_tid =>
      cases stepped
      exact held.exitMoves at_tid
    · cases stepped
  | reap tid cur =>
    simp only [memStep] at stepped
    split at stepped
    · next k at_tid =>
      split at stepped
      · next enabled =>
        cases stepped
        exact held.reapMoves enabled.1 at_tid
      · cases stepped
    · cases stepped
  | heapGrow count =>
    cases stepped
    rcases allocContiguous_spec held.spaces.zero count with
      failed | ⟨f, st, alloc, mem, kernel, nonzero, positive, -, allocated⟩
    · simp only [MemState.unowned, failed, ↓reduceIte]
      exact still
    · have tracked := tracked_of_free (allocated.free f (Nat.le_refl f) (by omega))
      simp only [MemState.unowned, alloc, if_neg nonzero, frameOf_frameAddr tracked]
      exact held.heapMoves mem kernel allocated
  | create =>
    simp only [memStep] at stepped
    rcases vmmCreateAddressSpace_spec held.spaces.zero with
      ⟨failed, -⟩ | ⟨frame, vmm, made, handed, copied⟩
    · rw [failed, if_pos rfl] at stepped
      cases stepped
      exact still
    · rw [made, if_neg handed.nonzero] at stepped
      cases stepped
      exact held.createMoves handed copied
  | load space va flags =>
    simp only [memStep] at stepped
    split at stepped
    · next page =>
      cases stepped
      rcases held.pageMoves page.1 (slot0_of_user page.2.1) (user_of_flags page.2.2) with
        failed | ⟨c, st₁, st₂, alloc, nonzero, ⟨mapped, moves⟩ | ⟨failed, held₂, hand₂, moves⟩⟩
      · simp only [MemState.unowned, Vmm.loadPage, failed, ↓reduceIte]
        exact still
      · simp only [MemState.unowned, Vmm.loadPage, alloc, if_neg nonzero, mapped, ↓reduceIte]
        exact moves
      · simp only [MemState.unowned, Vmm.loadPage, alloc, if_neg nonzero, failed,
          Bool.false_eq_true, ↓reduceIte]
        exact moves.trans (hand₂.loses held₂)
    · cases stepped
  | map space va flags =>
    simp only [memStep] at stepped
    split at stepped
    · next enabled =>
      cases stepped
      obtain ⟨page, absent⟩ := enabled
      rcases held.pageMoves page.1 (slot0_of_user page.2.1) (user_of_flags page.2.2) with
        failed | ⟨c, st₁, st₂, alloc, nonzero, ⟨mapped, moves⟩ | ⟨failed, held₂, hand₂, moves⟩⟩
      · simp only [MemState.unowned, Vmm.mapNewPage, failed, ↓reduceIte]
        exact still
      · simp only [MemState.unowned, Vmm.mapNewPage, alloc, if_neg nonzero, mapped]
        rw [pageFrame_absent held page.1 absent] at moves
        exact moves
      · simp only [MemState.unowned, Vmm.mapNewPage, alloc, if_neg nonzero, failed]
        exact moves.trans (hand₂.givesAll held₂)
    · cases stepped
  | destroy space =>
    simp only [memStep] at stepped
    split at stepped
    · next own =>
      cases stepped
      exact held.destroyMoves own
    · cases stepped

theorem Exhausted.unowned (exhausted : Exhausted s) (stepped : memStep s call = some t) :
    s.unowned call = [] := by
  cases call with
  | heapGrow count => simp [MemState.unowned, exhausted.allocContiguous]
  | load space va flags => simp [memStep, MemState.userPage, exhausted.spaces] at stepped
  | spawn tid cur => rfl
  | exit tid => rfl
  | reap tid cur => rfl
  | create => rfl
  | map space va flags => rfl
  | destroy space => rfl

/-- The accounts of a machine that has booted. -/
def FrameLedger.Even (boot : Vmm) (l : FrameLedger) : Prop :=
  (Held boot.pmm l.mem.spaces l.mem.guarded l.mem.vmm ∧
    Balanced (isUsed boot.pmm · = true) (isUsed l.mem.vmm.pmm · = true)
      (Owned l.mem.vmm l.mem.spaces l.mem.guarded []) l.unowned) ∨
    (Exhausted l.mem ∧ (∀ f, isUsed boot.pmm f = true) ∧ l.unowned = [])

theorem FrameLedger.Even.start {boot : Vmm}
    (ready : KernelReady boot ∨ ∀ f, isUsed boot.pmm f = true) :
    FrameLedger.Even boot ⟨MemState.start boot, []⟩ := by
  rcases Accounted.start ready with held | ⟨exhausted, used⟩
  · refine Or.inl ⟨held, fun f => ⟨Or.inl, ?_⟩, List.nodup_nil, fun f none_ => by cases none_⟩
    rintro (used | owned | none_)
    · exact used
    · exact held.owned_used InHand.nothing owned
    · cases none_
  · exact Or.inr ⟨exhausted, used, rfl⟩

theorem FrameLedger.Even.step {boot : Vmm} {l l' : FrameLedger} (even : l.Even boot)
    (stepped : l.step call = some l') : l'.Even boot := by
  obtain ⟨t, moved, rfl⟩ := Option.map_eq_some_iff.mp stepped
  rcases even with ⟨held, balanced⟩ | ⟨exhausted, used, none_⟩
  · exact Or.inl ⟨memStep_held held moved, balanced.step (memStep_moves held moved)⟩
  · have nothing := exhausted.unowned moved
    rw [exhausted.step moved, nothing, none_]
    exact Or.inr ⟨exhausted, used, rfl⟩

/-- In every state of every run, a frame is in use just when it was so after boot, has an
owner, or left the accounts. No frame has two owners, and none that has left is used again. -/
theorem frames_accounted {mem : Tables} {map : List E820Entry} (below : Below512Gb map)
    {kernelEnd : Nat} {boot : Vmm} (booted : bootVmm mem map kernelEnd = some boot)
    {calls : List MemCall} {l : FrameLedger}
    (reached : Machine.run FrameLedger.step ⟨MemState.start boot, []⟩ calls = some l) :
    (∀ f, isUsed l.mem.vmm.pmm f = true ↔
      isUsed boot.pmm f = true ∨ NodeFrame l.mem.vmm l.mem.spaces f ∨
        StackFrame l.mem.guarded f ∨ f ∈ l.unowned) ∧
    (∀ r ∈ l.mem.spaces, ∀ r' ∈ l.mem.spaces, ∀ p q d e,
      nodeAt l.mem.vmm.mem (spaceTree slot0 r) p = some d →
      nodeAt l.mem.vmm.mem (spaceTree slot0 r') q = some e →
      frameOf d.toNat = frameOf e.toNat → r = r' ∧ p = q) ∧
    (∀ tid k tid' k' d e, l.mem.guarded tid = some k → l.mem.guarded tid' = some k' →
      d ∈ k.frames → e ∈ k'.frames → frameOf d.toNat = frameOf e.toNat → tid = tid') ∧
    (∀ f, StackFrame l.mem.guarded f →
      isUsed boot.pmm f = false ∧ ¬ NodeFrame l.mem.vmm l.mem.spaces f) ∧
    (∀ f ∈ l.unowned, isUsed boot.pmm f = false ∧ ¬ NodeFrame l.mem.vmm l.mem.spaces f ∧
      ¬ StackFrame l.mem.guarded f) ∧
    l.unowned.Nodup := by
  have even : l.Even boot := Machine.run_invariant (I := FrameLedger.Even boot)
    (fun _ _ _ even _ stepped => even.step stepped)
    (FrameLedger.Even.start (bootVmm_ready_of below booted)) (Machine.meets_always _ calls) reached
  have owned (f : Nat) : Owned l.mem.vmm l.mem.spaces l.mem.guarded [] f ↔
      NodeFrame l.mem.vmm l.mem.spaces f ∨ StackFrame l.mem.guarded f := by
    simp [Owned]
  rcases even with ⟨held, balanced⟩ | ⟨exhausted, used, none_⟩
  · refine ⟨fun f => ?_, ?_, ?_, ?_, fun f left => ?_, balanced.once⟩
    · refine (balanced.all f).trans ?_
      rw [owned, or_assoc]
    · intro r live r' live' p q d e node node' same
      have member := forest_space slot0 l.mem.vmm.kernelPml4 live
      have member' := forest_space slot0 l.mem.vmm.kernelPml4 live'
      rw [frameOf_inj (held.spaces.tables _ member p d node).1
        (held.spaces.tables _ member' q e node').1 same] at node
      obtain ⟨trees, paths⟩ := held.spaces.separate _ member _ member' p q e node node'
      exact ⟨spaceTree_inj trees, paths⟩
    · intro tid k tid' k' d e at_tid at_tid' inside inside' same
      rw [frameOf_inj (held.aligned tid k at_tid d inside) (held.aligned tid' k' at_tid' e inside')
        same] at inside
      exact held.apart tid k tid' k' e at_tid at_tid' inside inside'
    · rintro f ⟨tid, k, at_tid, d, inside, rfl⟩
      refine ⟨(held.taken tid k at_tid d inside).2, ?_⟩
      rintro ⟨T, hT, p, e, node, same⟩
      rw [frameOf_inj (held.spaces.tables T hT p e node).1 (held.aligned tid k at_tid d inside)
        same] at node
      exact held.unlinked tid k at_tid d inside T hT p node
    · obtain ⟨booted, none_⟩ := balanced.apart f left
      rw [owned, not_or] at none_
      exact ⟨by simpa using booted, none_⟩
  · refine ⟨fun f => ⟨fun _ => Or.inl (used f), fun _ => exhausted.used f⟩, ?_, ?_, ?_, ?_, ?_⟩
    · intro r live
      rw [exhausted.spaces] at live
      cases live
    · intro tid k tid' k' d e at_tid
      rw [exhausted.guarded tid] at at_tid
      cases at_tid
    · rintro f ⟨tid, k, at_tid, -⟩
      rw [exhausted.guarded tid] at at_tid
      cases at_tid
    · rw [none_]
      exact fun f left => by cases left
    · rw [none_]
      exact List.nodup_nil

/-- 2 MiB of memory, and the heap's first two regions. -/
theorem frames_accounted_boot :
    ∃ boot l, bootVmm (fun _ _ => 0) [⟨0, 0x200000, true⟩] 0x100000 = some boot ∧
      Machine.run FrameLedger.step ⟨MemState.start boot, []⟩ [.heapGrow 1, .heapGrow 2] = some l ∧
      l.unowned.Nodup ∧ ∀ f ∈ l.unowned, isUsed boot.pmm f = false := by
  have below : Below512Gb [⟨0, 0x200000, true⟩] := by
    intro e inside _
    rw [List.mem_singleton.mp inside]
    decide
  obtain ⟨boot, booted, -⟩ := bootVmm_small (fun _ _ => 0) 0x100000
  obtain ⟨l, reached⟩ : ∃ l, Machine.run FrameLedger.step ⟨MemState.start boot, []⟩
    [.heapGrow 1, .heapGrow 2] = some l := ⟨_, rfl⟩
  obtain ⟨-, -, -, -, left, once⟩ := frames_accounted below booted reached
  exact ⟨boot, l, booted, reached, once, fun f inside => (left f inside).1⟩

end Runs

end MiniKernel.Memory.Paging
