import MiniKernel.Lib.Machine
import MiniKernel.Memory.KernelPages

/-!
# Guard pages and the frames beside them

Source: kernel/sched/thread.c:116-154, 173-192, kernel/mm/vmm.c:303-346,
kernel/core/process.c:122-140, kernel/core/elf/elf_loader.c:64-81 and
kernel/mm/vmm_growable_stack.c:60-83. A guard page is made by unmapping a frame
in hand from the kernel's identity mapping, and is mapped again before the frame
is given back. All other frames in hand or free stay mapped throughout.
-/
namespace MiniKernel.Memory.Paging
open Lib Lib.Radix

def threadStackPages : Nat := 2

namespace Vmm

/-- `pmm_alloc_contiguous`. -/
def allocContiguous (count : Nat) (st : Vmm) : Word × Vmm :=
  (BitVec.ofNat 64 (pmmAllocContiguous count st.pmm).1,
    { st with pmm := (pmmAllocContiguous count st.pmm).2 })

/-- `for (i = 0; i < n; i++) pmm_free_frame(start + i * PMM_FRAME_SIZE)`. -/
def freeRun (start : Word) (n : Nat) (st : Vmm) : Vmm :=
  st.forEntries (fun i st => st.freeFrame (start + BitVec.ofNat 64 i * 4096)) n

/-- `alloc_guarded_stack`: the stack and its guard page. -/
def allocGuardedStack (cur : Word) (st : Vmm) : Option (Word × Word) × Vmm :=
  let (region, st) := st.allocContiguous (threadStackPages + 1)
  if region = 0 then (none, st)
  else
    let (_, st) := st.vmmUnmapPageIn cur region
    if st.vmmIsMappedIn cur region then (none, st.freeRun region (threadStackPages + 1))
    else (some (region + 4096, region), st)

/-- What `reap_zombie` does with a guarded stack. -/
def reapStack (cur stackLow guardPage : Word) (st : Vmm) : Vmm :=
  if guardPage = 0 then st
  else
    let st := st.freeRun stackLow threadStackPages
    let (_, st) := st.vmmMapPageIn cur guardPage guardPage pageWritable
    st.freeFrame guardPage

/-- A page of `load_segment`: a zeroed frame, kept where mapping it fails. -/
def loadPage (space virtAddr flags : Word) (st : Vmm) : Option Word × Vmm :=
  let (frame, st) := st.allocZeroedFrame
  if frame = 0 then (none, st)
  else
    match st.vmmMapPageIn space virtAddr frame flags with
    | (true, st) => (some frame, st)
    | (false, st) => (none, st)

/-- A page of `setup_user_stack` and `vmm_handle_page_fault`: a zeroed frame,
given back where mapping it fails. -/
def mapNewPage (space virtAddr flags : Word) (st : Vmm) : Option Word × Vmm :=
  let (frame, st) := st.allocZeroedFrame
  if frame = 0 then (none, st)
  else
    match st.vmmMapPageIn space virtAddr frame flags with
    | (true, st) => (some frame, st)
    | (false, st) => (none, st.freeFrame frame)

end Vmm

/-- The stack of a thread slot. -/
structure GuardedStack where
  stackLow : Word
  guardPage : Word
  zombie : Bool

/-- The frames of a stack, guard page first. -/
def GuardedStack.frames (k : GuardedStack) : List Word :=
  k.guardPage :: (List.range threadStackPages).map fun i => k.stackLow + BitVec.ofNat 64 i * 4096

structure MemState where
  vmm : Vmm
  guarded : Nat → Option GuardedStack
  spaces : List Word

/-- `cur` is the address space of the thread that runs; `sched_init` makes the
boot thread's stack the way a spawn does. -/
inductive MemCall where
  | spawn (tid : Nat) (cur : Word)
  | exit (tid : Nat)
  | reap (tid : Nat) (cur : Word)
  | heapGrow (count : Nat)
  | create
  | load (space virtAddr flags : Word)
  | map (space virtAddr flags : Word)
  | destroy (space : Word)

/-- A space the CPU may run in. -/
def MemState.live (s : MemState) (space : Word) : Prop :=
  space = s.vmm.kernelPml4 ∨ space ∈ s.spaces

instance (s : MemState) (space : Word) : Decidable (s.live space) :=
  inferInstanceAs (Decidable (_ ∨ _))

/-- User pages go to PML4 slot 1 of a space. -/
def MemState.userPage (s : MemState) (space virtAddr flags : Word) : Prop :=
  space ∈ s.spaces ∧ pml4Index virtAddr = 1 ∧ flags &&& pageUser ≠ 0

instance (s : MemState) (space virtAddr flags : Word) :
    Decidable (s.userPage space virtAddr flags) :=
  inferInstanceAs (Decidable (_ ∧ _ ∧ _))

def memStep (s : MemState) : MemCall → Option MemState
  | .spawn tid cur =>
    if s.live cur ∧ s.guarded tid = none then
      match s.vmm.allocGuardedStack cur with
      | (none, vmm) => some { s with vmm := vmm }
      | (some (stackLow, guardPage), vmm) =>
        some { s with
          vmm := vmm
          guarded := Function.update s.guarded tid (some ⟨stackLow, guardPage, false⟩) }
    else none
  | .exit tid =>
    match s.guarded tid with
    | some k =>
      some { s with guarded := Function.update s.guarded tid (some { k with zombie := true }) }
    | none => none
  | .reap tid cur =>
    match s.guarded tid with
    | some k =>
      if s.live cur ∧ k.zombie = true then
        some { s with
          vmm := s.vmm.reapStack cur k.stackLow k.guardPage
          guarded := Function.update s.guarded tid none }
      else none
    | none => none
  | .heapGrow count => some { s with vmm := (s.vmm.allocContiguous count).2 }
  | .create =>
    let (frame, vmm) := s.vmm.vmmCreateAddressSpace
    if frame = 0 then some { s with vmm := vmm }
    else some { s with vmm := vmm, spaces := frame :: s.spaces }
  | .load space virtAddr flags =>
    if s.userPage space virtAddr flags then
      some { s with vmm := (s.vmm.loadPage space virtAddr flags).2 }
    else none
  | .map space virtAddr flags =>
    if s.userPage space virtAddr flags ∧ s.vmm.vmmIsMappedIn space virtAddr = false then
      some { s with vmm := (s.vmm.mapNewPage space virtAddr flags).2 }
    else none
  | .destroy space =>
    if space ∈ s.spaces then
      some { s with
        vmm := s.vmm.vmmDestroyAddressSpace space
        spaces := s.spaces.erase space }
    else none

/-! ## Frames in hand -/

/-- The address of a frame. -/
def frameAddr (f : Nat) : Word := BitVec.ofNat 64 (f * 4096)

/-- A space maps a frame to itself, and lets the kernel write it. -/
def IdentityMapped (st : Vmm) (space : Word) (f : Nat) : Prop :=
  ∃ u, translate st.mem space (frameAddr f) = some ⟨frameAddr f, true, u⟩

section
variable {boot : Pmm} {roots roots' : List Word} {guarded guarded' : Nat → Option GuardedStack}
  {st st' st'' : Vmm} {r c d : Word} {f tid : Nat} {k : GuardedStack}

theorem toNat_frameAddr (tracked : f < pmmMaxFrames) : (frameAddr f).toNat = f * 4096 := by
  unfold pmmMaxFrames at tracked
  rw [frameAddr, BitVec.toNat_ofNat, Nat.mod_eq_of_lt (by omega)]

theorem frameOf_frameAddr (tracked : f < pmmMaxFrames) : frameOf (frameAddr f).toNat = f := by
  rw [toNat_frameAddr tracked, frameOf, pmmFrameSize, Nat.mul_div_cancel _ (by decide)]

theorem aligned_frameAddr (tracked : f < pmmMaxFrames) : Aligned (frameAddr f) := by
  apply BitVec.eq_of_toNat_eq
  rw [toNat_target, toNat_frameAddr tracked]
  unfold pmmMaxFrames at tracked
  omega

theorem slot0_frameAddr (tracked : f < pmmMaxFrames) :
    slot0 (levelIndex 39 (frameAddr f)) = true := by
  unfold pmmMaxFrames at tracked
  rw [levelIndex_low]
  · rfl
  · rw [toNat_frameAddr tracked]
    omega

/-- A free frame is one the allocator tracks. -/
theorem tracked_of_free {s : Pmm} (free : isUsed s f = false) : f < pmmMaxFrames := by
  by_contra beyond
  rw [isUsed, if_pos (Nat.not_lt.mp beyond)] at free
  cases free

theorem frameAddr_frameOf (aligned : Aligned d) (tracked : frameOf d.toNat < pmmMaxFrames) :
    frameAddr (frameOf d.toNat) = d :=
  frameOf_inj (aligned_frameAddr tracked) aligned (frameOf_frameAddr tracked)

theorem pathOf_frameAddr {g : Nat} (hf : f < pmmMaxFrames) (hg : g < pmmMaxFrames)
    (apart : f ≠ g) : pathOf (frameAddr f) ≠ pathOf (frameAddr g) := by
  rw [ne_eq, pathOf_eq_iff, toNat_frameAddr hf, toNat_frameAddr hg]
  unfold pmmMaxFrames at hf hg
  omega

/-- Whose frames are whose: what is in hand was free at `boot`, the frames of a
stack are no tables, and no two threads share one. -/
structure Held (boot : Pmm) (roots : List Word) (guarded : Nat → Option GuardedStack)
    (st : Vmm) : Prop where
  spaces : Spaces slot0 roots st
  upper : UpperWritable st.mem (kernelTree slot0 st.kernelPml4)
  grows : Grows boot st.pmm
  zero : isUsed boot 0 = true
  distinct : roots.Nodup
  own : ∀ r ∈ roots, ∀ p d, nodeAt st.mem (spaceTree slot0 r) p = some d →
    isUsed boot (frameOf d.toNat) = false
  aligned : ∀ tid k, guarded tid = some k → ∀ d ∈ k.frames, Aligned d
  taken : ∀ tid k, guarded tid = some k → ∀ d ∈ k.frames,
    st.usedAt d = true ∧ isUsed boot (frameOf d.toNat) = false
  unlinked : ∀ tid k, guarded tid = some k → ∀ d ∈ k.frames,
    Unlinked st.mem (forest slot0 st.kernelPml4 roots) d
  apart : ∀ tid k tid' k' d, guarded tid = some k → guarded tid' = some k' → d ∈ k.frames →
    d ∈ k'.frames → tid = tid'
  once : ∀ tid k, guarded tid = some k → k.frames.Nodup

/-- Every frame that was free at `boot` is mapped to itself, guard pages of
stacks in use apart, which have their page table. -/
structure MappedOut (boot : Pmm) (guarded : Nat → Option GuardedStack) (st : Vmm) : Prop where
  mapped : ∀ f, isUsed boot f = false →
    (∀ tid k, guarded tid = some k → f ≠ frameOf k.guardPage.toNat) →
    IdentityMapped st st.kernelPml4 f
  table : ∀ tid k, guarded tid = some k →
    ∃ pt, nodeAt st.mem (kernelTree slot0 st.kernelPml4) (tablePath k.guardPage) = some pt

/-- What a step on the tables may do to the frames in hand. -/
structure Carried (boot : Pmm) (roots roots' : List Word)
    (guarded : Nat → Option GuardedStack) (st st' : Vmm) : Prop where
  spaces : Spaces slot0 roots' st'
  distinct : roots'.Nodup
  kernel : st'.kernelPml4 = st.kernelPml4
  upper : UpperWritable st.mem (kernelTree slot0 st.kernelPml4) →
    UpperWritable st'.mem (kernelTree slot0 st.kernelPml4)
  lost : ∀ f, isUsed st.pmm f = true → isUsed st'.pmm f = false → isUsed boot f = false ∧
    ∀ tid k, guarded tid = some k → ∀ d ∈ k.frames, frameOf d.toNat ≠ f
  origin : ∀ T, forest slot0 st.kernelPml4 roots' T → ∀ p d, nodeAt st'.mem T p = some d →
    (forest slot0 st.kernelPml4 roots T ∧ nodeAt st.mem T p = some d) ∨ st.usedAt d = false

theorem Held.carry (held : Held boot roots guarded st)
    (carried : Carried boot roots roots' guarded st st') : Held boot roots' guarded st' := by
  have keeps (f : Nat) (used : isUsed st.pmm f = true)
      (notLost : isUsed boot f = true ∨
        ∃ tid k, guarded tid = some k ∧ ∃ d ∈ k.frames, frameOf d.toNat = f) :
      isUsed st'.pmm f = true := by
    cases after : isUsed st'.pmm f with
    | true => rfl
    | false =>
      obtain ⟨free, others⟩ := carried.lost f used after
      rcases notLost with booted | ⟨tid, k, at_tid, d, inside, same⟩
      · rw [booted] at free
        cases free
      · exact absurd same (others tid k at_tid d inside)
  constructor
  case spaces => exact carried.spaces
  case upper => exact carried.kernel ▸ carried.upper held.upper
  case grows => exact fun f booted => keeps f (held.grows f booted) (Or.inl booted)
  case zero => exact held.zero
  case distinct => exact carried.distinct
  case own =>
    intro r live p d node
    rcases carried.origin _ (forest_space slot0 _ live) p d node with ⟨member, old⟩ | free
    · rcases member with same | ⟨s, live', same⟩
      · exact absurd same (spaceTree_ne_kernelTree slot0 _ _)
      · rw [same] at old
        exact held.own s live' p d old
    · cases booted : isUsed boot (frameOf d.toNat) with
      | false => rfl
      | true =>
        rw [Vmm.usedAt, held.grows _ booted] at free
        cases free
  case aligned => exact held.aligned
  case taken =>
    intro tid k at_tid d inside
    obtain ⟨used, free⟩ := held.taken tid k at_tid d inside
    exact ⟨keeps _ used (Or.inr ⟨tid, k, at_tid, d, inside, rfl⟩), free⟩
  case unlinked =>
    intro tid k at_tid d inside T member p node
    rw [carried.kernel] at member
    rcases carried.origin T member p d node with ⟨member', old⟩ | free
    · exact held.unlinked tid k at_tid d inside T member' p old
    · rw [(held.taken tid k at_tid d inside).1] at free
      cases free
  case apart => exact held.apart
  case once => exact held.once

/-- Stacks that are gone, or marked, leave the rest as it is. -/
theorem Held.relabel (held : Held boot roots guarded st)
    (same : ∀ tid k', guarded' tid = some k' →
      ∃ k, guarded tid = some k ∧ k.frames = k'.frames) : Held boot roots guarded' st where
  spaces := held.spaces
  upper := held.upper
  grows := held.grows
  zero := held.zero
  distinct := held.distinct
  own := held.own
  aligned := fun tid k' at_tid d inside => by
    obtain ⟨k, at_k, frames⟩ := same tid k' at_tid
    exact held.aligned tid k at_k d (frames ▸ inside)
  taken := fun tid k' at_tid d inside => by
    obtain ⟨k, at_k, frames⟩ := same tid k' at_tid
    exact held.taken tid k at_k d (frames ▸ inside)
  unlinked := fun tid k' at_tid d inside => by
    obtain ⟨k, at_k, frames⟩ := same tid k' at_tid
    exact held.unlinked tid k at_k d (frames ▸ inside)
  apart := fun tid k' tid' l' d at_tid at_tid' inside inside' => by
    obtain ⟨k, at_k, frames⟩ := same tid k' at_tid
    obtain ⟨l, at_l, frames'⟩ := same tid' l' at_tid'
    exact held.apart tid k tid' l d at_k at_l (frames ▸ inside) (frames' ▸ inside')
  once := fun tid k' at_tid => by
    obtain ⟨k, at_k, frames⟩ := same tid k' at_tid
    exact frames ▸ held.once tid k at_k

/-- A page that can be written, as `looks` shows it. -/
theorem identity_of_view {mem : Tables} {x a b : Word}
    (view : looks false (translate mem b a) = some (x, true, false)) :
    ∃ u, translate mem b a = some ⟨x, true, u⟩ := by
  cases found : translate mem b a with
  | none =>
    rw [found] at view
    cases view
  | some t =>
    rw [found] at view
    simp only [looks, Option.map_some, Translation.view, Bool.false_and, Option.some.injEq,
      Prod.mk.injEq, and_true] at view
    obtain ⟨frame, rights⟩ := view
    cases t
    cases frame
    cases rights
    exact ⟨_, rfl⟩

/-- The same page with the same right to write, as far as `looks` tells. -/
theorem identity_of_looks {mem mem' : Tables} {x a b : Word}
    (same : looks false (translate mem' b a) = looks false (translate mem r a))
    (mapped : ∃ u, translate mem r a = some ⟨x, true, u⟩) :
    ∃ u, translate mem' b a = some ⟨x, true, u⟩ := by
  obtain ⟨u, mapped⟩ := mapped
  rw [mapped] at same
  exact identity_of_view same

/-- What is mapped stays mapped where translations and tables are kept. -/
theorem MappedOut.carry (out : MappedOut boot guarded st) (kernel : st'.kernelPml4 = st.kernelPml4)
    (looks_ : ∀ f, isUsed boot f = false →
      looks false (translate st'.mem st.kernelPml4 (frameAddr f)) =
        looks false (translate st.mem st.kernelPml4 (frameAddr f)))
    (kept : ∀ q d, nodeAt st.mem (kernelTree slot0 st.kernelPml4) q = some d →
      nodeAt st'.mem (kernelTree slot0 st.kernelPml4) q = some d) :
    MappedOut boot guarded st' := by
  constructor
  · intro f free off
    rw [IdentityMapped, kernel]
    exact identity_of_looks (looks_ f free) (out.mapped f free off)
  · intro tid k at_tid
    obtain ⟨pt, node⟩ := out.table tid k at_tid
    rw [kernel]
    exact ⟨pt, kept _ _ node⟩

/-! ## Taking and giving back -/

/-- Taking frames moves nothing. -/
theorem Held.taking (held : Held boot roots guarded st) (mem : st'.mem = st.mem)
    (kernel : st'.kernelPml4 = st.kernelPml4) (grows : Grows st.pmm st'.pmm) :
    Held boot roots guarded st' := by
  refine held.carry ⟨?_, held.distinct, kernel, fun upper => mem ▸ upper, ?_, ?_⟩
  · refine held.spaces.restrict (fun r live => live) kernel (grows _ held.spaces.zero) ?_ ?_
    · exact fun T _ p b _ _ => congrFun mem b
    · exact fun T member p b node => grows _ (held.spaces.tables T member p b node).2
  · intro f used gone
    rw [grows f used] at gone
    cases gone
  · intro T member p d node
    rw [mem] at node
    exact Or.inl ⟨member, node⟩

/-- Frames in hand that are no tables and of no stack may be freed. -/
theorem Held.giving (held : Held boot roots guarded st) {frames : List Word}
    (aligned : ∀ d ∈ frames, Aligned d)
    (free : ∀ d ∈ frames, isUsed boot (frameOf d.toNat) = false)
    (unlinked : ∀ d ∈ frames, Unlinked st.mem (forest slot0 st.kernelPml4 roots) d)
    (apart : ∀ d ∈ frames, ∀ tid k, guarded tid = some k → d ∉ k.frames) :
    Held boot roots guarded (st.freeAll frames) := by
  refine held.carry ⟨?_, held.distinct, Vmm.freeAll_kernelPml4 .., fun upper => ?_, ?_, ?_⟩
  · refine held.spaces.freeAll (fun r live => live) aligned unlinked fun d inside at0 => ?_
    have booted := held.zero
    rw [← at0, free d inside] at booted
    cases booted
  · rwa [Vmm.freeAll_mem]
  · intro f used gone
    rw [Vmm.isUsed_freeAll, used, Bool.true_and, Bool.not_eq_false', decide_eq_true_iff] at gone
    obtain ⟨-, d, inside, rfl⟩ := gone
    refine ⟨free d inside, fun tid k at_tid d' inside' same => ?_⟩
    rw [frameOf_inj (held.aligned tid k at_tid d' inside') (aligned d inside) same] at inside'
    exact apart d inside tid k at_tid inside'
  · intro T member p d node
    rw [Vmm.freeAll_mem] at node
    exact Or.inl ⟨member, node⟩

theorem MappedOut.sameMem (out : MappedOut boot guarded st) (mem : st'.mem = st.mem)
    (kernel : st'.kernelPml4 = st.kernelPml4) : MappedOut boot guarded st' :=
  out.carry kernel (fun f _ => by rw [mem]) (fun q d node => by rw [mem]; exact node)

/-! ## The calls, one by one -/

/-- `pmm_alloc_contiguous` answers 0, or frames that were free. -/
theorem allocContiguous_spec (zero : isUsed st.pmm 0 = true) (count : Nat) :
    st.allocContiguous count = (0, st) ∨
      ∃ f st', st.allocContiguous count = (frameAddr f, st') ∧ st'.mem = st.mem ∧
        st'.kernelPml4 = st.kernelPml4 ∧ frameAddr f ≠ 0 ∧ 0 < count ∧
        f + count ≤ pmmMaxFrames ∧ Allocated st.pmm st'.pmm f count := by
  rcases pmmAllocContiguous_spec st.pmm count with failed | ⟨f, addr, positive, allocated⟩
  · left
    rw [Vmm.allocContiguous, failed]
    rfl
  · right
    have bound := allocated.bounded positive
    have free := allocated.free f (Nat.le_refl f) (by omega)
    refine ⟨f, (st.allocContiguous count).2, ?_, rfl, rfl, ?_, positive, bound, allocated⟩
    · rw [Vmm.allocContiguous, addr]
      rfl
    · intro none
      have value := congrArg BitVec.toNat none
      rw [toNat_frameAddr (tracked_of_free free)] at value
      have at0 : f = 0 := by
        simp at value
        omega
      rw [at0, zero] at free
      cases free

theorem freeRun_eq (start : Word) (n : Nat) (st : Vmm) :
    st.freeRun start n =
      st.freeAll ((List.range n).map fun i => start + BitVec.ofNat 64 i * 4096) := by
  have turns : st.forEntries (fun i st => st.freeFrame (start + BitVec.ofNat 64 i * 4096)) n =
      st.freeAll ((List.range n).flatMap fun i => [start + BitVec.ofNat 64 i * 4096]) :=
    Vmm.forEntries_freeAll st.mem _ n st rfl fun i _ t _ _ => rfl
  rw [Vmm.freeRun, turns, List.map_eq_flatMap]

theorem frameAddr_add {n : Nat} (bound : f + n < pmmMaxFrames) :
    frameAddr f + BitVec.ofNat 64 n * 4096 = frameAddr (f + n) := by
  apply BitVec.eq_of_toNat_eq
  have first := toNat_frameAddr (f := f) (by omega)
  have last := toNat_frameAddr bound
  unfold pmmMaxFrames at bound
  rw [BitVec.toNat_add, first, last, BitVec.toNat_mul, BitVec.toNat_ofNat,
    show (4096 : Word).toNat = 4096 from rfl]
  omega

/-- The frames of a stack that has just been allocated. -/
theorem frames_new (bound : f + 3 ≤ pmmMaxFrames) (zombie : Bool) :
    GuardedStack.frames ⟨frameAddr f + 4096, frameAddr f, zombie⟩ =
      [frameAddr f, frameAddr (f + 1), frameAddr (f + 2)] := by
  have first := frameAddr_add (f := f) (n := 1) (by omega)
  have second := frameAddr_add (f := f + 1) (n := 1) (by omega)
  have step : (BitVec.ofNat 64 1 * 4096 : Word) = 4096 := by decide
  rw [step] at first second
  simp only [GuardedStack.frames, threadStackPages, List.range_succ, List.range_zero,
    List.nil_append, List.cons_append, List.map_cons, List.map_nil, first]
  rw [step, second, show (BitVec.ofNat 64 0 * 4096 : Word) = 0 by decide,
    show frameAddr (f + 1) + 0 = frameAddr (f + 1) from BitVec.add_zero _]

/-- The three frames of a region, as `alloc_guarded_stack` gives them back. -/
theorem region_frames (bound : f + 3 ≤ pmmMaxFrames) :
    ((List.range (threadStackPages + 1)).map fun i => frameAddr f + BitVec.ofNat 64 i * 4096) =
      [frameAddr f, frameAddr (f + 1), frameAddr (f + 2)] := by
  have first := frameAddr_add (f := f) (n := 0) (by omega)
  have second := frameAddr_add (f := f) (n := 1) (by omega)
  have third := frameAddr_add (f := f) (n := 2) (by omega)
  simp only [threadStackPages, List.range_succ, List.range_zero, List.nil_append,
    List.cons_append, List.map_cons, List.map_nil, first, second, third, Nat.add_zero]

theorem mem_region (inside : d ∈ [frameAddr f, frameAddr (f + 1), frameAddr (f + 2)]) :
    ∃ i < 3, d = frameAddr (f + i) := by
  simp only [List.mem_cons, List.not_mem_nil, or_false] at inside
  rcases inside with rfl | rfl | rfl
  · exact ⟨0, by decide, rfl⟩
  · exact ⟨1, by decide, rfl⟩
  · exact ⟨2, by decide, rfl⟩

/-- Frames of a region that has just been handed out. -/
structure Fresh (boot : Pmm) (roots : List Word) (guarded : Nat → Option GuardedStack)
    (st : Vmm) (d : Word) : Prop where
  aligned : Aligned d
  used : st.usedAt d = true
  free : isUsed boot (frameOf d.toNat) = false
  unlinked : Unlinked st.mem (forest slot0 st.kernelPml4 roots) d
  apart : ∀ tid k, guarded tid = some k → d ∉ k.frames

theorem Held.fresh (held : Held boot roots guarded st) {count i : Nat}
    (mem : st'.mem = st.mem) (kernel : st'.kernelPml4 = st.kernelPml4)
    (allocated : Allocated st.pmm st'.pmm f count) (inside : i < count) :
    Fresh boot roots guarded st' (frameAddr (f + i)) := by
  have free := allocated.free (f + i) (Nat.le_add_right f i) (by omega)
  have tracked := tracked_of_free free
  have here := frameOf_frameAddr tracked
  have freeAt : st.usedAt (frameAddr (f + i)) = false := by
    rw [Vmm.usedAt, here]
    exact free
  constructor
  case aligned => exact aligned_frameAddr tracked
  case used =>
    rw [Vmm.usedAt, here]
    exact allocated.used (Nat.le_add_right f i) (by omega)
  case free =>
    rw [here]
    cases booted : isUsed boot (f + i) with
    | false => rfl
    | true =>
      rw [held.grows _ booted] at free
      cases free
  case unlinked =>
    rw [mem, kernel]
    exact held.spaces.unlinked freeAt
  case apart =>
    intro tid k at_tid inside'
    rw [(held.taken tid k at_tid _ inside').1] at freeAt
    cases freeAt

theorem Held.push (held : Held boot roots guarded st)
    (fresh : ∀ d ∈ k.frames, Fresh boot roots guarded st d) (once : k.frames.Nodup) :
    Held boot roots (Function.update guarded tid (some k)) st := by
  have cases_of (t : Nat) (l : GuardedStack)
      (at_t : Function.update guarded tid (some k) t = some l) :
      (t = tid ∧ l = k) ∨ guarded t = some l := by
    by_cases here : t = tid
    · rw [here, Function.update_self] at at_t
      exact Or.inl ⟨here, (Option.some.inj at_t).symm⟩
    · rw [Function.update_of_ne here] at at_t
      exact Or.inr at_t
  refine ⟨held.spaces, held.upper, held.grows, held.zero, held.distinct, held.own, ?_, ?_, ?_, ?_,
    ?_⟩
  · intro t l at_t d inside
    rcases cases_of t l at_t with ⟨rfl, rfl⟩ | old
    · exact (fresh d inside).aligned
    · exact held.aligned t l old d inside
  · intro t l at_t d inside
    rcases cases_of t l at_t with ⟨rfl, rfl⟩ | old
    · exact ⟨(fresh d inside).used, (fresh d inside).free⟩
    · exact held.taken t l old d inside
  · intro t l at_t d inside
    rcases cases_of t l at_t with ⟨rfl, rfl⟩ | old
    · exact (fresh d inside).unlinked
    · exact held.unlinked t l old d inside
  · intro t l t' l' d at_t at_t' inside inside'
    rcases cases_of t l at_t with ⟨rfl, rfl⟩ | old
    · rcases cases_of t' l' at_t' with ⟨rfl, rfl⟩ | old'
      · rfl
      · exact absurd inside' ((fresh d inside).apart t' l' old')
    · rcases cases_of t' l' at_t' with ⟨rfl, rfl⟩ | old'
      · exact absurd inside ((fresh d inside').apart t l old)
      · exact held.apart t l t' l' d old old' inside inside'
  · intro t l at_t
    rcases cases_of t l at_t with ⟨rfl, rfl⟩ | old
    · exact once
    · exact held.once t l old

/-- What work on the kernel's own tables may do. -/
structure Tuned (roots : List Word) (st st' : Vmm) : Prop where
  inv : Spaces slot0 roots st'
  kernel : st'.kernelPml4 = st.kernelPml4
  grows : Grows st.pmm st'.pmm
  upper : UpperWritable st.mem (kernelTree slot0 st.kernelPml4) →
    UpperWritable st'.mem (kernelTree slot0 st.kernelPml4)
  origin : ∀ T, forest slot0 st.kernelPml4 roots T → ∀ p d, nodeAt st'.mem T p = some d →
    nodeAt st.mem T p = some d ∨ st.usedAt d = false

theorem Tuned.refl (inv : Spaces slot0 roots st) : Tuned roots st st :=
  ⟨inv, rfl, Grows.refl _, id, fun _ _ _ _ node => Or.inl node⟩

theorem PageSet.tuned {va : Word} {view : Option (Word × Bool × Bool)}
    (set : PageSet slot0 roots va view st st') : Tuned roots st st' :=
  ⟨set.inv, set.kernel, set.grows, fun _ => set.upper, set.origin⟩

theorem Grown.tuned {P : Path}
    (grown : Grown slot0 roots (kernelTree slot0 st.kernelPml4) P st st') : Tuned roots st st' :=
  ⟨grown.inv, grown.kernel, grown.grows, grown.rights, fun _ hT _ _ node => grown.origin hT node⟩

theorem Held.tuned (held : Held boot roots guarded st) (tuned : Tuned roots st st') :
    Held boot roots guarded st' := by
  refine held.carry ⟨tuned.inv, held.distinct, tuned.kernel, tuned.upper, ?_, ?_⟩
  · intro g used gone
    rw [tuned.grows g used] at gone
    cases gone
  · intro T member p d node
    exact (tuned.origin T member p d node).imp (fun old => ⟨member, old⟩) id

theorem Fresh.tuned (fresh : Fresh boot roots guarded st d) (tuned : Tuned roots st st') :
    Fresh boot roots guarded st' d where
  aligned := fresh.aligned
  used := tuned.grows _ fresh.used
  free := fresh.free
  unlinked := fun T member p node => by
    rw [tuned.kernel] at member
    rcases tuned.origin T member p d node with old | free
    · exact fresh.unlinked T member p old
    · rw [fresh.used] at free
      cases free
  apart := fresh.apart

/-- `vmm_guard_page` and `vmm_map_page` in any space, as far as the frames in
hand are concerned. -/
theorem Held.unmap {cur va : Word} (held : Held boot roots guarded st) (live : Live roots st cur)
    (slot : slot0 (levelIndex 39 va) = true) : Tuned roots st (st.vmmUnmapPageIn cur va).2 := by
  rcases vmmUnmapPageIn_kernel held.spaces held.upper live slot with
    ⟨-, unchanged⟩ | ⟨st', unmapped, set⟩ | ⟨st', failed, grown⟩
  · rw [unchanged]
    exact Tuned.refl held.spaces
  · rw [unmapped]
    exact set.tuned
  · rw [failed]
    exact grown.tuned

theorem Held.remap {cur va : Word} (held : Held boot roots guarded st)
    (live : Live roots st cur) (slot : slot0 (levelIndex 39 va) = true) (phys flags : Word) :
    Tuned roots st (st.vmmMapPageIn cur va phys flags).2 := by
  rcases vmmMapPageIn_kernel held.spaces held.upper live slot phys flags with
    ⟨st', mapped, set⟩ | ⟨st', failed, grown, -⟩
  · rw [mapped]
    exact set.tuned
  · rw [failed]
    exact grown.tuned

/-- Fresh frames may be freed. -/
theorem Held.freeFresh (held : Held boot roots guarded st) {frames : List Word}
    (fresh : ∀ d ∈ frames, Fresh boot roots guarded st d) :
    Held boot roots guarded (st.freeAll frames) :=
  held.giving (fun d inside => (fresh d inside).aligned) (fun d inside => (fresh d inside).free)
    (fun d inside => (fresh d inside).unlinked) (fun d inside => (fresh d inside).apart)

/-- Frames other than the page that was set keep their mapping. -/
theorem MappedOut.pageSet {va : Word} {view : Option (Word × Bool × Bool)}
    (set : PageSet slot0 roots va view st st') {g : Nat} (off : pathOf (frameAddr g) ≠ pathOf va)
    (mapped : IdentityMapped st st.kernelPml4 g) : IdentityMapped st' st'.kernelPml4 g := by
  rw [IdentityMapped, set.kernel]
  exact identity_of_looks (set.looks _ _ (Or.inl rfl) off) mapped

theorem nodup_frames (bound : f + 3 ≤ pmmMaxFrames) :
    [frameAddr f, frameAddr (f + 1), frameAddr (f + 2)].Nodup := by
  have apart (i j : Nat) (hi : i < 3) (hj : j < 3) (same : frameAddr (f + i) = frameAddr (f + j)) :
      i = j := by
    have values := congrArg (fun w => frameOf (BitVec.toNat w)) same
    simp only [frameOf_frameAddr (show f + i < pmmMaxFrames by omega),
      frameOf_frameAddr (show f + j < pmmMaxFrames by omega)] at values
    omega
  have h01 : frameAddr f ≠ frameAddr (f + 1) := fun same => by
    have := apart 0 1 (by decide) (by decide) same
    omega
  have h02 : frameAddr f ≠ frameAddr (f + 2) := fun same => by
    have := apart 0 2 (by decide) (by decide) same
    omega
  have h12 : frameAddr (f + 1) ≠ frameAddr (f + 2) := fun same => by
    have := apart 1 2 (by decide) (by decide) same
    omega
  simp [h01, h02, h12]

/-- The steps of `alloc_guarded_stack`: a region, its first page unmapped, and
the frames given back where that page is still mapped. -/
theorem allocGuardedStack_cases {cur : Word} (held : Held boot roots guarded st)
    (live : Live roots st cur) :
    st.allocGuardedStack cur = (none, st) ∨
      ∃ f st₁, f + 3 ≤ pmmMaxFrames ∧ st₁.mem = st.mem ∧ st₁.kernelPml4 = st.kernelPml4 ∧
        Grows st.pmm st₁.pmm ∧ (∀ i < 3, Fresh boot roots guarded st₁ (frameAddr (f + i))) ∧
        Live roots st₁ cur ∧ slot0 (levelIndex 39 (frameAddr f)) = true ∧
        st.allocGuardedStack cur =
          if (st₁.vmmUnmapPageIn cur (frameAddr f)).2.vmmIsMappedIn cur (frameAddr f) then
            (none, (st₁.vmmUnmapPageIn cur (frameAddr f)).2.freeAll
              [frameAddr f, frameAddr (f + 1), frameAddr (f + 2)])
          else (some (frameAddr f + 4096, frameAddr f),
            (st₁.vmmUnmapPageIn cur (frameAddr f)).2) := by
  rcases allocContiguous_spec held.spaces.zero (threadStackPages + 1) with
    failed | ⟨f, st₁, alloc, mem, kernel, nonzero, -, bound, allocated⟩
  · left
    rw [Vmm.allocGuardedStack, failed]
    exact if_pos rfl
  · right
    refine ⟨f, st₁, bound, mem, kernel, allocated.grows,
      fun i hi => held.fresh mem kernel allocated hi, by rwa [Live, kernel], ?_, ?_⟩
    · exact slot0_frameAddr (by unfold threadStackPages at bound; omega)
    · rw [Vmm.allocGuardedStack, alloc, ← region_frames bound, ← freeRun_eq]
      exact if_neg nonzero

/-- `alloc_guarded_stack`, whether it comes to a stack or gives the frames
back because the guard page could not be unmapped. -/
theorem Held.spawn {cur : Word} (held : Held boot roots guarded st) (live : Live roots st cur)
    (tid : Nat) :
    (∃ st', st.allocGuardedStack cur = (none, st') ∧ Held boot roots guarded st') ∨
      ∃ low guard st', st.allocGuardedStack cur = (some (low, guard), st') ∧
        Held boot roots (Function.update guarded tid (some ⟨low, guard, false⟩)) st' := by
  rcases allocGuardedStack_cases held live with
    failed | ⟨f, st₁, bound, mem, kernel, grows, fresh, live₁, slot, made⟩
  · exact Or.inl ⟨st, failed, held⟩
  have held₁ := held.taking mem kernel grows
  have tuned := held₁.unmap live₁ slot
  generalize (st₁.vmmUnmapPageIn cur (frameAddr f)).2 = st₂ at made tuned
  have held₂ := held₁.tuned tuned
  have region (d : Word) (inside : d ∈ [frameAddr f, frameAddr (f + 1), frameAddr (f + 2)]) :
      Fresh boot roots guarded st₂ d := by
    obtain ⟨i, hi, rfl⟩ := mem_region inside
    exact (fresh i hi).tuned tuned
  rw [made]
  split
  · exact Or.inl ⟨_, rfl, held₂.freeFresh region⟩
  · refine Or.inr ⟨_, _, st₂, rfl, held₂.push (fun d inside => ?_) ?_⟩
    · rw [frames_new bound] at inside
      exact region d inside
    · rw [frames_new bound]
      exact nodup_frames bound

/-- The frame of the first page was free and so mapped to itself, and is then
unmapped, or mapped as before. -/
theorem MappedOut.spawn {cur : Word} (held : Held boot roots guarded st)
    (out : MappedOut boot guarded st) (live : Live roots st cur) (unused : guarded tid = none) :
    match st.allocGuardedStack cur with
    | (none, st') => MappedOut boot guarded st'
    | (some (low, guard), st') =>
      MappedOut boot (Function.update guarded tid (some ⟨low, guard, false⟩)) st' := by
  rcases allocGuardedStack_cases held live with
    failed | ⟨f, st₁, bound, mem, kernel, grows, fresh, live₁, slot, made⟩
  · rw [failed]
    exact out
  have held₁ := held.taking mem kernel grows
  have out₁ := out.sameMem mem kernel
  have first := fresh 0 (by decide)
  rw [Nat.add_zero] at first
  have tracked : f < pmmMaxFrames := by omega
  have here := frameOf_frameAddr tracked
  obtain ⟨u, mapped⟩ : IdentityMapped st₁ cur f := by
    rw [IdentityMapped, held₁.spaces.translate_shared live₁ slot]
    refine out₁.mapped f (here ▸ first.free) fun t k at_t same => ?_
    have inside : k.guardPage ∈ k.frames := List.mem_cons_self
    have guard := frameAddr_frameOf (held.aligned t k at_t _ inside) (same ▸ tracked)
    rw [← same] at guard
    exact first.apart t k at_t (guard ▸ inside)
  rw [made]
  rcases vmmUnmapPageIn_kernel held₁.spaces held₁.upper live₁ slot with
    ⟨unmapped, -⟩ | ⟨st₂, unmapped, set⟩ | ⟨st₂, failed, grown⟩
  · rw [mapped] at unmapped
    cases unmapped
  · have gone : st₂.vmmIsMappedIn cur (frameAddr f) = false := by
      have view := set.here cur live₁
      rw [vmmIsMappedIn_eq]
      cases found : translate st₂.mem cur (frameAddr f) with
      | none => rfl
      | some t =>
        rw [found] at view
        cases view
    rw [unmapped, if_neg (by simp [gone])]
    constructor
    · intro g free off
      have other : g ≠ f := by
        have apart := off tid _ (Function.update_self ..)
        rwa [here] at apart
      refine MappedOut.pageSet set (pathOf_frameAddr (tracked_of_free free) tracked other)
        (out₁.mapped g free fun t k at_t => off t k ?_)
      rw [Function.update_of_ne, at_t]
      rintro rfl
      rw [unused] at at_t
      cases at_t
    · intro t k at_t
      rw [set.kernel]
      by_cases new : t = tid
      · rw [new, Function.update_self] at at_t
        rw [← Option.some.inj at_t]
        exact set.table
      · rw [Function.update_of_ne new] at at_t
        obtain ⟨pt, node⟩ := out₁.table t k at_t
        exact ⟨pt, set.kept _ _ node⟩
  · have still : st₂.vmmIsMappedIn cur (frameAddr f) = true := by
      have view := grown.looks false (by simp) cur (frameAddr f) live₁
      rw [vmmIsMappedIn_eq]
      cases found : translate st₂.mem cur (frameAddr f) with
      | some t => rfl
      | none =>
        rw [found, mapped] at view
        cases view
    rw [failed, if_pos still]
    refine (out₁.carry grown.kernel (fun g _ => ?_) grown.kept).sameMem (Vmm.freeAll_mem ..)
      (Vmm.freeAll_kernelPml4 ..)
    exact grown.looks false (by simp) _ _ (Or.inl rfl)

/-- A stack's frames in hand, seen by the others once it is off the table. -/
theorem Held.dropped (held : Held boot roots guarded st) (at_tid : guarded tid = some k)
    (inside : d ∈ k.frames) :
    Fresh boot roots (Function.update guarded tid none) st d where
  aligned := held.aligned tid k at_tid d inside
  used := (held.taken tid k at_tid d inside).1
  free := (held.taken tid k at_tid d inside).2
  unlinked := held.unlinked tid k at_tid d inside
  apart := fun t l at_t inside' => by
    by_cases here : t = tid
    · rw [here, Function.update_self] at at_t
      cases at_t
    · rw [Function.update_of_ne here] at at_t
      exact here (held.apart t l tid k d at_t at_tid inside' inside)

theorem Held.drop (held : Held boot roots guarded st) :
    Held boot roots (Function.update guarded tid none) st := by
  refine held.relabel fun t l at_t => ⟨l, ?_, rfl⟩
  by_cases here : t = tid
  · rw [here, Function.update_self] at at_t
    cases at_t
  · rwa [Function.update_of_ne here] at at_t

/-- The stack's own frames, which are freed before the guard page. -/
def GuardedStack.stackFrames (k : GuardedStack) : List Word :=
  (List.range threadStackPages).map fun i => k.stackLow + BitVec.ofNat 64 i * 4096

/-- The steps of `reap_zombie` on a stack. -/
theorem reapStack_eq {cur : Word} (nonzero : k.guardPage ≠ 0) :
    st.reapStack cur k.stackLow k.guardPage =
      ((st.freeAll k.stackFrames).vmmMapPageIn cur k.guardPage k.guardPage
        pageWritable).2.freeAll [k.guardPage] := by
  rw [Vmm.reapStack, if_neg nonzero, freeRun_eq]
  rfl

theorem Held.guard_ne_zero (held : Held boot roots guarded st) (at_tid : guarded tid = some k) :
    k.guardPage ≠ 0 := by
  intro none
  have free := (held.taken tid k at_tid k.guardPage List.mem_cons_self).2
  rw [none, show frameOf (0 : Word).toNat = 0 from rfl, held.zero] at free
  cases free

theorem Held.freeStack (held : Held boot roots guarded st) (at_tid : guarded tid = some k) :
    Held boot roots (Function.update guarded tid none) (st.freeAll k.stackFrames) ∧
      Fresh boot roots (Function.update guarded tid none) (st.freeAll k.stackFrames)
        k.guardPage := by
  have fresh (d : Word) (inside : d ∈ k.stackFrames) :=
    held.dropped at_tid (List.mem_cons_of_mem _ inside)
  have guard := held.dropped at_tid (d := k.guardPage) List.mem_cons_self
  have apart : k.guardPage ∉ k.stackFrames := (List.nodup_cons.mp (held.once tid k at_tid)).1
  refine ⟨held.drop.freeFresh fresh, guard.aligned, ?_, guard.free, ?_, guard.apart⟩
  · rw [Vmm.usedAt, Vmm.isUsed_freeAll, ← Vmm.usedAt, guard.used, Bool.true_and,
      Bool.not_eq_true', decide_eq_false_iff_not]
    rintro ⟨-, d, inside, same⟩
    rw [frameOf_inj guard.aligned (fresh d inside).aligned same] at apart
    exact apart inside
  · rw [Vmm.freeAll_mem, Vmm.freeAll_kernelPml4]
    exact guard.unlinked

/-- `reap_zombie`: the frames of the stack go back, the guard page last. -/
theorem Held.reap {cur : Word} (held : Held boot roots guarded st) (live : Live roots st cur)
    (at_tid : guarded tid = some k) :
    Held boot roots (Function.update guarded tid none)
      (st.reapStack cur k.stackLow k.guardPage) := by
  obtain ⟨held₁, guard⟩ := held.freeStack at_tid
  have tracked := tracked_of_free guard.free
  have slot : slot0 (levelIndex 39 k.guardPage) = true :=
    frameAddr_frameOf guard.aligned tracked ▸ slot0_frameAddr tracked
  have tuned := held₁.remap
    (show Live roots (st.freeAll k.stackFrames) cur by rwa [Live, Vmm.freeAll_kernelPml4]) slot
    k.guardPage pageWritable
  rw [reapStack_eq (held.guard_ne_zero at_tid)]
  refine (held₁.tuned tuned).freeFresh fun d inside => ?_
  rw [List.mem_singleton.mp inside]
  exact guard.tuned tuned

/-- The guard page is mapped again before its frame is freed. -/
theorem MappedOut.reap {cur : Word} (held : Held boot roots guarded st)
    (out : MappedOut boot guarded st) (live : Live roots st cur) (at_tid : guarded tid = some k) :
    MappedOut boot (Function.update guarded tid none)
      (st.reapStack cur k.stackLow k.guardPage) := by
  obtain ⟨held₁, guard⟩ := held.freeStack at_tid
  have tracked := tracked_of_free guard.free
  have addr := frameAddr_frameOf guard.aligned tracked
  have slot : slot0 (levelIndex 39 k.guardPage) = true := addr ▸ slot0_frameAddr tracked
  have live₁ : Live roots (st.freeAll k.stackFrames) cur := by
    rwa [Live, Vmm.freeAll_kernelPml4]
  have out₁ := out.sameMem (Vmm.freeAll_mem k.stackFrames st)
    (Vmm.freeAll_kernelPml4 k.stackFrames st)
  rw [reapStack_eq (held.guard_ne_zero at_tid)]
  generalize st.freeAll k.stackFrames = st₁ at *
  rcases vmmMapPageIn_kernel held₁.spaces held₁.upper live₁ slot k.guardPage pageWritable with
    ⟨st₂, mapped, set⟩ | ⟨st₂, -, -, absent⟩
  swap
  · obtain ⟨pt, node⟩ := out₁.table tid k at_tid
    rw [node] at absent
    cases absent
  rw [mapped]
  refine MappedOut.sameMem ?_ (Vmm.freeAll_mem ..) (Vmm.freeAll_kernelPml4 ..)
  constructor
  · intro g free off
    by_cases here : g = frameOf k.guardPage.toNat
    · rw [IdentityMapped, set.kernel, here, addr]
      have view := set.here st₁.kernelPml4 (Or.inl rfl)
      rw [show target k.guardPage = k.guardPage from guard.aligned,
        show writable pageWritable = true from rfl] at view
      exact identity_of_view view
    · refine MappedOut.pageSet set ?_ (out₁.mapped g free fun t l at_t => ?_)
      · rw [← addr]
        exact pathOf_frameAddr (tracked_of_free free) tracked here
      · by_cases at_this : t = tid
        · rw [at_this, at_tid] at at_t
          rw [← Option.some.inj at_t]
          exact here
        · exact off t l (by rw [Function.update_of_ne at_this]; exact at_t)
  · intro t l at_t
    by_cases at_this : t = tid
    · rw [at_this, Function.update_self] at at_t
      cases at_t
    · rw [Function.update_of_ne at_this] at at_t
      obtain ⟨pt, node⟩ := out₁.table t l at_t
      rw [set.kernel]
      exact ⟨pt, set.kept _ _ node⟩

theorem marked_frames (at_tid : guarded tid = some k) (t : Nat) (l' : GuardedStack)
    (at_t : Function.update guarded tid (some { k with zombie := true }) t = some l') :
    ∃ l, guarded t = some l ∧ l.frames = l'.frames ∧ l.guardPage = l'.guardPage := by
  by_cases here : t = tid
  · rw [here, Function.update_self] at at_t
    cases at_t
    exact ⟨k, here ▸ at_tid, rfl, rfl⟩
  · rw [Function.update_of_ne here] at at_t
    exact ⟨l', at_t, rfl, rfl⟩

/-- `sched_exit` leaves the stack in place. -/
theorem Held.exit (held : Held boot roots guarded st) (at_tid : guarded tid = some k) :
    Held boot roots (Function.update guarded tid (some { k with zombie := true })) st := by
  refine held.relabel fun t l' at_t => ?_
  obtain ⟨l, at_l, frames, -⟩ := marked_frames at_tid t l' at_t
  exact ⟨l, at_l, frames⟩

theorem MappedOut.exit (out : MappedOut boot guarded st) (at_tid : guarded tid = some k) :
    MappedOut boot (Function.update guarded tid (some { k with zombie := true })) st := by
  constructor
  · intro g free off
    refine out.mapped g free fun t l at_t => ?_
    by_cases here : t = tid
    · rw [here, at_tid] at at_t
      rw [← Option.some.inj at_t]
      exact off tid { k with zombie := true } (Function.update_self ..)
    · exact off t l (by rw [Function.update_of_ne here]; exact at_t)
  · intro t l' at_t
    obtain ⟨l, at_l, -, guard⟩ := marked_frames at_tid t l' at_t
    exact guard ▸ out.table t l at_l

/-- `pmm_alloc_contiguous` for the heap moves nothing. -/
theorem heapGrow_kept (zero : isUsed st.pmm 0 = true) (count : Nat) :
    (st.allocContiguous count).2.mem = st.mem ∧
      (st.allocContiguous count).2.kernelPml4 = st.kernelPml4 ∧
      Grows st.pmm (st.allocContiguous count).2.pmm := by
  rcases allocContiguous_spec zero count with
    failed | ⟨f, st₁, alloc, mem, kernel, -, -, -, allocated⟩
  · rw [failed]
    exact ⟨rfl, rfl, Grows.refl _⟩
  · rw [alloc]
    exact ⟨mem, kernel, allocated.grows⟩

/-! ### Address spaces -/

/-- The kernel's tree is not touched where none of its tables is. -/
theorem UpperWritable.elsewhere {K : Nat → Bool} (inv : Spaces K roots st) (own : r ∈ roots)
    (nodes : ∀ q, nodeAt st'.mem (kernelTree K st.kernelPml4) q =
      nodeAt st.mem (kernelTree K st.kernelPml4) q)
    (frame : ∀ d j, st.usedAt d = true → (∀ q, nodeAt st.mem (spaceTree K r) q ≠ some d) →
      st'.mem d j = st.mem d j)
    (upper : UpperWritable st.mem (kernelTree K st.kernelPml4)) :
    UpperWritable st'.mem (kernelTree K st.kernelPml4) := by
  have member := forest_kernel K st.kernelPml4 roots
  intro q d at_q short j hj there
  rw [nodes] at at_q
  rw [frame d j (inv.tables _ member q d at_q).2] at there ⊢
  · exact upper q d at_q short j hj there
  all_goals
    intro q' shared
    exact spaceTree_ne_kernelTree K _ _
      (inv.separate _ (forest_space K _ own) _ member q' q d shared at_q).1

theorem UpperWritable.kept {K : Nat → Bool} (kept : TablesKept K roots st st')
    (upper : UpperWritable st.mem (kernelTree K st.kernelPml4)) :
    UpperWritable st'.mem (kernelTree K st.kernelPml4) := by
  have member := forest_kernel K st.kernelPml4 roots
  intro q d at_q short j hj there
  rw [kept.nodes member] at at_q
  rw [kept _ member q d at_q (by omega)] at there ⊢
  exact upper q d at_q short j hj there

theorem Held.handed (held : Held boot roots guarded st) (handed : Handed st st' c) :
    Held boot roots guarded st' ∧ Fresh boot roots guarded st' c := by
  have inv := held.spaces
  have kept := inv.tablesKept handed
  obtain ⟨inv', unlinked⟩ := inv.handed handed
  have notUsed := handed.free
  constructor
  · refine held.carry ⟨inv', held.distinct, handed.kernel, UpperWritable.kept kept, ?_, ?_⟩
    · intro f used gone
      rw [handed.grows f used] at gone
      cases gone
    · intro T member p d node
      rw [kept.nodes member] at node
      exact Or.inl ⟨member, node⟩
  · refine ⟨handed.aligned, handed.usedAt, ?_, unlinked, fun tid k at_tid inside => ?_⟩
    · cases booted : isUsed boot (frameOf c.toNat) with
      | false => rfl
      | true =>
        rw [Vmm.usedAt, held.grows _ booted] at notUsed
        cases notUsed
    · rw [(held.taken tid k at_tid c inside).1] at notUsed
      cases notUsed

theorem MappedOut.handed (inv : Spaces slot0 roots st) (out : MappedOut boot guarded st)
    (handed : Handed st st' c) : MappedOut boot guarded st' := by
  have kept := inv.tablesKept handed
  refine out.carry handed.kernel (fun f _ => ?_) (fun q d node => ?_)
  · rw [inv.translate_kept (Or.inl rfl) kept]
  · rw [kept.nodes (forest_kernel slot0 _ roots), node]

/-- `vmm_create_address_space`. -/
theorem Held.create (held : Held boot roots guarded st) (handed : Handed st st' c)
    (copied : ∀ j < entriesPerTable, st'.mem c j = st.mem st.kernelPml4 j) :
    Held boot (c :: roots) guarded st' := by
  have inv := held.spaces
  have kept := inv.tablesKept handed
  refine held.carry ⟨inv.create handed copied, ?_, handed.kernel, UpperWritable.kept kept, ?_, ?_⟩
  · refine List.nodup_cons.mpr ⟨fun live => ?_, held.distinct⟩
    have free := handed.free
    rw [(inv.rootTable live).2] at free
    cases free
  · intro f used gone
    rw [handed.grows f used] at gone
    cases gone
  · intro T member p d node
    rcases forest_cons.mp member with rfl | old
    · rw [spaceTree_new inv copied] at node
      split at node
      · rw [← Option.some.inj node]
        exact Or.inr handed.free
      · cases node
    · rw [kept.nodes old] at node
      exact Or.inl ⟨old, node⟩

/-- Where the tables of a mapped page come from. -/
theorem Mapped.origin {K : Nat → Bool} {va phys : Word} {T : Tree Word Word} {p : Path}
    (done : Mapped K roots r va phys st st') (member : forest K st.kernelPml4 roots T)
    (node : nodeAt st'.mem T p = some d) :
    nodeAt st.mem T p = some d ∨ st.usedAt d = false ∨ d = phys := by
  by_cases here : T = spaceTree K r
  · subst here
    by_cases page : p = pathOf va
    · subst page
      exact Or.inr (Or.inr (Option.some.inj (node.symm.trans done.node)))
    · cases before : nodeAt st.mem (spaceTree K r) p with
      | none => exact Or.inr (Or.inl (done.fresh p d page before node))
      | some e => exact Or.inl ((done.kept p e page before).symm.trans node)
  · rw [done.elsewhere T member p fun on => here on.1] at node
    exact Or.inl node

theorem kernelTree_apart {P : Path} (q : Path) :
    ¬(kernelTree slot0 c = spaceTree slot0 r ∧ q <:+ P) :=
  fun on => spaceTree_ne_kernelTree slot0 _ _ on.1.symm

/-- A frame in hand is mapped as a user page. -/
theorem Held.mapped {va : Word} (held : Held boot roots guarded st) (own : r ∈ roots)
    (handed : Handed st st' c) (done : Mapped slot0 roots r va c st' st'') :
    Held boot roots guarded st'' := by
  have inv := held.spaces
  have kept := inv.tablesKept handed
  have inv' := (inv.handed handed).1
  have member := forest_kernel slot0 st'.kernelPml4 roots
  refine held.carry ⟨done.inv, held.distinct, done.kernel.trans handed.kernel, fun upper => ?_, ?_,
    ?_⟩
  · rw [← handed.kernel]
    refine UpperWritable.elsewhere inv' own
      (fun q => done.elsewhere _ member q (kernelTree_apart q))
      (fun d j used off => done.frame d j used fun q _ => off q) ?_
    rw [handed.kernel]
    exact UpperWritable.kept kept upper
  · intro f used gone
    rw [done.grows f (handed.grows f used)] at gone
    cases gone
  · intro T hT p d node
    rw [← handed.kernel] at hT
    rcases done.origin hT node with old | free | rfl
    · rw [handed.kernel] at hT
      rw [kept.nodes hT] at old
      exact Or.inl ⟨hT, old⟩
    · refine Or.inr ?_
      cases used : st.usedAt d with
      | false => rfl
      | true =>
        rw [Vmm.usedAt, handed.grows _ used] at free
        cases free
    · exact Or.inr handed.free

theorem MappedOut.mapped_ {va : Word} (inv : Spaces slot0 roots st)
    (out : MappedOut boot guarded st) (own : r ∈ roots)
    (done : Mapped slot0 roots r va c st st') : MappedOut boot guarded st' := by
  have member := forest_kernel slot0 st.kernelPml4 roots
  refine out.carry done.kernel (fun f _ => ?_) (fun q d node => ?_)
  · rw [done.translated _ _ (Or.inl rfl) fun on => inv.root_ne_kernel own on.1.symm]
  · rw [done.elsewhere _ member q (kernelTree_apart q), node]

/-- Tables of a space grew before the frames ran out. -/
theorem Held.grown {P : Path} (held : Held boot roots guarded st) (own : r ∈ roots)
    (grown : Grown slot0 roots (spaceTree slot0 r) P st st') : Held boot roots guarded st' := by
  have inv := held.spaces
  have member := forest_kernel slot0 st.kernelPml4 roots
  refine held.carry ⟨grown.inv, held.distinct, grown.kernel, ?_, ?_, ?_⟩
  · exact UpperWritable.elsewhere inv own
      (fun q => grown.elsewhere _ member q (kernelTree_apart q))
      (fun d j used off => grown.frame d j used fun q _ => off q)
  · intro f used gone
    rw [grown.grows f used] at gone
    cases gone
  · intro T hT p d node
    exact (grown.origin hT node).imp (fun old => ⟨hT, old⟩) id

theorem MappedOut.grown {P : Path} (out : MappedOut boot guarded st)
    (grown : Grown slot0 roots (spaceTree slot0 r) P st st') : MappedOut boot guarded st' := by
  have member := forest_kernel slot0 st.kernelPml4 roots
  refine out.carry grown.kernel (fun f _ => ?_) (fun q d node => ?_)
  · exact grown.looks false (by simp) _ _ (Or.inl rfl)
  · rw [grown.elsewhere _ member q (kernelTree_apart q), node]

theorem Fresh.grown {P : Path} (fresh : Fresh boot roots guarded st c)
    (grown : Grown slot0 roots (spaceTree slot0 r) P st st') :
    Fresh boot roots guarded st' c := by
  refine ⟨fresh.aligned, grown.grows _ fresh.used, fresh.free, ?_, fresh.apart⟩
  rw [grown.kernel]
  exact grown.unlinked fresh.used fresh.unlinked

/-- A space that is about to be destroyed: its tables and pages are no one else's. -/
theorem Held.closing (held : Held boot roots guarded st) (own : r ∈ roots) :
    ∃ frames, st.vmmDestroyAddressSpace r = st.freeAll frames ∧ frames.Nodup ∧
      (∀ d, d ∈ frames ↔ ∃ p, nodeAt st.mem (spaceTree slot0 r) p = some d) ∧
      Held boot (roots.erase r) guarded st ∧
      ∀ d ∈ frames, Fresh boot (roots.erase r) guarded st d := by
  have inv := held.spaces
  obtain ⟨frames, destroyed, once, found, taken⟩ := destroy_spec inv own
  have fewer (s : Word) (live : s ∈ roots.erase r) : s ∈ roots := List.mem_of_mem_erase live
  have wider (T : Tree Word Word) (member : forest slot0 st.kernelPml4 (roots.erase r) T) :
      forest slot0 st.kernelPml4 roots T ∧ T ≠ spaceTree slot0 r := by
    rcases member with rfl | ⟨s, live, rfl⟩
    · exact ⟨forest_kernel slot0 _ roots, fun same => spaceTree_ne_kernelTree slot0 _ _ same.symm⟩
    · refine ⟨forest_space slot0 _ (fewer s live), fun same => ?_⟩
      rw [spaceTree_inj same] at live
      exact (List.Nodup.mem_erase_iff held.distinct).mp live |>.1 rfl
  refine ⟨frames, destroyed, once, found, held.carry ⟨?_, held.distinct.erase r, rfl, id, ?_, ?_⟩,
    fun d inside => ?_⟩
  · exact inv.restrict fewer rfl inv.zero (fun _ _ _ _ _ _ => rfl) fun T member p b node =>
      (inv.tables T (wider T member).1 p b node).2
  · intro f used gone
    rw [used] at gone
    cases gone
  · exact fun T member p d node => Or.inl ⟨(wider T member).1, node⟩
  · obtain ⟨q, here⟩ := (found d).mp inside
    have member := forest_space slot0 st.kernelPml4 own
    refine ⟨(taken d inside).1, (taken d inside).2, held.own r own q d here, ?_, ?_⟩
    · intro T member' p node
      exact (wider T member').2 (inv.separate T (wider T member').1 _ member p q d node here).1
    · exact fun tid k at_tid inside' => held.unlinked tid k at_tid d inside' _ member q here

/-- `vmm_destroy_address_space`. -/
theorem Held.destroy (held : Held boot roots guarded st) (own : r ∈ roots) :
    Held boot (roots.erase r) guarded (st.vmmDestroyAddressSpace r) := by
  obtain ⟨frames, destroyed, -, -, held₁, fresh⟩ := held.closing own
  rw [destroyed]
  exact held₁.freeFresh fresh

theorem MappedOut.destroy (inv : Spaces slot0 roots st) (out : MappedOut boot guarded st)
    (own : r ∈ roots) : MappedOut boot guarded (st.vmmDestroyAddressSpace r) := by
  obtain ⟨frames, destroyed, -⟩ := destroy_spec inv own
  rw [destroyed]
  exact out.sameMem (Vmm.freeAll_mem ..) (Vmm.freeAll_kernelPml4 ..)

/-! ## Runs -/

section Runs
variable {va flags : Word} {s t : MemState} {call : MemCall}

/-- A page for a user: no frame, the page mapped, or a frame in hand while the
frames ran out for its tables. -/
theorem Held.page (held : Held boot roots guarded st) (own : r ∈ roots)
    (slot : slot0 (levelIndex 39 va) = false) (allowed : user flags = true) :
    st.allocZeroedFrame = (0, st) ∨
      ∃ c st₁, st.allocZeroedFrame = (c, st₁) ∧ c ≠ 0 ∧ Handed st st₁ c ∧
        ((∃ st₂, st₁.vmmMapPageIn r va c flags = (true, st₂) ∧
            Mapped slot0 roots r va c st₁ st₂) ∨
          ∃ st₂, st₁.vmmMapPageIn r va c flags = (false, st₂) ∧
            Grown slot0 roots (spaceTree slot0 r) (tablePath va) st₁ st₂) := by
  rcases Vmm.allocZeroedFrame_spec held.spaces.zero with
    ⟨failed, -⟩ | ⟨c, st₁, alloc, handed, -⟩
  · exact Or.inl failed
  · obtain ⟨held₁, fresh⟩ := held.handed handed
    refine Or.inr ⟨c, st₁, alloc, handed.nonzero, handed, ?_⟩
    rcases vmmMapPageIn_spec held₁.spaces own slot allowed fresh.aligned fresh.used
      fresh.unlinked with done | ⟨st₂, failed, grown, -, -⟩
    · exact Or.inl done
    · exact Or.inr ⟨st₂, failed, grown⟩

theorem Held.loadPage (held : Held boot roots guarded st) (own : r ∈ roots)
    (slot : slot0 (levelIndex 39 va) = false) (allowed : user flags = true) :
    Held boot roots guarded (st.loadPage r va flags).2 := by
  rcases held.page own slot allowed with failed | ⟨c, st₁, alloc, nonzero, handed, page⟩
  · rw [Vmm.loadPage, failed]
    exact held
  · simp only [Vmm.loadPage, alloc, if_neg nonzero]
    rcases page with ⟨st₂, mapped, done⟩ | ⟨st₂, failed, grown⟩
    · rw [mapped]
      exact held.mapped own handed done
    · rw [failed]
      exact (held.handed handed).1.grown own grown

theorem Held.mapNewPage (held : Held boot roots guarded st) (own : r ∈ roots)
    (slot : slot0 (levelIndex 39 va) = false) (allowed : user flags = true) :
    Held boot roots guarded (st.mapNewPage r va flags).2 := by
  rcases held.page own slot allowed with failed | ⟨c, st₁, alloc, nonzero, handed, page⟩
  · rw [Vmm.mapNewPage, failed]
    exact held
  · simp only [Vmm.mapNewPage, alloc, if_neg nonzero]
    rcases page with ⟨st₂, mapped, done⟩ | ⟨st₂, failed, grown⟩
    · rw [mapped]
      exact held.mapped own handed done
    · rw [failed]
      obtain ⟨held₁, fresh⟩ := held.handed handed
      change Held boot roots guarded (st₂.freeAll [c])
      refine (held₁.grown own grown).freeFresh fun d inside => ?_
      rw [List.mem_singleton.mp inside]
      exact fresh.grown grown

theorem MappedOut.loadPage (held : Held boot roots guarded st) (out : MappedOut boot guarded st)
    (own : r ∈ roots) (slot : slot0 (levelIndex 39 va) = false) (allowed : user flags = true) :
    MappedOut boot guarded (st.loadPage r va flags).2 ∧
      MappedOut boot guarded (st.mapNewPage r va flags).2 := by
  rcases held.page own slot allowed with failed | ⟨c, st₁, alloc, nonzero, handed, page⟩
  · rw [Vmm.loadPage, Vmm.mapNewPage, failed]
    exact ⟨out, out⟩
  · have inv₁ := (held.handed handed).1.spaces
    have out₁ := out.handed held.spaces handed
    simp only [Vmm.loadPage, Vmm.mapNewPage, alloc, if_neg nonzero]
    rcases page with ⟨st₂, mapped, done⟩ | ⟨st₂, failed, grown⟩
    · rw [mapped]
      exact ⟨out₁.mapped_ inv₁ own done, out₁.mapped_ inv₁ own done⟩
    · rw [failed]
      exact ⟨out₁.grown grown, (out₁.grown grown).sameMem rfl rfl⟩

theorem slot0_of_user (slot : pml4Index va = 1) : slot0 (levelIndex 39 va) = false := by
  rw [← pml4Index_eq, slot]
  rfl

theorem user_of_flags (allowed : flags &&& pageUser ≠ 0) : user flags = true := by
  rw [ne_eq, and_pageUser] at allowed
  simpa using allowed

/-- One call keeps account of the frames in hand. -/
theorem memStep_held (held : Held boot s.spaces s.guarded s.vmm)
    (stepped : memStep s call = some t) : Held boot t.spaces t.guarded t.vmm := by
  cases call with
  | spawn tid cur =>
    simp only [memStep] at stepped
    split at stepped
    · next enabled =>
      rcases held.spawn enabled.1 tid with
        ⟨vmm, none, after⟩ | ⟨low, guard, vmm, made, after⟩
      · rw [none] at stepped
        cases stepped
        exact after
      · rw [made] at stepped
        cases stepped
        exact after
    · cases stepped
  | exit tid =>
    simp only [memStep] at stepped
    split at stepped
    · next k at_tid =>
      cases stepped
      exact held.exit at_tid
    · cases stepped
  | reap tid cur =>
    simp only [memStep] at stepped
    split at stepped
    · next k at_tid =>
      split at stepped
      · next enabled =>
        cases stepped
        exact held.reap enabled.1 at_tid
      · cases stepped
    · cases stepped
  | heapGrow count =>
    cases stepped
    obtain ⟨mem, kernel, grows⟩ := heapGrow_kept held.spaces.zero count
    exact held.taking mem kernel grows
  | create =>
    simp only [memStep] at stepped
    rcases vmmCreateAddressSpace_spec held.spaces.zero with
      ⟨failed, -⟩ | ⟨frame, vmm, made, handed, copied⟩
    · rw [failed, if_pos rfl] at stepped
      cases stepped
      exact held
    · rw [made, if_neg handed.nonzero] at stepped
      cases stepped
      exact held.create handed copied
  | load space va flags =>
    simp only [memStep] at stepped
    split at stepped
    · next page =>
      cases stepped
      exact held.loadPage page.1 (slot0_of_user page.2.1) (user_of_flags page.2.2)
    · cases stepped
  | map space va flags =>
    simp only [memStep] at stepped
    split at stepped
    · next enabled =>
      cases stepped
      obtain ⟨page, -⟩ := enabled
      exact held.mapNewPage page.1 (slot0_of_user page.2.1) (user_of_flags page.2.2)
    · cases stepped
  | destroy space =>
    simp only [memStep] at stepped
    split at stepped
    · next own =>
      cases stepped
      exact held.destroy own
    · cases stepped

/-- One call keeps the mapping of all frames but the guard pages. -/
theorem memStep_mapped (held : Held boot s.spaces s.guarded s.vmm)
    (out : MappedOut boot s.guarded s.vmm) (stepped : memStep s call = some t) :
    MappedOut boot t.guarded t.vmm := by
  cases call with
  | spawn tid cur =>
    simp only [memStep] at stepped
    split at stepped
    · next enabled =>
      have after := MappedOut.spawn held out enabled.1 enabled.2
      split at stepped
      · next none =>
        rw [none] at after
        cases stepped
        exact after
      · next made =>
        rw [made] at after
        cases stepped
        exact after
    · cases stepped
  | exit tid =>
    simp only [memStep] at stepped
    split at stepped
    · next k at_tid =>
      cases stepped
      exact out.exit at_tid
    · cases stepped
  | reap tid cur =>
    simp only [memStep] at stepped
    split at stepped
    · next k at_tid =>
      split at stepped
      · next enabled =>
        cases stepped
        exact MappedOut.reap held out enabled.1 at_tid
      · cases stepped
    · cases stepped
  | heapGrow count =>
    cases stepped
    obtain ⟨mem, kernel, -⟩ := heapGrow_kept held.spaces.zero count
    exact out.sameMem mem kernel
  | create =>
    simp only [memStep] at stepped
    rcases vmmCreateAddressSpace_spec held.spaces.zero with
      ⟨failed, -⟩ | ⟨frame, vmm, made, handed, copied⟩
    · rw [failed, if_pos rfl] at stepped
      cases stepped
      exact out
    · rw [made, if_neg handed.nonzero] at stepped
      cases stepped
      exact out.handed held.spaces handed
  | load space va flags =>
    simp only [memStep] at stepped
    split at stepped
    · next page =>
      cases stepped
      exact (out.loadPage held page.1 (slot0_of_user page.2.1) (user_of_flags page.2.2)).1
    · cases stepped
  | map space va flags =>
    simp only [memStep] at stepped
    split at stepped
    · next enabled =>
      cases stepped
      obtain ⟨page, -⟩ := enabled
      exact (out.loadPage held page.1 (slot0_of_user page.2.1) (user_of_flags page.2.2)).2
    · cases stepped
  | destroy space =>
    simp only [memStep] at stepped
    split at stepped
    · next own =>
      cases stepped
      exact out.destroy held.spaces own
    · cases stepped

end Runs
end

/-- `kernel_main` after `vmm_init`: no thread stacks and no address spaces yet. -/
def MemState.start (vmm : Vmm) : MemState := ⟨vmm, fun _ => none, []⟩

/-- A machine without memory does nothing. -/
structure Exhausted (s : MemState) : Prop where
  used : ∀ f, isUsed s.vmm.pmm f = true
  guarded : ∀ tid, s.guarded tid = none
  spaces : s.spaces = []

theorem Exhausted.not_handed {s : MemState} {st : Vmm} {c : Word} (exhausted : Exhausted s) :
    ¬ Handed s.vmm st c := by
  intro handed
  have free := handed.free
  rw [Vmm.usedAt, exhausted.used] at free
  cases free

theorem Exhausted.allocFrame {s : MemState} (exhausted : Exhausted s) :
    s.vmm.allocFrame = (0, s.vmm) := by
  rcases Vmm.allocFrame_spec (exhausted.used 0) with ⟨failed, -⟩ | ⟨frame, st, -, taken⟩
  · exact failed
  · exact absurd taken.handed exhausted.not_handed

theorem Exhausted.allocContiguous {s : MemState} (exhausted : Exhausted s) (count : Nat) :
    s.vmm.allocContiguous count = (0, s.vmm) := by
  rcases allocContiguous_spec (exhausted.used 0) count with
    failed | ⟨f, st, -, -, -, -, positive, -, allocated⟩
  · exact failed
  · have free := allocated.free f (Nat.le_refl f) (by omega)
    rw [exhausted.used f] at free
    cases free

theorem Exhausted.step {s t : MemState} {call : MemCall} (none_ : Exhausted s)
    (stepped : memStep s call = some t) : t = s := by
  cases call with
  | spawn tid cur =>
    simp only [memStep, Vmm.allocGuardedStack, none_.allocContiguous] at stepped
    split at stepped
    · cases stepped
      rfl
    · cases stepped
  | exit tid => simp [memStep, none_.guarded tid] at stepped
  | reap tid cur => simp [memStep, none_.guarded tid] at stepped
  | heapGrow count =>
    simp only [memStep, none_.allocContiguous, Option.some.injEq] at stepped
    exact stepped.symm
  | create =>
    simp only [memStep, Vmm.vmmCreateAddressSpace, none_.allocFrame, if_true, Option.some.injEq]
      at stepped
    exact stepped.symm
  | load space va flags => simp [memStep, MemState.userPage, none_.spaces] at stepped
  | map space va flags => simp [memStep, MemState.userPage, none_.spaces] at stepped
  | destroy space => simp [memStep, none_.spaces] at stepped

/-! ### A machine with 2 MiB -/

/-- The bootloader's page table maps the first 512 frames to themselves. -/
theorem initPt_identity (st : Vmm) {f : Nat} (low : f < 512) :
    ∃ u, translate (put (put (initPt st).mem 0x1000 0 0x2007) 0x2000 0 0x3007) 0x1000 (frameAddr f) =
      some ⟨frameAddr f, true, u⟩ := by
  have tables := initPt_tables st
  have addr : (frameAddr f).toNat = f * 4096 :=
    toNat_frameAddr (by unfold pmmMaxFrames; omega)
  have i4 : levelIndex 39 (frameAddr f) = 0 := by
    unfold levelIndex
    omega
  have i3 : levelIndex 30 (frameAddr f) = 0 := by
    unfold levelIndex
    omega
  have i2 : levelIndex 21 (frameAddr f) = 0 := by
    unfold levelIndex
    omega
  have i1 : levelIndex 12 (frameAddr f) = f := by
    unfold levelIndex
    omega
  have l2 := tables.pd 0 (by decide)
  have l1 := tables.pt f low
  have page : target (0x3 + BitVec.ofNat 64 f * 0x1000) = frameAddr f := by
    apply BitVec.eq_of_toNat_eq
    rw [toNat_target, addr, BitVec.toNat_add, BitVec.toNat_mul, BitVec.toNat_ofNat]
    simp
    omega
  have bits (k : Nat) (hk : k < 2) : (0x3 + BitVec.ofNat 64 f * 0x1000 : Word).getLsbD k = true := by
    rw [← BitVec.testBit_toNat, Nat.testBit_eq_decide_div_mod_eq, decide_eq_true_iff,
      BitVec.toNat_add, BitVec.toNat_mul, BitVec.toNat_ofNat]
    rcases (show k = 0 ∨ k = 1 by omega) with rfl | rfl
    all_goals
      simp
      omega
  have there : present (0x3 + BitVec.ofNat 64 f * 0x1000) = true := bits 0 (by decide)
  have rights : writable (0x3 + BitVec.ofNat 64 f * 0x1000) = true := bits 1 (by decide)
  have e4 : put (put (initPt st).mem 0x1000 0 0x2007) 0x2000 0 0x3007 0x1000 0 = 0x2007 := by
    rw [put_table (by decide), put_same]
  have e3 : put (put (initPt st).mem 0x1000 0 0x2007) 0x2000 0 0x3007 0x2000 0 = 0x3007 := put_same
  have e2 : put (put (initPt st).mem 0x1000 0 0x2007) 0x2000 0 0x3007 0x3000 0 = 0x4003 := by
    rw [put_table (by decide), put_table (by decide), l2]
    rfl
  have e1 : put (put (initPt st).mem 0x1000 0 0x2007) 0x2000 0 0x3007 0x4000 f =
      0x3 + BitVec.ofNat 64 f * 0x1000 := by
    rw [put_table (by decide), put_table (by decide), l1]
  have t4 : target 0x2007 = 0x2000 := by decide
  have t3 : target 0x3007 = 0x3000 := by decide
  have t2 : target 0x4003 = 0x4000 := by decide
  simp only [translate, i4, i3, i2, i1, show target 0x1000 = 0x1000 by decide, e4, t4, e3, t3, e2,
    t2, e1, page, there, rights]
  exact ⟨_, rfl⟩

/-- Mapping a region whose page-directory entry is there marks the tables above. -/
theorem map2mbIdentity_boot {st : Vmm} (tables : BootTables st.mem 0x2003)
    (kernel : st.kernelPml4 = 0x1000) :
    st.map2mbIdentity 0 = (st.setEntry 0x1000 0 0x2007).setEntry 0x2000 0 0x3007 := by
  have l4 : st.mem 0x1000 0 = 0x2003 := tables.pml4 0 (by decide)
  have l3 : st.mem 0x2000 0 = 0x3003 := tables.pdpt 0 (by decide)
  have l2 : st.mem 0x3000 0 = 0x4003 := tables.pd 0 (by decide)
  have first : st.getOrCreateTable 0x1000 0 = (some 0x2000, st.setEntry 0x1000 0 0x2007) := by
    rw [getOrCreateTable_present (by rw [l4]; decide), enterTable_eq, l4]
    rfl
  have second : (st.setEntry 0x1000 0 0x2007).getOrCreateTable 0x2000 0 =
      (some 0x3000, (st.setEntry 0x1000 0 0x2007).setEntry 0x2000 0 0x3007) := by
    have entry : (st.setEntry 0x1000 0 0x2007).mem 0x2000 0 = 0x3003 := by
      rw [Vmm.setEntry_mem, put_table (by decide), l3]
    rw [getOrCreateTable_present (by rw [entry]; decide), enterTable_eq, entry]
    rfl
  have third : ((st.setEntry 0x1000 0 0x2007).setEntry 0x2000 0 0x3007).mem 0x3000 0 = 0x4003 := by
    rw [Vmm.setEntry_mem, put_table (by decide), Vmm.setEntry_mem, put_table (by decide), l2]
  simp only [Vmm.map2mbIdentity, show pml4Index 0 = 0 by decide, show pdptIndex 0 = 0 by decide,
    show pdIndex 0 = 0 by decide, kernel, first, second, third]
  exact if_neg (by decide)

theorem initEntry_small (st : Vmm) :
    st.initEntry ⟨0, 0x200000, true⟩ = some (st.map2mbIdentity 0) := by
  have regions : ((0 + 0x200000 : Word).toNat + (2 ^ 21 - 1) - (0 : Word).toNat) / 2 ^ 21 = 1 := by
    decide
  have start : (0 : Word) &&& ~~~(page2mbSize - 1) = 0 := by decide
  simp only [Vmm.initEntry, start, regions]
  rw [if_neg (by simp), if_neg (by decide), Vmm.mapRegions, Vmm.mapRegions]

/-- With 2 MiB of memory `vmm_init` only marks the tables it passes. -/
theorem bootVmm_small (mem : Tables) (kernelEnd : Nat) :
    ∃ boot, bootVmm mem [⟨0, 0x200000, true⟩] kernelEnd = some boot ∧
      boot.kernelPml4 = 0x1000 ∧ boot.pmm = pmmInit [⟨0, 0x200000, true⟩] kernelEnd ∧
      ∀ f < 512, IdentityMapped boot boot.kernelPml4 f := by
  generalize hst : (⟨mem, pmmInit [⟨0, 0x200000, true⟩] kernelEnd, 0x1000⟩ : Vmm) = st
  have kernel : (initPt st).kernelPml4 = 0x1000 :=
    (initPt_kernelPml4 st).trans (congrArg Vmm.kernelPml4 hst.symm)
  have pmm : (initPt st).pmm = pmmInit [⟨0, 0x200000, true⟩] kernelEnd :=
    (initPt_pmm st).trans (congrArg Vmm.pmm hst.symm)
  refine ⟨((initPt st).setEntry 0x1000 0 0x2007).setEntry 0x2000 0 0x3007, ?_, ?_, ?_, ?_⟩
  · rw [bootVmm, hst, Vmm.vmmInit, List.foldlM_cons, initEntry_small,
      map2mbIdentity_boot (initPt_tables st) kernel]
    rfl
  · rw [Vmm.setEntry_kernelPml4, Vmm.setEntry_kernelPml4, kernel]
  · rw [Vmm.setEntry_pmm, Vmm.setEntry_pmm, pmm]
  · intro f low
    rw [IdentityMapped, Vmm.setEntry_kernelPml4, Vmm.setEntry_kernelPml4, kernel,
      Vmm.setEntry_mem, Vmm.setEntry_mem]
    exact initPt_identity st low

/-! ### All runs -/

/-- What holds in every state reached after `vmm_init`. -/
def Accounted (boot : Vmm) (s : MemState) : Prop :=
  Held boot.pmm s.spaces s.guarded s.vmm ∨ (Exhausted s ∧ ∀ f, isUsed boot.pmm f = true)

theorem Accounted.start {boot : Vmm} (ready : KernelReady boot ∨ ∀ f, isUsed boot.pmm f = true) :
    Accounted boot (MemState.start boot) := by
  rcases ready with ready | used
  · left
    exact {
      spaces := ready.spaces
      upper := ready.upper
      grows := Grows.refl _
      zero := ready.spaces.zero
      distinct := List.nodup_nil
      own := fun r none => by cases none
      aligned := fun tid k none => by cases none
      taken := fun tid k none => by cases none
      unlinked := fun tid k none => by cases none
      apart := fun tid k tid' k' d none => by cases none
      once := fun tid k none => by cases none }
  · exact Or.inr ⟨⟨used, fun _ => rfl, rfl⟩, used⟩

theorem Accounted.step {boot : Vmm} {s t : MemState} {call : MemCall} (inv : Accounted boot s)
    (stepped : memStep s call = some t) : Accounted boot t := by
  rcases inv with held | ⟨exhausted, used⟩
  · exact Or.inl (memStep_held held stepped)
  · rw [exhausted.step stepped]
    exact Or.inr ⟨exhausted, used⟩

theorem Accounted.run {boot : Vmm} {s t : MemState} {calls : List MemCall}
    (inv : Accounted boot s) (reached : Machine.run memStep s calls = some t) : Accounted boot t :=
  Machine.run_invariant (I := Accounted boot) (fun _ _ _ inv _ stepped => inv.step stepped) inv
    (Machine.meets_always s calls) reached

theorem MappedOut.run {boot : Vmm} {s t : MemState} {calls : List MemCall}
    (inv : Accounted boot s) (out : MappedOut boot.pmm s.guarded s.vmm)
    (reached : Machine.run memStep s calls = some t) : MappedOut boot.pmm t.guarded t.vmm := by
  refine (Machine.run_invariant
    (I := fun s => Accounted boot s ∧ MappedOut boot.pmm s.guarded s.vmm)
    (fun s call t both _ stepped => ⟨both.1.step stepped, ?_⟩) ⟨inv, out⟩
    (Machine.meets_always s calls) reached).2
  rcases both.1 with held | ⟨exhausted, -⟩
  · exact memStep_mapped held both.2 stepped
  · rw [exhausted.step stepped]
    exact both.2

end MiniKernel.Memory.Paging
