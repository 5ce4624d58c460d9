import MiniKernel.Lib.Machine
import MiniKernel.Memory.Frames
import MiniKernel.Memory.HeapMemory

/-!
# The heap over whole runs

Source: kernel/mm/heap.c. Calls of `kmalloc` and `kfree`, stores of their callers
and the calls of the frame allocator's other users come in any order. Beside
the kernel's own state stands who has what: the frames `grow_heap` was given,
the frames of the others, and the allocations that are live.
-/
namespace MiniKernel.Memory
open Paging (Word)
open Lib (Buffer)
open HeapBlock (Apart Owned)

/-! ## Spans -/

namespace HeapBlock

/-- Header and payload. -/
def span (b : HeapBlock) : Nat := heapHeaderSize + b.size

theorem addr_add_span (b : HeapBlock) : b.addr + b.span = b.stop :=
  (Nat.add_assoc b.addr heapHeaderSize b.size).symm

end HeapBlock

/-- Some block has the byte at `a`. -/
def Covers (blocks : List HeapBlock) (a : Nat) : Prop := ∃ b ∈ blocks, b.addr ≤ a ∧ a < b.stop

def totalSpan (blocks : List HeapBlock) : Nat := (blocks.map HeapBlock.span).sum

/-- The blocks have the same bytes, none twice. -/
structure SameSpans (xs ys : List HeapBlock) : Prop where
  covers : ∀ a, Covers xs a ↔ Covers ys a
  total : totalSpan xs = totalSpan ys

theorem SameSpans.refl (xs : List HeapBlock) : SameSpans xs xs := ⟨fun _ => Iff.rfl, rfl⟩

theorem SameSpans.trans {xs ys zs : List HeapBlock} (first : SameSpans xs ys)
    (second : SameSpans ys zs) : SameSpans xs zs :=
  ⟨fun a => (first.covers a).trans (second.covers a), first.total.trans second.total⟩

theorem covers_append {xs ys : List HeapBlock} {a : Nat} :
    Covers (xs ++ ys) a ↔ Covers xs a ∨ Covers ys a := by
  unfold Covers
  simp only [List.mem_append, or_and_right, exists_or]

theorem totalSpan_append (xs ys : List HeapBlock) :
    totalSpan (xs ++ ys) = totalSpan xs + totalSpan ys := by
  simp [totalSpan]

theorem SameSpans.append {xs ys xs' ys' : List HeapBlock} (first : SameSpans xs xs')
    (second : SameSpans ys ys') : SameSpans (xs ++ ys) (xs' ++ ys') := by
  constructor
  · intro a
    rw [covers_append, covers_append, first.covers, second.covers]
  · rw [totalSpan_append, totalSpan_append, first.total, second.total]

theorem covers_singleton {b : HeapBlock} {a : Nat} : Covers [b] a ↔ b.addr ≤ a ∧ a < b.stop := by
  simp [Covers]

/-- Two adjacent blocks and the block that is both. -/
theorem sameSpans_join {b c m : HeapBlock} (adjacent : b.stop = c.addr) (low : m.addr = b.addr)
    (high : m.stop = c.stop) : SameSpans [b, c] [m] := by
  have sb := b.addr_add_span
  have sc := c.addr_add_span
  have sm := m.addr_add_span
  constructor
  · intro a
    rw [show [b, c] = [b] ++ [c] from rfl, covers_append, covers_singleton, covers_singleton,
      covers_singleton]
    omega
  · simp only [totalSpan, List.map_cons, List.map_nil, List.sum_cons, List.sum_nil]
    omega

theorem sameSpans_same {b m : HeapBlock} (low : m.addr = b.addr) (size : m.size = b.size) :
    SameSpans [b] [m] := by
  have high : m.stop = b.stop := by rw [← m.addr_add_span, ← b.addr_add_span, low, HeapBlock.span,
    HeapBlock.span, size]
  constructor
  · intro a
    rw [covers_singleton, covers_singleton, low, high]
  · simp [totalSpan, HeapBlock.span, size]

theorem placeIn_spans (size : Nat) (b : HeapBlock) :
    SameSpans [b] (placeIn size b) := by
  unfold placeIn remainderOf
  by_cases room : size + heapHeaderSize + 16 ≤ b.size
  · rw [if_pos room]
    have joined : SameSpans
        [takenBlock size b, ⟨b.addr + heapHeaderSize + size, b.size - size - heapHeaderSize, true⟩]
        [b] := by
      apply sameSpans_join
      · simp only [takenBlock, HeapBlock.stop, HeapBlock.payload, room, if_true]
      · rfl
      · simp only [HeapBlock.stop, HeapBlock.payload]
        omega
    exact ⟨fun a => (joined.covers a).symm, joined.total.symm⟩
  · rw [if_neg room]
    exact sameSpans_same rfl (if_neg room)

theorem mergeInto_spans (cur : HeapBlock) (rest : List HeapBlock) :
    SameSpans (cur :: rest) (mergeInto cur rest) := by
  induction rest generalizing cur with
  | nil => exact SameSpans.refl _
  | cons next rest ih =>
    rw [mergeInto]
    split
    · next merge =>
      have joined : SameSpans [cur, next]
          [{ cur with size := cur.size + (heapHeaderSize + next.size) }] :=
        sameSpans_join merge.2.2 rfl (merged_stop cur next merge.2.2)
      exact (joined.append (SameSpans.refl rest)).trans (ih _)
    · exact (SameSpans.refl [cur]).append (ih next)

theorem mergeAdjacent_spans (blocks : List HeapBlock) :
    SameSpans blocks (mergeAdjacent blocks) := by
  cases blocks with
  | nil => exact SameSpans.refl _
  | cons b rest => exact mergeInto_spans b rest

/-- Blocks in use are not merged. -/
theorem mergeInto_mem {b cur : HeapBlock} {rest : List HeapBlock} (used : b.free = false)
    (member : b ∈ cur :: rest) : b ∈ mergeInto cur rest := by
  induction rest generalizing cur with
  | nil => exact member
  | cons next rest ih =>
    rw [mergeInto]
    split
    · next merge =>
      apply ih
      rcases List.mem_cons.mp member with rfl | later
      · rw [used] at merge
        cases merge.1
      · rcases List.mem_cons.mp later with rfl | behind
        · rw [used] at merge
          cases merge.2.1
        · exact List.mem_cons_of_mem _ behind
    · rcases List.mem_cons.mp member with rfl | later
      · exact List.mem_cons_self
      · exact List.mem_cons_of_mem _ (ih later)

theorem mergeAdjacent_mem {b : HeapBlock} {blocks : List HeapBlock} (used : b.free = false)
    (member : b ∈ blocks) : b ∈ mergeAdjacent blocks := by
  cases blocks with
  | nil => exact member
  | cons first rest => exact mergeInto_mem used member

/-! ## Steps of the list -/

/-- A new block is made of the frames just allocated; without one, no frame was taken. -/
theorem growHeap_frames (requiredSize : Word) {pmm : Pmm} (zero : isUsed pmm 0 = true) :
    ((growHeap requiredSize pmm).1 = none ∧ (growHeap requiredSize pmm).2 = pmm) ∨
      ∃ block frame count, (growHeap requiredSize pmm).1 = some block ∧ 0 < count ∧
        Allocated pmm (growHeap requiredSize pmm).2 frame count ∧
        block.addr = frame * pmmFrameSize ∧ block.stop = (frame + count) * pmmFrameSize := by
  simp only [growHeap]
  by_cases tooBig : requiredSize > (~~~0 : Word) - 24
  · rw [if_pos tooBig]
    exact Or.inl ⟨rfl, rfl⟩
  rw [if_neg tooBig]
  generalize hwords : ((24 + requiredSize + 4096 - 1) / 4096 : Word) = words
  rcases pmmAllocContiguous_spec pmm words.toNat with failed | ⟨frame, addr, positive, allocated⟩
  · rw [failed, if_pos rfl]
    exact Or.inl ⟨rfl, rfl⟩
  · have tracked := allocated.bounded positive
    have nonzero : frame ≠ 0 := by
      rintro rfl
      rw [allocated.free 0 (Nat.le_refl 0) (by omega)] at zero
      cases zero
    have answered : ¬ (pmmAllocContiguous words.toNat pmm).1 = 0 := by
      rw [addr]
      unfold pmmFrameSize
      omega
    rw [if_neg answered]
    refine Or.inr ⟨_, frame, words.toNat, rfl, positive, allocated, addr, ?_⟩
    unfold pmmMaxFrames at tracked
    have size : (words * 4096 - 24 : Word).toNat = words.toNat * 4096 - 24 := by
      rw [BitVec.toNat_sub, BitVec.toNat_mul]
      change (2 ^ 64 - 24 + words.toNat * 4096 % 2 ^ 64) % 2 ^ 64 = _
      omega
    simp only [HeapBlock.stop, HeapBlock.payload, heapHeaderSize, size, addr]
    unfold pmmFrameSize
    omega

/-- What the critical section of `kmalloc` does to the chain. -/
theorem kmallocAligned_step (size : Word) {h : Heap} (zero : isUsed h.pmm 0 = true) :
    let r := kmallocAligned size h.blocks h.pmm
    (r.1 = none ∧ r.2.1 = h.blocks ∧ r.2.2 = h.pmm) ∨
      ∃ pre b post, r.1 = some (takenBlock size.toNat b) ∧ b.free = true ∧ size.toNat ≤ b.size ∧
        r.2.1 = pre ++ (placeIn size.toNat b ++ post) ∧
        ((h.blocks = pre ++ b :: post ∧ r.2.2 = h.pmm) ∨
          (pre = [] ∧ post = h.blocks ∧ (b :: h.blocks).Pairwise Apart ∧
            ∃ frame count, 0 < count ∧ Allocated h.pmm r.2.2 frame count ∧
              b.addr = frame * pmmFrameSize ∧ b.stop = (frame + count) * pmmFrameSize)) := by
  intro r
  simp only [r, kmallocAligned]
  cases taken : takeFirstFit size.toNat h.blocks with
  | some answer =>
    obtain ⟨pre, b, post, split, _, fits, htaken, hrest⟩ :=
      takeFirstFit_some (taken : _ = some (answer.1, answer.2))
    exact Or.inr ⟨pre, b, post, congrArg some htaken, fits.1, fits.2, hrest, Or.inl ⟨split, rfl⟩⟩
  | none =>
    rcases growHeap_frames size zero with
      ⟨none, same⟩ | ⟨block, frame, count, grown, positive, allocated, low, high⟩
    · simp only [none, same]
      exact Or.inl ⟨trivial, trivial, trivial⟩
    · obtain ⟨free, room, _⟩ := growHeap_some grown
      simp only [grown]
      exact Or.inr ⟨[], block, h.blocks, rfl, free, room, rfl, Or.inr ⟨rfl, rfl, (h.grown grown).1,
        frame, count, positive, allocated, low, high⟩⟩

/-! ## Runs -/

structure HeapState where
  mem : HeapMem
  /-- Frames `grow_heap` was given. -/
  obtained : Finset Nat
  /-- Frames that others hold. -/
  others : Finset Nat
  /-- Allocations that were not freed yet, with the sizes asked for. -/
  live : Nat → Option Nat

inductive HeapCall where
  | kmalloc (size : Word)
  | kfree (ptr : Nat)
  /-- The callers store into memory. -/
  | store (memory : Buffer)
  /-- Someone else calls the frame allocator. -/
  | frames (call : FrameCall)

def heapCall (s : HeapState) : HeapCall → Option HeapState
  | .kmalloc size =>
    (kmallocMem size s.mem).map fun r =>
      { s with
        mem := r.2
        obtained := s.obtained ∪ (clearFrames s.mem.pmm \ clearFrames r.2.pmm)
        live := if r.1 = 0 then s.live else Function.update s.live r.1 (some size.toNat) }
  | .kfree ptr =>
    (kfreeMem ptr s.mem).map fun mem =>
      { s with mem := mem, live := Function.update s.live ptr none }
  | .store memory => some { s with mem := { s.mem with memory := memory } }
  | .frames call =>
    (frameCall ⟨s.mem.pmm, s.others⟩ call).map fun f =>
      { s with mem := { s.mem with pmm := f.pmm }, others := f.held }

/-- `p` is a byte of a live allocation. -/
def LiveByte (live : Nat → Option Nat) (p : Nat) : Prop :=
  ∃ q n, live q = some n ∧ q ≤ p ∧ p < q + n

/-- Callers store into live allocations only, and others free frames of their own. -/
def HeapScope (s : HeapState) : HeapCall → Prop
  | .store memory => ∀ p, ¬ LiveByte s.live p → memory p = s.mem.memory p
  | .frames call => FreesOwn ⟨s.mem.pmm, s.others⟩ call
  | _ => True

/-- The blocks of the chain against what was handed out and obtained. -/
structure HeapIntact (blocks : List HeapBlock) (s : HeapState) : Prop where
  chain : Chain s.mem.memory s.mem.heapHead blocks 0
  apart : blocks.Pairwise Apart
  live : ∀ p n, s.live p = some n → ∃ b ∈ blocks, b.payload = p ∧ b.free = false ∧ n ≤ b.size
  covered : ∀ a, Covers blocks a ↔ frameOf a ∈ s.obtained
  total : totalSpan blocks = pmmFrameSize * s.obtained.card

/-- The invariant: `boot` is the allocator as `pmm_init` left it. -/
structure HeapInvariant (boot : Pmm) (s : HeapState) : Prop where
  intact : ∃ blocks, HeapIntact blocks s
  frames : FrameInvariant boot ⟨s.mem.pmm, s.others ∪ s.obtained⟩
  disjoint : Disjoint s.others s.obtained

theorem length_le_totalSpan (blocks : List HeapBlock) : blocks.length * 24 ≤ totalSpan blocks := by
  induction blocks with
  | nil => exact Nat.zero_le _
  | cons b rest ih =>
    have whole : b.span = 24 + b.size := rfl
    simp only [totalSpan, List.map_cons, List.sum_cons, List.length_cons] at ih ⊢
    omega

/-- The list that the chain stands for. -/
theorem HeapInvariant.heap {boot : Pmm} {s : HeapState} (inv : HeapInvariant boot s)
    (zero : isUsed boot 0 = true) :
    ∃ h : Heap, s.mem.Represents h ∧ HeapIntact h.blocks s ∧ h.blocks.length < heapFuel := by
  obtain ⟨blocks, intact⟩ := inv.intact
  have frame {b : HeapBlock} (hb : b ∈ blocks) {a : Nat} (low : b.addr ≤ a) (high : a < b.stop) :
      frameOf a ∈ s.others ∪ s.obtained :=
    Finset.mem_union_right _ ((intact.covered a).mp ⟨b, hb, low, high⟩)
  have owned (b : HeapBlock) (hb : b ∈ blocks) : Owned s.mem.pmm b := by
    have inhabited := b.addr_lt_stop
    refine ⟨?_, ?_, fun a low high => (inv.frames.marked _).mpr (Or.inr (frame hb low high))⟩
    · -- frame 0 is reserved
      have unreserved := inv.frames.apart _ (frame hb (Nat.le_refl _) inhabited)
      by_contra null
      have at0 : b.addr = 0 := by omega
      rw [at0] at unreserved
      exact absurd (zero.symm.trans unreserved) (by decide)
    · have below := inv.frames.below (frame hb (by omega : b.addr ≤ b.stop - 1) (by omega))
      unfold frameOf pmmMaxFrames pmmFrameSize at *
      omega
  refine ⟨⟨blocks, s.mem.pmm, intact.apart, owned⟩, ⟨intact.chain, rfl⟩, intact, ?_⟩
  have frames : s.obtained.card ≤ pmmMaxFrames := by
    have within : s.obtained ⊆ Finset.range pmmMaxFrames := fun f hf =>
      Finset.mem_range.mpr (inv.frames.below (Finset.mem_union_right _ hf))
    exact (Finset.card_le_card within).trans_eq (Finset.card_range _)
  have length := length_le_totalSpan blocks
  rw [intact.total] at length
  unfold pmmMaxFrames at frames
  unfold pmmFrameSize at length
  unfold heapFuel
  change blocks.length < _
  omega

theorem growHeap_counted (requiredSize : Word) {pmm : Pmm} (counted : Counted pmm) :
    Counted (growHeap requiredSize pmm).2 := by
  simp only [growHeap]
  split
  · exact counted
  · split <;> exact pmmAllocContiguous_counted _ counted

theorem kmallocAligned_counted (size : Word) {h : Heap} (counted : Counted h.pmm) :
    Counted (kmallocAligned size h.blocks h.pmm).2.2 := by
  unfold kmallocAligned
  split
  · exact counted
  · simp only
    split <;> exact growHeap_counted size counted

/-- The byte after the last one of a run of frames, and the frames of the bytes before. -/
theorem frames_of_span {b : HeapBlock} {frame count a : Nat} (low : b.addr = frame * pmmFrameSize)
    (high : b.stop = (frame + count) * pmmFrameSize) :
    (b.addr ≤ a ∧ a < b.stop) ↔ frameOf a ∈ Finset.Ico frame (frame + count) := by
  rw [low, high, Finset.mem_Ico]
  unfold frameOf pmmFrameSize
  omega

theorem Allocated.difference {s t : Pmm} {frame count : Nat} (h : Allocated s t frame count) :
    clearFrames s \ clearFrames t = Finset.Ico frame (frame + count) := by
  ext f
  rw [Finset.mem_sdiff, mem_clearFrames, mem_clearFrames, Finset.mem_Ico, h.taken]
  constructor
  · rintro ⟨free, taken⟩
    simpa [free] using taken
  · rintro ⟨low, high⟩
    exact ⟨h.free f low high, by simp [low, high]⟩

/-- `kmalloc` takes a free block of the chain, or a new one, and gives out its payload. -/
theorem kmalloc_step (size : Word) {h : Heap} (zero : isUsed h.pmm 0 = true)
    (counted : Counted h.pmm) :
    ((kmalloc size h).1 = none ∧ (kmalloc size h).2.blocks = h.blocks ∧
        (kmalloc size h).2.pmm = h.pmm) ∨
      ∃ pre b post n, size.toNat ≤ n ∧ (kmalloc size h).1 = some b.payload ∧ b.free = true ∧
        n ≤ b.size ∧ (kmalloc size h).2.blocks = pre ++ (placeIn n b ++ post) ∧
        ((h.blocks = pre ++ b :: post ∧ (kmalloc size h).2.pmm = h.pmm) ∨
          (pre = [] ∧ post = h.blocks ∧ (b :: h.blocks).Pairwise Apart ∧
            Counted (kmalloc size h).2.pmm ∧ ∃ frame count, 0 < count ∧
              Allocated h.pmm (kmalloc size h).2.pmm frame count ∧
              b.addr = frame * pmmFrameSize ∧ b.stop = (frame + count) * pmmFrameSize)) := by
  unfold kmalloc
  by_cases nothing : size = 0
  · rw [if_pos nothing]
    exact Or.inl ⟨rfl, rfl, rfl⟩
  by_cases tooBig : size > (~~~0 : Word) - (heapAlign - 1)
  · rw [if_neg nothing, if_pos tooBig]
    exact Or.inl ⟨rfl, rfl, rfl⟩
  rw [if_neg nothing, if_neg tooBig]
  have rounded := alignUp_toNat size tooBig
  have still := kmallocAligned_counted (alignUp size heapAlign) counted
  rcases kmallocAligned_step (alignUp size heapAlign) zero with
    ⟨none, blocks, pmm⟩ | ⟨pre, b, post, taken, free, room, blocks, origin⟩
  · exact Or.inl ⟨by simp only [none, Option.map_none], blocks, pmm⟩
  · refine Or.inr ⟨pre, b, post, (alignUp size heapAlign).toNat, by omega, ?_, free, room, blocks,
      origin.imp id ?_⟩
    · simp only [taken, Option.map_some]
      rfl
    · rintro ⟨hpre, hpost, apart, frame, count, positive, allocated, low, high⟩
      exact ⟨hpre, hpost, apart, still, frame, count, positive, allocated, low, high⟩

theorem takenBlock_mem (n : Nat) (b : HeapBlock) : takenBlock n b ∈ placeIn n b :=
  List.mem_cons_self

theorem le_takenBlock_size {n : Nat} {b : HeapBlock} (fits : n ≤ b.size) :
    n ≤ (takenBlock n b).size := by
  simp only [takenBlock]
  split <;> omega

/-- The live allocations, with one more in the block that was free. -/
theorem live_taken {live : Nat → Option Nat} {pre post blocks : List HeapBlock} {b : HeapBlock}
    {n size : Nat} (old : ∀ p k, live p = some k →
      ∃ c ∈ pre ++ post, c.payload = p ∧ c.free = false ∧ k ≤ c.size)
    (asked : size ≤ n) (fits : n ≤ b.size) (now : blocks = pre ++ (placeIn n b ++ post)) :
    ∀ p k, Function.update live b.payload (some size) p = some k →
      ∃ c ∈ blocks, c.payload = p ∧ c.free = false ∧ k ≤ c.size := by
  intro p k found
  by_cases same : p = b.payload
  · rw [same, Function.update_self] at found
    cases found
    refine ⟨takenBlock n b, ?_, same.symm, rfl, Nat.le_trans asked (le_takenBlock_size fits)⟩
    rw [now]
    exact List.mem_append_right _ (List.mem_append_left _ (takenBlock_mem n b))
  · rw [Function.update_of_ne same] at found
    obtain ⟨c, hc, rest⟩ := old p k found
    refine ⟨c, ?_, rest⟩
    rw [now]
    rcases List.mem_append.mp hc with before | after
    · exact List.mem_append_left _ before
    · exact List.mem_append_right _ (List.mem_append_right _ after)

/-- A block that is free is not live. -/
theorem not_live_of_free {h : Heap} {s : HeapState} (intact : HeapIntact h.blocks s) {b : HeapBlock}
    (member : b ∈ h.blocks) (free : b.free = true) : s.live b.payload = none := by
  cases found : s.live b.payload with
  | none => rfl
  | some n =>
    obtain ⟨c, hc, same, used, _⟩ := intact.live _ n found
    rw [h.payload_injective hc member same, free] at used
    cases used

/-- What `kmalloc` answers, and the state it leaves. -/
def afterKmalloc (size : Word) (s : HeapState) (p : Nat) (mem : HeapMem) : HeapState :=
  { s with
    mem := mem
    obtained := s.obtained ∪ (clearFrames s.mem.pmm \ clearFrames mem.pmm)
    live := if p = 0 then s.live else Function.update s.live p (some size.toNat) }

theorem covers_split {pre post cs : List HeapBlock} {b : HeapBlock} (spans : SameSpans [b] cs) :
    SameSpans (pre ++ b :: post) (pre ++ (cs ++ post)) :=
  (SameSpans.refl pre).append (spans.append (SameSpans.refl post))

/-- The block comes from the chain. -/
theorem HeapInvariant.reused {boot : Pmm} {s : HeapState} {h h' : Heap} {mem : HeapMem}
    {size : Word} {pre post : List HeapBlock} {b : HeapBlock} {n : Nat}
    (inv : HeapInvariant boot s) (intact : HeapIntact h.blocks s) (rep' : mem.Represents h')
    (split : h.blocks = pre ++ b :: post) (now : h'.blocks = pre ++ (placeIn n b ++ post))
    (pmm : h'.pmm = s.mem.pmm) (free : b.free = true) (asked : size.toNat ≤ n)
    (fits : n ≤ b.size) : HeapInvariant boot (afterKmalloc size s b.payload mem) := by
  have nonzero : ¬ b.payload = 0 := by
    unfold HeapBlock.payload heapHeaderSize
    omega
  have same : mem.pmm = s.mem.pmm := rep'.pmm.trans pmm
  have obtained : s.obtained ∪ (clearFrames s.mem.pmm \ clearFrames mem.pmm) = s.obtained := by
    rw [same, Finset.sdiff_self, Finset.union_empty]
  unfold afterKmalloc
  rw [obtained, if_neg nonzero]
  have spans : SameSpans (pre ++ b :: post) (pre ++ (placeIn n b ++ post)) :=
    covers_split (placeIn_spans n b)
  rw [← split, ← now] at spans
  refine ⟨⟨h'.blocks, rep'.chain, h'.apart, live_taken (fun p k found => ?_) asked fits now,
    fun a => (spans.covers a).symm.trans (intact.covered a), spans.total.symm.trans intact.total⟩,
    same.symm ▸ inv.frames, inv.disjoint⟩
  obtain ⟨c, hc, at_p, used, room⟩ := intact.live p k found
  refine ⟨c, ?_, at_p, used, room⟩
  rw [split] at hc
  rcases List.mem_append.mp hc with before | here
  · exact List.mem_append_left _ before
  · rcases List.mem_cons.mp here with rfl | after
    · rw [free] at used
      cases used
    · exact List.mem_append_right _ after

/-- The block is new. -/
theorem HeapInvariant.grown {boot : Pmm} {s : HeapState} {h h' : Heap} {mem : HeapMem}
    {size : Word} {b : HeapBlock} {n frame count : Nat} (zero : isUsed boot 0 = true)
    (inv : HeapInvariant boot s) (intact : HeapIntact h.blocks s) (rep' : mem.Represents h')
    (now : h'.blocks = placeIn n b ++ h.blocks) (counted : Counted h'.pmm) (positive : 0 < count)
    (allocated : Allocated s.mem.pmm h'.pmm frame count) (low : b.addr = frame * pmmFrameSize)
    (high : b.stop = (frame + count) * pmmFrameSize) (asked : size.toNat ≤ n) (fits : n ≤ b.size) :
    HeapInvariant boot (afterKmalloc size s b.payload mem) := by
  have nonzero : ¬ b.payload = 0 := by
    unfold HeapBlock.payload heapHeaderSize
    omega
  have frames := inv.frames.allocated zero positive counted allocated
  have addr : frame * pmmFrameSize ≠ 0 := by
    intro bad
    unfold pmmFrameSize at bad
    have free := allocated.free 0 (by omega) (by omega)
    rw [(inv.frames.marked 0).mpr (Or.inl zero)] at free
    cases free
  have start : frameOf (frame * pmmFrameSize) = frame := Nat.mul_div_cancel _ (by decide)
  rw [framesOf, if_neg addr, start, Finset.union_assoc] at frames
  -- the new frames were free, so nobody had them
  have fresh (f : Nat) (hf : f ∈ Finset.Ico frame (frame + count)) :
      f ∉ s.others ∪ s.obtained := by
    intro held
    obtain ⟨first, last⟩ := Finset.mem_Ico.mp hf
    have free := allocated.free f first last
    rw [(inv.frames.marked f).mpr (Or.inr held)] at free
    cases free
  have apart : Disjoint s.obtained (Finset.Ico frame (frame + count)) :=
    Finset.disjoint_right.mpr fun f hf old => fresh f hf (Finset.mem_union_right _ old)
  unfold afterKmalloc
  rw [if_neg nonzero, rep'.pmm, allocated.difference]
  have spans : SameSpans ([b] ++ h.blocks) (placeIn n b ++ h.blocks) :=
    (placeIn_spans n b).append (SameSpans.refl h.blocks)
  rw [← now] at spans
  refine ⟨⟨h'.blocks, rep'.chain, h'.apart, live_taken (fun p k found => ?_) asked fits
    (by rw [now, List.nil_append]), fun a => ?_, ?_⟩, rep'.pmm ▸ frames, ?_⟩
  · exact intact.live p k found
  · rw [← spans.covers a, covers_append, covers_singleton, frames_of_span low high,
      intact.covered a, Finset.mem_union, or_comm]
  · have whole := b.addr_add_span
    have old := intact.total
    rw [← spans.total, totalSpan_append, old, Finset.card_union_of_disjoint apart, Nat.card_Ico]
    simp only [totalSpan, List.map_cons, List.map_nil, List.sum_cons, List.sum_nil]
    unfold pmmFrameSize at *
    omega
  · refine Finset.disjoint_union_right.mpr ⟨inv.disjoint, ?_⟩
    exact Finset.disjoint_right.mpr fun f hf old => fresh f hf (Finset.mem_union_left _ old)

/-- `kmalloc` returns; a pointer it answers was not live. -/
theorem HeapInvariant.kmalloc {boot : Pmm} {s : HeapState} (zero : isUsed boot 0 = true)
    (inv : HeapInvariant boot s) (size : Word) :
    ∃ p mem, kmallocMem size s.mem = some (p, mem) ∧ (p ≠ 0 → s.live p = none) ∧
      HeapInvariant boot (afterKmalloc size s p mem) := by
  obtain ⟨h, rep, intact, few⟩ := inv.heap zero
  obtain ⟨mem, result, rep'⟩ := kmallocMem_sim rep few size
  have used : isUsed h.pmm 0 = true := rep.pmm ▸ (inv.frames.marked 0).mpr (Or.inl zero)
  have counted : Counted h.pmm := rep.pmm ▸ inv.frames.counted
  refine ⟨_, mem, result, ?_⟩
  rcases kmalloc_step size used counted with
    ⟨none, blocks, pmm⟩ | ⟨pre, b, post, n, asked, taken, free, fits, blocks, origin⟩
  · rw [none]
    refine ⟨fun bad => absurd rfl bad, ?_⟩
    have same : mem.pmm = s.mem.pmm := by rw [rep'.pmm, pmm, rep.pmm]
    have obtained : s.obtained ∪ (clearFrames s.mem.pmm \ clearFrames mem.pmm) = s.obtained := by
      rw [same, Finset.sdiff_self, Finset.union_empty]
    unfold afterKmalloc
    rw [obtained, Option.getD_none, if_pos rfl]
    exact ⟨⟨h.blocks, blocks ▸ rep'.chain, intact.apart, intact.live, intact.covered, intact.total⟩,
      same.symm ▸ inv.frames, inv.disjoint⟩
  · rw [taken, Option.getD_some]
    rcases origin with
      ⟨split, pmm⟩ | ⟨rfl, rfl, apart, counted', frame, count, positive, allocated, low, high⟩
    · have member : b ∈ h.blocks := split ▸ List.mem_append_right pre List.mem_cons_self
      exact ⟨fun _ => not_live_of_free intact member free,
        inv.reused intact rep' split blocks (pmm.trans rep.pmm.symm) free asked fits⟩
    · rw [← rep.pmm] at allocated
      refine ⟨fun _ => ?_, inv.grown zero intact rep' blocks counted' positive allocated low high
        asked fits⟩
      cases found : s.live b.payload with
      | none => rfl
      | some k =>
        obtain ⟨c, hc, same, _⟩ := intact.live _ k found
        have away := (List.pairwise_cons.mp apart).1 c hc
        have inhabited := b.addr_lt_stop
        have inhabited' := c.addr_lt_stop
        unfold Apart at away
        unfold HeapBlock.payload at same
        omega

/-- What `kfree` does to the chain: the same bytes in use and free, and every
block in use but the freed one as it was. -/
theorem kfree_step (ptr : Nat) (h : Heap) :
    SameSpans h.blocks (kfree ptr h).blocks ∧
      ∀ c ∈ h.blocks, c.free = false → c.payload ≠ ptr → c ∈ (kfree ptr h).blocks := by
  rw [(kfree_blocks ptr h).1]
  by_cases zero : ptr = 0
  · rw [if_pos zero]
    exact ⟨SameSpans.refl _, fun c hc _ _ => hc⟩
  rw [if_neg zero]
  rcases markFree_eq ptr h.blocks with ⟨_, unmarked⟩ | ⟨pre, b, post, split, found, marked⟩
  · rw [unmarked]
    exact ⟨SameSpans.refl _, fun c hc _ _ => hc⟩
  rw [marked]
  cases b.free with
  | true => exact ⟨SameSpans.refl _, fun c hc _ _ => hc⟩
  | false =>
    rw [if_neg Bool.false_ne_true]
    have spans : SameSpans (pre ++ b :: post) (pre ++ ([{ b with free := true }] ++ post)) :=
      covers_split (sameSpans_same rfl rfl)
    rw [List.singleton_append, ← split] at spans
    refine ⟨spans.trans (mergeAdjacent_spans _), fun c hc used other => ?_⟩
    apply mergeAdjacent_mem used
    rw [split] at hc
    rcases List.mem_append.mp hc with before | here
    · exact List.mem_append_left _ before
    · rcases List.mem_cons.mp here with rfl | after
      · have at_ptr := List.find?_some found
        exact absurd (of_decide_eq_true at_ptr) other
      · exact List.mem_append_right _ (List.mem_cons_of_mem _ after)

/-- `kfree` returns, whatever the pointer is. -/
theorem HeapInvariant.kfree {boot : Pmm} {s : HeapState} (zero : isUsed boot 0 = true)
    (inv : HeapInvariant boot s) (ptr : Nat) :
    ∃ mem, kfreeMem ptr s.mem = some mem ∧
      HeapInvariant boot { s with mem := mem, live := Function.update s.live ptr none } := by
  obtain ⟨h, rep, intact, few⟩ := inv.heap zero
  obtain ⟨mem, result, rep'⟩ := kfreeMem_sim rep few ptr
  obtain ⟨spans, kept⟩ := kfree_step ptr h
  have pmm : mem.pmm = s.mem.pmm := by rw [rep'.pmm, (kfree_blocks ptr h).2, rep.pmm]
  refine ⟨mem, result, ⟨_, rep'.chain, (Memory.kfree ptr h).apart, fun p k found => ?_,
    fun a => (spans.covers a).symm.trans (intact.covered a), spans.total.symm.trans intact.total⟩,
    pmm.symm ▸ inv.frames, inv.disjoint⟩
  change Function.update s.live ptr none p = some k at found
  by_cases freed : p = ptr
  · rw [freed, Function.update_self] at found
    cases found
  · rw [Function.update_of_ne freed] at found
    obtain ⟨c, hc, at_p, used, room⟩ := intact.live p k found
    exact ⟨c, kept c hc used fun same => freed (at_p.symm.trans same), at_p, used, room⟩

/-- No live byte is in a header. -/
theorem HeapIntact.header_dead {blocks : List HeapBlock} {s : HeapState}
    (intact : HeapIntact blocks s) {b : HeapBlock} (hb : b ∈ blocks) {p : Nat}
    (inside : InHeader b p) : ¬ LiveByte s.live p := by
  rintro ⟨q, n, live, low, high⟩
  obtain ⟨c, hc, rfl, _, room⟩ := intact.live q n live
  unfold InHeader at inside
  by_cases same : b = c
  · subst same
    omega
  · have away := List.Pairwise.forall intact.apart hb hc same
    have here := c.addr_add_span
    unfold HeapBlock.payload HeapBlock.span at *
    unfold Apart HeapBlock.stop HeapBlock.payload at away
    omega

theorem HeapInvariant.store {boot : Pmm} {s : HeapState} (inv : HeapInvariant boot s)
    {memory : Buffer} (scope : HeapScope s (.store memory)) :
    HeapInvariant boot { s with mem := { s.mem with memory := memory } } := by
  obtain ⟨blocks, intact⟩ := inv.intact
  have chain : Chain memory s.mem.heapHead blocks 0 := chain_congr intact.chain
    fun b hb p inside => scope p (intact.header_dead hb inside)
  exact ⟨⟨blocks, chain, intact.apart, intact.live, intact.covered, intact.total⟩, inv.frames,
    inv.disjoint⟩

/-- A call of another user of the frame allocator, with the heap's frames in view. -/
theorem HeapInvariant.framesCall {boot : Pmm} {s : HeapState} {f : FrameState} {call : FrameCall}
    (zero : isUsed boot 0 = true) (inv : HeapInvariant boot s) (scope : HeapScope s (.frames call))
    (stepped : frameCall ⟨s.mem.pmm, s.others⟩ call = some f) :
    HeapInvariant boot { s with mem := { s.mem with pmm := f.pmm }, others := f.held } := by
  obtain ⟨blocks, intact⟩ := inv.intact
  have kept (pmm : Pmm) (others : Finset Nat)
      (frames : FrameInvariant boot ⟨pmm, others ∪ s.obtained⟩)
      (disjoint : Disjoint others s.obtained) :
      HeapInvariant boot { s with mem := { s.mem with pmm := pmm }, others := others } :=
    ⟨⟨blocks, intact.chain, intact.apart, intact.live, intact.covered, intact.total⟩, frames,
      disjoint⟩
  have failed : HeapInvariant boot
      { s with mem := { s.mem with pmm := s.mem.pmm }, others := s.others ∪ ∅ } :=
    kept _ _ (by rw [Finset.union_empty]; exact inv.frames)
      (by rw [Finset.union_empty]; exact inv.disjoint)
  -- frames that were free go to the other user
  have given {pmm : Pmm} {frame count : Nat} (counted : Counted pmm) (positive : 0 < count)
      (allocated : Allocated s.mem.pmm pmm frame count) : HeapInvariant boot
        { s with
          mem := { s.mem with pmm := pmm }
          others := s.others ∪ framesOf (frame * pmmFrameSize) count } := by
    have frames := inv.frames.allocated zero positive counted allocated
    have hands := inv.frames.handsOut positive allocated
    refine kept _ _ ?_ ?_
    · rwa [Finset.union_right_comm]
    · refine Finset.disjoint_union_left.mpr ⟨inv.disjoint, Finset.disjoint_left.mpr fun g hg old => ?_⟩
      unfold framesOf at hg
      split at hg
      · exact absurd hg (Finset.notMem_empty g)
      · obtain ⟨low, high⟩ := Finset.mem_Ico.mp hg
        exact (hands.free g low high).2.2 (Finset.mem_union_right _ old)
  cases call with
  | allocFrame =>
    cases stepped
    have counted := pmmAllocFrame_counted inv.frames.counted
    rcases pmmAllocFrame_spec s.mem.pmm with none | ⟨frame, addr, allocated⟩
    · simp only [none]
      exact failed
    · simp only [addr]
      exact given counted Nat.one_pos allocated
  | allocContiguous count =>
    cases stepped
    have counted := pmmAllocContiguous_counted count inv.frames.counted
    rcases pmmAllocContiguous_spec s.mem.pmm count with none | ⟨frame, addr, positive, allocated⟩
    · simp only [none]
      exact failed
    · simp only [addr]
      exact given counted positive allocated
  | freeFrame addr =>
    cases stepped
    have notHeap : frameOf addr ∉ s.obtained := by
      intro old
      have held : frameOf addr ∈ s.others ∪ s.obtained := Finset.mem_union_right _ old
      rcases scope with own | free | outside
      · exact Finset.disjoint_left.mp inv.disjoint own old
      · have used := (inv.frames.marked _).mpr (Or.inr held)
        rw [free] at used
        cases used
      · exact absurd (inv.frames.below held) (Nat.not_lt.mpr outside)
    have own : FreesOwn ⟨s.mem.pmm, s.others ∪ s.obtained⟩ (.freeFrame addr) :=
      scope.imp (Finset.mem_union_left _) id
    have frames := inv.frames.freed addr own
    refine kept _ _ ?_ (inv.disjoint.mono_left (Finset.erase_subset _ _))
    rwa [Finset.erase_union_distrib, Finset.erase_eq_of_notMem notHeap] at frames

theorem heapCall_invariant {boot : Pmm} {s t : HeapState} {call : HeapCall}
    (zero : isUsed boot 0 = true) (inv : HeapInvariant boot s) (scope : HeapScope s call)
    (stepped : heapCall s call = some t) : HeapInvariant boot t := by
  cases call with
  | kmalloc size =>
    obtain ⟨p, mem, result, _, after⟩ := inv.kmalloc zero size
    rw [heapCall, result] at stepped
    cases stepped
    exact after
  | kfree ptr =>
    obtain ⟨mem, result, after⟩ := inv.kfree zero ptr
    rw [heapCall, result] at stepped
    cases stepped
    exact after
  | store memory =>
    cases stepped
    exact inv.store scope
  | frames call =>
    obtain ⟨f, called, rfl⟩ := Option.map_eq_some_iff.mp stepped
    exact inv.framesCall zero scope called

/-- `heap_init`, on the memory and the frames as they are by then. -/
def heapStart (memory : Buffer) (f : FrameState) : HeapState where
  mem := { memory := memory, heapHead := 0, pmm := f.pmm }
  obtained := ∅
  others := f.held
  live := fun _ => none

theorem heapStart_invariant {boot : Pmm} {f : FrameState} (memory : Buffer)
    (frames : FrameInvariant boot f) : HeapInvariant boot (heapStart memory f) := by
  refine ⟨⟨[], rfl, List.Pairwise.nil, fun p n bad => (by cases bad), fun a => ?_, rfl⟩, ?_,
    Finset.disjoint_empty_right _⟩
  · simp [Covers, heapStart]
  · change FrameInvariant boot ⟨f.pmm, f.held ∪ ∅⟩
    rw [Finset.union_empty]
    exact frames

/-- Live allocations lie apart. -/
theorem HeapIntact.live_apart {blocks : List HeapBlock} {s : HeapState}
    (intact : HeapIntact blocks s) {p q n k : Nat} (hp : s.live p = some n)
    (hq : s.live q = some k) (ne : p ≠ q) : p + n ≤ q ∨ q + k ≤ p := by
  obtain ⟨b, hb, rfl, _, room⟩ := intact.live p n hp
  obtain ⟨c, hc, rfl, _, room'⟩ := intact.live q k hq
  have away := List.Pairwise.forall intact.apart hb hc fun same => ne (by rw [same])
  unfold Apart HeapBlock.stop HeapBlock.payload at *
  omega

/-- A heap whose chain, frames and live allocations agree. -/
structure HeapSound (s : HeapState) : Prop where
  intact : ∃ blocks, HeapIntact blocks s ∧ ∀ b ∈ blocks, ∀ a, InHeader b a → ¬ LiveByte s.live a
  live_apart : ∀ p q n k, s.live p = some n → s.live q = some k → p ≠ q → p + n ≤ q ∨ q + k ≤ p
  live_inside : ∀ a, LiveByte s.live a → frameOf a ∈ s.obtained
  frames : ∀ f ∈ s.obtained, isUsed s.mem.pmm f = true ∧ f ∉ s.others
  kmalloc_returns : ∀ size, ∃ p t, (kmallocMem size s.mem).map Prod.fst = some p ∧
    heapCall s (.kmalloc size) = some t ∧
    (p ≠ 0 → s.live p = none ∧ t.live p = some size.toNat)
  kfree_returns : ∀ ptr, (kfreeMem ptr s.mem).isSome

theorem HeapInvariant.sound {boot : Pmm} {s : HeapState} (zero : isUsed boot 0 = true)
    (inv : HeapInvariant boot s) : HeapSound s := by
  obtain ⟨blocks, intact⟩ := inv.intact
  refine ⟨⟨blocks, intact, fun b hb a inside => intact.header_dead hb inside⟩,
    fun p q n k hp hq ne => intact.live_apart hp hq ne, fun a live => ?_, fun f hf => ⟨?_, ?_⟩,
    fun size => ?_, fun ptr => ?_⟩
  · obtain ⟨p, n, live, low, high⟩ := live
    obtain ⟨b, hb, rfl, _, room⟩ := intact.live p n live
    refine (intact.covered a).mp ⟨b, hb, ?_, ?_⟩
    · unfold HeapBlock.payload at low
      omega
    · unfold HeapBlock.stop
      omega
  · exact (inv.frames.marked f).mpr (Or.inr (Finset.mem_union_right _ hf))
  · exact fun other => Finset.disjoint_left.mp inv.disjoint other hf
  · obtain ⟨p, mem, result, fresh, _⟩ := inv.kmalloc zero size
    refine ⟨p, afterKmalloc size s p mem, by rw [result]; rfl, by rw [heapCall, result]; rfl,
      fun answered => ⟨fresh answered, ?_⟩⟩
    change (if p = 0 then s.live else Function.update s.live p (some size.toNat)) p = _
    rw [if_neg answered, Function.update_self]
  · obtain ⟨mem, result, _⟩ := inv.kfree zero ptr
    rw [result]
    rfl

/-- The heap starts sound, whatever the frame allocator did before. -/
theorem heapStart_booted {map : List E820Entry} {kernelEnd : Nat} {before : List FrameCall}
    {f : FrameState}
    (meetsBefore : Lib.Machine.Meets frameCall FreesOwn ⟨pmmInit map kernelEnd, ∅⟩ before)
    (booted : Lib.Machine.run frameCall ⟨pmmInit map kernelEnd, ∅⟩ before = some f)
    (memory : Buffer) : HeapInvariant (pmmInit map kernelEnd) (heapStart memory f) :=
  heapStart_invariant memory (Lib.Machine.run_invariant
    (fun _ _ _ inv own stepped => frameCall_invariant (pmmInit_zero map kernelEnd) inv own stepped)
    (pmmInit_invariant map kernelEnd) meetsBefore booted)

theorem heapStart_represents (memory : Buffer) (pmm : Pmm) (held : Finset Nat) :
    (heapStart memory ⟨pmm, held⟩).mem.Represents (heapInit pmm) := ⟨rfl, rfl⟩

theorem heapCall_kmalloc {s : HeapState} {h : Heap} (rep : s.mem.Represents h)
    (few : h.blocks.length < heapFuel) (size : Word) :
    ∃ t, heapCall s (.kmalloc size) = some t ∧ t.mem.Represents (kmalloc size h).2 := by
  obtain ⟨mem, result, rep'⟩ := kmallocMem_sim rep few size
  exact ⟨_, by rw [heapCall, result, Option.map_some], rep'⟩

theorem heapCall_kfree {s : HeapState} {h : Heap} (rep : s.mem.Represents h)
    (few : h.blocks.length < heapFuel) (ptr : Nat) :
    ∃ t, heapCall s (.kfree ptr) = some t ∧ t.mem.Represents (kfree ptr h) := by
  obtain ⟨mem, result, rep'⟩ := kfreeMem_sim rep few ptr
  exact ⟨_, by rw [heapCall, result, Option.map_some], rep'⟩

/-- A machine with two free frames, at 1 MiB. -/
def twoFrames : Pmm := pmmInit [⟨0x100000, 0x2000, true⟩] 0x20000

end MiniKernel.Memory
