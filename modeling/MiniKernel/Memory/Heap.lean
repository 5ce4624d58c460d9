import MiniKernel.Memory.Paging
import MiniKernel.Memory.Pmm

/-!
# The kernel heap

Source: kernel/mm/heap.c. `heap_head` is the head of a chain of headers; the
model keeps the chain as a list, in chain order, so that `next` of a block is
the block after it. A `Heap` carries what the chain always satisfies: blocks
are apart, and every byte of a block lies in a frame the heap was given.
-/
namespace MiniKernel.Memory
open Paging (Word)

def heapAlign : Word := 16
def heapHeaderSize : Nat := 24

structure HeapBlock where
  addr : Nat
  size : Nat
  free : Bool
  deriving DecidableEq, Repr

namespace HeapBlock

/-- What `kmalloc` returns for the block. -/
def payload (b : HeapBlock) : Nat := b.addr + heapHeaderSize

/-- The first address behind the payload. -/
def stop (b : HeapBlock) : Nat := b.payload + b.size

def Apart (b c : HeapBlock) : Prop := b.stop ≤ c.addr ∨ c.stop ≤ b.addr

/-- `b` lies in the span of `c`, header included. -/
def Inside (b c : HeapBlock) : Prop := c.addr ≤ b.addr ∧ b.stop ≤ c.stop

/-- The span lies above address 0 and in frames that are in use. -/
structure Owned (pmm : Pmm) (b : HeapBlock) : Prop where
  nonzero : 0 < b.addr
  tracked : b.stop ≤ pmmMaxFrames * pmmFrameSize
  used : ∀ a, b.addr ≤ a → a < b.stop → isUsed pmm (frameOf a) = true

end HeapBlock
open HeapBlock (Apart Inside Owned)

/-- `align_up`. -/
def alignUp (value align : Word) : Word := (value + align - 1) &&& ~~~(align - 1)

/-- `grow_heap`; linking the block in front of the chain is left to the caller. -/
def growHeap (requiredSize : Word) (pmm : Pmm) : Option HeapBlock × Pmm :=
  if requiredSize > (~~~0 : Word) - 24 then (none, pmm)
  else
    let totalSize : Word := 24 + requiredSize
    let frameCount : Word := (totalSize + 4096 - 1) / 4096
    let answer := pmmAllocContiguous frameCount.toNat pmm
    if answer.1 = 0 then (none, answer.2)
    else (some ⟨answer.1, (frameCount * 4096 - 24).toNat, true⟩, answer.2)

/-- The block after `kmalloc` has shrunk it, if it had room for another one;
`size` is at most the block's, so the sum does not wrap. -/
def takenBlock (size : Nat) (b : HeapBlock) : HeapBlock :=
  { b with size := if size + heapHeaderSize + 16 ≤ b.size then size else b.size, free := false }

def remainderOf (size : Nat) (b : HeapBlock) : List HeapBlock :=
  if size + heapHeaderSize + 16 ≤ b.size then
    [⟨b.addr + heapHeaderSize + size, b.size - size - heapHeaderSize, true⟩]
  else []

def placeIn (size : Nat) (b : HeapBlock) : List HeapBlock :=
  takenBlock size b :: remainderOf size b

def Fits (size : Nat) (b : HeapBlock) : Prop := b.free = true ∧ size ≤ b.size

instance (size : Nat) : DecidablePred (Fits size) := fun _ => inferInstanceAs (Decidable (_ ∧ _))

/-- The chain walk of `kmalloc`, with the block it takes. -/
def takeFirstFit (size : Nat) : List HeapBlock → Option (HeapBlock × List HeapBlock)
  | [] => none
  | b :: rest =>
    if Fits size b then some (takenBlock size b, placeIn size b ++ rest)
    else (takeFirstFit size rest).map fun found => (found.1, b :: found.2)

/-- `kmalloc`'s critical section, on a size rounded up. -/
def kmallocAligned (size : Word) (blocks : List HeapBlock) (pmm : Pmm) :
    Option HeapBlock × List HeapBlock × Pmm :=
  match takeFirstFit size.toNat blocks with
  | some found => (some found.1, found.2, pmm)
  | none =>
    let grown := growHeap size pmm
    match grown.1 with
    | none => (none, blocks, grown.2)
    | some block => (some (takenBlock size.toNat block), placeIn size.toNat block ++ blocks, grown.2)

/-- Merging with the blocks that follow, as `kfree`'s second loop does. -/
def mergeInto (cur : HeapBlock) : List HeapBlock → List HeapBlock
  | [] => [cur]
  | next :: rest =>
    if cur.free ∧ next.free ∧ cur.stop = next.addr then
      mergeInto { cur with size := cur.size + (heapHeaderSize + next.size) } rest
    else cur :: mergeInto next rest

def mergeAdjacent : List HeapBlock → List HeapBlock
  | [] => []
  | b :: rest => mergeInto b rest

/-- `block->free = 1` for the block with this payload; `none` when there is
none, or when it is free already. -/
def markFree (ptr : Nat) : List HeapBlock → Option (List HeapBlock)
  | [] => none
  | b :: rest =>
    if b.payload = ptr then (if b.free then none else some ({ b with free := true } :: rest))
    else (markFree ptr rest).map (b :: ·)

/-! ## Blocks stay apart -/

namespace HeapBlock

theorem Apart.symm {b c : HeapBlock} (h : Apart b c) : Apart c b := Or.symm h

instance : Std.Symm Apart := ⟨fun _ _ => Apart.symm⟩

theorem addr_lt_stop (b : HeapBlock) : b.addr < b.stop := by
  unfold stop payload heapHeaderSize
  omega

theorem Apart.inside {b c d : HeapBlock} (apart : Apart c d) (inside : Inside b c) :
    Apart b d := by
  unfold Apart Inside at *
  omega

theorem Owned.inside {pmm : Pmm} {b c : HeapBlock} (owned : Owned pmm c) (inside : Inside b c) :
    Owned pmm b := by
  obtain ⟨low, high⟩ := inside
  refine ⟨Nat.lt_of_lt_of_le owned.nonzero low, Nat.le_trans high owned.tracked, ?_⟩
  intro a first last
  exact owned.used a (Nat.le_trans low first) (Nat.lt_of_lt_of_le last high)

theorem Owned.grows {s t : Pmm} {b : HeapBlock} (owned : Owned s b) (grows : Grows s t) :
    Owned t b :=
  ⟨owned.nonzero, owned.tracked, fun a first last => grows _ (owned.used a first last)⟩

end HeapBlock

/-- A block may be cut into pieces that lie apart inside it. -/
theorem apart_replace {pre post cs : List HeapBlock} {b : HeapBlock}
    (apart : (pre ++ b :: post).Pairwise Apart) (inside : ∀ c ∈ cs, Inside c b)
    (pieces : cs.Pairwise Apart) : (pre ++ (cs ++ post)).Pairwise Apart := by
  rw [List.pairwise_append] at apart ⊢
  obtain ⟨hpre, hrest, across⟩ := apart
  obtain ⟨hb, hpost⟩ := List.pairwise_cons.mp hrest
  refine ⟨hpre, List.pairwise_append.mpr ⟨pieces, hpost, ?_⟩, ?_⟩
  · intro c hc d hd
    exact (hb d hd).inside (inside c hc)
  · intro d hd c hc
    rcases List.mem_append.mp hc with piece | later
    · have whole := across d hd b List.mem_cons_self
      exact (whole.symm.inside (inside c piece)).symm
    · exact across d hd c (List.mem_cons_of_mem b later)

theorem placeIn_inside (size : Nat) (b : HeapBlock) :
    ∀ c ∈ placeIn size b, Inside c b := by
  intro c hc
  simp only [placeIn, remainderOf, List.mem_cons] at hc
  rcases hc with rfl | hc
  · simp only [Inside, takenBlock, HeapBlock.stop, HeapBlock.payload]
    split <;> omega
  · split at hc
    · next room =>
      simp only [List.mem_singleton] at hc
      subst hc
      simp only [Inside, HeapBlock.stop, HeapBlock.payload]
      omega
    · cases hc

theorem placeIn_apart (size : Nat) (b : HeapBlock) : (placeIn size b).Pairwise Apart := by
  unfold placeIn remainderOf
  split
  · next room =>
    simp only [List.pairwise_cons, List.mem_singleton, forall_eq, List.not_mem_nil, false_imp_iff,
      implies_true, List.Pairwise.nil, and_true]
    left
    simp only [takenBlock, HeapBlock.stop, HeapBlock.payload, room, if_true]
    omega
  · simp

theorem takeFirstFit_some {size : Nat} {blocks rest : List HeapBlock} {taken : HeapBlock}
    (h : takeFirstFit size blocks = some (taken, rest)) :
    ∃ pre b post, blocks = pre ++ b :: post ∧ (∀ c ∈ pre, ¬ Fits size c) ∧ Fits size b ∧
      taken = takenBlock size b ∧ rest = pre ++ (placeIn size b ++ post) := by
  induction blocks generalizing rest with
  | nil => cases h
  | cons b blocks ih =>
    rw [takeFirstFit] at h
    split at h
    · next fits =>
      cases h
      exact ⟨[], b, blocks, rfl, by simp, fits, rfl, rfl⟩
    · next tooSmall =>
      obtain ⟨⟨taken', rest'⟩, found, same⟩ := Option.map_eq_some_iff.mp h
      cases same
      obtain ⟨pre, c, post, split, before, fits, htaken, hrest⟩ := ih found
      refine ⟨b :: pre, c, post, by rw [split]; rfl, ?_, fits, htaken, by rw [hrest]; rfl⟩
      intro d hd
      rcases List.mem_cons.mp hd with rfl | later
      · exact tooSmall
      · exact before d later

theorem takeFirstFit_none {size : Nat} {blocks : List HeapBlock}
    (h : takeFirstFit size blocks = none) : ∀ b ∈ blocks, ¬ Fits size b := by
  induction blocks with
  | nil => simp
  | cons b blocks ih =>
    rw [takeFirstFit] at h
    split at h
    · cases h
    · next tooSmall =>
      intro c hc
      rcases List.mem_cons.mp hc with rfl | later
      · exact tooSmall
      · exact ih (Option.map_eq_none_iff.mp h) c later

/-! ## Growing the heap -/

/-- `frame_count` of `grow_heap`, as a number: it covers header and payload,
unless the sum wrapped and nothing is asked for. -/
theorem frameCount_toNat (requiredSize : Word) (bound : ¬ requiredSize > (~~~0 : Word) - 24) :
    ((24 + requiredSize + 4096 - 1) / 4096 : Word).toNat =
      if requiredSize.toNat + 4119 < 2 ^ 64 then (requiredSize.toNat + 4119) / 4096 else 0 := by
  have limit : (~~~0 : Word) - 24 = BitVec.ofNat 64 (2 ^ 64 - 25) := by decide
  rw [limit, gt_iff_lt, BitVec.lt_def] at bound
  have sum : (24 + requiredSize + 4096 - 1 : Word).toNat =
      (requiredSize.toNat + 4119) % 2 ^ 64 := by
    have : (24 + requiredSize + 4096 - 1 : Word) = requiredSize + 4119 := by bv_omega
    rw [this, BitVec.toNat_add]
    rfl
  rw [BitVec.toNat_udiv, sum]
  change (requiredSize.toNat + 4119) % 2 ^ 64 / 4096 = _
  have := requiredSize.isLt
  split
  · next small => rw [Nat.mod_eq_of_lt small]
  · next large =>
    rw [Nat.mod_eq_sub_mod (by omega), Nat.mod_eq_of_lt (by omega)]
    have : ¬ (BitVec.ofNat 64 (2 ^ 64 - 25)).toNat < requiredSize.toNat := bound
    have : (BitVec.ofNat 64 (2 ^ 64 - 25)).toNat = 2 ^ 64 - 25 := by decide
    omega

/-- The size of a block `grow_heap` adds. -/
def grownSize (requiredSize : Word) : Nat := (requiredSize.toNat + 4119) / 4096 * 4096 - 24

/-- A grown block is new: it holds what was asked for, in frames nobody had. -/
theorem growHeap_some {requiredSize : Word} {pmm : Pmm} {block : HeapBlock}
    (h : (growHeap requiredSize pmm).1 = some block) :
    block.free = true ∧ requiredSize.toNat ≤ block.size ∧ block.size = grownSize requiredSize ∧
      Grows pmm (growHeap requiredSize pmm).2 ∧ Owned (growHeap requiredSize pmm).2 block ∧
      ∀ a, block.addr ≤ a → a < block.stop → isUsed pmm (frameOf a) = false := by
  simp only [growHeap] at h ⊢
  split at h
  · cases h
  · next bound =>
    rw [if_neg bound]
    have count := frameCount_toNat requiredSize bound
    rcases pmmAllocContiguous_spec pmm ((24 + requiredSize + 4096 - 1) / 4096 : Word).toNat with
      none | ⟨frame, addr, hpos, allocated⟩
    · rw [none, if_pos rfl] at h
      cases h
    split at h
    · cases h
    next nonzero =>
    rw [if_neg nonzero]
    cases h
    have tracked := allocated.bounded hpos
    have small : requiredSize.toNat + 4119 < 2 ^ 64 := by
      by_contra large
      rw [count, if_neg large] at hpos
      omega
    rw [if_pos small] at count
    have size : ((24 + requiredSize + 4096 - 1) / 4096 * 4096 - 24 : Word).toNat =
        (requiredSize.toNat + 4119) / 4096 * 4096 - 24 := by
      rw [BitVec.toNat_sub, BitVec.toNat_mul, count]
      unfold pmmMaxFrames at tracked
      rw [count] at tracked
      change (2 ^ 64 - 24 + (requiredSize.toNat + 4119) / 4096 * 4096 % 2 ^ 64) % 2 ^ 64 = _
      omega
    -- the frames of an address in the block are those just allocated
    have inFrames (a : Nat) (low : frame * pmmFrameSize ≤ a)
        (high : a < frame * pmmFrameSize + 24 + ((requiredSize.toNat + 4119) / 4096 * 4096 - 24)) :
        frame ≤ frameOf a ∧ frameOf a < frame +
          ((24 + requiredSize + 4096 - 1) / 4096 : Word).toNat := by
      rw [count]
      unfold frameOf pmmFrameSize at *
      omega
    refine ⟨rfl, ?_, size, allocated.grows, ⟨?_, ?_, ?_⟩, ?_⟩
    · change requiredSize.toNat ≤ ((24 + requiredSize + 4096 - 1) / 4096 * 4096 - 24 : Word).toNat
      omega
    · exact Nat.pos_of_ne_zero nonzero
    · simp only [HeapBlock.stop, HeapBlock.payload, heapHeaderSize, size, addr]
      rw [count] at tracked
      unfold pmmMaxFrames pmmFrameSize at *
      omega
    · intro a low high
      simp only [HeapBlock.stop, HeapBlock.payload, heapHeaderSize, size, addr] at low high
      obtain ⟨first, last⟩ := inFrames a low high
      exact allocated.used first last
    · intro a low high
      simp only [HeapBlock.stop, HeapBlock.payload, heapHeaderSize, size, addr] at low high
      obtain ⟨first, last⟩ := inFrames a low high
      exact allocated.free _ first last

theorem growHeap_grows (requiredSize : Word) (pmm : Pmm) :
    Grows pmm (growHeap requiredSize pmm).2 := by
  simp only [growHeap]
  split
  · exact Grows.refl pmm
  · rcases pmmAllocContiguous_spec pmm ((24 + requiredSize + 4096 - 1) / 4096 : Word).toNat with
      none | ⟨frame, addr, _, allocated⟩
    · rw [none]
      exact Grows.refl pmm
    · split <;> exact allocated.grows

/-! ## The heap and its operations -/

structure Heap where
  blocks : List HeapBlock
  pmm : Pmm
  apart : blocks.Pairwise Apart
  owned : ∀ b ∈ blocks, Owned pmm b

/-- A new block is apart from the old ones: their frames were in use when its
own were found free. -/
theorem Heap.grown {size : Word} (h : Heap) {block : HeapBlock}
    (grown : (growHeap size h.pmm).1 = some block) :
    (block :: h.blocks).Pairwise Apart ∧
      ∀ c ∈ block :: h.blocks, Owned (growHeap size h.pmm).2 c := by
  obtain ⟨_, _, _, grows, owned, fresh⟩ := growHeap_some grown
  constructor
  · refine List.pairwise_cons.mpr ⟨fun c hc => ?_, h.apart⟩
    have old := h.owned c hc
    by_contra overlap
    simp only [Apart, not_or, not_le] at overlap
    have meet := HeapBlock.addr_lt_stop block
    have meet' := HeapBlock.addr_lt_stop c
    let a := max block.addr c.addr
    have used := old.used a (by omega) (by omega)
    rw [fresh a (by omega) (by omega)] at used
    cases used
  · intro c hc
    rcases List.mem_cons.mp hc with rfl | later
    · exact owned
    · exact (h.owned c later).grows grows

theorem kmallocAligned_cases (size : Word) (h : Heap) :
    ((kmallocAligned size h.blocks h.pmm).1 = none ∧
      (kmallocAligned size h.blocks h.pmm).2.1 = h.blocks ∧
      Grows h.pmm (kmallocAligned size h.blocks h.pmm).2.2) ∨
    ∃ pre b post, (kmallocAligned size h.blocks h.pmm).1 = some (takenBlock size.toNat b) ∧
      (kmallocAligned size h.blocks h.pmm).2.1 = pre ++ (placeIn size.toNat b ++ post) ∧
      Grows h.pmm (kmallocAligned size h.blocks h.pmm).2.2 ∧ size.toNat ≤ b.size ∧
      (pre ++ b :: post).Pairwise Apart ∧
      (∀ c ∈ pre ++ b :: post, Owned (kmallocAligned size h.blocks h.pmm).2.2 c) ∧
      ((h.blocks.find? (fun c => decide (Fits size.toNat c)) = some b) ∨
        (h.blocks.find? (fun c => decide (Fits size.toNat c)) = none ∧
          b.size = grownSize size)) := by
  unfold kmallocAligned
  cases found : takeFirstFit size.toNat h.blocks with
  | some taken =>
    obtain ⟨pre, b, post, split, before, fits, htaken, hrest⟩ := takeFirstFit_some found
    right
    refine ⟨pre, b, post, congrArg some htaken, hrest, Grows.refl _, fits.2, split ▸ h.apart,
      split ▸ h.owned, Or.inl ?_⟩
    rw [List.find?_eq_some_iff_append]
    exact ⟨by simpa using fits, pre, post, split, fun c hc => by simpa using before c hc⟩
  | none =>
    have nofit := takeFirstFit_none found
    cases grown : (growHeap size h.pmm).1 with
    | none =>
      left
      simp only [grown]
      exact ⟨trivial, trivial, growHeap_grows size h.pmm⟩
    | some block =>
      obtain ⟨_, room, exact_size, grows, _, _⟩ := growHeap_some grown
      obtain ⟨apart, owned⟩ := h.grown grown
      right
      simp only [grown]
      refine ⟨[], block, h.blocks, rfl, rfl, grows, room, apart, owned, Or.inr ⟨?_, exact_size⟩⟩
      rw [List.find?_eq_none]
      intro c hc
      simpa using nofit c hc

theorem kmallocAligned_apart (size : Word) (h : Heap) :
    (kmallocAligned size h.blocks h.pmm).2.1.Pairwise Apart := by
  rcases kmallocAligned_cases size h with ⟨_, same, _⟩ | ⟨pre, b, post, _, blocks, _, _, apart, _⟩
  · rw [same]
    exact h.apart
  · rw [blocks]
    exact apart_replace apart (placeIn_inside _ b) (placeIn_apart _ b)

theorem kmallocAligned_owned (size : Word) (h : Heap) :
    ∀ b ∈ (kmallocAligned size h.blocks h.pmm).2.1,
      Owned (kmallocAligned size h.blocks h.pmm).2.2 b := by
  rcases kmallocAligned_cases size h with
    ⟨_, same, grows⟩ | ⟨pre, b, post, _, blocks, _, _, _, owned, _⟩
  · rw [same]
    exact fun b hb => (h.owned b hb).grows grows
  · rw [blocks]
    intro c hc
    rcases List.mem_append.mp hc with before | hc
    · exact owned c (List.mem_append_left _ before)
    · rcases List.mem_append.mp hc with piece | after
      · have whole := owned b (List.mem_append_right _ List.mem_cons_self)
        exact whole.inside (placeIn_inside _ b c piece)
      · exact owned c (List.mem_append_right _ (List.mem_cons_of_mem b after))

/-- `kmalloc`: the payload address, or `none` for the null pointer. -/
def kmalloc (size : Word) (h : Heap) : Option Nat × Heap :=
  if size = 0 then (none, h)
  else if size > (~~~0 : Word) - (heapAlign - 1) then (none, h)
  else
    let size := alignUp size heapAlign
    let answer := kmallocAligned size h.blocks h.pmm
    (answer.1.map HeapBlock.payload,
      ⟨answer.2.1, answer.2.2, kmallocAligned_apart size h, kmallocAligned_owned size h⟩)

/-- `heap_init`. -/
def heapInit (pmm : Pmm) : Heap := ⟨[], pmm, List.Pairwise.nil, by simp⟩

/-- The size `kmalloc` rounds a request up to. -/
theorem alignUp_toNat (size : Word) (bound : ¬ size > (~~~0 : Word) - (heapAlign - 1)) :
    (alignUp size heapAlign).toNat = (size.toNat + 15) / 16 * 16 := by
  have limit : (~~~0 : Word) - (heapAlign - 1) = BitVec.ofNat 64 (2 ^ 64 - 16) := by decide
  rw [limit, gt_iff_lt, BitVec.lt_def] at bound
  have small : ¬ 2 ^ 64 - 16 < size.toNat := bound
  have mask : (~~~(heapAlign - 1) : Word).toNat = (2 ^ 60 - 1) <<< 4 := by decide
  have sum : (size + heapAlign - 1 : Word).toNat = size.toNat + 15 := by
    have : (size + heapAlign - 1 : Word) = size + 15 := add_sub_assoc size heapAlign 1
    have fifteen : (15 : Word).toNat = 15 := by decide
    rw [this, BitVec.toNat_add, fifteen, Nat.mod_eq_of_lt (by omega)]
  have rounded := Lib.Words.toNat_and_high (size + heapAlign - 1) _ 4 (by decide) mask
  rw [sum] at rounded
  exact rounded

/-! ## `kfree` -/

/-- A property of the span of a block that two adjacent blocks pass on to the
block they are merged into. -/
structure SpanClosed (P : HeapBlock → Prop) : Prop where
  join : ∀ b c m : HeapBlock, P b → P c → b.stop = c.addr → m.addr = b.addr → m.stop = c.stop → P m
  same : ∀ b m : HeapBlock, P b → m.addr = b.addr → m.stop = b.stop → P m

theorem apart_spanClosed (d : HeapBlock) : SpanClosed (Apart d) := by
  have inhabited := HeapBlock.addr_lt_stop d
  constructor
  · intro b c m hb hc adjacent low high
    have := HeapBlock.addr_lt_stop b
    have := HeapBlock.addr_lt_stop c
    simp only [Apart] at *
    omega
  · intro b m hb low high
    simp only [Apart] at *
    omega

theorem owned_spanClosed (pmm : Pmm) : SpanClosed (Owned pmm) := by
  constructor
  · intro b c m hb hc adjacent low high
    refine ⟨by rw [low]; exact hb.nonzero, by rw [high]; exact hc.tracked, ?_⟩
    intro a first last
    rcases Nat.lt_or_ge a b.stop with inFirst | inSecond
    · exact hb.used a (low ▸ first) inFirst
    · exact hc.used a (adjacent ▸ inSecond) (high ▸ last)
  · intro b m hb low high
    exact ⟨by rw [low]; exact hb.nonzero, by rw [high]; exact hb.tracked,
      fun a first last => hb.used a (low ▸ first) (high ▸ last)⟩

theorem merged_stop (cur next : HeapBlock) (adjacent : cur.stop = next.addr) :
    ({ cur with size := cur.size + (heapHeaderSize + next.size) } : HeapBlock).stop = next.stop := by
  simp only [HeapBlock.stop, HeapBlock.payload] at *
  omega

theorem mergeInto_all {P : HeapBlock → Prop} (closed : SpanClosed P) (cur : HeapBlock)
    (rest : List HeapBlock) (hcur : P cur) (hrest : ∀ b ∈ rest, P b) :
    ∀ b ∈ mergeInto cur rest, P b := by
  induction rest generalizing cur with
  | nil =>
    intro b hb
    rw [List.mem_singleton.mp hb]
    exact hcur
  | cons next rest ih =>
    obtain ⟨hnext, hafter⟩ := List.forall_mem_cons.mp hrest
    rw [mergeInto]
    split
    · next merge =>
      exact ih _ (closed.join cur next _ hcur hnext merge.2.2 rfl (merged_stop cur next merge.2.2))
        hafter
    · exact List.forall_mem_cons.mpr ⟨hcur, ih next hnext hafter⟩

theorem mergeInto_apart (cur : HeapBlock) (rest : List HeapBlock)
    (apart : (cur :: rest).Pairwise Apart) : (mergeInto cur rest).Pairwise Apart := by
  induction rest generalizing cur with
  | nil => exact List.pairwise_singleton _ _
  | cons next rest ih =>
    obtain ⟨first, others⟩ := List.pairwise_cons.mp apart
    obtain ⟨second, later⟩ := List.pairwise_cons.mp others
    rw [mergeInto]
    split
    · next merge =>
      refine ih _ (List.pairwise_cons.mpr ⟨fun d hd => ?_, later⟩)
      apply HeapBlock.Apart.symm
      exact (apart_spanClosed d).join cur next _ (first d (List.mem_cons_of_mem next hd)).symm
        (second d hd).symm merge.2.2 rfl (merged_stop cur next merge.2.2)
    · refine List.pairwise_cons.mpr ⟨?_, ih next others⟩
      exact mergeInto_all (apart_spanClosed cur) next rest (first next List.mem_cons_self)
        (fun b hb => first b (List.mem_cons_of_mem next hb))

theorem mergeAdjacent_apart (blocks : List HeapBlock) (apart : blocks.Pairwise Apart) :
    (mergeAdjacent blocks).Pairwise Apart := by
  cases blocks with
  | nil => exact apart
  | cons b rest => exact mergeInto_apart b rest apart

theorem mergeAdjacent_all {P : HeapBlock → Prop} (closed : SpanClosed P) (blocks : List HeapBlock)
    (h : ∀ b ∈ blocks, P b) : ∀ b ∈ mergeAdjacent blocks, P b := by
  cases blocks with
  | nil => exact h
  | cons b rest =>
    obtain ⟨first, others⟩ := List.forall_mem_cons.mp h
    exact mergeInto_all closed b rest first others

theorem markFree_all {P : HeapBlock → Prop} (closed : SpanClosed P) {ptr : Nat}
    {blocks marked : List HeapBlock} (h : markFree ptr blocks = some marked)
    (hall : ∀ b ∈ blocks, P b) : ∀ b ∈ marked, P b := by
  induction blocks generalizing marked with
  | nil => cases h
  | cons b rest ih =>
    obtain ⟨first, others⟩ := List.forall_mem_cons.mp hall
    rw [markFree] at h
    split at h
    · split at h
      · cases h
      · cases h
        exact List.forall_mem_cons.mpr ⟨closed.same b _ first rfl rfl, others⟩
    · obtain ⟨tail, found, rfl⟩ := Option.map_eq_some_iff.mp h
      exact List.forall_mem_cons.mpr ⟨first, ih found others⟩

theorem markFree_apart {ptr : Nat} {blocks marked : List HeapBlock}
    (h : markFree ptr blocks = some marked) (apart : blocks.Pairwise Apart) :
    marked.Pairwise Apart := by
  induction blocks generalizing marked with
  | nil => cases h
  | cons b rest ih =>
    obtain ⟨first, others⟩ := List.pairwise_cons.mp apart
    rw [markFree] at h
    split at h
    · split at h
      · cases h
      · cases h
        exact List.pairwise_cons.mpr ⟨first, others⟩
    · obtain ⟨tail, found, rfl⟩ := Option.map_eq_some_iff.mp h
      exact List.pairwise_cons.mpr ⟨markFree_all (apart_spanClosed b) found first, ih found others⟩

/-- `kfree`; pointers that no block in use starts at are ignored. -/
def kfree (ptr : Nat) (h : Heap) : Heap :=
  if ptr = 0 then h
  else
    match found : markFree ptr h.blocks with
    | none => h
    | some marked =>
      { blocks := mergeAdjacent marked
        pmm := h.pmm
        apart := mergeAdjacent_apart marked (markFree_apart found h.apart)
        owned := mergeAdjacent_all (owned_spanClosed h.pmm) marked
          (markFree_all (owned_spanClosed h.pmm) found h.owned) }

/-! ## The block `kmalloc` returns -/

/-- The size of the block `kmalloc` picks: the first free one in the chain that
is large enough, else a new one. -/
def pickedSize (size : Nat) (h : Heap) : Nat :=
  match h.blocks.find? (fun b => decide (Fits size b)) with
  | some b => b.size
  | none => (size + 4119) / 4096 * 4096 - 24

/-- What a picked block keeps once the rest is split off. -/
def keptSize (size picked : Nat) : Nat :=
  if size + heapHeaderSize + 16 ≤ picked then size else picked

/-- The block a successful `kmalloc` returns: it is in the chain, not free, and
its payload has at least the bytes asked for. -/
theorem kmalloc_some {size : Word} {h : Heap} {p : Nat} (ok : (kmalloc size h).1 = some p) :
    ∃ c ∈ (kmalloc size h).2.blocks, c.payload = p ∧ c.free = false ∧
      c.size = keptSize ((size.toNat + 15) / 16 * 16)
        (pickedSize ((size.toNat + 15) / 16 * 16) h) := by
  unfold kmalloc at ok ⊢
  split at ok
  · cases ok
  next nonzero =>
  rw [if_neg nonzero]
  split at ok
  · cases ok
  next bound =>
  rw [if_neg bound]
  have rounded := alignUp_toNat size bound
  simp only at ok ⊢
  obtain ⟨taken, htaken, rfl⟩ := Option.map_eq_some_iff.mp ok
  rcases kmallocAligned_cases (alignUp size heapAlign) h with
    ⟨none, _⟩ | ⟨pre, b, post, some_b, blocks, _, _, _, _, picked⟩
  · rw [none] at htaken
    cases htaken
  · rw [some_b] at htaken
    cases htaken
    refine ⟨takenBlock (alignUp size heapAlign).toNat b, ?_, rfl, rfl, ?_⟩
    · rw [blocks]
      simp [placeIn]
    · rw [← rounded]
      have : pickedSize (alignUp size heapAlign).toNat h = b.size := by
        unfold pickedSize
        rcases picked with found | ⟨none, grown⟩
        · rw [found]
        · rw [none, grown]
          rfl
      rw [this]
      rfl

/-- `kmalloc` has something to hand out: a free block that fits, or frames for
a new one. -/
def CanAllocate (size : Word) (h : Heap) : Prop :=
  size ≠ 0 ∧ ¬ size > (~~~0 : Word) - (heapAlign - 1) ∧
    ((∃ b ∈ h.blocks, Fits (alignUp size heapAlign).toNat b) ∨
      (growHeap (alignUp size heapAlign) h.pmm).1.isSome)

instance (size : Word) (h : Heap) : Decidable (CanAllocate size h) :=
  inferInstanceAs (Decidable (_ ∧ _ ∧ (_ ∨ _)))

theorem kmalloc_isSome_iff (size : Word) (h : Heap) :
    (kmalloc size h).1.isSome = true ↔ CanAllocate size h := by
  unfold kmalloc CanAllocate
  by_cases zero : size = 0
  · simp [zero]
  rw [if_neg zero]
  by_cases tooBig : size > (~~~0 : Word) - (heapAlign - 1)
  · rw [if_pos tooBig]
    constructor
    · intro some
      cases some
    · intro ⟨_, small, _⟩
      exact absurd tooBig small
  rw [if_neg tooBig]
  simp only [ne_eq, zero, not_false_eq_true, tooBig, true_and, Option.isSome_map]
  unfold kmallocAligned
  cases found : takeFirstFit (alignUp size heapAlign).toNat h.blocks with
  | some taken =>
    obtain ⟨pre, b, post, split, _, fits, _⟩ := takeFirstFit_some (found : _ = some (taken.1, taken.2))
    simp only [Option.isSome_some, true_iff]
    exact Or.inl ⟨b, by rw [split]; simp, fits⟩
  | none =>
    have nofit := takeFirstFit_none found
    cases grown : (growHeap (alignUp size heapAlign) h.pmm).1 with
    | none =>
      simp only [grown, Option.isSome_none, Bool.false_eq_true, or_false, false_iff]
      rintro ⟨b, hb, fits⟩
      exact nofit b hb fits
    | some block => simp [grown]

/-- Different blocks of a heap lie apart. -/
theorem Heap.apart_of_ne (h : Heap) {b c : HeapBlock} (hb : b ∈ h.blocks) (hc : c ∈ h.blocks)
    (ne : b ≠ c) : Apart b c :=
  List.Pairwise.forall h.apart hb hc ne

theorem Heap.payload_injective (h : Heap) {b c : HeapBlock} (hb : b ∈ h.blocks)
    (hc : c ∈ h.blocks) (same : b.payload = c.payload) : b = c := by
  by_contra ne
  have apart := h.apart_of_ne hb hc ne
  have := HeapBlock.addr_lt_stop b
  have := HeapBlock.addr_lt_stop c
  simp only [Apart, HeapBlock.payload] at *
  omega

end MiniKernel.Memory
