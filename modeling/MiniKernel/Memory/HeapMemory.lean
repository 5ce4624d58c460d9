import MiniKernel.Lib.LinkedList
import MiniKernel.Lib.LittleEndian
import MiniKernel.Memory.Heap

/-!
# The heap inside the memory it manages

Source: kernel/mm/heap.c. Here the headers are bytes of memory and the chain is
followed through their `next` fields, as the code does; `HeapMem.Represents`
connects this to the chain as a list. Addresses are below `PMM_MAX_MEMORY`, so
sums of addresses and sizes of blocks do not wrap.
-/
namespace MiniKernel.Memory
open Paging (Word)
open Lib (Buffer readU32 writeU32 readU64 writeU64 Segment findNode)
open HeapBlock (Apart Inside Owned)

structure HeapMem where
  memory : Buffer
  heapHead : Nat
  pmm : Pmm

/-! ## The code -/

def loadSize (m : Buffer) (block : Nat) : Nat := readU64 m block
def loadFree (m : Buffer) (block : Nat) : Bool := readU32 m (block + 8) ≠ 0
def loadNext (m : Buffer) (block : Nat) : Nat := readU64 m (block + 16)

def storeHeader (m : Buffer) (block size free next : Nat) : Buffer :=
  writeU64 (writeU32 (writeU64 m block size) (block + 8) free) (block + 16) next

/-- More steps than there is room for blocks. -/
def heapFuel : Nat := 2 ^ 32

/-- `grow_heap`, with the block linked in front; 0 is the null pointer. -/
def growHeapMem (requiredSize : Word) (s : HeapMem) : Nat × HeapMem :=
  let grown := growHeap requiredSize s.pmm
  match grown.1 with
  | none => (0, { s with pmm := grown.2 })
  | some block =>
    (block.addr,
      { memory := storeHeader s.memory block.addr block.size 1 s.heapHead
        heapHead := block.addr
        pmm := grown.2 })

/-- The end of `kmalloc`: the block is cut if another one fits behind, and taken. -/
def carve (size : Word) (block : Nat) (m : Buffer) : Buffer :=
  let blockSize := BitVec.ofNat 64 (loadSize m block)
  let m :=
    if blockSize ≥ size + 24 + heapAlign then
      let remainder := block + heapHeaderSize + size.toNat
      let m := storeHeader m remainder (blockSize - size - 24).toNat 1 (loadNext m block)
      writeU64 (writeU64 m block size.toNat) (block + 16) remainder
    else m
  writeU32 m (block + 8) 0

/-- `kmalloc`'s critical section, on a size rounded up; no result if the walk
does not end. -/
def kmallocAlignedMem (size : Word) (s : HeapMem) : Option (Nat × HeapMem) :=
  let fits := fun a => loadFree s.memory a && decide (size.toNat ≤ loadSize s.memory a)
  (findNode (loadNext s.memory) fits heapFuel s.heapHead).map fun found =>
    let picked := if found = 0 then growHeapMem size s else (found, s)
    if picked.1 = 0 then (0, picked.2)
    else
      (picked.1 + heapHeaderSize, { picked.2 with memory := carve size picked.1 picked.2.memory })

/-- `kmalloc`. -/
def kmallocMem (size : Word) (s : HeapMem) : Option (Nat × HeapMem) :=
  if size = 0 then some (0, s)
  else if size > (~~~0 : Word) - (heapAlign - 1) then some (0, s)
  else kmallocAlignedMem (alignUp size heapAlign) s

/-- The second loop of `kfree`, from `current` on. -/
def mergeChain : Nat → Nat → Buffer → Option Buffer
  | 0, _, _ => none
  | fuel + 1, current, m =>
    if current = 0 ∨ loadNext m current = 0 then some m
    else
      let next := loadNext m current
      if loadFree m current ∧ loadFree m next ∧
          current + heapHeaderSize + loadSize m current = next then
        let m := writeU64 m current (loadSize m current + (heapHeaderSize + loadSize m next))
        mergeChain fuel current (writeU64 m (current + 16) (loadNext m next))
      else mergeChain fuel next m

/-- `kfree`. -/
def kfreeMem (ptr : Nat) (s : HeapMem) : Option HeapMem :=
  if ptr = 0 then some s
  else
    (findNode (loadNext s.memory) (fun a => decide (a + heapHeaderSize = ptr)) heapFuel
      s.heapHead).bind fun block =>
      if block = 0 ∨ loadFree s.memory block then some s
      else
        (mergeChain heapFuel s.heapHead (writeU32 s.memory (block + 8) 1)).map fun m =>
          { s with memory := m }

/-! ## The chain as a list -/

/-- The header of `b`, linked to `next`. -/
structure HeaderAt (m : Buffer) (b : HeapBlock) (next : Nat) : Prop where
  size : loadSize m b.addr = b.size
  free : loadFree m b.addr = b.free
  next : loadNext m b.addr = next

/-- The blocks from address `a` on, up to the address `z`. -/
abbrev Chain (m : Buffer) (a : Nat) (blocks : List HeapBlock) (z : Nat) : Prop :=
  Segment HeapBlock.addr HeaderAt m a blocks z

structure HeapMem.Represents (s : HeapMem) (h : Heap) : Prop where
  chain : Chain s.memory s.heapHead h.blocks 0
  pmm : s.pmm = h.pmm

def InHeader (b : HeapBlock) (p : Nat) : Prop := b.addr ≤ p ∧ p < b.payload

theorem HeaderAt.congr {m m' : Buffer} {b : HeapBlock} {next : Nat} (at_m : HeaderAt m b next)
    (same : ∀ p, InHeader b p → m' p = m p) : HeaderAt m' b next := by
  have header (i : Nat) (hi : i < 24) : m' (b.addr + i) = m (b.addr + i) := by
    apply same
    unfold InHeader HeapBlock.payload heapHeaderSize
    omega
  constructor
  · rw [← at_m.size]
    exact Lib.readU64_congr fun i hi => header i (by omega)
  · rw [← at_m.free, loadFree, loadFree, Lib.readU32_congr fun i hi => ?_]
    rw [Nat.add_assoc]
    exact header _ (by omega)
  · rw [← at_m.next]
    exact Lib.readU64_congr fun i hi => by
      rw [Nat.add_assoc]
      exact header _ (by omega)

theorem chain_congr {m m' : Buffer} {a z : Nat} {blocks : List HeapBlock}
    (chain : Chain m a blocks z) (same : ∀ b ∈ blocks, ∀ p, InHeader b p → m' p = m p) :
    Chain m' a blocks z :=
  Lib.segment_congr (fun b hb _ at_m => at_m.congr (same b hb)) chain

/-- A memory holds one heap. -/
theorem HeapMem.Represents.unique {s : HeapMem} {h h' : Heap} (rep : s.Represents h)
    (rep' : s.Represents h') : h = h' := by
  have blocks : h.blocks = h'.blocks := by
    refine Lib.segment_unique (fun b c z w at_b at_c same => ?_) rep.chain rep'.chain
    obtain ⟨a, size, free⟩ := b
    obtain ⟨a', size', free'⟩ := c
    obtain rfl : a = a' := same
    have sizes := at_b.size.symm.trans at_c.size
    have frees := at_b.free.symm.trans at_c.free
    exact ⟨by simp only at sizes frees; rw [sizes, frees], at_b.next.symm.trans at_c.next⟩
  have pmm := rep.pmm.symm.trans rep'.pmm
  obtain ⟨xs, s, _, _⟩ := h
  obtain ⟨ys, t, _, _⟩ := h'
  simp only at blocks pmm
  subst blocks
  subst pmm
  rfl

theorem storeHeader_outside (m : Buffer) (block size free next p : Nat)
    (outside : p < block ∨ block + 24 ≤ p) : storeHeader m block size free next p = m p := by
  rw [storeHeader, Lib.writeU64_outside _ _ _ _ (by omega), Lib.writeU32_outside _ _ _ _ (by omega),
    Lib.writeU64_outside _ _ _ _ (by omega)]

theorem storeHeader_at (m : Buffer) (block size : Nat) {free next : Nat} (hsize : size < 2 ^ 64)
    (hfree : free = 1) (hnext : next < 2 ^ 64) :
    HeaderAt (storeHeader m block size free next) ⟨block, size, true⟩ next := by
  constructor
  · have kept : readU64 (storeHeader m block size free next) block =
        readU64 (writeU64 m block size) block := by
      apply Lib.readU64_congr
      intro i hi
      rw [storeHeader, Lib.writeU64_outside _ _ _ _ (by omega),
        Lib.writeU32_outside _ _ _ _ (by omega)]
    exact kept.trans (Lib.readU64_writeU64 _ _ _ hsize)
  · have kept : readU32 (storeHeader m block size free next) (block + 8) =
        readU32 (writeU32 (writeU64 m block size) (block + 8) free) (block + 8) := by
      apply Lib.readU32_congr
      intro i hi
      exact Lib.writeU64_outside _ _ _ _ (by omega)
    rw [loadFree, kept, Lib.readU32_writeU32 _ _ _ (by omega), hfree]
    rfl
  · exact Lib.readU64_writeU64 _ _ _ hnext

theorem loadNext_lt (m : Buffer) (a : Nat) : loadNext m a < 2 ^ 64 := Lib.readU64_lt _ _

/-- Headers of blocks that lie apart have no byte in common. -/
theorem HeapBlock.Apart.header {b c : HeapBlock} (apart : Apart b c) {p : Nat} (hb : InHeader b p) :
    ¬ InHeader c p := by
  unfold InHeader Apart HeapBlock.stop at *
  omega

/-! ## Cutting a block -/

/-- The comparison and the subtraction of `kmalloc` do not wrap on sizes of blocks. -/
theorem carve_words {size : Word} {blockSize : Nat} (small : blockSize < 2 ^ 32)
    (fits : size.toNat ≤ blockSize) :
    (BitVec.ofNat 64 blockSize ≥ size + 24 + heapAlign ↔
      size.toNat + heapHeaderSize + 16 ≤ blockSize) ∧
    (size.toNat + heapHeaderSize + 16 ≤ blockSize →
      (BitVec.ofNat 64 blockSize - size - 24).toNat = blockSize - size.toNat - heapHeaderSize) := by
  have sum : (size + 24 + heapAlign : Word).toNat = size.toNat + 40 := by
    have : (size + 24 + heapAlign : Word) = size + 40 := by
      unfold heapAlign
      bv_omega
    rw [this, BitVec.toNat_add]
    exact Nat.mod_eq_of_lt (by change size.toNat + 40 < 2 ^ 64; omega)
  have whole : (BitVec.ofNat 64 blockSize).toNat = blockSize :=
    Nat.mod_eq_of_lt (Nat.lt_trans small (by decide))
  unfold heapHeaderSize
  constructor
  · rw [ge_iff_le, BitVec.le_def, sum, whole]
  · intro room
    bv_omega

/-- `block->free = 0`. -/
theorem takeHeader_at {m : Buffer} {b : HeapBlock} {next : Nat} (header : HeaderAt m b next) :
    HeaderAt (writeU32 m (b.addr + 8) 0) { b with free := false } next := by
  obtain ⟨a, size, free⟩ := b
  constructor
  · refine Eq.trans ?_ header.size
    exact Lib.readU64_congr fun i hi => Lib.writeU32_outside m (a + 8) 0 (a + i) (by omega)
  · have value := Lib.readU32_writeU32 m (a + 8) 0 (by decide)
    simp [loadFree, value]
  · refine Eq.trans ?_ header.next
    exact Lib.readU64_congr fun i hi => Lib.writeU32_outside m (a + 8) 0 (a + 16 + i) (by omega)

/-- `block->size = size; block->next = next`. -/
theorem resizeHeader_at {m : Buffer} {b : HeapBlock} {next : Nat} (header : HeaderAt m b next)
    {size next' : Nat} (hsize : size < 2 ^ 64) (hnext : next' < 2 ^ 64) :
    HeaderAt (writeU64 (writeU64 m b.addr size) (b.addr + 16) next') { b with size := size }
      next' := by
  obtain ⟨a, oldSize, free⟩ := b
  refine ⟨?_, ?_, Lib.readU64_writeU64 _ _ _ hnext⟩
  · refine Eq.trans ?_ (Lib.readU64_writeU64 m a size hsize)
    exact Lib.readU64_congr fun i hi =>
      Lib.writeU64_outside (writeU64 m a size) (a + 16) next' (a + i) (by omega)
  · refine Eq.trans ?_ header.free
    have same : readU32 (writeU64 (writeU64 m a size) (a + 16) next') (a + 8) = readU32 m (a + 8) :=
      Lib.readU32_congr fun i hi => by
        rw [Lib.writeU64_outside _ _ _ _ (by omega), Lib.writeU64_outside _ _ _ _ (by omega)]
    simp only [loadFree, same]

theorem resizeHeader_outside (m : Buffer) (a size next p : Nat) (outside : p < a ∨ a + 24 ≤ p) :
    writeU64 (writeU64 m a size) (a + 16) next p = m p := by
  rw [Lib.writeU64_outside _ _ _ _ (by omega), Lib.writeU64_outside _ _ _ _ (by omega)]

/-- `kmalloc` leaves the taken block and the remainder where the block was. -/
theorem carve_chain {size : Word} {b : HeapBlock} {m : Buffer} {next : Nat}
    (header : HeaderAt m b next) (positive : 0 < b.addr) (small : b.stop ≤ 2 ^ 32)
    (fits : size.toNat ≤ b.size) :
    Chain (carve size b.addr m) b.addr (placeIn size.toNat b) next ∧
      ∀ p, p < b.addr ∨ b.stop ≤ p → carve size b.addr m p = m p := by
  have bound : b.size < 2 ^ 32 := by
    unfold HeapBlock.stop HeapBlock.payload heapHeaderSize at small
    omega
  have hnext : next < 2 ^ 64 := header.next ▸ loadNext_lt m b.addr
  obtain ⟨compare, difference⟩ := carve_words bound fits
  unfold HeapBlock.stop HeapBlock.payload at small ⊢
  unfold carve
  rw [header.size]
  by_cases room : size.toNat + heapHeaderSize + 16 ≤ b.size
  · simp only [compare.mpr room, if_true, difference room, header.next]
    let rest : HeapBlock := ⟨b.addr + heapHeaderSize + size.toNat,
      b.size - size.toNat - heapHeaderSize, true⟩
    let m₁ := storeHeader m rest.addr rest.size 1 next
    let m₂ := writeU64 (writeU64 m₁ b.addr size.toNat) (b.addr + 16) rest.addr
    have pieces : placeIn size.toNat b = [{ b with size := size.toNat, free := false }, rest] := by
      simp only [placeIn, takenBlock, remainderOf, room, if_true, rest]
    have behind : b.addr + 24 ≤ rest.addr ∧ rest.addr + 24 ≤ b.addr + 24 + b.size := by
      change b.addr + 24 ≤ b.addr + 24 + size.toNat ∧ b.addr + 24 + size.toNat + 24 ≤ _
      unfold heapHeaderSize at room
      omega
    -- the remainder is written behind the header, so the header is still the old one
    have first : HeaderAt m₁ b next := header.congr fun p inside =>
      storeHeader_outside _ _ _ _ _ _ (by
        unfold InHeader HeapBlock.payload heapHeaderSize at inside
        omega)
    have taken : HeaderAt (writeU32 m₂ (b.addr + 8) 0)
        { b with size := size.toNat, free := false } rest.addr :=
      takeHeader_at (resizeHeader_at first (by omega) (by omega))
    have remainder : HeaderAt (writeU32 m₂ (b.addr + 8) 0) rest next := by
      have stored : HeaderAt m₁ rest next :=
        storeHeader_at m rest.addr rest.size (by change b.size - size.toNat - heapHeaderSize < _; omega) rfl hnext
      refine stored.congr fun p inside => ?_
      unfold InHeader at inside
      rw [Lib.writeU32_outside _ _ _ _ (by omega)]
      exact resizeHeader_outside m₁ b.addr size.toNat rest.addr p (by omega)
    rw [pieces]
    refine ⟨⟨rfl, by omega, rest.addr, taken, rfl, by omega, next, remainder, rfl⟩, fun p outside => ?_⟩
    unfold heapHeaderSize at outside
    change writeU32 m₂ (b.addr + 8) 0 p = m p
    have kept : m₂ p = m₁ p :=
      resizeHeader_outside m₁ b.addr size.toNat rest.addr p (by omega)
    rw [Lib.writeU32_outside _ _ _ _ (by omega), kept]
    exact storeHeader_outside m rest.addr rest.size 1 next p (by omega)
  · have whole : ¬ BitVec.ofNat 64 b.size ≥ size + 24 + heapAlign := fun big => room (compare.mp big)
    have pieces : placeIn size.toNat b = [{ b with free := false }] := by
      simp only [placeIn, takenBlock, remainderOf, room, if_false]
    simp only [whole, if_false, pieces]
    refine ⟨⟨rfl, by omega, next, takeHeader_at header, rfl⟩, fun p outside => ?_⟩
    unfold heapHeaderSize at outside
    exact Lib.writeU32_outside _ _ _ _ (by omega)

/-! ## Merging -/

/-- The merge loop does on the chain what `mergeInto` does on the list, and
stores into headers only. -/
theorem mergeChain_spec {fuel : Nat} {cur : HeapBlock} {rest : List HeapBlock} {m : Buffer}
    (enough : rest.length < fuel) (chain : Chain m cur.addr (cur :: rest) 0)
    (apart : (cur :: rest).Pairwise Apart) (small : ∀ b ∈ cur :: rest, b.stop ≤ 2 ^ 32) :
    ∃ m', mergeChain fuel cur.addr m = some m' ∧ Chain m' cur.addr (mergeInto cur rest) 0 ∧
      ∀ p, (∀ b ∈ cur :: rest, ¬ InHeader b p) → m' p = m p := by
  induction fuel generalizing cur rest m with
  | zero => omega
  | succ fuel ih =>
    obtain ⟨_, nonzero, next, header, tail⟩ := chain
    rw [mergeChain]
    cases rest with
    | nil =>
      obtain rfl : next = 0 := tail
      rw [if_pos (Or.inr header.next)]
      exact ⟨m, rfl, ⟨rfl, nonzero, 0, header, rfl⟩, fun _ _ => rfl⟩
    | cons after rest =>
      obtain ⟨rfl, nonzero', next', header', tail'⟩ := tail
      have linked : ¬ (cur.addr = 0 ∨ loadNext m cur.addr = 0) := by
        rw [header.next]
        exact not_or.mpr ⟨nonzero, nonzero'⟩
      obtain ⟨first, others⟩ := List.pairwise_cons.mp apart
      obtain ⟨second, later⟩ := List.pairwise_cons.mp others
      rw [if_neg linked, mergeInto]
      have smallCur := small cur List.mem_cons_self
      have smallAfter := small after (List.mem_cons_of_mem _ List.mem_cons_self)
      have apartHeaders := first after List.mem_cons_self
      have place : cur.addr + heapHeaderSize + cur.size = cur.stop := rfl
      simp only [header.next, header.free, header.size, header'.free, header'.size, place]
      by_cases merge : cur.free = true ∧ after.free = true ∧ cur.stop = after.addr
      · -- the header of the next block goes out of use, with its bytes as they are
        rw [if_pos merge, if_pos merge]
        unfold HeapBlock.stop HeapBlock.payload heapHeaderSize at smallCur smallAfter merge
        let whole := cur.size + (heapHeaderSize + after.size)
        let merged : HeapBlock := { cur with size := whole }
        have bound : whole < 2 ^ 64 := by
          change cur.size + (24 + after.size) < 2 ^ 64
          omega
        have hnext : loadNext (writeU64 m cur.addr whole) after.addr = next' := by
          refine Eq.trans ?_ header'.next
          exact Lib.readU64_congr fun i hi => Lib.writeU64_outside _ _ _ _ (by omega)
        let m₁ := writeU64 (writeU64 m cur.addr whole) (cur.addr + 16) next'
        have headers (b : HeapBlock) (hb : b ∈ rest) (p : Nat) (inside : InHeader b p) :
            m₁ p = m p := by
          have outside := (first b (List.mem_cons_of_mem _ hb)).symm.header inside
          unfold InHeader HeapBlock.payload heapHeaderSize at outside
          exact resizeHeader_outside m cur.addr whole next' p (by omega)
        have relinked : Chain m₁ merged.addr (merged :: rest) 0 :=
          ⟨rfl, nonzero, next', resizeHeader_at header bound (header'.next ▸ loadNext_lt m after.addr),
            chain_congr tail' headers⟩
        have apart' : (merged :: rest).Pairwise Apart := by
          refine List.pairwise_cons.mpr ⟨fun d hd => ?_, later⟩
          exact ((apart_spanClosed d).join cur after merged (first d (List.mem_cons_of_mem _ hd)).symm
            (second d hd).symm merge.2.2 rfl (merged_stop cur after merge.2.2)).symm
        have small' : ∀ b ∈ merged :: rest, b.stop ≤ 2 ^ 32 := by
          refine List.forall_mem_cons.mpr ⟨?_, fun b hb =>
            small b (List.mem_cons_of_mem _ (List.mem_cons_of_mem _ hb))⟩
          rw [merged_stop cur after merge.2.2]
          exact small after (List.mem_cons_of_mem _ List.mem_cons_self)
        obtain ⟨m', result, chain', same⟩ := ih (by simp only [List.length_cons] at enough; omega)
          relinked apart' small'
        rw [hnext]
        refine ⟨m', result, chain', fun p outside => ?_⟩
        have outsideCur := outside cur List.mem_cons_self
        rw [same p (List.forall_mem_cons.mpr ⟨outsideCur, fun b hb =>
          outside b (List.mem_cons_of_mem _ (List.mem_cons_of_mem _ hb))⟩)]
        unfold InHeader HeapBlock.payload heapHeaderSize at outsideCur
        exact resizeHeader_outside m cur.addr whole next' p (by omega)
      · rw [if_neg merge, if_neg merge]
        obtain ⟨m', result, chain', same⟩ := ih (by simp only [List.length_cons] at enough; omega)
          ⟨rfl, nonzero', next', header', tail'⟩ others
          (fun b hb => small b (List.mem_cons_of_mem _ hb))
        refine ⟨m', result, ⟨rfl, nonzero, after.addr, ?_, chain'⟩, fun p outside =>
          same p fun b hb => outside b (List.mem_cons_of_mem _ hb)⟩
        exact header.congr fun p inside => same p fun b hb => (first b hb).header inside

/-! ## The code follows the list -/

/-- What the chain needs for the code to work on it. -/
structure Workable (blocks : List HeapBlock) : Prop where
  apart : blocks.Pairwise Apart
  positive : ∀ b ∈ blocks, 0 < b.addr
  small : ∀ b ∈ blocks, b.stop ≤ 2 ^ 32

theorem Workable.of_owned {pmm : Pmm} {blocks : List HeapBlock} (apart : blocks.Pairwise Apart)
    (owned : ∀ b ∈ blocks, Owned pmm b) : Workable blocks :=
  ⟨apart, fun b hb => (owned b hb).nonzero, fun b hb => (owned b hb).tracked⟩

/-- A change inside one block of the chain. -/
theorem chain_replace {m m' : Buffer} {a : Nat} {pre post cs : List HeapBlock} {b : HeapBlock}
    (chain : Chain m a (pre ++ b :: post) 0) (apart : (pre ++ b :: post).Pairwise Apart)
    (same : ∀ p, p < b.addr ∨ b.stop ≤ p → m' p = m p)
    (replaced : ∀ next, HeaderAt m b next → Chain m' b.addr cs next) :
    Chain m' a (pre ++ (cs ++ post)) 0 := by
  obtain ⟨y, before, rfl, _, next, header, after⟩ := Lib.segment_append.mp chain
  obtain ⟨_, rest, across⟩ := List.pairwise_append.mp apart
  obtain ⟨behind, _⟩ := List.pairwise_cons.mp rest
  have outside {c : HeapBlock} (apart : Apart b c) (p : Nat) (inside : InHeader c p) :
      m' p = m p := by
    apply same
    unfold InHeader Apart HeapBlock.stop at *
    omega
  refine Lib.segment_append.mpr ⟨b.addr, chain_congr before fun c hc => ?_,
    Lib.segment_append.mpr ⟨next, replaced next header, chain_congr after fun c hc => ?_⟩⟩
  · exact outside (across c hc b List.mem_cons_self).symm
  · exact outside (behind c hc)

theorem growHeapMem_none {size : Word} {s : HeapMem} (grown : (growHeap size s.pmm).1 = none) :
    growHeapMem size s = (0, { s with pmm := (growHeap size s.pmm).2 }) := by
  simp only [growHeapMem, grown]

theorem growHeapMem_some {size : Word} {s : HeapMem} {block : HeapBlock}
    (grown : (growHeap size s.pmm).1 = some block) :
    growHeapMem size s = (block.addr,
      { memory := storeHeader s.memory block.addr block.size 1 s.heapHead
        heapHead := block.addr
        pmm := (growHeap size s.pmm).2 }) := by
  simp only [growHeapMem, grown]

/-- The chain with the block `grow_heap` puts in front. -/
theorem grown_chain {s : HeapMem} {block : HeapBlock} {blocks : List HeapBlock}
    (chain : Chain s.memory s.heapHead blocks 0) (workable : Workable (block :: blocks))
    (free : block.free = true) :
    Chain (storeHeader s.memory block.addr block.size 1 s.heapHead) block.addr (block :: blocks)
      0 := by
  have small := workable.small block List.mem_cons_self
  have positive := workable.positive block List.mem_cons_self
  obtain ⟨behind, _⟩ := List.pairwise_cons.mp workable.apart
  have head : s.heapHead < 2 ^ 64 := by
    cases blocks with
    | nil =>
      have empty : s.heapHead = 0 := chain
      omega
    | cons b rest =>
      obtain ⟨at_b, _⟩ := chain
      have := workable.small b (List.mem_cons_of_mem _ List.mem_cons_self)
      unfold HeapBlock.stop HeapBlock.payload at this
      omega
  have header := storeHeader_at s.memory block.addr block.size
    (by unfold HeapBlock.stop at small; omega) rfl head
  rw [← free] at header
  refine ⟨rfl, by omega, s.heapHead, header, chain_congr chain fun c hc p inside => ?_⟩
  have outside := (behind c hc).symm.header inside
  unfold InHeader HeapBlock.payload heapHeaderSize at outside
  exact storeHeader_outside _ _ _ _ _ _ (by omega)

theorem kmallocAlignedMem_sim {s : HeapMem} {h : Heap} (rep : s.Represents h)
    (few : h.blocks.length < heapFuel) (size : Word) :
    let answer := kmallocAligned size h.blocks h.pmm
    ∃ s', kmallocAlignedMem size s = some ((answer.1.map HeapBlock.payload).getD 0, s') ∧
      Chain s'.memory s'.heapHead answer.2.1 0 ∧ s'.pmm = answer.2.2 := by
  have tests (b : HeapBlock) (_ : b ∈ h.blocks) (z : Nat) (header : HeaderAt s.memory b z) :
      (loadFree s.memory b.addr && decide (size.toNat ≤ loadSize s.memory b.addr)) =
        decide (Fits size.toNat b) := by
    rw [header.free, header.size, Bool.eq_iff_iff, Bool.and_eq_true, decide_eq_true_eq,
      decide_eq_true_eq]
    rfl
  have found := Lib.findNode_spec (fun b z header => header.next)
    (fun a => loadFree s.memory a && decide (size.toNat ≤ loadSize s.memory a)) tests rep.chain few
  have workable := Workable.of_owned h.apart h.owned
  simp only [kmallocAlignedMem, found, Option.map_some, kmallocAligned]
  cases taken : takeFirstFit size.toNat h.blocks with
  | some answer =>
    obtain ⟨pre, b, post, split, before, fits, htaken, hrest⟩ :=
      takeFirstFit_some (taken : _ = some (answer.1, answer.2))
    have first : h.blocks.find? (fun b => decide (Fits size.toNat b)) = some b := by
      rw [List.find?_eq_some_iff_append]
      exact ⟨by simpa using fits, pre, post, split, fun c hc => by simpa using before c hc⟩
    have member : b ∈ h.blocks := split ▸ List.mem_append_right pre List.mem_cons_self
    have positive := workable.positive b member
    have small := workable.small b member
    have nonzero : ¬ b.addr = 0 := by omega
    simp only [first, Option.elim_some, nonzero, if_false, htaken, hrest]
    have outside (p : Nat) (hp : p < b.addr ∨ b.stop ≤ p) :
        carve size b.addr s.memory p = s.memory p := by
      obtain ⟨_, _, _, _, next, header, _⟩ := Lib.segment_append.mp (split ▸ rep.chain)
      exact (carve_chain header positive small fits.2).2 p hp
    exact ⟨_, rfl, chain_replace (split ▸ rep.chain) (split ▸ h.apart) outside
      fun next header => (carve_chain header positive small fits.2).1, rep.pmm⟩
  | none =>
    have absent : h.blocks.find? (fun b => decide (Fits size.toNat b)) = none := by
      rw [List.find?_eq_none]
      exact fun c hc => by simpa using takeFirstFit_none taken c hc
    simp only [absent, Option.elim_none, if_true]
    cases grown : (growHeap size h.pmm).1 with
    | none =>
      have none' : (growHeap size s.pmm).1 = none := rep.pmm ▸ grown
      simp only [growHeapMem_none none', if_true]
      exact ⟨_, rfl, rep.chain, by rw [rep.pmm]⟩
    | some block =>
      obtain ⟨free, room, _⟩ := growHeap_some grown
      obtain ⟨apart, owned⟩ := h.grown grown
      have workable := Workable.of_owned apart owned
      have positive := workable.positive block List.mem_cons_self
      have small := workable.small block List.mem_cons_self
      have nonzero : ¬ block.addr = 0 := by omega
      have some' : (growHeap size s.pmm).1 = some block := rep.pmm ▸ grown
      have chain := grown_chain rep.chain workable free
      simp only [growHeapMem_some some', nonzero, if_false]
      have outside (p : Nat) (hp : p < block.addr ∨ block.stop ≤ p) :
          carve size block.addr (storeHeader s.memory block.addr block.size 1 s.heapHead) p =
            storeHeader s.memory block.addr block.size 1 s.heapHead p := by
        obtain ⟨_, _, next, header, _⟩ := chain
        exact (carve_chain header positive small room).2 p hp
      have front : Chain _ block.addr ([] ++ block :: h.blocks) 0 := chain
      exact ⟨_, rfl, chain_replace front apart outside
        fun next header => (carve_chain header positive small room).1, by rw [rep.pmm]⟩

/-- `kmalloc` on memory does what `kmalloc` does on the list. -/
theorem kmallocMem_sim {s : HeapMem} {h : Heap} (rep : s.Represents h)
    (few : h.blocks.length < heapFuel) (size : Word) :
    ∃ s', kmallocMem size s = some ((kmalloc size h).1.getD 0, s') ∧
      s'.Represents (kmalloc size h).2 := by
  unfold kmallocMem kmalloc
  by_cases zero : size = 0
  · rw [if_pos zero, if_pos zero]
    exact ⟨s, rfl, rep⟩
  rw [if_neg zero, if_neg zero]
  by_cases tooBig : size > (~~~0 : Word) - (heapAlign - 1)
  · rw [if_pos tooBig, if_pos tooBig]
    exact ⟨s, rfl, rep⟩
  rw [if_neg tooBig, if_neg tooBig]
  obtain ⟨s', result, chain, pmm⟩ := kmallocAlignedMem_sim rep few (alignUp size heapAlign)
  exact ⟨s', result, chain, pmm⟩

/-! ## `kfree` -/

theorem markFree_eq (ptr : Nat) (blocks : List HeapBlock) :
    (blocks.find? (fun b => decide (b.payload = ptr)) = none ∧ markFree ptr blocks = none) ∨
      ∃ pre b post, blocks = pre ++ b :: post ∧
        blocks.find? (fun b => decide (b.payload = ptr)) = some b ∧
        markFree ptr blocks =
          if b.free then none else some (pre ++ { b with free := true } :: post) := by
  induction blocks with
  | nil => exact Or.inl ⟨rfl, rfl⟩
  | cons b rest ih =>
    by_cases here : b.payload = ptr
    · exact Or.inr ⟨[], b, rest, rfl, by simp [here], by rw [markFree, if_pos here]; rfl⟩
    · rw [List.find?_cons, decide_eq_false here, markFree, if_neg here]
      rcases ih with ⟨absent, unmarked⟩ | ⟨pre, c, post, split, found, marked⟩
      · exact Or.inl ⟨absent, by rw [unmarked]; rfl⟩
      · refine Or.inr ⟨b :: pre, c, post, by rw [split]; rfl, found, ?_⟩
        rw [marked]
        cases c.free <;> rfl

theorem kfree_blocks (ptr : Nat) (h : Heap) :
    (kfree ptr h).blocks =
        (if ptr = 0 then h.blocks
        else match markFree ptr h.blocks with
          | none => h.blocks
          | some marked => mergeAdjacent marked) ∧
      (kfree ptr h).pmm = h.pmm := by
  unfold kfree
  by_cases zero : ptr = 0
  · rw [if_pos zero, if_pos zero]
    exact ⟨rfl, rfl⟩
  · rw [if_neg zero, if_neg zero]
    split
    · next unmarked =>
      rw [unmarked]
      exact ⟨rfl, rfl⟩
    · next marked found =>
      refine ⟨?_, rfl⟩
      change mergeAdjacent marked = _
      rw [found]

/-- `block->free = 1`. -/
theorem freeHeader_at {m : Buffer} {b : HeapBlock} {next : Nat} (header : HeaderAt m b next) :
    HeaderAt (writeU32 m (b.addr + 8) 1) { b with free := true } next := by
  obtain ⟨a, size, free⟩ := b
  constructor
  · refine Eq.trans ?_ header.size
    exact Lib.readU64_congr fun i hi => Lib.writeU32_outside m (a + 8) 1 (a + i) (by omega)
  · have value := Lib.readU32_writeU32 m (a + 8) 1 (by decide)
    simp [loadFree, value]
  · refine Eq.trans ?_ header.next
    exact Lib.readU64_congr fun i hi => Lib.writeU32_outside m (a + 8) 1 (a + 16 + i) (by omega)

/-- `kfree` on memory does what `kfree` does on the list. -/
theorem kfreeMem_sim {s : HeapMem} {h : Heap} (rep : s.Represents h)
    (few : h.blocks.length < heapFuel) (ptr : Nat) :
    ∃ s', kfreeMem ptr s = some s' ∧ s'.Represents (kfree ptr h) := by
  obtain ⟨blocks, pmm⟩ := kfree_blocks ptr h
  unfold kfreeMem
  by_cases zero : ptr = 0
  · rw [if_pos zero] at blocks ⊢
    exact ⟨s, rfl, blocks ▸ rep.chain, rep.pmm.trans pmm.symm⟩
  rw [if_neg zero] at blocks ⊢
  have found := Lib.findNode_spec (fun b z header => header.next)
    (fun a => decide (a + heapHeaderSize = ptr)) (fun b _ _ _ => rfl) rep.chain few
  change _ = some ((h.blocks.find? fun b => decide (b.payload = ptr)).elim 0 HeapBlock.addr) at found
  have workable := Workable.of_owned h.apart h.owned
  rw [found, Option.bind_some]
  rcases markFree_eq ptr h.blocks with ⟨absent, unmarked⟩ | ⟨pre, b, post, split, here, marked⟩
  · rw [unmarked] at blocks
    rw [absent, Option.elim_none, if_pos (Or.inl rfl)]
    exact ⟨s, rfl, blocks ▸ rep.chain, rep.pmm.trans pmm.symm⟩
  · have positive := workable.positive b (split ▸ List.mem_append_right pre List.mem_cons_self)
    obtain ⟨_, _, _, _, next, header, _⟩ := Lib.segment_append.mp (split ▸ rep.chain)
    rw [marked] at blocks
    rw [here, Option.elim_some, header.free]
    cases freed : b.free with
    | true =>
      rw [freed, if_pos rfl] at blocks
      rw [if_pos (Or.inr rfl)]
      exact ⟨s, rfl, blocks ▸ rep.chain, rep.pmm.trans pmm.symm⟩
    | false =>
      rw [freed, if_neg Bool.false_ne_true] at blocks marked
      rw [if_neg (not_or.mpr ⟨by omega, Bool.false_ne_true⟩)]
      have outside (p : Nat) (hp : p < b.addr ∨ b.stop ≤ p) :
          writeU32 s.memory (b.addr + 8) 1 p = s.memory p := by
        unfold HeapBlock.stop HeapBlock.payload heapHeaderSize at hp
        exact Lib.writeU32_outside _ _ _ _ (by omega)
      have chain : Chain (writeU32 s.memory (b.addr + 8) 1) s.heapHead
          (pre ++ ([{ b with free := true }] ++ post)) 0 :=
        chain_replace (split ▸ rep.chain) (split ▸ h.apart) outside
          fun next header => ⟨rfl, by omega, next, freeHeader_at header, rfl⟩
      rw [List.singleton_append] at chain
      have apart := markFree_apart marked h.apart
      have owned := markFree_all (owned_spanClosed h.pmm) marked h.owned
      have length : (pre ++ { b with free := true } :: post).length = h.blocks.length := by
        rw [split, List.length_append, List.length_append, List.length_cons, List.length_cons]
      -- the list is not empty, and the loop starts at its first block
      obtain ⟨first, rest, same⟩ := List.exists_cons_of_ne_nil
        (by simp : pre ++ { b with free := true } :: post ≠ [])
      rw [same] at chain apart owned length blocks
      have head : s.heapHead = first.addr := chain.1
      rw [head] at chain
      rw [List.length_cons] at length
      have enough : rest.length < heapFuel := by omega
      obtain ⟨m', merged, chain', _⟩ := mergeChain_spec enough chain apart
        fun c hc => (owned c hc).tracked
      rw [head, merged]
      refine ⟨_, rfl, ?_, rep.pmm.trans pmm.symm⟩
      rw [blocks]
      exact chain'

end MiniKernel.Memory
