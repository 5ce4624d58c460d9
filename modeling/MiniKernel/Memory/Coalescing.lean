import MiniKernel.Memory.HeapRuns

/-!
# Which free blocks `kfree` joins

Source: kernel/mm/heap.c:100-137. The merging loop compares each block with the one
behind it in the chain. Blocks of one region stand in the chain by address, but
`grow_heap` puts a new region in front, whatever its address is.
-/
namespace MiniKernel.Memory
open HeapBlock (Apart)

/-- No free block ends where another one's header begins. -/
def Coalesced (blocks : List HeapBlock) : Prop :=
  ∀ b ∈ blocks, ∀ c ∈ blocks, b.free = true → c.free = true → b.stop ≠ c.addr

/-- Free blocks that touch stand one behind the other in the chain. -/
def LinkedFree (blocks : List HeapBlock) : Prop :=
  ∀ b ∈ blocks, ∀ c ∈ blocks, b.free = true → c.free = true → b.stop = c.addr → [b, c] <:+: blocks

section Lists
variable {a b c : HeapBlock} {l : List HeapBlock}

/-- Blocks that overlap are one. -/
theorem eq_of_overlap (apart : l.Pairwise Apart) (hb : b ∈ l) (hc : c ∈ l)
    (left : b.addr < c.stop) (right : c.addr < b.stop) : b = c := by
  by_contra ne
  have away := List.Pairwise.forall apart hb hc ne
  unfold Apart at away
  omega

theorem eq_of_addr (apart : l.Pairwise Apart) (hb : b ∈ l) (hc : c ∈ l) (same : b.addr = c.addr) :
    b = c := by
  have left := b.addr_lt_stop
  have right := c.addr_lt_stop
  exact eq_of_overlap apart hb hc (by omega) (by omega)

theorem eq_of_stop (apart : l.Pairwise Apart) (hb : b ∈ l) (hc : c ∈ l) (same : b.stop = c.stop) :
    b = c := by
  have left := b.addr_lt_stop
  have right := c.addr_lt_stop
  exact eq_of_overlap apart hb hc (by omega) (by omega)

theorem head_notMem (apart : (a :: l).Pairwise Apart) : a ∉ l := by
  intro inside
  have away := (List.pairwise_cons.mp apart).1 a inside
  have := a.addr_lt_stop
  unfold Apart at away
  omega

theorem pair_infix_cons : [b, c] <:+: a :: l ↔ (b = a ∧ [c] <+: l) ∨ [b, c] <:+: l := by
  rw [List.infix_cons_iff, List.cons_prefix_cons]

theorem coalesced_cons : Coalesced (a :: l) ↔
    (∀ c ∈ l, a.free = true → c.free = true → a.stop ≠ c.addr) ∧
      (∀ b ∈ l, b.free = true → a.free = true → b.stop ≠ a.addr) ∧ Coalesced l := by
  constructor
  · intro whole
    exact ⟨fun c hc => whole a List.mem_cons_self c (List.mem_cons_of_mem a hc),
      fun b hb => whole b (List.mem_cons_of_mem a hb) a List.mem_cons_self,
      fun b hb c hc => whole b (List.mem_cons_of_mem a hb) c (List.mem_cons_of_mem a hc)⟩
  · intro ⟨first, last, rest⟩ b hb c hc
    rcases List.mem_cons.mp hb with rfl | laterB
    · rcases List.mem_cons.mp hc with rfl | laterC
      · exact fun _ _ => Nat.ne_of_gt c.addr_lt_stop
      · exact first c laterC
    · rcases List.mem_cons.mp hc with rfl | laterC
      · exact last b laterB
      · exact rest b laterB c laterC

theorem linkedFree_cons (apart : (a :: l).Pairwise Apart) : LinkedFree (a :: l) ↔
    (∀ c ∈ l, a.free = true → c.free = true → a.stop = c.addr → [c] <+: l) ∧
      (∀ b ∈ l, b.free = true → a.free = true → b.stop ≠ a.addr) ∧ LinkedFree l := by
  have fresh := head_notMem apart
  constructor
  · intro whole
    refine ⟨fun c hc freeA freeC touch => ?_, fun b hb freeB freeA touch => ?_,
      fun b hb c hc freeB freeC touch => ?_⟩
    · have linked := whole a List.mem_cons_self c (List.mem_cons_of_mem a hc) freeA freeC touch
      rcases pair_infix_cons.mp linked with ⟨_, next⟩ | inside
      · exact next
      · exact absurd (inside.subset List.mem_cons_self) fresh
    · have linked := whole b (List.mem_cons_of_mem a hb) a List.mem_cons_self freeB freeA touch
      rcases pair_infix_cons.mp linked with ⟨same, _⟩ | inside
      · exact fresh (same ▸ hb)
      · exact fresh (inside.subset (List.mem_cons_of_mem b List.mem_cons_self))
    · have linked := whole b (List.mem_cons_of_mem a hb) c (List.mem_cons_of_mem a hc) freeB freeC
        touch
      rcases pair_infix_cons.mp linked with ⟨same, _⟩ | inside
      · exact absurd (same ▸ hb) fresh
      · exact inside
  · intro ⟨first, last, rest⟩ b hb c hc freeB freeC touch
    rw [pair_infix_cons]
    rcases List.mem_cons.mp hb with rfl | laterB
    · rcases List.mem_cons.mp hc with rfl | laterC
      · exact absurd touch (Nat.ne_of_gt c.addr_lt_stop)
      · exact Or.inl ⟨rfl, first c laterC freeB freeC touch⟩
    · rcases List.mem_cons.mp hc with rfl | laterC
      · exact absurd touch (last b laterB freeB freeC)
      · exact Or.inr (rest b laterB c laterC freeB freeC touch)

end Lists

/-! ## Where the merged blocks begin and end -/

section Merged
variable {b c cur : HeapBlock} {rest : List HeapBlock}

/-- A merged free block begins where a free block began, and ends where one ended. -/
theorem mergeInto_ends (hb : b ∈ mergeInto cur rest) (free : b.free = true) :
    (∃ c ∈ cur :: rest, c.free = true ∧ c.addr = b.addr) ∧
      ∃ c ∈ cur :: rest, c.free = true ∧ c.stop = b.stop := by
  induction rest generalizing cur with
  | nil =>
    rw [List.mem_singleton.mp hb] at free ⊢
    exact ⟨⟨cur, List.mem_cons_self, free, rfl⟩, cur, List.mem_cons_self, free, rfl⟩
  | cons next rest ih =>
    rw [mergeInto] at hb
    split at hb
    · next merge =>
      obtain ⟨⟨c, hc, freeC, addr⟩, d, hd, freeD, stop⟩ := ih hb
      constructor
      · rcases List.mem_cons.mp hc with rfl | later
        · exact ⟨cur, List.mem_cons_self, merge.1, addr⟩
        · exact ⟨c, List.mem_cons_of_mem _ (List.mem_cons_of_mem _ later), freeC, addr⟩
      · rcases List.mem_cons.mp hd with rfl | later
        · rw [merged_stop cur next merge.2.2] at stop
          exact ⟨next, List.mem_cons_of_mem _ List.mem_cons_self, merge.2.1, stop⟩
        · exact ⟨d, List.mem_cons_of_mem _ (List.mem_cons_of_mem _ later), freeD, stop⟩
    · rcases List.mem_cons.mp hb with rfl | later
      · exact ⟨⟨b, List.mem_cons_self, free, rfl⟩, b, List.mem_cons_self, free, rfl⟩
      · obtain ⟨⟨c, hc, addr⟩, d, hd, stop⟩ := ih later
        exact ⟨⟨c, List.mem_cons_of_mem _ hc, addr⟩, d, List.mem_cons_of_mem _ hd, stop⟩

/-- Where a free block begins a merged one begins, unless a free block ends there. -/
theorem mergeInto_starts {x : Nat} (starts : ∃ c ∈ cur :: rest, c.free = true ∧ c.addr = x) :
    (∃ b ∈ mergeInto cur rest, b.free = true ∧ b.addr = x) ∨
      ∃ p ∈ cur :: rest, p.free = true ∧ p.stop = x := by
  induction rest generalizing cur with
  | nil => exact Or.inl starts
  | cons next rest ih =>
    obtain ⟨c, hc, free, at_x⟩ := starts
    rw [mergeInto]
    split
    · next merge =>
      have back := merged_stop cur next merge.2.2
      have found : c = next ∨
          ∃ d ∈ { cur with size := cur.size + (heapHeaderSize + next.size) } :: rest,
            d.free = true ∧ d.addr = x := by
        rcases List.mem_cons.mp hc with rfl | later
        · exact Or.inr ⟨_, List.mem_cons_self, free, at_x⟩
        · exact (List.mem_cons.mp later).imp_right fun after =>
            ⟨c, List.mem_cons_of_mem _ after, free, at_x⟩
      rcases found with rfl | starts
      · exact Or.inr ⟨cur, List.mem_cons_self, merge.1, merge.2.2.trans at_x⟩
      · refine (ih starts).imp_right ?_
        rintro ⟨p, hp, freeP, stop⟩
        rcases List.mem_cons.mp hp with rfl | after
        · exact ⟨next, List.mem_cons_of_mem _ List.mem_cons_self, merge.2.1, back.symm.trans stop⟩
        · exact ⟨p, List.mem_cons_of_mem _ (List.mem_cons_of_mem _ after), freeP, stop⟩
    · rcases List.mem_cons.mp hc with rfl | later
      · exact Or.inl ⟨c, List.mem_cons_self, free, at_x⟩
      · rcases ih ⟨c, later, free, at_x⟩ with ⟨b, hb, start⟩ | ⟨p, hp, stop⟩
        · exact Or.inl ⟨b, List.mem_cons_of_mem _ hb, start⟩
        · exact Or.inr ⟨p, List.mem_cons_of_mem _ hp, stop⟩

/-- Where a free block ends a merged one ends, unless a later free block begins there. -/
theorem mergeInto_stops {x : Nat} (stops : ∃ c ∈ cur :: rest, c.free = true ∧ c.stop = x) :
    (∃ b ∈ mergeInto cur rest, b.free = true ∧ b.stop = x) ∨
      ∃ n ∈ rest, n.free = true ∧ n.addr = x := by
  induction rest generalizing cur with
  | nil => exact Or.inl stops
  | cons next rest ih =>
    obtain ⟨c, hc, free, at_x⟩ := stops
    rw [mergeInto]
    split
    · next merge =>
      have back := merged_stop cur next merge.2.2
      rcases List.mem_cons.mp hc with rfl | later
      · exact Or.inr ⟨next, List.mem_cons_self, merge.2.1, merge.2.2.symm.trans at_x⟩
      have joined : ∃ d ∈ { cur with size := cur.size + (heapHeaderSize + next.size) } :: rest,
          d.free = true ∧ d.stop = x := by
        rcases List.mem_cons.mp later with rfl | after
        · exact ⟨_, List.mem_cons_self, merge.1, back.trans at_x⟩
        · exact ⟨c, List.mem_cons_of_mem _ after, free, at_x⟩
      refine (ih joined).imp_right ?_
      rintro ⟨n, hn, start⟩
      exact ⟨n, List.mem_cons_of_mem _ hn, start⟩
    · rcases List.mem_cons.mp hc with rfl | later
      · exact Or.inl ⟨c, List.mem_cons_self, free, at_x⟩
      · rcases ih ⟨c, later, free, at_x⟩ with ⟨b, hb, stop⟩ | ⟨n, hn, start⟩
        · exact Or.inl ⟨b, List.mem_cons_of_mem _ hb, stop⟩
        · exact Or.inr ⟨n, List.mem_cons_of_mem _ hn, start⟩

theorem linkedFree_singleton (b : HeapBlock) : LinkedFree [b] := by
  intro c hc d hd _ _ touch
  rw [List.mem_singleton.mp hc, List.mem_singleton.mp hd] at touch
  exact absurd touch (Nat.ne_of_gt b.addr_lt_stop)

theorem coalesced_singleton (b : HeapBlock) : Coalesced [b] := by
  intro c hc d hd _ _
  rw [List.mem_singleton.mp hc, List.mem_singleton.mp hd]
  exact Nat.ne_of_gt b.addr_lt_stop

/-- The chain behind two blocks that were joined stays apart. -/
theorem joined_apart {next : HeapBlock} (apart : (cur :: next :: rest).Pairwise Apart)
    (touch : cur.stop = next.addr) :
    ({ cur with size := cur.size + (heapHeaderSize + next.size) } :: rest).Pairwise Apart := by
  obtain ⟨first, others⟩ := List.pairwise_cons.mp apart
  obtain ⟨second, later⟩ := List.pairwise_cons.mp others
  refine List.pairwise_cons.mpr ⟨fun d hd => ?_, later⟩
  apply HeapBlock.Apart.symm
  exact (apart_spanClosed d).join cur next _ (first d (List.mem_cons_of_mem next hd)).symm
    (second d hd).symm touch rfl (merged_stop cur next touch)

/-- Joining two blocks that touch does not change which others must be linked. -/
theorem linkedFree_join {next : HeapBlock} (apart : (cur :: next :: rest).Pairwise Apart)
    (merge : cur.free = true ∧ next.free = true ∧ cur.stop = next.addr) :
    LinkedFree ({ cur with size := cur.size + (heapHeaderSize + next.size) } :: rest) ↔
      LinkedFree (cur :: next :: rest) := by
  obtain ⟨freeCur, freeNext, touch⟩ := merge
  have tail := (List.pairwise_cons.mp apart).2
  have memCur : cur ∈ cur :: next :: rest := List.mem_cons_self
  have memNext : next ∈ cur :: next :: rest := List.mem_cons_of_mem _ List.mem_cons_self
  have longCur := cur.addr_lt_stop
  have longNext := next.addr_lt_stop
  rw [linkedFree_cons (joined_apart apart touch), linkedFree_cons apart, linkedFree_cons tail,
    merged_stop cur next touch]
  constructor
  · intro ⟨first, last, rest'⟩
    refine ⟨fun c hc _ freeC touchC => ?_, fun b hb freeB _ touchB => ?_, ?_, ?_, rest'⟩
    · rw [eq_of_addr apart (List.mem_cons_of_mem _ hc) memNext (touchC.symm.trans touch)]
      exact ⟨rest, rfl⟩
    · rcases List.mem_cons.mp hb with rfl | later
      · omega
      · exact last b later freeB freeCur touchB
    · exact fun c hc _ freeC => first c hc freeCur freeC
    · intro b hb _ _ touchB
      have same := eq_of_stop apart (List.mem_cons_of_mem _ (List.mem_cons_of_mem _ hb)) memCur
        (touchB.trans touch.symm)
      exact head_notMem apart (same ▸ List.mem_cons_of_mem _ hb)
  · intro ⟨_, last, first, _, rest'⟩
    exact ⟨fun c hc _ freeC => first c hc freeNext freeC,
      fun b hb freeB _ => last b (List.mem_cons_of_mem _ hb) freeB freeCur, rest'⟩

/-- The merging loop leaves no free blocks that touch exactly if all that do are
neighbours in the chain. -/
theorem mergeInto_coalesced_iff (apart : (cur :: rest).Pairwise Apart) :
    Coalesced (mergeInto cur rest) ↔ LinkedFree (cur :: rest) := by
  induction rest generalizing cur with
  | nil => exact iff_of_true (coalesced_singleton cur) (linkedFree_singleton cur)
  | cons next rest ih =>
    rw [mergeInto]
    split
    · next merge => rw [ih (joined_apart apart merge.2.2), linkedFree_join apart merge]
    · next separate =>
      have tail := (List.pairwise_cons.mp apart).2
      have memCur : cur ∈ cur :: next :: rest := List.mem_cons_self
      rw [coalesced_cons, linkedFree_cons apart, ih tail]
      constructor
      · rintro ⟨first, last, rest'⟩
        refine ⟨fun c hc freeCur freeC touch => ?_, fun b hb freeB freeCur touch => ?_, rest'⟩
        · rcases mergeInto_starts ⟨c, hc, freeC, rfl⟩ with ⟨m, hm, freeM, start⟩ | ⟨p, hp, _, stop⟩
          · exact absurd (touch.trans start.symm) (first m hm freeCur freeM)
          · have same := eq_of_stop apart (List.mem_cons_of_mem _ hp) memCur (stop.trans touch.symm)
            exact absurd (same ▸ hp) (head_notMem apart)
        · rcases mergeInto_stops ⟨b, hb, freeB, rfl⟩ with ⟨m, hm, freeM, stop⟩ | ⟨n, hn, _, start⟩
          · exact last m hm freeM freeCur (stop.trans touch)
          · have later := List.mem_cons_of_mem next hn
            have same := eq_of_addr apart (List.mem_cons_of_mem _ later) memCur (start.trans touch)
            exact head_notMem apart (same ▸ later)
      · rintro ⟨first, last, rest'⟩
        refine ⟨fun m hm freeCur freeM touch => ?_, fun m hm freeM freeCur touch => ?_, rest'⟩
        · obtain ⟨⟨c, hc, freeC, start⟩, _⟩ := mergeInto_ends hm freeM
          have linked := first c hc freeCur freeC (touch.trans start.symm)
          have same : c = next := by simpa using linked
          exact separate ⟨freeCur, same ▸ freeC, by rw [touch, ← start, same]⟩
        · obtain ⟨_, b, hb, freeB, stop⟩ := mergeInto_ends hm freeM
          exact last b hb freeB freeCur (stop.trans touch)

theorem mergeAdjacent_coalesced_iff {blocks : List HeapBlock} (apart : blocks.Pairwise Apart) :
    Coalesced (mergeAdjacent blocks) ↔ LinkedFree blocks := by
  cases blocks with
  | nil => exact iff_of_true nofun nofun
  | cons b rest => exact mergeInto_coalesced_iff apart

end Merged

/-- Where no free blocks touch, a free stretch of memory lies in one block. -/
theorem Coalesced.stretch {blocks : List HeapBlock} (coalesced : Coalesced blocks)
    (apart : blocks.Pairwise Apart) (free : ∀ b ∈ blocks, b.free = true) {lo hi : Nat}
    (some_ : lo < hi) (covered : ∀ a, lo ≤ a → a < hi → Covers blocks a) :
    ∃ b ∈ blocks, b.addr ≤ lo ∧ hi ≤ b.stop := by
  obtain ⟨b, hb, low, high⟩ := covered lo (le_refl lo) some_
  refine ⟨b, hb, low, ?_⟩
  by_contra short
  obtain ⟨c, hc, lowC, highC⟩ := covered b.stop (by omega) (by omega)
  have ne : b ≠ c := fun same => by
    rw [same] at highC
    omega
  have away := List.Pairwise.forall apart hb hc ne
  have := b.addr_lt_stop
  unfold Apart at away
  exact coalesced b hb c hc (free b hb) (free c hc) (by omega)

/-! ## One call of `kfree` -/

/-- `kfree` finds a block in use. -/
def Releases (ptr : Nat) (h : Heap) : Prop := ∃ b ∈ h.blocks, b.payload = ptr ∧ b.free = false

/-- The chain with the block at `ptr` marked. -/
def released (ptr : Nat) (blocks : List HeapBlock) : List HeapBlock :=
  blocks.map fun b => if b.payload = ptr then { b with free := true } else b

/-- No free blocks touch, and when everything is free each stretch is one block. -/
structure FullyMerged (blocks : List HeapBlock) : Prop where
  coalesced : Coalesced blocks
  stretch : (∀ b ∈ blocks, b.free = true) → ∀ lo hi, lo < hi →
    (∀ a, lo ≤ a → a < hi → Covers blocks a) → ∃ b ∈ blocks, b.addr ≤ lo ∧ hi ≤ b.stop

theorem markFree_released {ptr : Nat} {blocks : List HeapBlock} (apart : blocks.Pairwise Apart)
    (inUse : ∃ b ∈ blocks, b.payload = ptr ∧ b.free = false) :
    markFree ptr blocks = some (released ptr blocks) := by
  induction blocks with
  | nil => exact absurd inUse (by simp)
  | cons b rest ih =>
    obtain ⟨c, hc, at_ptr, used⟩ := inUse
    by_cases here : b.payload = ptr
    · have same : b = c := eq_of_addr apart List.mem_cons_self hc (by
        unfold HeapBlock.payload at here at_ptr
        omega)
      have others (d : HeapBlock) (hd : d ∈ rest) :
          (if d.payload = ptr then { d with free := true } else d) = d := by
        refine if_neg fun at_d => ?_
        have twice : b = d := eq_of_addr apart List.mem_cons_self (List.mem_cons_of_mem b hd) (by
          unfold HeapBlock.payload at here at_d
          omega)
        exact head_notMem apart (twice ▸ hd)
      rw [markFree, if_pos here, same, used, if_neg Bool.false_ne_true, released, List.map_cons,
        List.map_congr_left others, List.map_id', if_pos at_ptr]
    · have later : c ∈ rest := by
        rcases List.mem_cons.mp hc with rfl | later
        · exact absurd at_ptr here
        · exact later
      rw [markFree, if_neg here, ih (List.pairwise_cons.mp apart).2 ⟨c, later, at_ptr, used⟩,
        Option.map_some]
      simp only [released, List.map_cons, if_neg here]

/-- A release leaves the heap merged exactly if the free blocks that touch by then,
the released one among them, are neighbours in the chain. -/
theorem kfree_merged_iff {h : Heap} {ptr : Nat} (releases : Releases ptr h) :
    FullyMerged (kfree ptr h).blocks ↔ LinkedFree (released ptr h.blocks) := by
  have marked := markFree_released h.apart releases
  have apart := markFree_apart marked h.apart
  have nonzero : ptr ≠ 0 := by
    obtain ⟨b, _, at_ptr, _⟩ := releases
    unfold HeapBlock.payload heapHeaderSize at at_ptr
    omega
  rw [(kfree_blocks ptr h).1, if_neg nonzero, marked]
  simp only
  rw [← mergeAdjacent_coalesced_iff apart]
  constructor
  · exact FullyMerged.coalesced
  · intro coalesced
    exact ⟨coalesced, fun free _ _ => coalesced.stretch (mergeAdjacent_apart _ apart) free⟩

/-! ## Runs -/

/-- What a `kfree` that releases a block should leave. -/
def LeavesMerged (s : HeapState) : HeapCall → Prop
  | .kfree ptr => ∀ h, s.mem.Represents h → Releases ptr h →
    ∀ t, heapCall s (.kfree ptr) = some t → ∀ h', t.mem.Represents h' → FullyMerged h'.blocks
  | _ => True

/-- The chain stands in an order that `kfree` can merge. -/
def InChainOrder (s : HeapState) : HeapCall → Prop
  | .kfree ptr => ∀ h, s.mem.Represents h → Releases ptr h → LinkedFree (released ptr h.blocks)
  | _ => True

theorem leavesMerged_iff {boot : Pmm} {s : HeapState} (zero : isUsed boot 0 = true)
    (inv : HeapInvariant boot s) (call : HeapCall) :
    LeavesMerged s call ↔ InChainOrder s call := by
  cases call with
  | kfree ptr =>
    obtain ⟨h, rep, _, few⟩ := inv.heap zero
    obtain ⟨t, called, rep'⟩ := heapCall_kfree rep few ptr
    constructor
    · intro merged k repK releases
      rw [rep.unique repK] at rep'
      exact (kfree_merged_iff releases).mp (merged k repK releases _ called _ rep')
    · intro linked k repK releases u stepped h' repT
      rw [called] at stepped
      rw [← Option.some.inj stepped] at repT
      rw [rep.unique repK] at rep'
      rw [← rep'.unique repT]
      exact (kfree_merged_iff releases).mpr (linked k repK releases)
  | kmalloc size => exact Iff.rfl
  | store memory => exact Iff.rfl
  | frames call => exact Iff.rfl

/-- In every run of the heap, whoever else uses frames: the releases leave no free
blocks that touch exactly if the chain is in order at each of them. -/
theorem heap_merged_iff (map : List E820Entry) (kernelEnd : Nat) (before : List FrameCall)
    (f : FrameState)
    (meetsBefore : Lib.Machine.Meets frameCall FreesOwn ⟨pmmInit map kernelEnd, ∅⟩ before)
    (booted : Lib.Machine.run frameCall ⟨pmmInit map kernelEnd, ∅⟩ before = some f)
    (memory : Lib.Buffer) (calls : List HeapCall)
    (meets : Lib.Machine.Meets heapCall HeapScope (heapStart memory f) calls) :
    Lib.Machine.Meets heapCall LeavesMerged (heapStart memory f) calls ↔
      Lib.Machine.Meets heapCall InChainOrder (heapStart memory f) calls := by
  have zero := pmmInit_zero map kernelEnd
  exact Lib.Machine.meets_iff
    (fun _ _ _ inv scope stepped => heapCall_invariant zero inv scope stepped)
    (fun _ call inv => leavesMerged_iff zero inv call)
    (heapStart_booted meetsBefore booted memory) meets

/-- The remainder of a split block is joined again. -/
theorem heap_merged_split :
    Lib.Machine.Meets heapCall LeavesMerged (heapStart (fun _ => 0) ⟨twoFrames, ∅⟩)
      [.kmalloc 4000, .kfree 0x100018] := by
  refine (heap_merged_iff [⟨0x100000, 0x2000, true⟩] 0x20000 [] _ trivial rfl (fun _ => 0)
    [.kmalloc 4000, .kfree 0x100018] ⟨trivial, fun _ _ => ⟨trivial, fun _ _ => trivial⟩⟩).mpr ?_
  refine ⟨trivial, fun s called => ⟨fun h rep _ => ?_, fun _ _ => trivial⟩⟩
  have start := heapStart_represents (fun _ => 0) twoFrames ∅
  obtain ⟨t, called', rep'⟩ := heapCall_kmalloc start (by decide) 4000
  obtain rfl : t = s := Option.some.inj (called'.symm.trans called)
  rw [← rep'.unique rep]
  have blocks : (kmalloc 4000 (heapInit twoFrames)).2.blocks =
      [⟨0x100000, 4000, false⟩, ⟨0x100FB8, 48, true⟩] := by decide +kernel
  rw [blocks]
  unfold LinkedFree
  decide +kernel

/-- Two allocations of 4000 bytes take two frames, the second one above the first and in
front of it in the chain. When the second is freed, the rest of the first touches it. -/
theorem heap_not_merged : ¬ ∀ (map : List E820Entry) (kernelEnd : Nat) (before : List FrameCall)
    (f : FrameState),
    Lib.Machine.Meets frameCall FreesOwn ⟨pmmInit map kernelEnd, ∅⟩ before →
    Lib.Machine.run frameCall ⟨pmmInit map kernelEnd, ∅⟩ before = some f →
    ∀ (memory : Lib.Buffer) (calls : List HeapCall),
      Lib.Machine.Meets heapCall HeapScope (heapStart memory f) calls →
      Lib.Machine.Meets heapCall LeavesMerged (heapStart memory f) calls := by
  intro all
  have claim := all [⟨0x100000, 0x2000, true⟩] 0x20000 [] ⟨twoFrames, ∅⟩ trivial rfl (fun _ => 0)
    [.kmalloc 4000, .kmalloc 4000, .kfree 0x101018]
    ⟨trivial, fun _ _ => ⟨trivial, fun _ _ => ⟨trivial, fun _ _ => trivial⟩⟩⟩
  have start := heapStart_represents (fun _ => 0) twoFrames ∅
  obtain ⟨s, first, repS⟩ := heapCall_kmalloc start (by decide) 4000
  obtain ⟨t, second, repT⟩ := heapCall_kmalloc repS (by decide +kernel) 4000
  obtain ⟨u, freed, repU⟩ := heapCall_kfree repT (by decide +kernel) 0x101018
  have merged := (((claim.2 s first).2 t second).1) _ repT (by unfold Releases; decide +kernel) u
    freed _ repU
  have blocks : (kfree 0x101018 (kmalloc 4000 (kmalloc 4000 (heapInit twoFrames)).2).2).blocks =
      [⟨0x101000, 4072, true⟩, ⟨0x100000, 4000, false⟩, ⟨0x100FB8, 48, true⟩] := by decide +kernel
  have coalesced := merged.coalesced
  rw [blocks] at coalesced
  exact coalesced ⟨0x100FB8, 48, true⟩ (by decide) ⟨0x101000, 4072, true⟩ (by decide) rfl rfl rfl

end MiniKernel.Memory
