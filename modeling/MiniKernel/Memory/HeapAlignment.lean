import MiniKernel.Memory.HeapRuns

/-!
# The alignment of the heap's pointers

Source: kernel/mm/heap.c:5-98. `HEAP_ALIGN` rounds the size of a request. The address
it answers lies 24 bytes behind a header, and a region of the heap begins at a frame.
-/
namespace MiniKernel.Memory
open Paging (Word)

/-- The first free block of the chain that fits, if `kmalloc` takes one of the chain. -/
def firstFit (size : Word) (h : Heap) : Option HeapBlock :=
  h.blocks.find? fun b => decide (Fits (alignUp size heapAlign).toNat b)

/-- `kmalloc` cannot answer, or the block it takes from the chain has its header 8 bytes
off a multiple of `HEAP_ALIGN`. -/
def TakesAligned (size : Word) (h : Heap) : Prop :=
  CanAllocate size h → ∃ b, firstFit size h = some b ∧ b.addr % 16 = 8

theorem kmalloc_taken {size : Word} {h : Heap} {b : HeapBlock} (nonzero : size ≠ 0)
    (bound : ¬ size > (~~~0 : Word) - (heapAlign - 1)) (found : firstFit size h = some b) :
    (kmalloc size h).1 = some b.payload := by
  unfold kmalloc
  rw [if_neg nonzero, if_neg bound]
  simp only [kmallocAligned]
  cases taken : takeFirstFit (alignUp size heapAlign).toNat h.blocks with
  | some answer =>
    obtain ⟨pre, c, post, split, before, fits, htaken, _⟩ :=
      takeFirstFit_some (taken : _ = some (answer.1, answer.2))
    have first : firstFit size h = some c := by
      rw [firstFit, List.find?_eq_some_iff_append]
      exact ⟨by simpa using fits, pre, post, split, fun d hd => by simpa using before d hd⟩
    obtain rfl : c = b := Option.some.inj (first.symm.trans found)
    simp only [Option.map_some, htaken]
    rfl
  | none =>
    have fits := List.find?_some found
    have member := List.mem_of_find?_eq_some found
    exact absurd (of_decide_eq_true fits) (takeFirstFit_none taken b member)

/-- What a growing heap answers is 8 bytes off. -/
theorem kmalloc_grown {size : Word} {h : Heap} {p : Nat} (zero : isUsed h.pmm 0 = true)
    (none_ : firstFit size h = none) (answered : (kmalloc size h).1 = some p) : p % 16 = 8 := by
  unfold kmalloc at answered
  split at answered
  · cases answered
  split at answered
  · cases answered
  obtain ⟨taken, htaken, rfl⟩ := Option.map_eq_some_iff.mp answered
  rcases kmallocAligned_step (alignUp size heapAlign) zero with
    ⟨failed, _⟩ | ⟨pre, b, post, some_b, free, fits, _, origin⟩
  · rw [failed] at htaken
    cases htaken
  rw [some_b] at htaken
  rcases origin with ⟨split, _⟩ | ⟨_, _, _, frame, _, _, _, addr, _⟩
  · have member : b ∈ h.blocks := split ▸ List.mem_append_right pre List.mem_cons_self
    have unfit := List.find?_eq_none.mp none_ b member
    exact absurd (decide_eq_true (⟨free, fits⟩ : Fits _ b)) unfit
  · rw [← Option.some.inj htaken]
    unfold takenBlock HeapBlock.payload heapHeaderSize
    simp only [addr]
    unfold pmmFrameSize
    omega

theorem kmalloc_aligned_iff (size : Word) {h : Heap} (zero : isUsed h.pmm 0 = true) :
    (∀ p, (kmalloc size h).1 = some p → p % 16 = 0) ↔ TakesAligned size h := by
  constructor
  · intro aligned able
    obtain ⟨p, answered⟩ := Option.isSome_iff_exists.mp ((kmalloc_isSome_iff size h).mpr able)
    have multiple := aligned p answered
    cases found : firstFit size h with
    | none =>
      have := kmalloc_grown zero found answered
      omega
    | some b =>
      rw [kmalloc_taken able.1 able.2.1 found] at answered
      refine ⟨b, rfl, ?_⟩
      rw [← Option.some.inj answered] at multiple
      unfold HeapBlock.payload heapHeaderSize at multiple
      omega
  · intro takes p answered
    have able := (kmalloc_isSome_iff size h).mp (by rw [answered]; rfl)
    obtain ⟨b, found, addr⟩ := takes able
    rw [kmalloc_taken able.1 able.2.1 found] at answered
    rw [← Option.some.inj answered]
    unfold HeapBlock.payload heapHeaderSize
    omega

/-! ## Runs -/

/-- What `kmalloc` answers is a multiple of `HEAP_ALIGN`; 0 is no pointer. -/
def AnswersAligned (s : HeapState) (size : Word) : Prop :=
  ∀ p mem, kmallocMem size s.mem = some (p, mem) → p % 16 = 0

theorem answersAligned_iff {boot : Pmm} {s : HeapState} (zero : isUsed boot 0 = true)
    (inv : HeapInvariant boot s) (size : Word) :
    AnswersAligned s size ↔ ∀ h, s.mem.Represents h → TakesAligned size h := by
  obtain ⟨h, rep, _, few⟩ := inv.heap zero
  obtain ⟨mem, result, _⟩ := kmallocMem_sim rep few size
  have used : isUsed h.pmm 0 = true := rep.pmm ▸ (inv.frames.marked 0).mpr (Or.inl zero)
  have step := kmalloc_aligned_iff size used
  constructor
  · intro aligned k repK
    rw [← rep.unique repK]
    refine step.mp fun p answered => ?_
    have multiple := aligned _ mem result
    rwa [answered, Option.getD_some] at multiple
  · intro takes p mem' called
    have same := (Prod.mk.inj (Option.some.inj (result.symm.trans called))).1
    rw [← same]
    cases answered : (kmalloc size h).1 with
    | none => rfl
    | some q => exact step.mpr (takes h rep) q answered

/-- After every run of the heap, whoever else uses frames: a request is answered with 0
or a multiple of 16 exactly if it takes a block of the chain with such a header. -/
theorem heap_aligned_iff (map : List E820Entry) (kernelEnd : Nat) (before : List FrameCall)
    (f : FrameState)
    (meetsBefore : Lib.Machine.Meets frameCall FreesOwn ⟨pmmInit map kernelEnd, ∅⟩ before)
    (booted : Lib.Machine.run frameCall ⟨pmmInit map kernelEnd, ∅⟩ before = some f)
    (memory : Lib.Buffer) (calls : List HeapCall) (s : HeapState)
    (meets : Lib.Machine.Meets heapCall HeapScope (heapStart memory f) calls)
    (reached : Lib.Machine.run heapCall (heapStart memory f) calls = some s) (size : Word) :
    AnswersAligned s size ↔ ∀ h, s.mem.Represents h → TakesAligned size h := by
  have zero := pmmInit_zero map kernelEnd
  have inv : HeapInvariant (pmmInit map kernelEnd) s := Lib.Machine.run_invariant
    (fun _ _ _ inv scope stepped => heapCall_invariant zero inv scope stepped)
    (heapStart_booted meetsBefore booted memory) meets reached
  exact answersAligned_iff zero inv size

/-- The second allocation of 32 bytes is aligned. -/
theorem heap_aligned_second : ∃ s,
    Lib.Machine.run heapCall (heapStart (fun _ => 0) ⟨twoFrames, ∅⟩) [.kmalloc 32] = some s ∧
      AnswersAligned s 32 := by
  obtain ⟨s, called, rep⟩ :=
    heapCall_kmalloc (heapStart_represents (fun _ => 0) twoFrames ∅) (by decide) 32
  have reached := Lib.Machine.run_cons.mpr ⟨s, called, Lib.Machine.run_nil s⟩
  refine ⟨s, reached, (heap_aligned_iff [⟨0x100000, 0x2000, true⟩] 0x20000 [] ⟨twoFrames, ∅⟩
    trivial rfl (fun _ => 0) [.kmalloc 32] s ⟨trivial, fun _ _ => trivial⟩ reached 32).mpr ?_⟩
  intro h rep' _
  rw [← rep.unique rep']
  exact ⟨⟨0x100038, 4016, true⟩, by decide +kernel, by decide⟩

/-- The first one is answered with 0x100018. -/
theorem heap_not_aligned : ¬ ∀ (map : List E820Entry) (kernelEnd : Nat) (before : List FrameCall)
    (f : FrameState),
    Lib.Machine.Meets frameCall FreesOwn ⟨pmmInit map kernelEnd, ∅⟩ before →
    Lib.Machine.run frameCall ⟨pmmInit map kernelEnd, ∅⟩ before = some f →
    ∀ (memory : Lib.Buffer) (calls : List HeapCall) (s : HeapState),
      Lib.Machine.Meets heapCall HeapScope (heapStart memory f) calls →
      Lib.Machine.run heapCall (heapStart memory f) calls = some s →
      ∀ size, AnswersAligned s size := by
  intro all
  have claim := all [⟨0x100000, 0x2000, true⟩] 0x20000 [] ⟨twoFrames, ∅⟩ trivial rfl (fun _ => 0)
    [] _ trivial rfl 32
  obtain ⟨mem, result, _⟩ :=
    kmallocMem_sim (heapStart_represents (fun _ => 0) twoFrames ∅) (by decide) 32
  have answer : (kmalloc 32 (heapInit twoFrames)).1 = some 0x100018 := by decide +kernel
  have multiple := claim _ _ result
  rw [answer] at multiple
  exact absurd multiple (by decide)

end MiniKernel.Memory
