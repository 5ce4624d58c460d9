import Mathlib.Data.Finset.Card
import Mathlib.Order.Interval.Finset.Nat
import MiniKernel.Lib.Machine
import MiniKernel.Memory.Paging
import MiniKernel.Memory.Pmm

/-!
# Frames over whole runs

Source: kernel/mm/pmm.c:22-170. Beside the allocator's own state stands the set
of frames that were handed out and not given back. A frame's bit is set exactly
if the frame was reserved by `pmm_init` or is in that set.
-/
namespace MiniKernel.Memory
open Paging (Word)

/-! ## `pmm_init` -/

/-- An entry of the memory map; `usable` is `type == E820_TYPE_USABLE`. -/
structure E820Entry where
  base : Word
  length : Word
  usable : Bool

def pmmMaxMemory : Nat := 0x100000000

/-- `for (f = first; f < first + count; f++) set_free(f)`. -/
def setFreeRange (first : Nat) : Nat → Pmm → Pmm
  | 0, s => s
  | count + 1, s => setFree (first + count) (setFreeRange first count s)

/-- One entry of the memory map; the end of an entry wraps at 64 bits. -/
def pmmAddEntry (s : Pmm) (entry : E820Entry) : Pmm :=
  if ¬ entry.usable then s
  else if entry.base.toNat ≥ pmmMaxMemory then s
  else
    let stop := min (entry.base + entry.length).toNat pmmMaxMemory
    let first := frameOf (entry.base.toNat + pmmFrameSize - 1)
    setFreeRange first (frameOf stop - first) s

def reserveRange (start stop : Nat) (s : Pmm) : Pmm :=
  setUsedRange (frameOf start) (frameOf (stop + pmmFrameSize - 1) - frameOf start) s

/-- `pmm_init`; `kernelEnd` is the linker's `_kernel_end`. -/
def pmmInit (map : List E820Entry) (kernelEnd : Nat) : Pmm :=
  let s := map.foldl pmmAddEntry { bitmap := fun _ => true, freeFrames := 0, searchHint := 0 }
  let s := reserveRange 0x0 0x8200 s
  let s := reserveRange 0x80000 0xA0000 s
  let s := reserveRange 0x8200 kernelEnd s
  reserveRange 0xB8000 (0xB8000 + 4000) s

/-! ## The counter -/

/-- The frames whose bit is clear. -/
def clearFrames (s : Pmm) : Finset Nat :=
  (Finset.range pmmMaxFrames).filter fun f => isUsed s f = false

/-- `free_frames` is the number of clear bits. -/
def Counted (s : Pmm) : Prop := s.freeFrames = (clearFrames s).card

theorem mem_clearFrames {s : Pmm} {f : Nat} : f ∈ clearFrames s ↔ isUsed s f = false := by
  rw [clearFrames, Finset.mem_filter, Finset.mem_range, and_iff_right_iff_imp]
  intro free
  by_contra outside
  rw [isUsed, if_pos (Nat.not_lt.mp outside)] at free
  cases free

theorem isUsed_setFree (s : Pmm) (frame f : Nat) (tracked : frame < pmmMaxFrames) :
    isUsed (setFree frame s) f = (isUsed s f && decide (f ≠ frame)) := by
  rw [setFree, if_neg (Nat.not_le.mpr tracked)]
  by_cases same : f = frame
  · subst same
    split
    · simp [isUsed, tracked]
    · next free => simp [isUsed, free, tracked]
  · split <;> simp [isUsed, same]

theorem setFree_untracked {frame : Nat} (outside : pmmMaxFrames ≤ frame) (s : Pmm) :
    setFree frame s = s := if_pos outside

/-- Freeing a frame that is free changes nothing, the counter included. -/
theorem setFree_free {s : Pmm} {frame : Nat} (free : isUsed s frame = false) :
    setFree frame s = s := by
  unfold setFree
  split
  · rfl
  · next inside =>
    rw [isUsed, if_neg inside] at free
    rw [if_neg (by simp [free])]

theorem setUsed_used {s : Pmm} {frame : Nat} (used : isUsed s frame = true) :
    setUsed frame s = s := by
  unfold setUsed
  split
  · rfl
  · next inside =>
    rw [isUsed, if_neg inside] at used
    rw [if_pos used]

theorem setUsed_counted {s : Pmm} (frame : Nat) (counted : Counted s) :
    Counted (setUsed frame s) := by
  cases used : isUsed s frame with
  | true => rwa [setUsed_used used]
  | false =>
    have clear : clearFrames (setUsed frame s) = (clearFrames s).erase frame := by
      ext f
      rw [mem_clearFrames, isUsed_setUsed, Finset.mem_erase, mem_clearFrames]
      simp [and_comm]
    have inside : ¬ frame ≥ pmmMaxFrames := by
      intro outside
      rw [isUsed, if_pos outside] at used
      cases used
    have bit : ¬ s.bitmap frame = true := by
      rw [isUsed, if_neg inside] at used
      simp [used]
    have count : (setUsed frame s).freeFrames = s.freeFrames - 1 := by
      rw [setUsed, if_neg inside, if_neg bit]
    rw [Counted, count, clear, Finset.card_erase_of_mem (mem_clearFrames.mpr used), counted]

theorem setFree_counted {s : Pmm} (frame : Nat) (counted : Counted s) :
    Counted (setFree frame s) := by
  rcases Nat.lt_or_ge frame pmmMaxFrames with inside | outside
  swap
  · rwa [setFree_untracked outside]
  cases used : isUsed s frame with
  | false => rwa [setFree_free used]
  | true =>
    have clear : clearFrames (setFree frame s) = insert frame (clearFrames s) := by
      ext f
      rw [mem_clearFrames, isUsed_setFree _ _ _ inside, Finset.mem_insert, mem_clearFrames]
      by_cases same : f = frame
      · simp [same]
      · simp [same]
    have bit : s.bitmap frame = true := by
      rw [isUsed, if_neg (Nat.not_le.mpr inside)] at used
      exact used
    have count : (setFree frame s).freeFrames = s.freeFrames + 1 := by
      rw [setFree, if_neg (Nat.not_le.mpr inside), if_pos bit]
    have fresh : frame ∉ clearFrames s := by simp [mem_clearFrames, used]
    rw [Counted, count, clear, Finset.card_insert_of_notMem fresh, counted]

theorem setUsedRange_counted {s : Pmm} (start count : Nat) (counted : Counted s) :
    Counted (setUsedRange start count s) := by
  induction count with
  | zero => exact counted
  | succ count ih => exact setUsed_counted _ ih

theorem setFreeRange_counted {s : Pmm} (first count : Nat) (counted : Counted s) :
    Counted (setFreeRange first count s) := by
  induction count with
  | zero => exact counted
  | succ count ih => exact setFree_counted _ ih

theorem pmmAddEntry_counted {s : Pmm} (entry : E820Entry) (counted : Counted s) :
    Counted (pmmAddEntry s entry) := by
  unfold pmmAddEntry
  split
  · exact counted
  split
  · exact counted
  · exact setFreeRange_counted _ _ counted

theorem pmmInit_counted (map : List E820Entry) (kernelEnd : Nat) :
    Counted (pmmInit map kernelEnd) := by
  have start : Counted { bitmap := fun _ => true, freeFrames := 0, searchHint := 0 } := by
    have none : clearFrames { bitmap := fun _ => true, freeFrames := 0, searchHint := 0 } = ∅ := by
      ext f
      simp [mem_clearFrames, isUsed]
    rw [Counted, none, Finset.card_empty]
  have added (s : Pmm) (counted : Counted s) : Counted (map.foldl pmmAddEntry s) := by
    induction map generalizing s with
    | nil => exact counted
    | cons entry map ih => exact ih _ (pmmAddEntry_counted entry counted)
  have whole := added _ start
  unfold pmmInit reserveRange
  exact setUsedRange_counted _ _ (setUsedRange_counted _ _ (setUsedRange_counted _ _
    (setUsedRange_counted _ _ whole)))

theorem reserveRange_grows (start stop : Nat) (s : Pmm) : Grows s (reserveRange start stop s) := by
  intro f used
  rw [reserveRange, isUsed_setUsedRange, used]
  rfl

/-- Every frame that a reserved range touches is in use afterwards. -/
theorem reserveRange_used {start stop a : Nat} (s : Pmm) (low : start ≤ a) (high : a < stop) :
    isUsed (reserveRange start stop s) (frameOf a) = true := by
  rw [reserveRange, isUsed_setUsedRange]
  have inside : frameOf start ≤ frameOf a ∧ frameOf a <
      frameOf start + (frameOf (stop + pmmFrameSize - 1) - frameOf start) := by
    unfold frameOf pmmFrameSize
    omega
  simp [inside]

/-- The boot area, the stack's guard band, the kernel image and the screen. -/
theorem pmmInit_reserves (map : List E820Entry) (kernelEnd a : Nat)
    (inside : a < 0x8200 ∨ (0x80000 ≤ a ∧ a < 0xA0000) ∨ (0x8200 ≤ a ∧ a < kernelEnd) ∨
      (0xB8000 ≤ a ∧ a < 0xB8000 + 4000)) :
    isUsed (pmmInit map kernelEnd) (frameOf a) = true := by
  unfold pmmInit
  rcases inside with boot | stack | image | screen
  · exact reserveRange_grows _ _ _ _ (reserveRange_grows _ _ _ _ (reserveRange_grows _ _ _ _
      (reserveRange_used _ (Nat.zero_le a) boot)))
  · exact reserveRange_grows _ _ _ _ (reserveRange_grows _ _ _ _
      (reserveRange_used _ stack.1 stack.2))
  · exact reserveRange_grows _ _ _ _ (reserveRange_used _ image.1 image.2)
  · exact reserveRange_used _ screen.1 screen.2

/-! ## The searches are complete -/

theorem pmmAllocFrameLoop_none {s : Pmm} {n i : Nat} (failed : pmmAllocFrameLoop s n i = (0, s))
    (zero : isUsed s 0 = true) :
    ∀ j, i ≤ j → j < i + n → isUsed s ((s.searchHint + j) % pmmMaxFrames) = true := by
  induction n generalizing i with
  | zero =>
    intro j low high
    omega
  | succ n ih =>
    rw [pmmAllocFrameLoop] at failed
    by_cases used : isUsed s ((s.searchHint + i) % pmmMaxFrames) = true
    · rw [if_pos used] at failed
      intro j low high
      rcases Nat.eq_or_lt_of_le low with same | later
      · exact same ▸ used
      · exact ih failed j later (by omega)
    · rw [if_neg used] at failed
      have addr : (s.searchHint + i) % pmmMaxFrames * pmmFrameSize = 0 := congrArg Prod.fst failed
      have frame : (s.searchHint + i) % pmmMaxFrames = 0 := by
        unfold pmmFrameSize at addr
        omega
      rw [frame] at used
      exact absurd zero used

/-- `pmm_alloc_frame` fails only when every frame is in use. -/
theorem pmmAllocFrame_zero_iff {s : Pmm} (zero : isUsed s 0 = true) :
    (pmmAllocFrame s).1 = 0 ↔ ∀ f, isUsed s f = true := by
  have cases_ := pmmAllocFrame_spec s
  constructor
  · intro none f
    rcases Nat.lt_or_ge f pmmMaxFrames with inside | outside
    swap
    · rw [isUsed, if_pos outside]
    have failed : pmmAllocFrame s = (0, s) := by
      rcases cases_ with failed | ⟨g, addr, allocated⟩
      · exact failed
      · have at0 : g = 0 := by
          rw [none] at addr
          unfold pmmFrameSize at addr
          omega
        have free := allocated.free g (Nat.le_refl g) (Nat.lt_succ_self g)
        rw [at0, zero] at free
        cases free
    -- the turn in which the search looks at `f`
    obtain ⟨turn, early, looked⟩ : ∃ turn < 0 + pmmMaxFrames,
        (s.searchHint + turn) % pmmMaxFrames = f := by
      refine ⟨(f + (pmmMaxFrames - s.searchHint % pmmMaxFrames)) % pmmMaxFrames, ?_, ?_⟩
      · unfold pmmMaxFrames
        omega
      · unfold pmmMaxFrames at *
        omega
    have used := pmmAllocFrameLoop_none failed zero turn (Nat.zero_le _) early
    rwa [looked] at used
  · intro full
    rcases cases_ with failed | ⟨g, _, allocated⟩
    · rw [failed]
    · have free := allocated.free g (Nat.le_refl g) (Nat.lt_succ_self g)
      rw [full g] at free
      cases free

/-- `runLen` frames before `f` are free, and the one before them, if any, is not. -/
structure LongestRun (s : Pmm) (f runLen : Nat) : Prop where
  within : runLen ≤ f
  free : ∀ g, f - runLen ≤ g → g < f → isUsed s g = false
  stopped : runLen < f → isUsed s (f - runLen - 1) = true

/-- A scan that fails has passed a used frame in every window that ends after `f`. -/
theorem pmmAllocContiguousLoop_none {s : Pmm} {count n f runStart runLen : Nat}
    (zero : isUsed s 0 = true) (longest : LongestRun s f runLen)
    (started : 0 < runLen → runStart + runLen = f) (short : runLen < count)
    (failed : (pmmAllocContiguousLoop s count n f runStart runLen).1 = 0) :
    ∀ w, f < w + count → w + count ≤ f + n → ∃ g, w ≤ g ∧ g < w + count ∧ isUsed s g = true := by
  induction n generalizing f runStart runLen with
  | zero =>
    intro w low high
    omega
  | succ n ih =>
    intro w low high
    rw [pmmAllocContiguousLoop] at failed
    by_cases used : isUsed s f = true
    · rw [if_pos used] at failed
      by_cases covers : w ≤ f
      · exact ⟨f, covers, low, used⟩
      · have reset : LongestRun s (f + 1) 0 := ⟨Nat.zero_le _, fun g _ _ => by omega, fun _ => used⟩
        exact ih reset (fun bad => by omega) (by omega) failed w (by omega) (by omega)
    rw [if_neg used] at failed
    have runStarts : (if runLen = 0 then f else runStart) = f - runLen := by
      split <;> omega
    have within := longest.within
    have clear (g : Nat) (low : f - runLen ≤ g) (high : g < f + 1) : isUsed s g = false := by
      rcases Nat.eq_or_lt_of_le (Nat.le_of_lt_succ high) with same | before
      · rw [same]
        exact Bool.not_eq_true _ ▸ used
      · exact longest.free g low before
    by_cases done : runLen + 1 = count
    · -- the run would be answered, and it does not start at frame 0
      simp only [done, if_true, runStarts] at failed
      have first : f - runLen = 0 := by
        unfold pmmFrameSize at failed
        omega
      rw [clear 0 (by omega) (by omega)] at zero
      cases zero
    · simp only [done, if_false] at failed
      by_cases here : w + count = f + 1
      · have room : runLen < f := by omega
        exact ⟨f - runLen - 1, by omega, by omega, longest.stopped room⟩
      · refine ih ⟨by omega, fun g low high => clear g (by omega) high, fun more => ?_⟩ (fun _ => ?_)
          (by omega) failed w (by omega) (by omega)
        · have same : f + 1 - (runLen + 1) - 1 = f - runLen - 1 := by omega
          rw [same]
          exact longest.stopped (by omega)
        · omega

/-- `pmm_alloc_contiguous` fails exactly when nothing is asked for, or no run
of frames is long enough. -/
theorem pmmAllocContiguous_zero_iff {s : Pmm} (zero : isUsed s 0 = true) (count : Nat) :
    (pmmAllocContiguous count s).1 = 0 ↔
      count = 0 ∨ ∀ w, ∃ f, w ≤ f ∧ f < w + count ∧ isUsed s f = true := by
  constructor
  · intro failed
    by_cases nothing : count = 0
    · exact Or.inl nothing
    refine Or.inr fun w => ?_
    rcases Nat.lt_or_ge pmmMaxFrames (w + count) with beyond | within
    · exact ⟨w + count - 1, by omega, by omega, by rw [isUsed, if_pos (by omega)]⟩
    · rw [pmmAllocContiguous, if_neg nothing] at failed
      have start : LongestRun s 0 0 := ⟨Nat.le_refl _, fun g _ _ => by omega, fun _ => by omega⟩
      exact pmmAllocContiguousLoop_none zero start (fun bad => by omega) (Nat.pos_of_ne_zero nothing)
        failed w (by omega) (by omega)
  · intro none
    rcases pmmAllocContiguous_spec s count with failed | ⟨w, _, positive, allocated⟩
    · rw [failed]
    · rcases none with nothing | everywhere
      · omega
      · obtain ⟨f, low, high, used⟩ := everywhere w
        rw [allocated.free f low high] at used
        cases used

/-! ## Runs -/

structure FrameState where
  pmm : Pmm
  /-- Frames that were handed out and not given back. -/
  held : Finset Nat

inductive FrameCall where
  | allocFrame
  | allocContiguous (count : Nat)
  | freeFrame (addr : Nat)

/-- The frames an answer stands for. -/
def framesOf (addr count : Nat) : Finset Nat :=
  if addr = 0 then ∅ else Finset.Ico (frameOf addr) (frameOf addr + count)

def frameCall (s : FrameState) : FrameCall → Option FrameState
  | .allocFrame =>
    let r := pmmAllocFrame s.pmm
    some { pmm := r.2, held := s.held ∪ framesOf r.1 1 }
  | .allocContiguous count =>
    let r := pmmAllocContiguous count s.pmm
    some { pmm := r.2, held := s.held ∪ framesOf r.1 count }
  | .freeFrame addr =>
    some { pmm := pmmFreeFrame addr s.pmm, held := s.held.erase (frameOf addr) }

/-- Callers free frames that they hold, that are free already, or that the
allocator does not track. -/
def FreesOwn (s : FrameState) : FrameCall → Prop
  | .freeFrame addr => frameOf addr ∈ s.held ∨ isUsed s.pmm (frameOf addr) = false ∨
      pmmMaxFrames ≤ frameOf addr
  | _ => True

/-- A set bit says reserved at boot or held, and `free_frames` counts the clear ones. -/
structure FrameInvariant (boot : Pmm) (s : FrameState) : Prop where
  counted : Counted s.pmm
  marked : ∀ f, isUsed s.pmm f = true ↔ isUsed boot f = true ∨ f ∈ s.held
  apart : ∀ f ∈ s.held, isUsed boot f = false

/-- All frames of an answer were free: neither reserved at boot nor held. -/
structure HandsOut (boot : Pmm) (s : FrameState) (addr count : Nat) : Prop where
  aligned : addr = frameOf addr * pmmFrameSize
  tracked : frameOf addr + count ≤ pmmMaxFrames
  free : ∀ f, frameOf addr ≤ f → f < frameOf addr + count →
    isUsed s.pmm f = false ∧ isUsed boot f = false ∧ f ∉ s.held

theorem FrameInvariant.below {boot : Pmm} {s : FrameState} (inv : FrameInvariant boot s) {f : Nat}
    (held : f ∈ s.held) : f < pmmMaxFrames := by
  by_contra outside
  have unreserved := inv.apart f held
  rw [isUsed, if_pos (Nat.not_lt.mp outside)] at unreserved
  cases unreserved

theorem FrameInvariant.handsOut {boot : Pmm} {s : FrameState} {t : Pmm}
    (inv : FrameInvariant boot s) {frame count : Nat} (positive : 0 < count)
    (allocated : Allocated s.pmm t frame count) :
    HandsOut boot s (frame * pmmFrameSize) count := by
  have start : frameOf (frame * pmmFrameSize) = frame := Nat.mul_div_cancel _ (by decide)
  refine ⟨by rw [start], by rw [start]; exact allocated.bounded positive, fun f low high => ?_⟩
  rw [start] at low high
  have free := allocated.free f low high
  have unmarked : ¬ (isUsed boot f = true ∨ f ∈ s.held) := by
    rw [← inv.marked, free]
    exact Bool.false_ne_true
  rw [not_or, Bool.not_eq_true] at unmarked
  exact ⟨free, unmarked⟩

theorem FrameInvariant.allocated {boot : Pmm} {s : FrameState} {t : Pmm}
    (inv : FrameInvariant boot s) (zero : isUsed boot 0 = true) {frame count : Nat}
    (positive : 0 < count) (counted : Counted t) (allocated : Allocated s.pmm t frame count) :
    FrameInvariant boot
      { pmm := t, held := s.held ∪ framesOf (frame * pmmFrameSize) count } := by
  have start : frameOf (frame * pmmFrameSize) = frame := Nat.mul_div_cancel _ (by decide)
  have nonzero : frame * pmmFrameSize ≠ 0 := by
    intro bad
    unfold pmmFrameSize at bad
    have free := allocated.free 0 (by omega) (by omega)
    rw [(inv.marked 0).mpr (Or.inl zero)] at free
    cases free
  rw [framesOf, if_neg nonzero, start]
  refine ⟨counted, fun f => ?_, fun f hf => ?_⟩
  · rw [allocated.taken, Bool.or_eq_true, decide_eq_true_eq, inv.marked, Finset.mem_union,
      Finset.mem_Ico, or_assoc]
  · rcases Finset.mem_union.mp hf with old | new
    · exact inv.apart f old
    · obtain ⟨low, high⟩ := Finset.mem_Ico.mp new
      have free := allocated.free f low high
      cases taken : isUsed boot f with
      | false => rfl
      | true =>
        rw [(inv.marked f).mpr (Or.inl taken)] at free
        cases free

theorem pmmAllocFrame_counted {s : Pmm} (counted : Counted s) : Counted (pmmAllocFrame s).2 := by
  have loop (n i : Nat) : Counted (pmmAllocFrameLoop s n i).2 := by
    induction n generalizing i with
    | zero => exact counted
    | succ n ih =>
      rw [pmmAllocFrameLoop]
      split
      · exact ih (i + 1)
      · exact setUsed_counted _ counted
  exact loop _ _

theorem pmmAllocContiguous_counted {s : Pmm} (count : Nat) (counted : Counted s) :
    Counted (pmmAllocContiguous count s).2 := by
  have loop (n f runStart runLen : Nat) :
      Counted (pmmAllocContiguousLoop s count n f runStart runLen).2 := by
    induction n generalizing f runStart runLen with
    | zero => exact counted
    | succ n ih =>
      rw [pmmAllocContiguousLoop]
      split
      · exact ih (f + 1) runStart 0
      · simp only
        split
        · exact setUsedRange_counted _ _ counted
        · exact ih (f + 1) _ (runLen + 1)
  unfold pmmAllocContiguous
  split
  · exact counted
  · exact loop _ _ _ _

theorem FrameInvariant.freed {boot : Pmm} {s : FrameState}
    (inv : FrameInvariant boot s) (addr : Nat) (own : FreesOwn s (.freeFrame addr)) :
    FrameInvariant boot
      { pmm := pmmFreeFrame addr s.pmm, held := s.held.erase (frameOf addr) } := by
  have counted : Counted (pmmFreeFrame addr s.pmm) := setFree_counted _ inv.counted
  have kept (unheld : frameOf addr ∉ s.held) (same : pmmFreeFrame addr s.pmm = s.pmm) :
      FrameInvariant boot
        { pmm := pmmFreeFrame addr s.pmm, held := s.held.erase (frameOf addr) } := by
    rw [same, Finset.erase_eq_of_notMem unheld]
    exact inv
  rcases own with held | free | outside
  · have unreserved := inv.apart _ held
    refine ⟨counted, fun f => ?_, fun f hf => inv.apart f (Finset.mem_of_mem_erase hf)⟩
    rw [pmmFreeFrame, isUsed_setFree _ _ _ (inv.below held), Finset.mem_erase, Bool.and_eq_true,
      inv.marked, decide_eq_true_eq]
    by_cases same : f = frameOf addr
    · simp [same, unreserved]
    · simp [same]
  · refine kept (fun held => ?_) (setFree_free free)
    rw [(inv.marked _).mpr (Or.inr held)] at free
    cases free
  · exact kept (fun held => absurd (inv.below held) (Nat.not_lt.mpr outside)) (setFree_untracked outside _)

theorem frameCall_invariant {boot : Pmm} (zero : isUsed boot 0 = true) {s t : FrameState}
    {call : FrameCall} (inv : FrameInvariant boot s) (own : FreesOwn s call)
    (stepped : frameCall s call = some t) : FrameInvariant boot t := by
  have unchanged : FrameInvariant boot { pmm := s.pmm, held := s.held ∪ ∅ } := by
    rw [Finset.union_empty]
    exact inv
  cases call with
  | allocFrame =>
    cases stepped
    have counted := pmmAllocFrame_counted inv.counted
    rcases pmmAllocFrame_spec s.pmm with failed | ⟨frame, addr, allocated⟩
    · rw [failed]
      exact unchanged
    · rw [addr]
      exact inv.allocated zero Nat.one_pos counted allocated
  | allocContiguous count =>
    cases stepped
    have counted := pmmAllocContiguous_counted count inv.counted
    rcases pmmAllocContiguous_spec s.pmm count with failed | ⟨frame, addr, positive, allocated⟩
    · rw [failed]
      exact unchanged
    · rw [addr]
      exact inv.allocated zero positive counted allocated
  | freeFrame addr =>
    cases stepped
    exact inv.freed addr own

theorem pmmInit_zero (map : List E820Entry) (kernelEnd : Nat) :
    isUsed (pmmInit map kernelEnd) 0 = true :=
  pmmInit_reserves map kernelEnd 0 (Or.inl (by decide))

theorem pmmInit_invariant (map : List E820Entry) (kernelEnd : Nat) :
    FrameInvariant (pmmInit map kernelEnd) ⟨pmmInit map kernelEnd, ∅⟩ :=
  ⟨pmmInit_counted map kernelEnd, by simp, by simp⟩

/-- After any run the counter is right, an answer is made of frames that nobody
has, and the allocator fails only when it has to. -/
theorem frames_handed_out_once (map : List E820Entry) (kernelEnd : Nat) (calls : List FrameCall)
    (s : FrameState)
    (meets : Lib.Machine.Meets frameCall FreesOwn ⟨pmmInit map kernelEnd, ∅⟩ calls)
    (reached : Lib.Machine.run frameCall ⟨pmmInit map kernelEnd, ∅⟩ calls = some s) :
    s.pmm.freeFrames = (clearFrames s.pmm).card ∧
      ((pmmAllocFrame s.pmm).1 = 0 ↔ ∀ f, isUsed s.pmm f = true) ∧
      ((pmmAllocFrame s.pmm).1 ≠ 0 →
        HandsOut (pmmInit map kernelEnd) s (pmmAllocFrame s.pmm).1 1) ∧
      ∀ count,
        ((pmmAllocContiguous count s.pmm).1 = 0 ↔
          count = 0 ∨ ∀ w, ∃ f, w ≤ f ∧ f < w + count ∧ isUsed s.pmm f = true) ∧
        ((pmmAllocContiguous count s.pmm).1 ≠ 0 →
          HandsOut (pmmInit map kernelEnd) s (pmmAllocContiguous count s.pmm).1 count) := by
  have zero := pmmInit_zero map kernelEnd
  have inv : FrameInvariant (pmmInit map kernelEnd) s := Lib.Machine.run_invariant
    (fun _ _ _ inv own stepped => frameCall_invariant zero inv own stepped)
    (pmmInit_invariant map kernelEnd) meets reached
  have zeroUsed : isUsed s.pmm 0 = true := (inv.marked 0).mpr (Or.inl zero)
  refine ⟨inv.counted, pmmAllocFrame_zero_iff zeroUsed, fun answered => ?_, fun count =>
    ⟨pmmAllocContiguous_zero_iff zeroUsed count, fun answered => ?_⟩⟩
  · rcases pmmAllocFrame_spec s.pmm with failed | ⟨frame, addr, allocated⟩
    · rw [failed] at answered
      exact absurd rfl answered
    · rw [addr]
      exact inv.handsOut Nat.one_pos allocated
  · rcases pmmAllocContiguous_spec s.pmm count with failed | ⟨frame, addr, positive, allocated⟩
    · rw [failed] at answered
      exact absurd rfl answered
    · rw [addr]
      exact inv.handsOut positive allocated

/-- One GiB of memory, and a second allocation. -/
theorem frames_handed_out_once_boot :
    ∃ s, Lib.Machine.run frameCall ⟨pmmInit [⟨0, 0x40000000, true⟩] 0x200000, ∅⟩ [.allocFrame] =
      some s ∧ ((pmmAllocContiguous 3 s.pmm).1 ≠ 0 →
        HandsOut (pmmInit [⟨0, 0x40000000, true⟩] 0x200000) s (pmmAllocContiguous 3 s.pmm).1 3) := by
  have meets (boot : Pmm) : Lib.Machine.Meets frameCall FreesOwn ⟨boot, ∅⟩ [.allocFrame] :=
    ⟨trivial, fun _ _ => trivial⟩
  have runs (boot : Pmm) : ∃ s, Lib.Machine.run frameCall ⟨boot, ∅⟩ [.allocFrame] = some s :=
    ⟨_, rfl⟩
  obtain ⟨s, reached⟩ := runs (pmmInit [⟨0, 0x40000000, true⟩] 0x200000)
  exact ⟨s, reached, ((frames_handed_out_once _ _ _ s (meets _) reached).2.2.2 3).2⟩

end MiniKernel.Memory
