import Mathlib.Tactic

/-!
# The frame allocator

Source: kernel/mm/pmm.c. The bitmap is a function on frame numbers; a frame at
or beyond `PMM_MAX_FRAMES` counts as used. Address 0 is the answer for "none".
-/
namespace MiniKernel.Memory

def pmmFrameSize : Nat := 4096
def pmmMaxFrames : Nat := 0x100000

structure Pmm where
  bitmap : Nat → Bool
  freeFrames : Nat
  searchHint : Nat

def frameOf (addr : Nat) : Nat := addr / pmmFrameSize

def setUsed (frame : Nat) (s : Pmm) : Pmm :=
  if frame ≥ pmmMaxFrames then s
  else if s.bitmap frame then s
  else { s with bitmap := Function.update s.bitmap frame true, freeFrames := s.freeFrames - 1 }

def setFree (frame : Nat) (s : Pmm) : Pmm :=
  if frame ≥ pmmMaxFrames then s
  else if s.bitmap frame then
    { s with bitmap := Function.update s.bitmap frame false, freeFrames := s.freeFrames + 1 }
  else s

/-- Frames outside the tracked range are unavailable. -/
def isUsed (s : Pmm) (frame : Nat) : Bool :=
  if frame ≥ pmmMaxFrames then true else s.bitmap frame

/-- The loop of `pmm_alloc_frame` from turn `i` on, with `n` turns left. -/
def pmmAllocFrameLoop (s : Pmm) : Nat → Nat → Nat × Pmm
  | 0, _ => (0, s)
  | n + 1, i =>
    let f := (s.searchHint + i) % pmmMaxFrames
    if isUsed s f then pmmAllocFrameLoop s n (i + 1)
    else (f * pmmFrameSize, { setUsed f s with searchHint := f + 1 })

def pmmAllocFrame (s : Pmm) : Nat × Pmm := pmmAllocFrameLoop s pmmMaxFrames 0

/-- `for (i = 0; i < count; i++) set_used(run_start + i)`. -/
def setUsedRange (start : Nat) : Nat → Pmm → Pmm
  | 0, s => s
  | count + 1, s => setUsed (start + count) (setUsedRange start count s)

/-- The loop of `pmm_alloc_contiguous` from frame `f` on, with `n` turns left. -/
def pmmAllocContiguousLoop (s : Pmm) (count : Nat) : Nat → Nat → Nat → Nat → Nat × Pmm
  | 0, _, _, _ => (0, s)
  | n + 1, f, runStart, runLen =>
    if isUsed s f then pmmAllocContiguousLoop s count n (f + 1) runStart 0
    else
      let runStart := if runLen = 0 then f else runStart
      if runLen + 1 = count then (runStart * pmmFrameSize, setUsedRange runStart count s)
      else pmmAllocContiguousLoop s count n (f + 1) runStart (runLen + 1)

def pmmAllocContiguous (count : Nat) (s : Pmm) : Nat × Pmm :=
  if count = 0 then (0, s) else pmmAllocContiguousLoop s count pmmMaxFrames 0 0 0

def pmmFreeFrame (addr : Nat) (s : Pmm) : Pmm := setFree (frameOf addr) s

/-! ## What the allocator hands out -/

theorem isUsed_setUsed (s : Pmm) (frame f : Nat) :
    isUsed (setUsed frame s) f = (isUsed s f || decide (f = frame)) := by
  unfold setUsed
  split
  · next outside =>
    by_cases same : f = frame
    · simp [isUsed, same, outside]
    · simp [same]
  · next inside =>
    split
    · next used =>
      by_cases same : f = frame
      · simp [isUsed, same, used]
      · simp [same]
    · by_cases same : f = frame
      · simp [isUsed, same, inside]
      · simp [isUsed, same]

theorem isUsed_setUsedRange (s : Pmm) (start count f : Nat) :
    isUsed (setUsedRange start count s) f =
      (isUsed s f || decide (start ≤ f ∧ f < start + count)) := by
  induction count with
  | zero =>
    simp [setUsedRange]
  | succ count ih =>
    rw [setUsedRange, isUsed_setUsed, ih, Bool.or_assoc]
    congr 1
    rw [← Bool.decide_or, decide_eq_decide]
    omega

/-- Frames that were used stay used. -/
def Grows (s t : Pmm) : Prop := ∀ f, isUsed s f = true → isUsed t f = true

theorem Grows.refl (s : Pmm) : Grows s s := fun _ used => used

theorem Grows.trans {s t u : Pmm} (first : Grows s t) (second : Grows t u) : Grows s u :=
  fun f used => second f (first f used)

/-- A frame number the allocator answers was free and is the only new one. -/
structure Allocated (s t : Pmm) (frame count : Nat) : Prop where
  free : ∀ f, frame ≤ f → f < frame + count → isUsed s f = false
  taken : ∀ f, isUsed t f = (isUsed s f || decide (frame ≤ f ∧ f < frame + count))

theorem Allocated.grows {s t : Pmm} {frame count : Nat} (h : Allocated s t frame count) :
    Grows s t := by
  intro f used
  rw [h.taken, used]
  rfl

theorem Allocated.used {s t : Pmm} {frame count f : Nat} (h : Allocated s t frame count)
    (low : frame ≤ f) (high : f < frame + count) : isUsed t f = true := by
  rw [h.taken]
  simp [low, high]

theorem Allocated.bounded {s t : Pmm} {frame count : Nat} (h : Allocated s t frame count)
    (hpos : 0 < count) : frame + count ≤ pmmMaxFrames := by
  by_contra beyond
  have last := h.free (frame + count - 1) (by omega) (by omega)
  rw [isUsed, if_pos (by omega)] at last
  cases last

theorem pmmAllocFrameLoop_spec (s : Pmm) (n i : Nat) :
    (pmmAllocFrameLoop s n i = (0, s)) ∨
      ∃ f, (pmmAllocFrameLoop s n i).1 = f * pmmFrameSize ∧
        Allocated s (pmmAllocFrameLoop s n i).2 f 1 := by
  induction n generalizing i with
  | zero => exact Or.inl rfl
  | succ n ih =>
    by_cases used : isUsed s ((s.searchHint + i) % pmmMaxFrames) = true
    · rw [pmmAllocFrameLoop, if_pos used]
      exact ih (i + 1)
    · rw [pmmAllocFrameLoop, if_neg used]
      refine Or.inr ⟨_, rfl, fun f low high => ?_, fun f => ?_⟩
      · have : f = (s.searchHint + i) % pmmMaxFrames := by omega
        rw [this]
        exact Bool.not_eq_true _ ▸ used
      · change isUsed (setUsed _ s) f = _
        rw [isUsed_setUsed]
        congr 1
        rw [decide_eq_decide]
        omega

/-- `pmm_alloc_frame` answers a frame that was free, or leaves the bitmap alone. -/
theorem pmmAllocFrame_spec (s : Pmm) :
    pmmAllocFrame s = (0, s) ∨
      ∃ f, (pmmAllocFrame s).1 = f * pmmFrameSize ∧ Allocated s (pmmAllocFrame s).2 f 1 :=
  pmmAllocFrameLoop_spec s pmmMaxFrames 0

/-- A run of free frames the scan has found up to frame `f`. -/
def FreeRun (s : Pmm) (f runStart runLen : Nat) : Prop :=
  0 < runLen → runStart + runLen = f ∧ ∀ g, runStart ≤ g → g < f → isUsed s g = false

theorem pmmAllocContiguousLoop_spec (s : Pmm) (count n f runStart runLen : Nat)
    (hcount : 0 < count) (short : runLen < count) (run : FreeRun s f runStart runLen) :
    (pmmAllocContiguousLoop s count n f runStart runLen = (0, s)) ∨
      ∃ frame, (pmmAllocContiguousLoop s count n f runStart runLen).1 = frame * pmmFrameSize ∧
        Allocated s (pmmAllocContiguousLoop s count n f runStart runLen).2 frame count := by
  induction n generalizing f runStart runLen with
  | zero => exact Or.inl rfl
  | succ n ih =>
    rw [pmmAllocContiguousLoop]
    by_cases used : isUsed s f = true
    · rw [if_pos used]
      exact ih (f + 1) runStart 0 hcount (fun h => by omega)
    · rw [if_neg used]
      have free : isUsed s f = false := by simpa using used
      have extended : FreeRun s (f + 1) (if runLen = 0 then f else runStart) (runLen + 1) := by
        intro _
        split
        · next empty =>
          refine ⟨by omega, fun g low high => ?_⟩
          have : g = f := by omega
          rw [this]
          exact free
        · next started =>
          obtain ⟨stop, clear⟩ := run (by omega)
          refine ⟨by omega, fun g low high => ?_⟩
          rcases Nat.lt_or_ge g f with before | at_f
          · exact clear g low before
          · have : g = f := by omega
            rw [this]
            exact free
      by_cases done : runLen + 1 = count
      · obtain ⟨stop, clear⟩ := extended (by omega)
        refine Or.inr ⟨if runLen = 0 then f else runStart, ?_, fun g low high => ?_, fun g => ?_⟩
        · simp only [done, if_true]
        · exact clear g low (by omega)
        · simp only [done, if_true]
          exact isUsed_setUsedRange s _ count g
      · simp only [done, if_false]
        exact ih (f + 1) _ (runLen + 1) (by omega) extended

/-- `pmm_alloc_contiguous` answers a run of frames that were free, or leaves
the bitmap alone. -/
theorem pmmAllocContiguous_spec (s : Pmm) (count : Nat) :
    pmmAllocContiguous count s = (0, s) ∨
      ∃ frame, (pmmAllocContiguous count s).1 = frame * pmmFrameSize ∧ 0 < count ∧
        Allocated s (pmmAllocContiguous count s).2 frame count := by
  unfold pmmAllocContiguous
  split
  · exact Or.inl rfl
  · next nonzero =>
    have hcount : 0 < count := Nat.pos_of_ne_zero nonzero
    rcases pmmAllocContiguousLoop_spec s count pmmMaxFrames 0 0 0 hcount hcount
        (fun h => by omega) with none | ⟨frame, addr, allocated⟩
    · exact Or.inl none
    · exact Or.inr ⟨frame, addr, hcount, allocated⟩

end MiniKernel.Memory
