import MiniKernel.Memory.Frames

/-!
# What `pmm_init` makes of a memory map

Source: kernel/mm/pmm.c:56-106. The entries are taken one after the other, so a
frame may be offered more than once; `total_frames` counts every offer, while
`set_free` counts a frame only once.
-/
namespace MiniKernel.Memory

/-- The turns of the inner loop for an entry. -/
def pmmEntryFrames (entry : E820Entry) : Nat :=
  if ¬ entry.usable then 0
  else if entry.base.toNat ≥ pmmMaxMemory then 0
  else
    let stop := min (entry.base + entry.length).toNat pmmMaxMemory
    frameOf stop - frameOf (entry.base.toNat + pmmFrameSize - 1)

/-- `total_frames` as `pmm_init` leaves it. -/
def pmmTotalFrames (map : List E820Entry) : Nat :=
  map.foldl (fun total entry => total + pmmEntryFrames entry) 0

/-! ## What it should make of it -/

/-- Every byte of the frame lies in the entry. -/
def E820Entry.Contains (e : E820Entry) (f : Nat) : Prop :=
  e.base.toNat ≤ f * pmmFrameSize ∧ (f + 1) * pmmFrameSize ≤ e.base.toNat + e.length.toNat

instance (e : E820Entry) : DecidablePred e.Contains := fun _ =>
  inferInstanceAs (Decidable (_ ∧ _))

/-- Some byte of the frame lies in the entry. -/
def E820Entry.Touches (e : E820Entry) (f : Nat) : Prop :=
  ∃ a, f * pmmFrameSize ≤ a ∧ a < (f + 1) * pmmFrameSize ∧
    e.base.toNat ≤ a ∧ a < e.base.toNat + e.length.toNat

/-- A frame below 4 GiB that a usable entry contains. -/
def Offered (map : List E820Entry) (f : Nat) : Prop :=
  f < pmmMaxFrames ∧ ∃ e ∈ map, e.usable = true ∧ e.Contains f

instance (map : List E820Entry) : DecidablePred (Offered map) := fun _ =>
  inferInstanceAs (Decidable (_ ∧ ∃ e ∈ map, _ ∧ _))

def Withheld (map : List E820Entry) (f : Nat) : Prop :=
  ∃ e ∈ map, e.usable = false ∧ e.Touches f

/-- Boot data, boot stack, kernel image, screen. -/
def BootReserved (kernelEnd f : Nat) : Prop :=
  ∃ a, frameOf a = f ∧ (a < 0x8200 ∨ (0x80000 ≤ a ∧ a < 0xA0000) ∨
    (0x8200 ≤ a ∧ a < kernelEnd) ∨ (0xB8000 ≤ a ∧ a < 0xB8000 + 4000))

/-- The distinct frames the usable entries contain. -/
def offeredFrames (map : List E820Entry) : Finset Nat :=
  (Finset.range pmmMaxFrames).filter (Offered map)

/-- The allocator agrees with the memory map. -/
structure MapFollowed (map : List E820Entry) (kernelEnd : Nat) : Prop where
  free : ∀ f, isUsed (pmmInit map kernelEnd) f = false ↔
    Offered map f ∧ ¬ Withheld map f ∧ ¬ BootReserved kernelEnd f
  total : pmmTotalFrames map = (offeredFrames map).card
  counted : (pmmInit map kernelEnd).freeFrames = (clearFrames (pmmInit map kernelEnd)).card

/-! ## The frames of one entry -/

/-- The loop frees the frame for this entry; the sum of base and length must fit
into 64 bits. -/
def E820Entry.Frees (e : E820Entry) (f : Nat) : Prop :=
  f < pmmMaxFrames ∧ e.usable = true ∧ e.base.toNat + e.length.toNat < 2 ^ 64 ∧ e.Contains f

instance (e : E820Entry) : DecidablePred e.Frees := fun _ =>
  inferInstanceAs (Decidable (_ ∧ _ ∧ _ ∧ _))

theorem isUsed_setFreeRange (s : Pmm) (first count f : Nat) :
    isUsed (setFreeRange first count s) f = false ↔
      isUsed s f = false ∨ (f < pmmMaxFrames ∧ first ≤ f ∧ f < first + count) := by
  induction count with
  | zero =>
    rw [setFreeRange]
    constructor
    · exact Or.inl
    · intro h
      exact h.resolve_right (by omega)
  | succ count ih =>
    rw [setFreeRange]
    rcases Nat.lt_or_ge (first + count) pmmMaxFrames with tracked | beyond
    · rw [isUsed_setFree _ _ _ tracked, Bool.and_eq_false_iff, ih, decide_eq_false_iff_not,
        not_not]
      constructor
      · intro h
        rcases h with (free | inside) | last
        · exact Or.inl free
        · exact Or.inr (by omega)
        · exact Or.inr (by omega)
      · intro h
        rcases h with free | inside
        · exact Or.inl (Or.inl free)
        · by_cases last : f = first + count
          · exact Or.inr last
          · exact Or.inl (Or.inr (by omega))
    · rw [setFree_untracked beyond, ih]
      constructor
      · exact Or.imp_right fun inside => by omega
      · exact Or.imp_right fun inside => by omega

/-- The turns of the loop are the frames the entry frees. -/
theorem frees_iff (e : E820Entry) (f : Nat) :
    e.Frees f ↔ e.usable = true ∧ e.base.toNat < pmmMaxMemory ∧
      frameOf (e.base.toNat + pmmFrameSize - 1) ≤ f ∧
      f < frameOf (min (e.base + e.length).toNat pmmMaxMemory) := by
  have sum : (e.base + e.length).toNat = (e.base.toNat + e.length.toNat) % 2 ^ 64 :=
    BitVec.toNat_add ..
  have length := e.length.isLt
  unfold E820Entry.Frees E820Entry.Contains frameOf pmmMaxFrames pmmFrameSize pmmMaxMemory
  rw [sum]
  constructor
  · intro ⟨tracked, usable, fits, low, high⟩
    refine ⟨usable, by omega, by omega, ?_⟩
    rw [Nat.mod_eq_of_lt fits]
    omega
  · intro ⟨usable, base, low, high⟩
    rcases Nat.lt_or_ge (e.base.toNat + e.length.toNat) (2 ^ 64) with fits | wraps
    · rw [Nat.mod_eq_of_lt fits] at high
      exact ⟨by omega, usable, fits, by omega, by omega⟩
    · rw [Nat.mod_eq_sub_mod wraps, Nat.mod_eq_of_lt (by omega)] at high
      omega

theorem isUsed_pmmAddEntry (s : Pmm) (e : E820Entry) (f : Nat) :
    isUsed (pmmAddEntry s e) f = false ↔ isUsed s f = false ∨ e.Frees f := by
  unfold pmmAddEntry
  split
  · next unusable =>
    rw [frees_iff]
    simp [unusable]
  next usable =>
  split
  · next high =>
    have outside : ¬ e.Frees f := by
      rw [frees_iff]
      omega
    simp [outside]
  · next low =>
    rw [isUsed_setFreeRange, frees_iff]
    refine or_congr_right ⟨fun inside => ?_, fun inside => ?_⟩
    · exact ⟨by simpa using usable, by omega, by omega, by omega⟩
    · have := inside.2.2.2
      unfold frameOf pmmMaxMemory pmmMaxFrames pmmFrameSize at *
      omega

theorem pmmEntryFrames_card (e : E820Entry) :
    pmmEntryFrames e = ((Finset.range pmmMaxFrames).filter e.Frees).card := by
  have turns : (Finset.range pmmMaxFrames).filter e.Frees =
      if e.usable = true ∧ e.base.toNat < pmmMaxMemory then
        Finset.Ico (frameOf (e.base.toNat + pmmFrameSize - 1))
          (frameOf (min (e.base + e.length).toNat pmmMaxMemory))
      else ∅ := by
    ext f
    rw [Finset.mem_filter, Finset.mem_range]
    split
    · next taken =>
      rw [Finset.mem_Ico]
      constructor
      · intro ⟨_, frees⟩
        exact ((frees_iff e f).mp frees).2.2
      · intro inside
        have frees := (frees_iff e f).mpr ⟨taken.1, taken.2, inside⟩
        exact ⟨frees.1, frees⟩
    · next skipped =>
      simp only [Finset.notMem_empty, iff_false, not_and]
      intro _ frees
      have := (frees_iff e f).mp frees
      exact skipped ⟨this.1, this.2.1⟩
  rw [turns, pmmEntryFrames]
  cases e.usable with
  | false => simp
  | true =>
    by_cases low : e.base.toNat < pmmMaxMemory
    · rw [if_neg (by simp), if_neg (by omega), if_pos ⟨rfl, low⟩, Nat.card_Ico]
    · rw [if_neg (by simp), if_pos (by omega), if_neg (by simp [low]), Finset.card_empty]

/-! ## The whole map -/

theorem isUsed_map (map : List E820Entry) (s : Pmm) (f : Nat) :
    isUsed (map.foldl pmmAddEntry s) f = false ↔
      isUsed s f = false ∨ ∃ e ∈ map, e.Frees f := by
  induction map generalizing s with
  | nil => simp
  | cons e rest ih =>
    rw [List.foldl_cons, ih, isUsed_pmmAddEntry, List.exists_mem_cons_iff, or_assoc]

theorem isUsed_reserveRange (start stop : Nat) (s : Pmm) (f : Nat) :
    isUsed (reserveRange start stop s) f = false ↔ isUsed s f = false ∧
      ¬ (frameOf start ≤ f ∧ f < frameOf (stop + pmmFrameSize - 1)) := by
  rw [reserveRange, isUsed_setUsedRange, Bool.or_eq_false_iff, decide_eq_false_iff_not]
  refine and_congr_right fun _ => not_congr ?_
  omega

theorem bootReserved_iff (kernelEnd f : Nat) : BootReserved kernelEnd f ↔
    f < 9 ∨ (0x80 ≤ f ∧ f < 0xA0) ∨
      (8 ≤ f ∧ f < frameOf (kernelEnd + pmmFrameSize - 1)) ∨ f = 0xB8 := by
  unfold BootReserved frameOf pmmFrameSize
  constructor
  · intro ⟨a, here, inside⟩
    omega
  · intro inside
    rcases inside with boot | stack | image | screen
    · exact ⟨f * 4096, by omega, by omega⟩
    · exact ⟨f * 4096, by omega, by omega⟩
    · by_cases first : f = 8
      · exact ⟨f * 4096, by omega, by omega⟩
      · exact ⟨f * 4096, by omega, by omega⟩
    · exact ⟨f * 4096, by omega, by omega⟩

/-- The frames `pmm_init` leaves free. -/
theorem isUsed_pmmInit (map : List E820Entry) (kernelEnd f : Nat) :
    isUsed (pmmInit map kernelEnd) f = false ↔
      (∃ e ∈ map, e.Frees f) ∧ ¬ BootReserved kernelEnd f := by
  have start : ¬ isUsed { bitmap := fun _ => true, freeFrames := 0, searchHint := 0 } f =
      false := by
    simp [isUsed]
  unfold pmmInit
  rw [isUsed_reserveRange, isUsed_reserveRange, isUsed_reserveRange, isUsed_reserveRange,
    isUsed_map, or_iff_right start, bootReserved_iff, and_assoc, and_assoc, and_assoc]
  refine and_congr_right fun _ => ?_
  unfold frameOf pmmFrameSize
  omega

theorem pmmTotalFrames_sum (map : List E820Entry) : pmmTotalFrames map =
    (map.map fun e => ((Finset.range pmmMaxFrames).filter e.Frees).card).sum := by
  have from_ (total : Nat) : map.foldl (fun total e => total + pmmEntryFrames e) total = total +
      (map.map fun e => ((Finset.range pmmMaxFrames).filter e.Frees).card).sum := by
    induction map generalizing total with
    | nil => rfl
    | cons e rest ih =>
      rw [List.foldl_cons, ih, List.map_cons, List.sum_cons, pmmEntryFrames_card, Nat.add_assoc]
  rw [pmmTotalFrames, from_, Nat.zero_add]

/-- `pmm_init` follows the memory map exactly if two things hold of the map. Of the
offered frames that the boot does not reserve, an entry with its end below 2^64 has
those that no entry of another type touches, and no others. And such entries offer,
one by one, as many frames as there are. -/
theorem pmmInit_follows_iff (map : List E820Entry) (kernelEnd : Nat) :
    MapFollowed map kernelEnd ↔
      (∀ f, Offered map f → ¬ BootReserved kernelEnd f →
        ((∃ e ∈ map, e.Frees f) ↔ ¬ Withheld map f)) ∧
      (map.map fun e => ((Finset.range pmmMaxFrames).filter e.Frees).card).sum =
        (offeredFrames map).card := by
  have offers {f : Nat} (freed : ∃ e ∈ map, e.Frees f) : Offered map f := by
    obtain ⟨e, he, tracked, usable, _, contains⟩ := freed
    exact ⟨tracked, e, he, usable, contains⟩
  rw [← pmmTotalFrames_sum]
  constructor
  · intro followed
    refine ⟨fun f offered unreserved => ?_, followed.total⟩
    have free := followed.free f
    rw [isUsed_pmmInit] at free
    constructor
    · intro freed
      exact (free.mp ⟨freed, unreserved⟩).2.1
    · intro allowed
      exact (free.mpr ⟨offered, allowed, unreserved⟩).1
  · intro ⟨agree, total⟩
    refine ⟨fun f => ?_, total, pmmInit_counted map kernelEnd⟩
    rw [isUsed_pmmInit]
    constructor
    · intro ⟨freed, unreserved⟩
      exact ⟨offers freed, (agree f (offers freed) unreserved).mp freed, unreserved⟩
    · intro ⟨offered, allowed, unreserved⟩
      exact ⟨(agree f offered unreserved).mpr allowed, unreserved⟩

/-- A frame that two usable entries contain is counted twice. -/
theorem pmmInit_counts_twice : ¬ ∀ (map : List E820Entry) (kernelEnd : Nat),
    MapFollowed map kernelEnd := by
  intro all
  let e : E820Entry := ⟨0x100000, 0x1000, true⟩
  have total := (all [e, e] 0x20000).total
  have offered : offeredFrames [e, e] ⊆ {0x100} := by
    intro f inside
    obtain ⟨-, d, hd, -, low, high⟩ := (Finset.mem_filter.mp inside).2
    have same : d = e := by simpa using hd
    have base : d.base.toNat = 0x100000 := by rw [same]; decide
    have length : d.length.toNat = 0x1000 := by rw [same]; decide
    rw [base] at low high
    rw [length] at high
    unfold pmmFrameSize at low high
    rw [Finset.mem_singleton]
    omega
  have once := Finset.card_le_card offered
  have twice : pmmTotalFrames [e, e] = 2 := by decide
  rw [Finset.card_singleton] at once
  omega

end MiniKernel.Memory
