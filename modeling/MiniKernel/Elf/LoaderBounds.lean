import MiniKernel.Elf.Loader
import MiniKernel.Memory.Mapping

/-!
# The loader stays inside the image and its frames

Source: kernel/core/elf/elf_loader.c. All offsets, counts and sizes come from the
file. The checks of `load_segment` and `elf_load` keep what is read below `size`;
the two ends of a page's copy keep what is written below 4096, also where the end
of the segment has wrapped.
-/
namespace MiniKernel.Elf
open Lib (Buffer)
open Memory (Pmm isUsed frameOf Grows pmmAllocFrame_spec pmmFrameSize pmmMaxFrames)
open Memory.Paging (Word Vmm vmmWritable vmmUser createTable_some newPageTable_some
  enterTable_eq)

/-- From `s` to `t` nothing is read beyond the image, and only frames that were
free are written to, within their 4096 bytes. -/
structure Inside (img : Image) (s t : Loader) : Prop where
  grows : Grows s.vmm.pmm t.vmm.pmm
  reads : ∃ more, t.reads = s.reads ++ more ∧ ∀ i ∈ more, i < img.size.toNat
  writes : ∃ more, t.writes = s.writes ++ more ∧
    ∀ w ∈ more, isUsed s.vmm.pmm (frameOf w.1.toNat) = false ∧ w.2 < 4096

theorem Inside.refl (img : Image) (s : Loader) : Inside img s s :=
  ⟨Grows.refl _, ⟨[], (List.append_nil _).symm, fun _ none => by cases none⟩,
    ⟨[], (List.append_nil _).symm, fun _ none => by cases none⟩⟩

theorem Inside.trans {img : Image} {s t u : Loader} (first : Inside img s t)
    (second : Inside img t u) : Inside img s u := by
  obtain ⟨reads, readsEq, below⟩ := first.reads
  obtain ⟨reads', readsEq', below'⟩ := second.reads
  obtain ⟨writes, writesEq, within⟩ := first.writes
  obtain ⟨writes', writesEq', within'⟩ := second.writes
  refine ⟨first.grows.trans second.grows, ⟨reads ++ reads', ?_, fun i hi => ?_⟩,
    ⟨writes ++ writes', ?_, fun w hw => ?_⟩⟩
  · rw [readsEq', readsEq, List.append_assoc]
  · exact (List.mem_append.mp hi).elim (below i) (below' i)
  · rw [writesEq', writesEq, List.append_assoc]
  · rcases List.mem_append.mp hw with old | new
    · exact within w old
    · -- what is free later was free before
      refine ⟨?_, (within' w new).2⟩
      cases used : isUsed s.vmm.pmm (frameOf w.1.toNat) with
      | false => rfl
      | true => exact absurd (first.grows _ used) (Bool.eq_false_iff.mp (within' w new).1)

/-! ## Frames and page tables -/

theorem allocFrame_grows (st : Vmm) : Grows st.pmm st.allocFrame.2.pmm := by
  change Grows st.pmm (Memory.pmmAllocFrame st.pmm).2
  rcases pmmAllocFrame_spec st.pmm with failed | ⟨f, _, allocated⟩
  · rw [failed]
    exact Grows.refl _
  · exact allocated.grows

/-- The frame of a successful allocation was free. -/
theorem allocFrame_free {st : Vmm} (some_ : st.allocFrame.1 ≠ 0) :
    isUsed st.pmm (frameOf st.allocFrame.1.toNat) = false := by
  change BitVec.ofNat 64 (Memory.pmmAllocFrame st.pmm).1 ≠ 0 at some_
  change isUsed st.pmm (frameOf (BitVec.ofNat 64 (Memory.pmmAllocFrame st.pmm).1).toNat) = false
  rcases pmmAllocFrame_spec st.pmm with failed | ⟨f, addr, allocated⟩
  · rw [failed] at some_
    exact absurd rfl some_
  · have low := allocated.bounded Nat.one_pos
    have here : frameOf (BitVec.ofNat 64 (Memory.pmmAllocFrame st.pmm).1).toNat = f := by
      rw [addr, BitVec.toNat_ofNat]
      unfold frameOf pmmFrameSize
      unfold pmmMaxFrames at low
      omega
    rw [here]
    exact allocated.free f (Nat.le_refl f) (Nat.lt_succ_self f)

theorem getOrCreateTable_grows (table : Word) (index : Nat) (st : Vmm) :
    Grows st.pmm (st.getOrCreateTable table index).2.pmm := by
  unfold Vmm.getOrCreateTable
  split
  swap
  · exact Grows.refl _
  have grown := allocFrame_grows st
  rcases alloc : st.allocFrame with ⟨frame, st₁⟩
  rw [alloc] at grown
  by_cases none_ : frame = 0
  · have failed : st.createTable table index = (none, st₁) := by
      rw [Vmm.createTable, alloc]
      exact if_pos none_
    rw [failed]
    exact grown
  · have same := Vmm.fillTable_pmm frame (fun _ => 0) Memory.Paging.entriesPerTable st₁
    rw [createTable_some alloc none_]
    -- the filled table is named, so that it is never computed
    generalize st₁.fillTable frame (fun _ => 0) Memory.Paging.entriesPerTable = st₂ at same ⊢
    rw [enterTable_eq, Vmm.setEntry_pmm, Vmm.setEntry_pmm, same]
    exact grown

theorem newPageTable_grows (pd : Word) (pdi : Nat) (entry : Nat → Word) (st : Vmm) :
    Grows st.pmm (st.newPageTable pd pdi entry).2.pmm := by
  have grown := allocFrame_grows st
  rcases alloc : st.allocFrame with ⟨frame, st₁⟩
  rw [alloc] at grown
  by_cases none_ : frame = 0
  · have failed : st.newPageTable pd pdi entry = (none, st₁) := by
      rw [Vmm.newPageTable, alloc]
      exact if_pos none_
    rw [failed]
    exact grown
  · have same := Vmm.fillTable_pmm frame entry Memory.Paging.entriesPerTable st₁
    rw [newPageTable_some alloc none_]
    generalize st₁.fillTable frame entry Memory.Paging.entriesPerTable = st₂ at same ⊢
    rw [Vmm.setEntry_pmm, same]
    exact grown

theorem pageTableOf_grows (pd : Word) (pdi : Nat) (st : Vmm) :
    Grows st.pmm (st.pageTableOf pd pdi).2.pmm := by
  unfold Vmm.pageTableOf
  simp only
  split
  · split
    · exact newPageTable_grows _ _ _ _
    · exact Grows.refl _
  · exact newPageTable_grows _ _ _ _

theorem getOrSplitPtEntry_grows (pml4 va : Word) (st : Vmm) :
    Grows st.pmm (st.getOrSplitPtEntry pml4 va).2.pmm := by
  have first := getOrCreateTable_grows pml4 (Memory.Paging.pml4Index va) st
  unfold Vmm.getOrSplitPtEntry
  split
  · next st₁ failed =>
    rw [failed] at first
    exact first
  next pdpt st₁ made =>
  rw [made] at first
  have second := first.trans (getOrCreateTable_grows pdpt (Memory.Paging.pdptIndex va) st₁)
  split
  · next st₂ failed =>
    rw [failed] at second
    exact second
  next pd st₂ made =>
  rw [made] at second
  have third := second.trans (pageTableOf_grows pd (Memory.Paging.pdIndex va) st₂)
  split
  · next st₃ failed =>
    rw [failed] at third
    exact third
  · next pt st₃ made =>
    rw [made] at third
    exact third

/-- Mapping a page takes frames and gives none back. -/
theorem vmmMapPageIn_grows (space va phys flags : Word) (st : Vmm) :
    Grows st.pmm (st.vmmMapPageIn space va phys flags).2.pmm := by
  have walked := getOrSplitPtEntry_grows (Memory.Paging.spacePml4 space) va st
  unfold Vmm.vmmMapPageIn
  split
  · next st' failed =>
    rw [failed] at walked
    exact walked
  · next pt i st' made =>
    rw [made] at walked
    exact walked

/-! ## One page -/

/-- Looking at the image and writing to one frame. -/
structure Touches (img : Image) (frame : Word) (s t : Loader) : Prop where
  vmm : t.vmm = s.vmm
  reads : ∃ more, t.reads = s.reads ++ more ∧ ∀ i ∈ more, i < img.size.toNat
  writes : ∃ more, t.writes = s.writes ++ more ∧ ∀ w ∈ more, w.1 = frame ∧ w.2 < 4096

theorem Touches.refl (img : Image) (frame : Word) (s : Loader) : Touches img frame s s :=
  ⟨rfl, ⟨[], (List.append_nil _).symm, fun _ none => by cases none⟩,
    ⟨[], (List.append_nil _).symm, fun _ none => by cases none⟩⟩

theorem Touches.trans {img : Image} {frame : Word} {s t u : Loader}
    (first : Touches img frame s t) (second : Touches img frame t u) : Touches img frame s u := by
  obtain ⟨reads, readsEq, below⟩ := first.reads
  obtain ⟨reads', readsEq', below'⟩ := second.reads
  obtain ⟨writes, writesEq, within⟩ := first.writes
  obtain ⟨writes', writesEq', within'⟩ := second.writes
  refine ⟨second.vmm.trans first.vmm, ⟨reads ++ reads', ?_, fun i hi => ?_⟩,
    ⟨writes ++ writes', ?_, fun w hw => ?_⟩⟩
  · rw [readsEq', readsEq, List.append_assoc]
  · exact (List.mem_append.mp hi).elim (below i) (below' i)
  · rw [writesEq', writesEq, List.append_assoc]
  · exact (List.mem_append.mp hw).elim (within w) (within' w)

theorem Touches.look {img : Image} (frame : Word) (s : Loader) {start len : Nat}
    (inside : start + len ≤ img.size.toNat) : Touches img frame s (s.look start len) := by
  refine ⟨rfl, ⟨_, rfl, fun i hi => ?_⟩, ⟨[], (List.append_nil _).symm, fun _ none => by cases none⟩⟩
  obtain ⟨k, hk, rfl⟩ := List.mem_map.mp hi
  have := List.mem_range.mp hk
  omega

theorem Touches.store (img : Image) (frame : Word) {offset : Word} (b : UInt8) (s : Loader)
    (inside : offset.toNat < 4096) : Touches img frame s (s.store frame offset b) := by
  refine ⟨rfl, ⟨[], (List.append_nil _).symm, fun _ none => by cases none⟩, ⟨_, rfl, fun w hw => ?_⟩⟩
  rw [List.mem_singleton.mp hw]
  exact ⟨rfl, inside⟩

/-- Writing to a frame that was free at the start. -/
theorem Inside.touched {img : Image} {frame : Word} {s t u : Loader} (first : Inside img s t)
    (free : isUsed s.vmm.pmm (frameOf frame.toNat) = false) (touches : Touches img frame t u) :
    Inside img s u := by
  obtain ⟨reads, readsEq, below⟩ := first.reads
  obtain ⟨reads', readsEq', below'⟩ := touches.reads
  obtain ⟨writes, writesEq, within⟩ := first.writes
  obtain ⟨writes', writesEq', within'⟩ := touches.writes
  refine ⟨touches.vmm ▸ first.grows, ⟨reads ++ reads', ?_, fun i hi => ?_⟩,
    ⟨writes ++ writes', ?_, fun w hw => ?_⟩⟩
  · rw [readsEq', readsEq, List.append_assoc]
  · exact (List.mem_append.mp hi).elim (below i) (below' i)
  · rw [writesEq', writesEq, List.append_assoc]
  · rcases List.mem_append.mp hw with old | new
    · exact within w old
    · rw [(within' w new).1]
      exact ⟨free, (within' w new).2⟩

/-- Only the page tables and the allocator change. -/
theorem Inside.paged {img : Image} {s t : Loader} {vmm : Vmm} (first : Inside img s t)
    (grown : Grows t.vmm.pmm vmm.pmm) : Inside img s { t with vmm := vmm } :=
  ⟨first.grows.trans grown, first.reads, first.writes⟩

theorem zeroBytes_touches (img : Image) (frame : Word) {n : Nat} (page : n ≤ 4096) (s : Loader) :
    Touches img frame s (s.zeroBytes frame n) := by
  induction n with
  | zero => exact Touches.refl img frame s
  | succ n ih =>
    refine (ih (by omega)).trans (Touches.store img frame 0 _ ?_)
    rw [BitVec.toNat_ofNat]
    omega

theorem copyBytes_touches {img : Image} (frame : Word) {pageOff fileOff : Word} {n : Nat}
    (page : pageOff.toNat + n ≤ 4096) (file : fileOff.toNat + n ≤ img.size.toNat) (s : Loader) :
    Touches img frame s (s.copyBytes img frame pageOff fileOff n) := by
  have size := img.size.isLt
  induction n with
  | zero => exact Touches.refl img frame s
  | succ n ih =>
    have from_ : (fileOff + BitVec.ofNat 64 n).toNat = fileOff.toNat + n := by
      rw [BitVec.toNat_add, BitVec.toNat_ofNat]
      omega
    have to_ : (pageOff + BitVec.ofNat 64 n).toNat = pageOff.toNat + n := by
      rw [BitVec.toNat_add, BitVec.toNat_ofNat]
      omega
    refine (ih (by omega) (by omega)).trans ((Touches.look frame _ ?_).trans
      (Touches.store img frame _ _ ?_))
    · omega
    · omega

/-- What `load_segment` has checked of a segment, and the address it goes to. -/
structure Checked (img : Image) (ph : Phdr) : Prop where
  offset : ph.offset.toNat ≤ img.size.toNat
  filesz : ph.offset.toNat + ph.filesz.toNat ≤ img.size.toNat

/-- Where there is something to copy, neither end has wrapped. -/
theorem copyRange_bounds {img : Image} {ph : Phdr} (checked : Checked img ph)
    (segmentVaddr va : Word)
    (some_ : (copyRange ph segmentVaddr va).2 > (copyRange ph segmentVaddr va).1) :
    let r := copyRange ph segmentVaddr va
    (r.1 - va).toNat + (r.2 - r.1).toNat ≤ 4096 ∧
      (ph.offset + (r.1 - segmentVaddr)).toNat + (r.2 - r.1).toNat ≤ img.size.toNat := by
  intro r
  have size := img.size.isLt
  have filesz := checked.filesz
  have low : va ≤ r.1 ∧ segmentVaddr ≤ r.1 := by
    simp only [r, copyRange, BitVec.le_def, BitVec.lt_def, gt_iff_lt]
    split <;> omega
  have high : r.2 ≤ va + pageSize4k ∧ r.2 ≤ segmentVaddr + ph.filesz := by
    simp only [r, copyRange, BitVec.le_def, BitVec.lt_def]
    split <;> omega
  change r.1 < r.2 at some_
  generalize r.1 = start at *
  generalize r.2 = stop at *
  have four : pageSize4k.toNat = 4096 := rfl
  -- the end of the page and the end of the data are not below what they start from
  have pageEnd : stop.toNat ≤ va.toNat + 4096 := by
    have := BitVec.le_def.mp high.1
    rw [BitVec.toNat_add, four] at this
    omega
  have dataEnd : stop.toNat ≤ segmentVaddr.toNat + ph.filesz.toNat := by
    have := BitVec.le_def.mp high.2
    rw [BitVec.toNat_add] at this
    omega
  have order := BitVec.lt_def.mp some_
  have startVa := BitVec.le_def.mp low.1
  have startSegment := BitVec.le_def.mp low.2
  have := stop.isLt
  rw [BitVec.toNat_add, BitVec.toNat_sub_of_le low.1, BitVec.toNat_sub_of_le low.2,
    BitVec.toNat_sub_of_le (BitVec.le_of_lt some_)]
  constructor <;> omega

theorem loadPage_inside (space : Word) {img : Image} {ph : Phdr} (checked : Checked img ph)
    (segmentVaddr va : Word) (s : Loader) :
    Inside img s (loadPage space img ph segmentVaddr va s).2 := by
  have grown := allocFrame_grows s.vmm
  have free := @allocFrame_free s.vmm
  unfold loadPage
  rcases alloc : s.vmm.allocFrame with ⟨frame, vmm⟩
  rw [alloc] at grown free
  have taken := (Inside.refl img s).paged grown
  simp only
  split
  · exact taken
  next some_ =>
  have cleared := taken.touched (free some_)
    (zeroBytes_touches img frame (Nat.le_refl 4096) { s with vmm := vmm })
  generalize Loader.zeroBytes frame 4096 { s with vmm := vmm } = z at cleared ⊢
  generalize (if ph.flags &&& pfW ≠ 0 then vmmUser ||| vmmWritable else vmmUser) = flags
  have mapped := cleared.paged (vmmMapPageIn_grows space va frame flags z.vmm)
  split
  · exact mapped
  split
  · next more =>
    obtain ⟨page, file⟩ := copyRange_bounds checked segmentVaddr va more
    exact mapped.touched (free some_) (copyBytes_touches frame page file _)
  · exact mapped

/-! ## The loops -/

/-- A loop over pages ends: both ends are on page boundaries, so the address
does not step over the last page, and there are no more turns than pages. -/
theorem loadPages_ends (space : Word) {img : Image} {ph : Phdr} (checked : Checked img ph)
    (segmentVaddr vaddrEnd : Word) (fuel : Nat) (va : Word) (s : Loader)
    (start : va.toNat % 4096 = 0) (stop : vaddrEnd.toNat % 4096 = 0)
    (enough : vaddrEnd.toNat ≤ va.toNat + fuel * 4096) :
    ∃ ok t, loadPages space img ph segmentVaddr vaddrEnd fuel va s = some (ok, t) ∧
      Inside img s t := by
  induction fuel generalizing va s with
  | zero =>
    have done : ¬ va < vaddrEnd := by
      rw [BitVec.lt_def]
      omega
    exact ⟨true, s, if_neg done, Inside.refl img s⟩
  | succ fuel ih =>
    unfold loadPages
    by_cases more : va < vaddrEnd
    · rw [if_pos more]
      have page := loadPage_inside space checked segmentVaddr va s
      rcases result : loadPage space img ph segmentVaddr va s with ⟨_ | _, t⟩ <;> rw [result] at page
      · exact ⟨false, t, rfl, page⟩
      · have high := vaddrEnd.isLt
        have below := BitVec.lt_def.mp more
        have next_ : (va + pageSize4k).toNat = va.toNat + 4096 := by
          rw [BitVec.toNat_add, show pageSize4k.toNat = 4096 from rfl]
          omega
        obtain ⟨ok, u, ends, rest⟩ := ih (va + pageSize4k) t (by omega) (by omega)
        exact ⟨ok, u, ends, page.trans rest⟩
    · rw [if_neg more]
      exact ⟨true, s, rfl, Inside.refl img s⟩

/-- `& ~(PAGE_SIZE_4K - 1)` rounds down. -/
theorem toNat_pageMask (a : Word) :
    (a &&& ~~~(pageSize4k - 1)).toNat = a.toNat / 4096 * 4096 := by
  have mask : (~~~(pageSize4k - 1)).toNat = (2 ^ 52 - 1) <<< 12 := by decide
  exact Lib.Words.toNat_and_high a _ 12 (by decide) mask

theorem loadSegment_ends (space : Word) (img : Image) (ph : Phdr) (loadBias : Word) (s : Loader) :
    ∃ ok t, loadSegment space img ph loadBias s = some (ok, t) ∧ Inside img s t := by
  have nothing := Inside.refl img s
  unfold loadSegment
  split
  · exact ⟨false, s, rfl, nothing⟩
  next bounds =>
  split
  · exact ⟨false, s, rfl, nothing⟩
  simp only
  split
  · exact ⟨true, s, rfl, nothing⟩
  split
  · exact ⟨false, s, rfl, nothing⟩
  · simp only [not_or, gt_iff_lt, BitVec.not_lt] at bounds
    obtain ⟨_, offset, filesz⟩ := bounds
    have low := BitVec.le_def.mp offset
    have few := BitVec.le_def.mp filesz
    rw [BitVec.toNat_sub_of_le offset] at few
    have checked : Checked img ph := ⟨low, by omega⟩
    refine loadPages_ends space checked _ _ _ _ s ?_ ?_ ?_
    · rw [toNat_pageMask]
      omega
    · rw [toNat_pageMask]
      omega
    · have high := (ph.vaddr + loadBias + ph.memsz + pageSize4k - 1).isLt
      rw [toNat_pageMask, toNat_pageMask, maxPages]
      omega

/-- The first `count` program headers lie in the image. -/
def HeadersInside (img : Image) (phdrs : Phdrs) (count : Nat) : Prop :=
  ∀ i < count, phdrs.start i + phdrSize ≤ img.size.toNat

theorem Inside.look {img : Image} (s : Loader) {start len : Nat}
    (inside : start + len ≤ img.size.toNat) : Inside img s (s.look start len) := by
  have touches := Touches.look 0 s inside
  have written : (s.look start len).writes = s.writes := rfl
  exact ⟨Grows.refl _, touches.reads, [], written.trans (List.append_nil _).symm,
    fun _ none => by cases none⟩

theorem entryLoop_inside {img : Image} {phdrs : Phdrs} {count : Nat}
    (headers : HeadersInside img phdrs count) (entry : Word) (left i : Nat)
    (turns : i + left = count) (s : Loader) :
    Inside img s (entryLoop phdrs entry left i s).2 := by
  induction left generalizing i s with
  | zero => exact Inside.refl img s
  | succ left ih =>
    have looked := Inside.look s (headers i (by omega))
    have rest := looked.trans (ih (i + 1) (by omega) (s.look (phdrs.start i) phdrSize))
    unfold entryLoop
    simp only
    split
    · exact rest
    split
    · exact looked
    split
    · exact looked
    · exact rest

theorem loadSegments_ends (space : Word) {img : Image} {phdrs : Phdrs} (loadBias : Word)
    {count : Nat} (headers : HeadersInside img phdrs count) (left i : Nat)
    (turns : i + left = count) (s : Loader) :
    ∃ ok t, loadSegments space img phdrs loadBias left i s = some (ok, t) ∧ Inside img s t := by
  induction left generalizing i s with
  | zero => exact ⟨true, s, rfl, Inside.refl img s⟩
  | succ left ih =>
    have looked := Inside.look s (headers i (by omega))
    unfold loadSegments
    simp only
    split
    · obtain ⟨ok, t, ends, rest⟩ := ih (i + 1) (by omega) (s.look (phdrs.start i) phdrSize)
      exact ⟨ok, t, ends, looked.trans rest⟩
    · obtain ⟨ok, t, ends, segment⟩ := loadSegment_ends space img (phdrs.header i) loadBias
        (s.look (phdrs.start i) phdrSize)
      rw [ends]
      have sofar := looked.trans segment
      cases ok with
      | false => exact ⟨false, t, rfl, sofar⟩
      | true =>
        obtain ⟨ok, u, ends', rest⟩ := ih (i + 1) (by omega) t
        exact ⟨ok, u, ends', sofar.trans rest⟩

/-- `e_phoff` and `e_phnum` are checked without a product that could wrap. -/
theorem headers_inside {img : Image} {eh : Ehdr} (size : eh.phentsize = phdrSize)
    (offset : eh.phoff ≤ img.size)
    (count : eh.phnum ≤ (img.size - eh.phoff).toNat / eh.phentsize) :
    HeadersInside img (phdrsOf img eh) eh.phnum := by
  intro i hi
  have low := BitVec.le_def.mp offset
  have high := img.size.isLt
  rw [size, BitVec.toNat_sub_of_le offset] at count
  unfold phdrSize at *
  have index : (eh.phdrAt i).toNat = eh.phoff.toNat + i * 56 := by
    rw [Ehdr.phdrAt, size, BitVec.toNat_add, BitVec.toNat_ofNat]
    omega
  change (eh.phdrAt i).toNat + 56 ≤ img.size.toNat
  omega

/-- For every image, bias and state of the machine `elf_load` comes to an end,
reads the image below its size and writes to newly allocated frames, below 4096. -/
theorem elfLoad_inside (space : Word) (img : Image) (loadBias : Word) (s : Loader) :
    ∃ result t, elfLoad space img loadBias s = some (result, t) ∧ Inside img s t := by
  have nothing := Inside.refl img s
  unfold elfLoad
  split
  · exact ⟨none, s, rfl, nothing⟩
  next large =>
  have header : Inside img s (s.look 0 ehdrSize) := Inside.look s (by omega)
  generalize s.look 0 ehdrSize = s₁ at header ⊢
  generalize ehdrOf img.data = eh
  simp only
  split
  · exact ⟨none, _, rfl, header⟩
  split
  · exact ⟨none, _, rfl, header⟩
  split
  · exact ⟨none, _, rfl, header⟩
  split
  · exact ⟨none, _, rfl, header⟩
  split
  · exact ⟨none, _, rfl, header⟩
  next entrySize =>
  split
  · exact ⟨none, _, rfl, header⟩
  next table =>
  simp only [not_or, gt_iff_lt, BitVec.not_lt, Nat.not_lt] at table
  have headers := headers_inside (Classical.not_not.mp entrySize) table.1 table.2
  have entry := header.trans (entryLoop_inside headers eh.entry eh.phnum 0 (Nat.zero_add _) s₁)
  unfold entryIsExecutable
  rcases checked : entryLoop (phdrsOf img eh) eh.entry eh.phnum 0 s₁ with ⟨_ | _, t⟩ <;>
    rw [checked] at entry
  · exact ⟨none, t, rfl, entry⟩
  obtain ⟨ok, u, ends, segments⟩ := loadSegments_ends space loadBias headers eh.phnum 0
    (Nat.zero_add _) t
  simp only
  rw [ends]
  have sofar := entry.trans segments
  cases ok with
  | false => exact ⟨none, u, rfl, sofar⟩
  | true =>
    simp only
    split
    · exact ⟨none, u, rfl, sofar⟩
    · exact ⟨_, u, rfl, sofar⟩

end MiniKernel.Elf
