import MiniKernel.Elf.Placement

/-!
# Which images are loaded

Source: kernel/core/elf/elf_loader.c:41-162. An image whose headers pass the checks is loaded
when there are frames enough. A page takes its own frame and at most three for tables.
-/
namespace MiniKernel.Elf
open Memory.Paging

/-- A page of the space's `own` can be mapped while four frames are left, and takes no more. -/
def PagesServed (I : Vmm → Prop) (own : Word → Prop) (space : Word) : Prop :=
  ∀ {st}, I st → 4 ≤ st.freeCount → ∃ frame st₁, st.allocFrame = (frame, st₁) ∧ frame ≠ 0 ∧
    ∀ va flags, own va → user flags = true → ∃ st₂,
      st₁.vmmMapPageIn space va frame flags = (true, st₂) ∧ I st₂ ∧
        st.freeCount ≤ st₂.freeCount + 4

/-- The number of pages of a segment. -/
def pageCount (ph : Phdr) (loadBias : Word) : Nat :=
  if ph.memsz = 0 then 0
  else (segmentStart ph loadBias + ph.memsz.toNat + 4095) / 4096 - segmentStart ph loadBias / 4096

/-- The number of pages of the segments from header `i` on, with `left` to go. -/
def pageCounts (phdrs : Phdrs) (loadBias : Word) : Nat → Nat → Nat
  | 0, _ => 0
  | left + 1, i =>
    (if (phdrs.header i).type = ptLoad then pageCount (phdrs.header i) loadBias else 0) +
      pageCounts phdrs loadBias left (i + 1)

/-- `load_segment` finds a segment's bytes in the file. -/
structure InFile (img : Image) (ph : Phdr) : Prop where
  filesz : ph.filesz ≤ ph.memsz
  offset : ph.offset ≤ img.size
  bytes : ph.filesz ≤ img.size - ph.offset

section
variable {I : Vmm → Prop} {own : Word → Prop} {space loadBias : Word} {img : Image} {ph : Phdr}
  {phdrs : Phdrs} {segmentVaddr va : Word} {s : Loader}

theorem loadPage_served (served : PagesServed I own space) (inv : I s.vmm)
    (enough : 4 ≤ s.vmm.freeCount) (mine : own va) :
    ∃ t, loadPage space img ph segmentVaddr va s = (true, t) ∧ I t.vmm ∧
      s.vmm.freeCount ≤ t.vmm.freeCount + 4 := by
  obtain ⟨frame, st₁, alloc, nonzero, maps⟩ := served inv enough
  have allowed := user_pageFlags ph
  unfold loadPage
  generalize (if ph.flags &&& pfW ≠ 0 then vmmUser ||| vmmWritable else vmmUser) = flags at allowed ⊢
  obtain ⟨st₂, mapped, kept, count⟩ := maps va flags mine allowed
  simp only [alloc, if_neg nonzero]
  have cleared := zeroBytes_vmm frame 4096 { s with vmm := st₁ }
  generalize Loader.zeroBytes frame 4096 { s with vmm := st₁ } = z at cleared ⊢
  simp only [cleared, mapped, not_true_eq_false, if_false]
  split
  · refine ⟨_, rfl, ?_⟩
    rw [copyBytes_vmm]
    exact ⟨kept, count⟩
  · exact ⟨_, rfl, kept, count⟩

theorem loadPages_served (served : PagesServed I own space) {vaddrEnd : Word}
    (stop : vaddrEnd.toNat % 4096 = 0) (low : vaddrEnd.toNat ≤ 2 ^ 48) {fuel : Nat}
    (page : va.toNat % 4096 = 0) (turns : vaddrEnd.toNat ≤ va.toNat + fuel * 4096) (inv : I s.vmm)
    (mine : ∀ n ∈ pagesFrom va.toNat vaddrEnd.toNat, own (BitVec.ofNat 64 (n * 4096)))
    (enough : 4 * (vaddrEnd.toNat / 4096 - va.toNat / 4096) ≤ s.vmm.freeCount) :
    ∃ t, loadPages space img ph segmentVaddr vaddrEnd fuel va s = some (true, t) ∧ I t.vmm ∧
      s.vmm.freeCount ≤ t.vmm.freeCount + 4 * (vaddrEnd.toNat / 4096 - va.toNat / 4096) := by
  induction fuel generalizing va s with
  | zero =>
    have past : ¬ va < vaddrEnd := by
      rw [BitVec.lt_def]
      omega
    exact ⟨s, if_neg past, inv, Nat.le_add_right _ _⟩
  | succ fuel ih =>
    rw [loadPages]
    by_cases more : va < vaddrEnd
    swap
    · rw [if_neg more]
      exact ⟨s, rfl, inv, Nat.le_add_right _ _⟩
    have below := BitVec.lt_def.mp more
    have next_ : (va + pageSize4k).toNat = va.toNat + 4096 := by
      rw [BitVec.toNat_add, show pageSize4k.toNat = 4096 from rfl]
      omega
    have first : own va := by
      have := mine (va.toNat / 4096) ⟨Nat.le_refl _, by omega⟩
      rwa [Nat.div_mul_cancel (Nat.dvd_of_mod_eq_zero page), BitVec.ofNat_toNat,
        BitVec.setWidth_eq] at this
    obtain ⟨u, done, kept, count⟩ :=
      @loadPage_served I own space img ph segmentVaddr va s served inv (by omega) first
    have later (n : Nat) (h : n ∈ pagesFrom (va + pageSize4k).toNat vaddrEnd.toNat) :
        n ∈ pagesFrom va.toNat vaddrEnd.toNat := by
      rw [pagesFrom, Set.mem_ofPred_eq, next_] at h
      exact ⟨by omega, h.2⟩
    obtain ⟨t, rest, kept', counts⟩ := ih (by omega) (by omega) kept
      (fun n h => mine n (later n h)) (by omega)
    rw [if_pos more, done]
    exact ⟨t, rest, kept', by omega⟩

/-- The checks of `load_segment`, as far as they do not depend on the tables. -/
theorem loadSegment_eq (inFile : InFile img ph)
    (room : segmentStart ph loadBias + ph.memsz.toNat ≤ 2 ^ 47) (s : Loader) :
    loadSegment space img ph loadBias s =
      if ph.memsz = 0 then some (true, s)
      else loadPages space img ph (ph.vaddr + loadBias)
        ((ph.vaddr + loadBias + ph.memsz + pageSize4k - 1) &&& ~~~(pageSize4k - 1)) maxPages
        ((ph.vaddr + loadBias) &&& ~~~(pageSize4k - 1)) s := by
  have start := segment_toNat room
  have bounds : ¬(ph.filesz > ph.memsz ∨ ph.offset > img.size ∨ ph.filesz > img.size - ph.offset) := by
    simp only [not_or, gt_iff_lt, BitVec.not_lt]
    exact ⟨inFile.filesz, inFile.offset, inFile.bytes⟩
  have straight : ¬ ph.vaddr + loadBias < ph.vaddr := by
    rw [BitVec.lt_def, start, segmentStart]
    omega
  have last := toNat_pageMask (ph.vaddr + loadBias + ph.memsz + pageSize4k - 1)
  rw [segmentEnd_toNat room] at last
  have forward : ¬ ((ph.vaddr + loadBias + ph.memsz + pageSize4k - 1) &&& ~~~(pageSize4k - 1)) <
      ph.vaddr + loadBias := by
    rw [BitVec.lt_def, last, start]
    omega
  rw [loadSegment, if_neg bounds, if_neg straight]
  simp only [if_neg forward]

theorem loadSegment_served (served : PagesServed I own space) (inFile : InFile img ph)
    (room : segmentStart ph loadBias + ph.memsz.toNat ≤ 2 ^ 47) (inv : I s.vmm)
    (mine : ∀ n ∈ segmentPages ph loadBias, own (BitVec.ofNat 64 (n * 4096)))
    (enough : 4 * pageCount ph loadBias ≤ s.vmm.freeCount) :
    ∃ t, loadSegment space img ph loadBias s = some (true, t) ∧ I t.vmm ∧
      s.vmm.freeCount ≤ t.vmm.freeCount + 4 * pageCount ph loadBias := by
  rw [loadSegment_eq inFile room]
  unfold pageCount at enough ⊢
  by_cases empty : ph.memsz = 0
  · rw [if_pos empty]
    exact ⟨s, rfl, inv, Nat.le_add_right _ _⟩
  rw [if_neg empty] at enough ⊢
  have positive : 0 < ph.memsz.toNat := by
    rw [Nat.pos_iff_ne_zero]
    intro zero
    exact empty (BitVec.eq_of_toNat_eq zero)
  have first := toNat_pageMask (ph.vaddr + loadBias)
  have last := toNat_pageMask (ph.vaddr + loadBias + ph.memsz + pageSize4k - 1)
  rw [segment_toNat room] at first
  rw [segmentEnd_toNat room] at last
  rw [segmentPages_eq positive, ← first, ← last] at mine
  obtain ⟨t, done, kept, count⟩ := @loadPages_served I own space img ph (ph.vaddr + loadBias) _ s
    served _ (by omega) (by omega) maxPages (by omega) (by rw [maxPages]; omega) inv mine (by omega)
  rw [if_neg empty]
  exact ⟨t, done, kept, by omega⟩

theorem loadSegments_served {left i : Nat} (served : PagesServed I own space)
    (files : ∀ j < i + left, (phdrs.header j).type = ptLoad → InFile img (phdrs.header j))
    (fit : Placeable own phdrs loadBias (i + left)) (inv : I s.vmm)
    (enough : 4 * pageCounts phdrs loadBias left i ≤ s.vmm.freeCount) :
    ∃ t, loadSegments space img phdrs loadBias left i s = some (true, t) ∧ I t.vmm ∧
      s.vmm.freeCount ≤ t.vmm.freeCount + 4 * pageCounts phdrs loadBias left i := by
  induction left generalizing i s with
  | zero => exact ⟨s, rfl, inv, Nat.le_add_right _ _⟩
  | succ left ih =>
    have next_ : i + (left + 1) = i + 1 + left := by omega
    rw [next_] at files fit
    rw [pageCounts] at enough ⊢
    rw [loadSegments]
    have before : I (s.look (phdrs.start i) phdrSize).vmm := inv
    have same : (s.look (phdrs.start i) phdrSize).vmm = s.vmm := rfl
    by_cases load : (phdrs.header i).type = ptLoad
    · rw [if_pos load] at enough ⊢
      obtain ⟨u, done, kept, count⟩ := loadSegment_served served (files i (by omega) load)
        (fit.room i (by omega) load) before (fit.mine i (by omega) load) (by rw [same]; omega)
      rw [same] at count
      obtain ⟨t, rest, kept', counts⟩ := ih files fit kept (by omega)
      rw [if_neg (not_not.mpr load), done]
      exact ⟨t, rest, kept', by omega⟩
    · rw [if_neg load, Nat.zero_add] at enough ⊢
      rw [if_pos load]
      exact ih files fit before enough

/-- Where no segment of code wraps, `entry_is_executable` finds the one with the entry point. -/
theorem entryLoop_finds {entry : Word} {left i j : Nat}
    (straight : ∀ k < i + left, (phdrs.header k).type = ptLoad →
      (phdrs.header k).vaddr.toNat + (phdrs.header k).memsz.toNat < 2 ^ 64)
    (low : i ≤ j) (high : j < i + left) (load : (phdrs.header j).type = ptLoad)
    (code : (phdrs.header j).flags &&& pfX ≠ 0) (first : (phdrs.header j).vaddr ≤ entry)
    (last : entry.toNat < (phdrs.header j).vaddr.toNat + (phdrs.header j).memsz.toNat)
    (s : Loader) : (entryLoop phdrs entry left i s).1 = true := by
  induction left generalizing i s with
  | zero => omega
  | succ left ih =>
    have next_ : i + (left + 1) = i + 1 + left := by omega
    have rest (other : i ≠ j) (s : Loader) : (entryLoop phdrs entry left (i + 1) s).1 = true :=
      ih (fun k less => straight k (by omega)) (by omega) (by omega) s
    have above := BitVec.le_def.mp first
    rw [entryLoop]
    split
    · next skipped =>
      refine rest (fun same => ?_) _
      rw [same] at skipped
      have empty := (skipped.resolve_left (not_not.mpr load)).resolve_left code
      rw [empty] at last
      exact absurd last (Nat.not_lt.mpr above)
    next taken =>
    have ends := straight i (by omega) (not_not.mp fun other => taken (Or.inl other))
    have end_ : ((phdrs.header i).vaddr + (phdrs.header i).memsz).toNat =
        (phdrs.header i).vaddr.toNat + (phdrs.header i).memsz.toNat := by
      rw [BitVec.toNat_add]
      exact Nat.mod_eq_of_lt ends
    rw [if_neg (by rw [BitVec.lt_def, end_]; omega)]
    split
    · rfl
    · next outside =>
      refine rest (fun same => outside ?_) _
      rw [BitVec.lt_def, end_, same]
      exact ⟨first, last⟩

/-- An image that `elf_load` takes, if its segments can be placed. -/
structure Accepted (img : Image) : Prop where
  size : ehdrSize ≤ img.size.toNat
  magic : (ehdrOf img.data).ident 0 = 0x7F ∧ (ehdrOf img.data).ident 1 = 0x45 ∧
    (ehdrOf img.data).ident 2 = 0x4C ∧ (ehdrOf img.data).ident 3 = 0x46
  class64 : ((ehdrOf img.data).ident 4).toNat = elfClass64
  machine : (ehdrOf img.data).machine = elfMachineX86_64
  type : (ehdrOf img.data).type = elfTypeExec
  phentsize : (ehdrOf img.data).phentsize = phdrSize
  phoff : (ehdrOf img.data).phoff ≤ img.size
  phnum : (ehdrOf img.data).phnum ≤
    (img.size - (ehdrOf img.data).phoff).toNat / (ehdrOf img.data).phentsize
  entry : EntersCode (phdrsOf img (ehdrOf img.data)) (ehdrOf img.data).entry (ehdrOf img.data).phnum
  files : ∀ i < (ehdrOf img.data).phnum,
    ((phdrsOf img (ehdrOf img.data)).header i).type = ptLoad →
      InFile img ((phdrsOf img (ehdrOf img.data)).header i)

/-- An accepted image is loaded when there are four frames for each of its pages. -/
theorem elfLoad_served (served : PagesServed I own space) (accepted : Accepted img)
    (fit : Placeable own (phdrsOf img (ehdrOf img.data)) loadBias (ehdrOf img.data).phnum)
    (inv : I s.vmm)
    (enough : 4 * pageCounts (phdrsOf img (ehdrOf img.data)) loadBias (ehdrOf img.data).phnum 0 ≤
      s.vmm.freeCount) :
    ∃ entry t, elfLoad space img loadBias s = some (some entry, t) ∧ I t.vmm ∧
      s.vmm.freeCount ≤ t.vmm.freeCount +
        4 * pageCounts (phdrsOf img (ehdrOf img.data)) loadBias (ehdrOf img.data).phnum 0 := by
  obtain ⟨magic0, magic1, magic2, magic3⟩ := accepted.magic
  obtain ⟨j, inside, load, code, first, last⟩ := accepted.entry
  have straight (k : Nat) (less : k < 0 + (ehdrOf img.data).phnum)
      (at_ : ((phdrsOf img (ehdrOf img.data)).header k).type = ptLoad) :
      ((phdrsOf img (ehdrOf img.data)).header k).vaddr.toNat +
        ((phdrsOf img (ehdrOf img.data)).header k).memsz.toNat < 2 ^ 64 := by
    have below := fit.room k (by omega) at_
    rw [segmentStart] at below
    omega
  have forward : ¬ (ehdrOf img.data).entry + loadBias < (ehdrOf img.data).entry := by
    have below := fit.room j inside load
    rw [segmentStart] at below
    rw [BitVec.lt_def, BitVec.toNat_add]
    omega
  have found := entryLoop_finds straight (Nat.zero_le j) (by omega) load code first last
    (s.look 0 ehdrSize)
  have tables := entryLoop_vmm (phdrsOf img (ehdrOf img.data)) (ehdrOf img.data).entry
    (ehdrOf img.data).phnum 0 (s.look 0 ehdrSize)
  unfold elfLoad
  rw [if_neg (Nat.not_lt.mpr accepted.size)]
  simp only
  rw [if_neg (by simp [magic0, magic1, magic2, magic3]),
    if_neg (not_not.mpr accepted.class64), if_neg (not_not.mpr accepted.machine),
    if_neg (not_not.mpr accepted.type), if_neg (not_not.mpr accepted.phentsize),
    if_neg (not_or.mpr ⟨BitVec.not_lt.mpr accepted.phoff, Nat.not_lt.mpr accepted.phnum⟩)]
  unfold entryIsExecutable
  rcases looked : entryLoop (phdrsOf img (ehdrOf img.data)) (ehdrOf img.data).entry
    (ehdrOf img.data).phnum 0 (s.look 0 ehdrSize) with ⟨ok, u⟩
  rw [looked] at found tables
  obtain rfl : ok = true := found
  have same : u.vmm = s.vmm := tables
  rw [← same] at inv enough ⊢
  rw [← Nat.zero_add (ehdrOf img.data).phnum] at fit
  obtain ⟨t, done, kept, count⟩ := loadSegments_served served
    (fun j less => accepted.files j (by omega)) fit inv enough
  simp only [done, if_neg forward]
  exact ⟨_, t, rfl, kept, count⟩

theorem loadSegments_files {left i : Nat} {t : Loader}
    (ran : loadSegments space img phdrs loadBias left i s = some (true, t)) :
    ∀ j, i ≤ j → j < i + left → (phdrs.header j).type = ptLoad → InFile img (phdrs.header j) := by
  induction left generalizing i s with
  | zero =>
    intro j low high
    omega
  | succ left ih =>
    intro j low high load
    rw [loadSegments] at ran
    split at ran
    · next skipped =>
      have other : i ≠ j := fun same => skipped (same ▸ load)
      exact ih ran j (by omega) (by omega) load
    · rcases segment : loadSegment space img (phdrs.header i) loadBias
        (s.look (phdrs.start i) phdrSize) with _ | ⟨_ | _, u⟩
      all_goals rw [segment] at ran
      · cases ran
      · cases ran
      by_cases own : i = j
      · rw [own] at segment
        unfold loadSegment at segment
        split at segment
        · cases segment
        next bounds =>
        simp only [not_or, gt_iff_lt, BitVec.not_lt] at bounds
        exact ⟨bounds.1, bounds.2.1, bounds.2.2⟩
      · exact ih ran j (by omega) (by omega) load

/-- No other image is loaded. -/
theorem elfLoad_accepted {entry : Word} {t : Loader}
    (ran : elfLoad space img loadBias s = some (some entry, t)) : Accepted img := by
  obtain ⟨code, -, u, -, -, segments⟩ := elfLoad_some ran
  have files := loadSegments_files segments
  unfold elfLoad at ran
  split at ran
  · cases ran
  next size =>
  simp only at ran
  split at ran
  · cases ran
  next magic =>
  split at ran
  · cases ran
  next class64 =>
  split at ran
  · cases ran
  next machine =>
  split at ran
  · cases ran
  next type =>
  split at ran
  · cases ran
  next phentsize =>
  split at ran
  · cases ran
  next table =>
  simp only [not_or, not_not] at magic
  simp only [not_or, gt_iff_lt, BitVec.not_lt, Nat.not_lt] at table
  exact ⟨Nat.not_lt.mp size, magic, not_not.mp class64, not_not.mp machine, not_not.mp type,
    not_not.mp phentsize, table.1, table.2, code,
    fun i inside => files i (Nat.zero_le i) (by omega)⟩

end
end MiniKernel.Elf
