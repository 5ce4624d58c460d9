import MiniKernel.Elf.LoaderTables
import MiniKernel.Memory.KernelPages
import Mathlib.Order.CompletePartialOrder

/-!
# An image stands in memory as its headers say

Source: kernel/core/elf/elf_loader.c:41-162. Every page of a segment gets a frame of its own,
with the bytes of the file that belong there and zeroes around them. Where two segments
share a page the second one wins, so this is about images whose segments share none.
-/
namespace MiniKernel.Elf
open Memory (Grows)
open Memory.Paging

/-! ## Bytes -/

/-- Byte `k` of a segment. -/
def segmentByte (img : Image) (ph : Phdr) (k : Nat) : UInt8 :=
  if k < ph.filesz.toNat then img.data (ph.offset.toNat + k) else 0

/-- What the pages of a segment at `start` hold at an address. -/
def pageByte (img : Image) (ph : Phdr) (start a : Nat) : UInt8 :=
  if start ≤ a then segmentByte img ph (a - start) else 0

section
variable {img : Image} {ph : Phdr} {frame pageOff fileOff segmentVaddr va : Word} {n j : Nat}
  {s t : Loader}

theorem zeroBytes_bytes (frame : Word) (few : n ≤ 4096) (s : Loader) (f : Word) (j : Nat) :
    (s.zeroBytes frame n).bytes f j = if f = frame ∧ j < n then 0 else s.bytes f j := by
  induction n with
  | zero => simp [Loader.zeroBytes]
  | succ n ih =>
    have offset : (BitVec.ofNat 64 n : Word).toNat = n := by
      rw [BitVec.toNat_ofNat]
      omega
    simp only [Loader.zeroBytes, Loader.store, offset]
    by_cases here : f = frame
    · rw [if_pos here, Function.update_apply, ih (by omega)]
      by_cases last : j = n
      · rw [if_pos last, if_pos ⟨here, by omega⟩]
      · have same : (f = frame ∧ j < n) ↔ (f = frame ∧ j < n + 1) :=
          and_congr_right fun _ => by omega
        rw [if_neg last]
        simp only [same]
    · rw [if_neg here, ih (by omega), if_neg (fun h => here h.1), if_neg (fun h => here h.1)]

theorem copyBytes_bytes (page : pageOff.toNat + n ≤ 4096) (file : fileOff.toNat + n < 2 ^ 64)
    (s : Loader) (f : Word) (j : Nat) :
    (s.copyBytes img frame pageOff fileOff n).bytes f j =
      if f = frame ∧ pageOff.toNat ≤ j ∧ j < pageOff.toNat + n then
        img.data (fileOff.toNat + (j - pageOff.toNat))
      else s.bytes f j := by
  induction n with
  | zero =>
    rw [if_neg (by omega)]
    rfl
  | succ n ih =>
    have from_ : (fileOff + BitVec.ofNat 64 n).toNat = fileOff.toNat + n := by
      rw [BitVec.toNat_add, BitVec.toNat_ofNat]
      omega
    have to_ : (pageOff + BitVec.ofNat 64 n).toNat = pageOff.toNat + n := by
      rw [BitVec.toNat_add, BitVec.toNat_ofNat]
      omega
    simp only [Loader.copyBytes, Loader.store, Loader.look, from_, to_]
    by_cases here : f = frame
    · rw [if_pos here, Function.update_apply, ih (by omega) (by omega)]
      by_cases last : j = pageOff.toNat + n
      · rw [if_pos last, if_pos ⟨here, by omega, by omega⟩, last, Nat.add_sub_cancel_left]
      · have same : (f = frame ∧ pageOff.toNat ≤ j ∧ j < pageOff.toNat + n) ↔
            (f = frame ∧ pageOff.toNat ≤ j ∧ j < pageOff.toNat + (n + 1)) :=
          and_congr_right fun _ => by omega
        rw [if_neg last]
        simp only [same]
    · rw [if_neg here, ih (by omega) (by omega), if_neg (fun h => here h.1),
        if_neg (fun h => here h.1)]

/-- Without a wrap, the range to copy is what page and data have in common. -/
theorem copyRange_toNat (room : va.toNat + 4096 < 2 ^ 64)
    (fits : segmentVaddr.toNat + ph.filesz.toNat < 2 ^ 64) :
    (copyRange ph segmentVaddr va).1.toNat = max va.toNat segmentVaddr.toNat ∧
      (copyRange ph segmentVaddr va).2.toNat =
        min (va.toNat + 4096) (segmentVaddr.toNat + ph.filesz.toNat) := by
  have pageEnd : (va + pageSize4k).toNat = va.toNat + 4096 := by
    rw [BitVec.toNat_add, show pageSize4k.toNat = 4096 from rfl]
    omega
  have dataEnd : (segmentVaddr + ph.filesz).toNat = segmentVaddr.toNat + ph.filesz.toNat := by
    rw [BitVec.toNat_add]
    omega
  simp only [copyRange, BitVec.lt_def, gt_iff_lt]
  constructor
  · split <;> omega
  · rw [pageEnd, dataEnd]
    split <;> omega

end

/-! ## Pages -/

section
variable {I : Vmm → Prop} {known own : Word → Prop} {space va frame : Word} {st st₁ st₂ : Vmm}

/-- A free frame was taken for the page of `va`; nothing else is translated differently in
the spaces that are `known`. -/
structure PagePut (known : Word → Prop) (space va frame : Word) (st st₂ : Vmm) : Prop where
  here : ∃ w, translate st₂.mem space va = some ⟨frame, w, true⟩
  others : ∀ r, known r → ∀ a, ¬(r = space ∧ pathOf a = pathOf va) →
    translate st₂.mem r a = translate st.mem r a
  free : st.usedAt frame = false
  used : st₂.usedAt frame = true
  grows : Grows st.pmm st₂.pmm

/-- A page of the space's `own` that is mapped for the user keeps `I`. -/
def PagesPut (I : Vmm → Prop) (known own : Word → Prop) (space : Word) : Prop :=
  ∀ {st st₁ st₂ frame}, I st → st.allocFrame = (frame, st₁) → frame ≠ 0 → ∀ va flags, own va →
    user flags = true → st₁.vmmMapPageIn space va frame flags = (true, st₂) →
    I st₂ ∧ PagePut known space va frame st st₂

variable {img : Image} {ph : Phdr} {segmentVaddr : Word} {s t u : Loader}

theorem loadPage_put (put : PagesPut I known own space) (checked : Checked img ph)
    (inv : I s.vmm) (mine : own va) (room : va.toNat + 4096 < 2 ^ 64)
    (fits : segmentVaddr.toNat + ph.filesz.toNat < 2 ^ 64)
    (ran : loadPage space img ph segmentVaddr va s = (true, t)) :
    I t.vmm ∧ ∃ frame, PagePut known space va frame s.vmm t.vmm ∧
      (∀ f, f ≠ frame → t.bytes f = s.bytes f) ∧
      ∀ j < 4096, t.bytes frame j = pageByte img ph segmentVaddr.toNat (va.toNat + j) := by
  obtain ⟨starts, stops⟩ := @copyRange_toNat ph _ _ room fits
  have bounds := copyRange_bounds checked segmentVaddr va
  unfold loadPage at ran
  rcases alloc : s.vmm.allocFrame with ⟨frame, st₁⟩
  simp only [alloc] at ran
  split at ran
  · cases ran
  next nonzero =>
  have allowed := user_pageFlags ph
  generalize (if ph.flags &&& pfW ≠ 0 then vmmUser ||| vmmWritable else vmmUser) = flags
    at allowed ran
  have cleared := zeroBytes_bytes frame (Nat.le_refl 4096) { s with vmm := st₁ }
  have tables := zeroBytes_vmm frame 4096 { s with vmm := st₁ }
  generalize Loader.zeroBytes frame 4096 { s with vmm := st₁ } = z at cleared tables ran
  rw [tables] at ran
  rcases mapped : st₁.vmmMapPageIn space va frame flags with ⟨ok, st₂⟩
  simp only [mapped] at ran
  split at ran
  · cases ran
  next good =>
  obtain rfl : ok = true := by simpa using good
  obtain ⟨kept, page⟩ := put inv alloc nonzero va flags mine allowed mapped
  split at ran
  · next more =>
    obtain ⟨inPage, inFile⟩ := bounds more
    have size := img.size.isLt
    have low : va ≤ (copyRange ph segmentVaddr va).1 ∧
        segmentVaddr ≤ (copyRange ph segmentVaddr va).1 := by
      rw [BitVec.le_def, BitVec.le_def]
      omega
    have order := BitVec.lt_def.mp (show (copyRange ph segmentVaddr va).1 < _ from more)
    have pageOff := BitVec.toNat_sub_of_le low.1
    have count := BitVec.toNat_sub_of_le (BitVec.le_of_lt more)
    have file : (ph.offset + ((copyRange ph segmentVaddr va).1 - segmentVaddr)).toNat +
        ((copyRange ph segmentVaddr va).2 - (copyRange ph segmentVaddr va).1).toNat < 2 ^ 64 := by
      omega
    have fileOff : (ph.offset + ((copyRange ph segmentVaddr va).1 - segmentVaddr)).toNat =
        ph.offset.toNat + ((copyRange ph segmentVaddr va).1.toNat - segmentVaddr.toNat) := by
      have := checked.filesz
      rw [BitVec.toNat_add, BitVec.toNat_sub_of_le low.2]
      omega
    have written := @copyBytes_bytes img frame _ _ _ inPage file { z with vmm := st₂ }
    cases ran
    rw [copyBytes_vmm]
    refine ⟨kept, frame, page, fun f other => ?_, fun j inside => ?_⟩
    · funext j
      rw [written, if_neg fun h => other h.1]
      exact (cleared f j).trans (if_neg fun h => other h.1)
    · have zeroes : z.bytes frame j = 0 := (cleared frame j).trans (if_pos ⟨rfl, inside⟩)
      rw [written, pageOff, count, fileOff, starts, stops, zeroes, pageByte, segmentByte]
      rw [starts, stops] at order
      split
      · next copied =>
        rw [if_pos (by omega), if_pos (by omega)]
        congr 1
        omega
      · next outside =>
        split
        · rw [if_neg]
          intro data
          exact outside ⟨rfl, by omega, by omega⟩
        · rfl
  · next nothing =>
    have order : (copyRange ph segmentVaddr va).2.toNat ≤ (copyRange ph segmentVaddr va).1.toNat := by
      rw [gt_iff_lt, BitVec.lt_def] at nothing
      omega
    rw [starts, stops] at order
    cases ran
    refine ⟨kept, frame, page, fun f other => ?_, fun j inside => ?_⟩
    · funext j
      exact (cleared f j).trans (if_neg fun h => other h.1)
    · refine ((cleared frame j).trans (if_pos ⟨rfl, inside⟩)).trans ?_
      rw [pageByte, segmentByte]
      split
      · rw [if_neg (by omega)]
      · rfl

end

/-! ## What loading does to memory -/

/-- A user of the space reads `b` at `a`, from a frame that is taken. -/
def Stands (space : Word) (s : Loader) (a : Nat) (b : UInt8) : Prop :=
  ∃ frame w, translate s.vmm.mem space (BitVec.ofNat 64 a) = some ⟨frame, w, true⟩ ∧
    s.vmm.usedAt frame = true ∧ s.bytes frame (a % 4096) = b

/-- Between `s` and `t` the `pages` were given frames, and `content` was put there. All
other translations of the spaces that are `known` are kept, and so are the frames that
were in use. -/
structure Loads (known : Word → Prop) (space : Word) (pages : Set Nat)
    (content : Nat → UInt8 → Prop) (s t : Loader) : Prop where
  inside : ∀ a b, content a b → a / 4096 ∈ pages
  low : ∀ n ∈ pages, n < 2 ^ 36
  new : ∀ a b, content a b → Stands space t a b
  others : ∀ r, known r → ∀ a : Word, ¬(r = space ∧ a.toNat / 4096 % 2 ^ 36 ∈ pages) →
    translate t.vmm.mem r a = translate s.vmm.mem r a
  bytes : ∀ f, s.vmm.usedAt f = true → t.bytes f = s.bytes f
  grows : Grows s.vmm.pmm t.vmm.pmm

section
variable {I : Vmm → Prop} {known own : Word → Prop} {space va : Word}
  {img : Image} {ph : Phdr} {segmentVaddr : Word} {s t u : Loader} {pages pages' : Set Nat}
  {content content' : Nat → UInt8 → Prop}

theorem Loads.nothing {known : Word → Prop} {space : Word} {s t : Loader} (vmm : t.vmm = s.vmm)
    (bytes : t.bytes = s.bytes) : Loads known space ∅ (fun _ _ => False) s t where
  inside := fun _ _ h => h.elim
  low := fun _ h => h.elim
  new := fun _ _ h => h.elim
  others := fun _ _ _ _ => by rw [vmm]
  bytes := fun _ _ => by rw [bytes]
  grows := vmm ▸ Grows.refl _

/-- What stood elsewhere still stands. -/
theorem Loads.stands (loads : Loads known space pages content s t) (here : known space) {a : Nat}
    {b : UInt8} (small : a < 2 ^ 48) (off : a / 4096 ∉ pages) (stands : Stands space s a b) :
    Stands space t a b := by
  obtain ⟨frame, w, mapped, used, byte⟩ := stands
  have value : (BitVec.ofNat 64 a : Word).toNat = a := by
    rw [BitVec.toNat_ofNat]
    omega
  refine ⟨frame, w, ?_, loads.grows _ used, ?_⟩
  · rw [loads.others space here, mapped]
    rintro ⟨-, inside⟩
    rw [value, Nat.mod_eq_of_lt (by omega)] at inside
    exact off inside
  · rw [loads.bytes frame used]
    exact byte

theorem Loads.trans (first : Loads known space pages content s t) (here : known space)
    (second : Loads known space pages' content' t u) (apart : Disjoint pages pages') :
    Loads known space (pages ∪ pages') (fun a b => content a b ∨ content' a b) s u where
  inside := fun a b h => h.elim (fun h => Or.inl (first.inside a b h))
    fun h => Or.inr (second.inside a b h)
  low := fun n h => h.elim (first.low n) (second.low n)
  new := fun a b h => by
    rcases h with old | new
    · have inside := first.inside a b old
      have := first.low _ inside
      exact second.stands here (by omega) (Set.disjoint_left.mp apart inside) (first.new a b old)
    · exact second.new a b new
  others := fun r live a off => by
    rw [second.others r live a fun h => off ⟨h.1, Or.inr h.2⟩,
      first.others r live a fun h => off ⟨h.1, Or.inl h.2⟩]
  bytes := fun f used => by rw [second.bytes f (first.grows _ used), first.bytes f used]
  grows := first.grows.trans second.grows

theorem Loads.congr (loads : Loads known space pages content s t) (same : pages' = pages)
    (less : ∀ a b, content' a b → content a b) : Loads known space pages' content' s t where
  inside := fun a b h => same ▸ loads.inside a b (less a b h)
  low := same ▸ loads.low
  new := fun a b h => loads.new a b (less a b h)
  others := same ▸ loads.others
  bytes := loads.bytes
  grows := loads.grows

/-- Byte `b` belongs at `a`, which lies in one of the pages. -/
def contentOn (byteAt : Nat → UInt8) (pages : Set Nat) (a : Nat) (b : UInt8) : Prop :=
  a / 4096 ∈ pages ∧ b = byteAt a

theorem PagePut.loads {frame : Word} (byteAt : Nat → UInt8)
    (put : PagePut known space va frame s.vmm t.vmm) (page : va.toNat % 4096 = 0)
    (low : va.toNat < 2 ^ 48) (bytes : ∀ f, f ≠ frame → t.bytes f = s.bytes f)
    (holds : ∀ j < 4096, t.bytes frame j = byteAt (va.toNat + j)) :
    Loads known space {va.toNat / 4096} (contentOn byteAt {va.toNat / 4096}) s t where
  inside := fun _ _ h => h.1
  low := fun n h => by
    rw [Set.mem_singleton_iff.mp h]
    omega
  new := fun a b h => by
    obtain ⟨inside, rfl⟩ := h
    have number : a / 4096 = va.toNat / 4096 := inside
    have value : (BitVec.ofNat 64 a : Word).toNat = a := by
      rw [BitVec.toNat_ofNat]
      omega
    obtain ⟨w, mapped⟩ := put.here
    refine ⟨frame, w, ?_, put.used, ?_⟩
    · have same : pathOf (BitVec.ofNat 64 a) = pathOf va := by
        rw [pathOf_eq_iff, value]
        omega
      rw [← mapped]
      simp only [pathOf, List.cons.injEq, and_true] at same
      obtain ⟨l1, l2, l3, l4⟩ := same
      simp only [Memory.Paging.translate, l1, l2, l3, l4]
    · rw [holds _ (Nat.mod_lt _ (by decide))]
      congr 1
      omega
  others := fun r live a off => by
    refine put.others r live a fun h => off ⟨h.1, ?_⟩
    have same := pathOf_eq_iff.mp h.2
    change a.toNat / 4096 % 2 ^ 36 = va.toNat / 4096
    omega
  bytes := fun f used => bytes f fun same => by
    rw [same, put.free] at used
    cases used
  grows := put.grows

/-! ## The loops -/

/-- The pages from the one at `va` up to `stop`. -/
def pagesFrom (va stop : Nat) : Set Nat := {n | va / 4096 ≤ n ∧ n < stop / 4096}

theorem loadPages_loads (put : PagesPut I known own space) (here : known space)
    (checked : Checked img ph) (fits : segmentVaddr.toNat + ph.filesz.toNat < 2 ^ 64)
    {vaddrEnd : Word} (stop : vaddrEnd.toNat % 4096 = 0) (low : vaddrEnd.toNat ≤ 2 ^ 48) {fuel : Nat}
    (inv : I s.vmm) (page : va.toNat % 4096 = 0)
    (mine : ∀ n ∈ pagesFrom va.toNat vaddrEnd.toNat, own (BitVec.ofNat 64 (n * 4096)))
    (ran : loadPages space img ph segmentVaddr vaddrEnd fuel va s = some (true, t)) :
    I t.vmm ∧ Loads known space (pagesFrom va.toNat vaddrEnd.toNat)
      (contentOn (pageByte img ph segmentVaddr.toNat) (pagesFrom va.toNat vaddrEnd.toNat)) s t := by
  have done {va : Word} (past : ¬ va < vaddrEnd) {s : Loader} :
      Loads known space (pagesFrom va.toNat vaddrEnd.toNat)
        (contentOn (pageByte img ph segmentVaddr.toNat) (pagesFrom va.toNat vaddrEnd.toNat)) s s := by
    have none (n : Nat) : n ∉ pagesFrom va.toNat vaddrEnd.toNat := by
      rw [BitVec.lt_def] at past
      rintro ⟨from_, below⟩
      omega
    exact (Loads.nothing rfl rfl).congr (Set.eq_empty_of_forall_notMem none)
      fun a b h => none _ h.1
  induction fuel generalizing va s with
  | zero =>
    rw [loadPages] at ran
    split at ran
    · cases ran
    · next past =>
      cases ran
      exact ⟨inv, done past⟩
  | succ fuel ih =>
    rw [loadPages] at ran
    split at ran
    swap
    · next past =>
      cases ran
      exact ⟨inv, done past⟩
    next more =>
    have below := BitVec.lt_def.mp more
    have next_ : (va + pageSize4k).toNat = va.toNat + 4096 := by
      rw [BitVec.toNat_add, show pageSize4k.toNat = 4096 from rfl]
      omega
    have address : (BitVec.ofNat 64 (va.toNat / 4096 * 4096) : Word) = va := by
      apply BitVec.eq_of_toNat_eq
      rw [BitVec.toNat_ofNat]
      omega
    have first : own va := by
      have := mine (va.toNat / 4096) ⟨Nat.le_refl _, by omega⟩
      rwa [address] at this
    rcases result : loadPage space img ph segmentVaddr va s with ⟨_ | _, u⟩
    all_goals rw [result] at ran
    · cases ran
    obtain ⟨kept, frame, page_, bytes, holds⟩ :=
      loadPage_put put checked inv first (by omega) fits result
    have one := page_.loads (pageByte img ph segmentVaddr.toNat) page (by omega) bytes holds
    have later (n : Nat) (h : n ∈ pagesFrom (va + pageSize4k).toNat vaddrEnd.toNat) :
        n ∈ pagesFrom va.toNat vaddrEnd.toNat := by
      rw [pagesFrom, Set.mem_ofPred_eq, next_] at h
      exact ⟨by omega, h.2⟩
    obtain ⟨kept', rest⟩ := ih kept (by omega) (fun n h => mine n (later n h)) ran
    have apart : Disjoint {va.toNat / 4096} (pagesFrom (va + pageSize4k).toNat vaddrEnd.toNat) := by
      rw [Set.disjoint_singleton_left, pagesFrom, Set.mem_ofPred_eq, next_]
      omega
    have split_ (n : Nat) : n ∈ pagesFrom va.toNat vaddrEnd.toNat ↔
        n = va.toNat / 4096 ∨ n ∈ pagesFrom (va + pageSize4k).toNat vaddrEnd.toNat := by
      rw [pagesFrom, pagesFrom, Set.mem_ofPred_eq, Set.mem_ofPred_eq, next_]
      omega
    refine ⟨kept', (one.trans here rest apart).congr (Set.ext split_) fun a b h => ?_⟩
    exact ((split_ _).mp h.1).imp (fun at_ => ⟨at_, h.2⟩) fun in_ => ⟨in_, h.2⟩

/-- Where a segment starts in memory; `load_segment` has checked that this does not wrap. -/
def segmentStart (ph : Phdr) (loadBias : Word) : Nat := ph.vaddr.toNat + loadBias.toNat

/-- The pages that bytes of a segment lie in. -/
def segmentPages (ph : Phdr) (loadBias : Word) : Set Nat :=
  {n | ∃ k < ph.memsz.toNat, n = (segmentStart ph loadBias + k) / 4096}

theorem segmentPages_eq {loadBias : Word} (some_ : 0 < ph.memsz.toNat) :
    segmentPages ph loadBias = pagesFrom (segmentStart ph loadBias / 4096 * 4096)
      ((segmentStart ph loadBias + ph.memsz.toNat + 4095) / 4096 * 4096) := by
  ext n
  rw [segmentPages, pagesFrom, Set.mem_ofPred_eq, Set.mem_ofPred_eq]
  constructor
  · rintro ⟨k, inside, rfl⟩
    omega
  · intro between
    by_cases first : n * 4096 ≤ segmentStart ph loadBias
    · exact ⟨0, some_, by omega⟩
    · exact ⟨n * 4096 - segmentStart ph loadBias, by omega, by omega⟩

/-- Below 128 TiB the addresses of a segment do not wrap. -/
theorem segment_toNat {loadBias : Word}
    (room : segmentStart ph loadBias + ph.memsz.toNat ≤ 2 ^ 47) :
    (ph.vaddr + loadBias).toNat = segmentStart ph loadBias := by
  rw [BitVec.toNat_add]
  exact Nat.mod_eq_of_lt (by unfold segmentStart at *; omega)

theorem segmentEnd_toNat {loadBias : Word}
    (room : segmentStart ph loadBias + ph.memsz.toNat ≤ 2 ^ 47) :
    (ph.vaddr + loadBias + ph.memsz + pageSize4k - 1).toNat =
      segmentStart ph loadBias + ph.memsz.toNat + 4095 := by
  have start := segment_toNat room
  have one : (1 : Word) ≤ ph.vaddr + loadBias + ph.memsz + pageSize4k := by
    rw [BitVec.le_def, BitVec.toNat_add, BitVec.toNat_add, start,
      show pageSize4k.toNat = 4096 from rfl, show (1 : Word).toNat = 1 from rfl]
    omega
  rw [BitVec.toNat_sub_of_le one, BitVec.toNat_add, BitVec.toNat_add, start,
    show pageSize4k.toNat = 4096 from rfl, show (1 : Word).toNat = 1 from rfl]
  omega

theorem loadSegment_loads (put : PagesPut I known own space) (here : known space) {loadBias : Word}
    (room : segmentStart ph loadBias + ph.memsz.toNat ≤ 2 ^ 47) (inv : I s.vmm)
    (mine : ∀ n ∈ segmentPages ph loadBias, own (BitVec.ofNat 64 (n * 4096)))
    (ran : loadSegment space img ph loadBias s = some (true, t)) :
    I t.vmm ∧ Loads known space (segmentPages ph loadBias)
      (contentOn (pageByte img ph (segmentStart ph loadBias)) (segmentPages ph loadBias)) s t := by
  have start := segment_toNat room
  unfold loadSegment at ran
  split at ran
  · cases ran
  next bounds =>
  split at ran
  · cases ran
  simp only at ran
  split at ran
  · next empty =>
    cases ran
    have none (n : Nat) : n ∉ segmentPages ph loadBias := by
      rintro ⟨k, inside, -⟩
      rw [empty] at inside
      exact absurd inside (Nat.not_lt_zero k)
    exact ⟨inv, (Loads.nothing rfl rfl).congr (Set.eq_empty_of_forall_notMem none)
      fun a b h => none _ h.1⟩
  next some_ =>
  split at ran
  · cases ran
  simp only [not_or, gt_iff_lt, BitVec.not_lt] at bounds
  obtain ⟨fileMem, offset, filesz⟩ := bounds
  have low := BitVec.le_def.mp offset
  have few := BitVec.le_def.mp filesz
  rw [BitVec.toNat_sub_of_le offset] at few
  have checked : Checked img ph := ⟨low, by omega⟩
  have sizes := BitVec.le_def.mp fileMem
  have positive : 0 < ph.memsz.toNat := by
    rw [Nat.pos_iff_ne_zero]
    intro zero
    exact some_ (BitVec.eq_of_toNat_eq zero)
  have first := toNat_pageMask (ph.vaddr + loadBias)
  have last := toNat_pageMask (ph.vaddr + loadBias + ph.memsz + pageSize4k - 1)
  rw [start] at first
  rw [segmentEnd_toNat room] at last
  rw [segmentPages_eq positive] at mine ⊢
  rw [← first, ← last] at mine ⊢
  rw [← start]
  exact loadPages_loads put here checked (by omega) (by omega) (by omega) inv (by omega) mine ran

end

/-! ## The image -/

/-- The segments of an image can be placed in pages of the space's `own`, where none shares a
page with another. -/
structure Placeable (own : Word → Prop) (phdrs : Phdrs) (loadBias : Word) (phnum : Nat) :
    Prop where
  room : ∀ i < phnum, (phdrs.header i).type = ptLoad →
    segmentStart (phdrs.header i) loadBias + (phdrs.header i).memsz.toNat ≤ 2 ^ 47
  mine : ∀ i < phnum, (phdrs.header i).type = ptLoad →
    ∀ n ∈ segmentPages (phdrs.header i) loadBias, own (BitVec.ofNat 64 (n * 4096))
  apart : ∀ i j, i < j → j < phnum → (phdrs.header i).type = ptLoad →
    (phdrs.header j).type = ptLoad →
    Disjoint (segmentPages (phdrs.header i) loadBias) (segmentPages (phdrs.header j) loadBias)

/-- The pages of the segments from header `i` up to `stop`. -/
def imagePages (phdrs : Phdrs) (loadBias : Word) (i stop : Nat) : Set Nat :=
  {n | ∃ j, i ≤ j ∧ j < stop ∧ (phdrs.header j).type = ptLoad ∧
    n ∈ segmentPages (phdrs.header j) loadBias}

/-- What they hold. -/
def imageContent (img : Image) (phdrs : Phdrs) (loadBias : Word) (i stop a : Nat) (b : UInt8) :
    Prop :=
  ∃ j, i ≤ j ∧ j < stop ∧ (phdrs.header j).type = ptLoad ∧
    contentOn (pageByte img (phdrs.header j) (segmentStart (phdrs.header j) loadBias))
      (segmentPages (phdrs.header j) loadBias) a b

section
variable {I : Vmm → Prop} {known own : Word → Prop} {space loadBias entry : Word} {img : Image}
  {s t : Loader} {phdrs : Phdrs} {pages : Set Nat} {content : Nat → UInt8 → Prop} {left i : Nat}

/-- Looking at the image puts nothing anywhere. -/
theorem Loads.looked {start len : Nat}
    (loads : Loads known space pages content (s.look start len) t) :
    Loads known space pages content s t where
  inside := loads.inside
  low := loads.low
  new := loads.new
  others := loads.others
  bytes := loads.bytes
  grows := loads.grows

theorem imagePages_eq (headers : (phdrs.header i).type = ptLoad) (more : 0 < left) :
    imagePages phdrs loadBias i (i + left) =
      segmentPages (phdrs.header i) loadBias ∪ imagePages phdrs loadBias (i + 1) (i + left) := by
  ext n
  constructor
  · rintro ⟨j, first, last, load, inside⟩
    by_cases own : j = i
    · exact Or.inl (own ▸ inside)
    · exact Or.inr ⟨j, by omega, last, load, inside⟩
  · rintro (inside | ⟨j, first, last, load, inside⟩)
    · exact ⟨i, Nat.le_refl _, by omega, headers, inside⟩
    · exact ⟨j, by omega, last, load, inside⟩

/-- A header that is not to be loaded adds nothing. -/
theorem imagePages_skip (skipped : (phdrs.header i).type ≠ ptLoad) (stop : Nat) :
    imagePages phdrs loadBias i stop = imagePages phdrs loadBias (i + 1) stop := by
  ext n
  constructor
  · rintro ⟨j, first, last, load, inside⟩
    have other : j ≠ i := fun same => skipped (same ▸ load)
    exact ⟨j, by omega, last, load, inside⟩
  · rintro ⟨j, first, last, load, inside⟩
    exact ⟨j, by omega, last, load, inside⟩

theorem loadSegments_loads (put : PagesPut I known own space) (here : known space)
    (fit : Placeable own phdrs loadBias (i + left)) (inv : I s.vmm)
    (ran : loadSegments space img phdrs loadBias left i s = some (true, t)) :
    I t.vmm ∧ Loads known space (imagePages phdrs loadBias i (i + left))
      (imageContent img phdrs loadBias i (i + left)) s t := by
  induction left generalizing i s with
  | zero =>
    cases ran
    refine ⟨inv, (Loads.nothing rfl rfl).congr (Set.eq_empty_of_forall_notMem ?_) ?_⟩
    · rintro n ⟨j, first, last, -⟩
      omega
    · rintro a b ⟨j, first, last, -⟩
      omega
  | succ left ih =>
    have next_ : i + (left + 1) = i + 1 + left := by omega
    rw [loadSegments] at ran
    split at ran
    · next skipped =>
      rw [next_] at fit ⊢
      have before : I (s.look (phdrs.start i) phdrSize).vmm := inv
      obtain ⟨kept, loads⟩ := ih fit before ran
      refine ⟨kept, loads.looked.congr (imagePages_skip skipped _) ?_⟩
      rintro a b ⟨j, first, last, load, holds⟩
      have other : j ≠ i := fun same => skipped (same ▸ load)
      exact ⟨j, by omega, last, load, holds⟩
    · next loaded =>
      have headers : (phdrs.header i).type = ptLoad := not_not.mp loaded
      have before : I (s.look (phdrs.start i) phdrSize).vmm := inv
      rcases segment : loadSegment space img (phdrs.header i) loadBias
        (s.look (phdrs.start i) phdrSize) with _ | ⟨_ | _, u⟩
      all_goals rw [segment] at ran
      · cases ran
      · cases ran
      obtain ⟨kept, first⟩ := loadSegment_loads put here (fit.room i (by omega) headers) before
        (fit.mine i (by omega) headers) segment
      have apart : Disjoint (segmentPages (phdrs.header i) loadBias)
          (imagePages phdrs loadBias (i + 1) (i + 1 + left)) := by
        rw [Set.disjoint_left]
        rintro n inside ⟨j, after, last, load, also⟩
        exact Set.disjoint_left.mp (fit.apart i j (by omega) (by omega) headers load) inside also
      have union : imagePages phdrs loadBias i (i + (left + 1)) = _ :=
        imagePages_eq headers (Nat.succ_pos left)
      rw [next_] at fit union ⊢
      obtain ⟨kept', rest⟩ := ih fit kept ran
      refine ⟨kept', (first.looked.trans here rest apart).congr union ?_⟩
      rintro a b ⟨j, after, last, load, holds⟩
      by_cases own : j = i
      · exact Or.inl (own ▸ holds)
      · exact Or.inr ⟨j, by omega, last, load, holds⟩

/-- The entry point lies in a segment that may be executed. -/
def EntersCode (phdrs : Phdrs) (entry : Word) (phnum : Nat) : Prop :=
  ∃ i < phnum, (phdrs.header i).type = ptLoad ∧ (phdrs.header i).flags &&& pfX ≠ 0 ∧
    (phdrs.header i).vaddr ≤ entry ∧
    entry.toNat < (phdrs.header i).vaddr.toNat + (phdrs.header i).memsz.toNat

theorem entryLoop_true (ran : (entryLoop phdrs entry left i s).1 = true) :
    EntersCode phdrs entry (i + left) := by
  induction left generalizing i s with
  | zero => cases ran
  | succ left ih =>
    have next_ : i + (left + 1) = i + 1 + left := by omega
    rw [entryLoop] at ran
    split at ran
    · rw [next_]
      exact ih ran
    next code =>
    split at ran
    · cases ran
    next straight =>
    split at ran
    · next inside =>
      simp only [not_or, not_not] at code
      have low := BitVec.le_def.mp inside.1
      have high := BitVec.lt_def.mp inside.2
      rw [BitVec.toNat_add] at high
      exact ⟨i, by omega, code.1, code.2.1, inside.1, by omega⟩
    · rw [next_]
      exact ih ran

theorem entryLoop_bytes (phdrs : Phdrs) (entry : Word) (left i : Nat) (s : Loader) :
    (entryLoop phdrs entry left i s).2.bytes = s.bytes := by
  induction left generalizing i s with
  | zero => rfl
  | succ left ih =>
    unfold entryLoop
    simp only
    split
    · exact ih ..
    split
    · rfl
    split
    · rfl
    · exact ih ..

/-- Where `elf_load` ends well, the entry point was found in a segment of code, and the segments
were loaded with nothing changed before. -/
theorem elfLoad_some (ran : elfLoad space img loadBias s = some (some entry, t)) :
    EntersCode (phdrsOf img (ehdrOf img.data)) (ehdrOf img.data).entry (ehdrOf img.data).phnum ∧
      entry = (ehdrOf img.data).entry + loadBias ∧
      ∃ u : Loader, u.vmm = s.vmm ∧ u.bytes = s.bytes ∧
        loadSegments space img (phdrsOf img (ehdrOf img.data)) loadBias (ehdrOf img.data).phnum 0 u =
          some (true, t) := by
  unfold elfLoad at ran
  split at ran
  · cases ran
  generalize ehdrOf img.data = eh at ran ⊢
  simp only at ran
  split at ran
  · cases ran
  split at ran
  · cases ran
  split at ran
  · cases ran
  split at ran
  · cases ran
  split at ran
  · cases ran
  split at ran
  · cases ran
  have tables := entryLoop_vmm (phdrsOf img eh) eh.entry eh.phnum 0 (s.look 0 ehdrSize)
  have bytes := entryLoop_bytes (phdrsOf img eh) eh.entry eh.phnum 0 (s.look 0 ehdrSize)
  have code := @entryLoop_true eh.entry (s.look 0 ehdrSize) (phdrsOf img eh) eh.phnum 0
  unfold entryIsExecutable at ran
  rcases checked : entryLoop (phdrsOf img eh) eh.entry eh.phnum 0 (s.look 0 ehdrSize) with
    ⟨_ | _, u⟩
  all_goals rw [checked] at tables bytes code ran
  · cases ran
  simp only at ran
  rcases segments : loadSegments space img (phdrsOf img eh) loadBias eh.phnum 0 u with
    _ | ⟨_ | _, v⟩
  all_goals rw [segments] at ran
  · cases ran
  · cases ran
  simp only at ran
  split at ran
  · cases ran
  · cases ran
    rw [Nat.zero_add] at code
    exact ⟨code rfl, rfl, u, tables, bytes, segments⟩

/-- Every byte of an image that `elf_load` takes stands where its headers want it. -/
theorem elfLoad_loads (put : PagesPut I known own space) (here : known space)
    (fit : Placeable own (phdrsOf img (ehdrOf img.data)) loadBias (ehdrOf img.data).phnum)
    (inv : I s.vmm) (ran : elfLoad space img loadBias s = some (some entry, t)) :
    I t.vmm ∧ Loads known space
      (imagePages (phdrsOf img (ehdrOf img.data)) loadBias 0 (ehdrOf img.data).phnum)
      (imageContent img (phdrsOf img (ehdrOf img.data)) loadBias 0 (ehdrOf img.data).phnum) s t := by
  obtain ⟨-, -, u, vmm, bytes, segments⟩ := elfLoad_some ran
  rw [← vmm] at inv
  rw [← Nat.zero_add (ehdrOf img.data).phnum] at fit ⊢
  obtain ⟨kept, loads⟩ := loadSegments_loads put here fit inv segments
  refine ⟨kept, loads.inside, loads.low, loads.new, ?_, ?_, ?_⟩
  · rw [← vmm]
    exact loads.others
  · rw [← vmm, ← bytes]
    exact loads.bytes
  · rw [← vmm]
    exact loads.grows

end

end MiniKernel.Elf
