import MiniKernel.Elf.LoaderBounds

/-!
# What loading an image does to the page tables

Source: kernel/core/elf/elf_loader.c:44-160. Whatever the image says, the tables
only see frames taken and mapped for the user, page by page.
-/
namespace MiniKernel.Elf
open Memory.Paging (Word Vmm vmmWritable vmmUser user)

/-- A frame taken for a page of `space`, and mapped there for the user, keeps `I`. -/
structure PagesKeep (I : Vmm → Prop) (space : Word) : Prop where
  refused : ∀ {st st' : Vmm}, I st → st.allocFrame = (0, st') → I st'
  mapped : ∀ {st st' : Vmm} {frame : Word}, I st → st.allocFrame = (frame, st') → frame ≠ 0 →
    ∀ va flags, user flags = true → I (st'.vmmMapPageIn space va frame flags).2

section
variable {I : Vmm → Prop} {space : Word} {img : Image}

@[simp] theorem zeroBytes_vmm (frame : Word) (n : Nat) (s : Loader) :
    (s.zeroBytes frame n).vmm = s.vmm := by
  induction n with
  | zero => rfl
  | succ n ih => exact ih

@[simp] theorem copyBytes_vmm (frame pageOff fileOff : Word) (n : Nat) (s : Loader) :
    (s.copyBytes img frame pageOff fileOff n).vmm = s.vmm := by
  induction n with
  | zero => rfl
  | succ n ih => exact ih

/-- Whatever else they say, the flags of a page of a segment let users in. -/
theorem user_pageFlags (ph : Phdr) :
    user (if ph.flags &&& pfW ≠ 0 then vmmUser ||| vmmWritable else vmmUser) = true := by
  split
  · decide
  · decide

theorem loadPage_keeps (img : Image) (keep : PagesKeep I space) (ph : Phdr)
    (segmentVaddr va : Word) {s : Loader} (inv : I s.vmm) : I (loadPage space img ph segmentVaddr va s).2.vmm := by
  unfold loadPage
  rcases alloc : s.vmm.allocFrame with ⟨frame, vmm⟩
  simp only
  split
  · next none_ =>
    rw [none_] at alloc
    exact keep.refused inv alloc
  next some_ =>
  have allowed := user_pageFlags ph
  generalize (if ph.flags &&& pfW ≠ 0 then vmmUser ||| vmmWritable else vmmUser) = flags at allowed ⊢
  have mapped := keep.mapped inv alloc some_ va flags allowed
  rw [zeroBytes_vmm]
  split
  · exact mapped
  split
  · rw [copyBytes_vmm]
    exact mapped
  · exact mapped

theorem loadPages_keeps (keep : PagesKeep I space) {ph : Phdr} {segmentVaddr vaddrEnd : Word}
    {fuel : Nat} {va : Word} {s t : Loader} {ok : Bool} (inv : I s.vmm)
    (ends : loadPages space img ph segmentVaddr vaddrEnd fuel va s = some (ok, t)) : I t.vmm := by
  induction fuel generalizing va s with
  | zero =>
    rw [loadPages] at ends
    split at ends
    · cases ends
    · cases ends
      exact inv
  | succ fuel ih =>
    rw [loadPages] at ends
    split at ends
    · have page := loadPage_keeps img keep ph segmentVaddr va inv
      rcases result : loadPage space img ph segmentVaddr va s with ⟨_ | _, u⟩
      all_goals rw [result] at page ends
      · cases ends
        exact page
      · exact ih page ends
    · cases ends
      exact inv

theorem loadSegment_keeps (keep : PagesKeep I space) {ph : Phdr} {loadBias : Word} {s t : Loader}
    {ok : Bool} (inv : I s.vmm) (ends : loadSegment space img ph loadBias s = some (ok, t)) :
    I t.vmm := by
  unfold loadSegment at ends
  split at ends
  · cases ends
    exact inv
  split at ends
  · cases ends
    exact inv
  simp only at ends
  split at ends
  · cases ends
    exact inv
  split at ends
  · cases ends
    exact inv
  · exact loadPages_keeps keep inv ends

theorem entryLoop_vmm (phdrs : Phdrs) (entry : Word) (left i : Nat) (s : Loader) :
    (entryLoop phdrs entry left i s).2.vmm = s.vmm := by
  induction left generalizing i s with
  | zero => rfl
  | succ left ih =>
    unfold entryLoop
    simp only
    split
    · exact ih ..
    split
    · rfl
    split
    · rfl
    · exact ih ..

theorem loadSegments_keeps (keep : PagesKeep I space) {phdrs : Phdrs} {loadBias : Word}
    {left i : Nat} {s t : Loader} {ok : Bool} (inv : I s.vmm)
    (ends : loadSegments space img phdrs loadBias left i s = some (ok, t)) : I t.vmm := by
  induction left generalizing i s with
  | zero =>
    cases ends
    exact inv
  | succ left ih =>
    unfold loadSegments at ends
    simp only at ends
    split at ends
    · exact ih (i := i + 1) (s := s.look (phdrs.start i) phdrSize) inv ends
    · rcases segment : loadSegment space img (phdrs.header i) loadBias
        (s.look (phdrs.start i) phdrSize) with _ | ⟨ok', u⟩
      all_goals rw [segment] at ends
      · cases ends
      · have kept := loadSegment_keeps keep (s := s.look (phdrs.start i) phdrSize) inv segment
        cases ok' with
        | false =>
          cases ends
          exact kept
        | true => exact ih kept ends

theorem loadSegments_answers (space : Word) (img : Image) (phdrs : Phdrs) (loadBias : Word)
    (left i : Nat) (s : Loader) :
    ∃ ok t, loadSegments space img phdrs loadBias left i s = some (ok, t) := by
  induction left generalizing i s with
  | zero => exact ⟨true, s, rfl⟩
  | succ left ih =>
    unfold loadSegments
    simp only
    split
    · exact ih (i + 1) (s.look (phdrs.start i) phdrSize)
    · obtain ⟨ok, t, ends, -⟩ := loadSegment_ends space img (phdrs.header i) loadBias
        (s.look (phdrs.start i) phdrSize)
      rw [ends]
      cases ok with
      | false => exact ⟨false, t, rfl⟩
      | true => exact ih (i + 1) t

/-- There is always an answer. -/
theorem elfLoad_answers (space : Word) (img : Image) (loadBias : Word) (s : Loader) :
    ∃ result t, elfLoad space img loadBias s = some (result, t) := by
  unfold elfLoad
  split
  · exact ⟨none, s, rfl⟩
  generalize s.look 0 ehdrSize = s₁
  generalize ehdrOf img.data = eh
  simp only
  split
  · exact ⟨none, s₁, rfl⟩
  split
  · exact ⟨none, s₁, rfl⟩
  split
  · exact ⟨none, s₁, rfl⟩
  split
  · exact ⟨none, s₁, rfl⟩
  split
  · exact ⟨none, s₁, rfl⟩
  split
  · exact ⟨none, s₁, rfl⟩
  rcases entryIsExecutable img eh s₁ with ⟨_ | _, t⟩
  · exact ⟨none, t, rfl⟩
  obtain ⟨ok, u, ends⟩ := loadSegments_answers space img (phdrsOf img eh) loadBias eh.phnum 0 t
  simp only [ends]
  cases ok with
  | false => exact ⟨none, u, rfl⟩
  | true =>
    simp only
    split
    · exact ⟨none, u, rfl⟩
    · exact ⟨_, u, rfl⟩

/-- For every image and every bias: what a page keeps, `elf_load` keeps. -/
theorem elfLoad_keeps (keep : PagesKeep I space) {loadBias : Word} {s t : Loader}
    {result : Option Word} (inv : I s.vmm)
    (ends : elfLoad space img loadBias s = some (result, t)) : I t.vmm := by
  unfold elfLoad at ends
  split at ends
  · cases ends
    exact inv
  have looked : I (s.look 0 ehdrSize).vmm := inv
  generalize s.look 0 ehdrSize = s₁ at looked ends
  generalize ehdrOf img.data = eh at ends
  simp only at ends
  split at ends
  · cases ends
    exact looked
  split at ends
  · cases ends
    exact looked
  split at ends
  · cases ends
    exact looked
  split at ends
  · cases ends
    exact looked
  split at ends
  · cases ends
    exact looked
  split at ends
  · cases ends
    exact looked
  have entry := entryLoop_vmm (phdrsOf img eh) eh.entry eh.phnum 0 s₁
  rw [← entry] at looked
  unfold entryIsExecutable at ends
  rcases checked : entryLoop (phdrsOf img eh) eh.entry eh.phnum 0 s₁ with ⟨_ | _, u⟩
  all_goals rw [checked] at looked ends
  · cases ends
    exact looked
  simp only at ends
  rcases segments : loadSegments space img (phdrsOf img eh) loadBias eh.phnum 0 u with _ | ⟨ok, v⟩
  all_goals rw [segments] at ends
  · cases ends
  · have kept := loadSegments_keeps keep looked segments
    cases ok with
    | false =>
      cases ends
      exact kept
    | true =>
      simp only at ends
      split at ends
      · cases ends
        exact kept
      · cases ends
        exact kept

end
end MiniKernel.Elf
