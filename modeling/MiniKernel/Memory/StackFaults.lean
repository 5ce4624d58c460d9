import MiniKernel.Memory.PageMap

/-!
# Page faults that grow a stack

Source: kernel/mm/vmm_growable_stack.c:45-83 and kernel/mm/pmm.c:126-137. The
list of regions is read only; the tables are those of the current space.
-/
namespace MiniKernel.Memory.Paging
open Lib Lib.Radix

/-- `stack_region_t`; the links are the list's. -/
structure StackRegion where
  space : Word
  stackTop : Word
  stackLimit : Word

/-- `find_region`. -/
def findRegion (space page : Word) : List StackRegion → Option StackRegion
  | [] => none
  | region :: next =>
    if region.space ≠ space then findRegion space page next
    else if page < region.stackLimit ∨ page ≥ region.stackTop then findRegion space page next
    else some region

/-- The page of a fault address. -/
def faultPage (faultAddr : Word) : Word := faultAddr &&& ~~~(4096 - 1)

/-- The end of `vmm_handle_page_fault`: a zeroed frame for the page. -/
def Vmm.backPage (space page : Word) (st : Vmm) : Bool × Vmm :=
  let (frame, st) := st.allocZeroedFrame
  if frame = 0 then (false, st)
  else
    let (mapped, st) := st.vmmMapPageIn space page frame (vmmWritable ||| vmmUser)
    if mapped then (true, st) else (false, st.freeFrame frame)

/-- `vmm_handle_page_fault`, on a CPU whose CR3 holds `cr3`; `true` for 1. -/
def Vmm.vmmHandlePageFault (stackRegions : List StackRegion) (cr3 faultAddr : Word) (st : Vmm) :
    Bool × Vmm :=
  let space := vmmCurrentAddressSpace cr3
  let page := faultPage faultAddr
  match findRegion space page stackRegions with
  | none => (false, st)
  | some _ => if st.vmmIsMappedIn space page then (false, st) else st.backPage space page

/-- The list holds a region of the space that the page lies in. -/
def InRegion (space page : Word) (stackRegions : List StackRegion) : Prop :=
  ∃ region ∈ stackRegions,
    region.space = space ∧ region.stackLimit ≤ page ∧ page < region.stackTop

section
variable {space page c : Word} {st st' : Vmm} {P : Path}

theorem findRegion_isSome (space page : Word) (stackRegions : List StackRegion) :
    (findRegion space page stackRegions).isSome = true ↔ InRegion space page stackRegions := by
  induction stackRegions with
  | nil => simp [findRegion, InRegion]
  | cons region next ih =>
    rw [findRegion, InRegion, List.exists_mem_cons_iff, ← InRegion]
    split
    · next other => simp [ih, other]
    · next own =>
      split
      · next outside =>
        rw [ih, or_iff_right]
        rintro ⟨-, low, high⟩
        rcases outside with below | above
        · exact absurd low (BitVec.not_le.mpr below)
        · exact absurd high (BitVec.not_lt.mpr above)
      · next inside =>
        rw [not_or, BitVec.not_lt, BitVec.not_le] at inside
        simp [not_not.mp own, inside]

/-- A table that is missing counts. -/
theorem missing_pos {mem : Tables} {T : Tree Word Word} (absent : nodeAt mem T P = none) :
    0 < missing mem T P := by
  rw [missing, Finset.card_pos]
  exact ⟨P, by simp [absent]⟩

/-- The page is backed by `frame`, which was free and holds zeros; that is all. -/
structure PageBacked (space page frame : Word) (st st' : Vmm) : Prop where
  built : Built space st'
  fresh : st.usedAt frame = false
  taken : st'.usedAt frame = true
  zeroed : ∀ j < entriesPerTable, st'.mem frame j = 0
  apart : ∀ q, nodeAt st'.mem (tablesOf space) q ≠ some frame
  here : translate st'.mem space page = some ⟨frame, true, true⟩
  others : ∀ a, pathOf a ≠ pathOf page → translate st'.mem space a = translate st.mem space a

/-- No translation changed, and what is newly taken is a table of the space. -/
structure FaultRefused (space : Word) (st st' : Vmm) : Prop where
  built : Built space st'
  translated : ∀ a, translate st'.mem space a = translate st.mem space a
  frames : ∀ f, isUsed st'.pmm f = true → isUsed st.pmm f = true ∨
    ∃ q d, nodeAt st'.mem (tablesOf space) q = some d ∧ f = frameOf d.toNat

theorem FaultRefused.refl (built : Built space st) : FaultRefused space st st :=
  ⟨built, fun _ => rfl, fun _ used => Or.inl used⟩

/-- A frame that was handed out and is given back, with tables placed in between. -/
theorem Handed.givenBack {st₁ st₂ : Vmm} (handed : Handed st st₁ c) (built : Built space st)
    (extended : Extended space P st₁ st₂) : FaultRefused space st (st₂.freeFrame c) := by
  obtain ⟨built₁, -, translated₁, apart⟩ := built.handed handed
  have built₂ := built₁.extended extended
  have mem : (st₂.freeFrame c).mem = st₂.mem := rfl
  have other := extended.unlinked handed.usedAt apart
  have tables (q : Path) (d : Word) (node : nodeAt st₂.mem (tablesOf space) q = some d) :
      (st₂.freeFrame c).usedAt d = true := by
    have used := built₂.wf.taken q d node
    rw [Vmm.usedAt] at used
    rw [Vmm.usedAt, Vmm.isUsed_freeFrame, used, Bool.true_and, Bool.not_eq_true',
      decide_eq_false_iff_not]
    rintro ⟨-, same⟩
    rw [frameOf_inj (tablesOf_aligned node) handed.aligned same] at node
    exact other q node
  obtain ⟨wf, -, -⟩ := built₂.wf.of_tables
    (fun _ d _ => (rfl : (st₂.freeFrame c).mem d = st₂.mem d)) tables
  refine ⟨⟨wf, built₂.upper⟩, fun a => ?_, fun f used => ?_⟩
  · rw [mem, extended.translated, translated₁]
  · rw [Vmm.isUsed_freeFrame, Bool.and_eq_true, Bool.not_eq_true', decide_eq_false_iff_not] at used
    rcases extended.took f used.1 with before | table
    · rw [handed.used, Bool.or_eq_true, decide_eq_true_iff] at before
      rcases before with before | rfl
      · exact Or.inl before
      · left
        rw [isUsed, if_pos (Nat.not_lt.mp fun tracked => used.2 ⟨tracked, rfl⟩)]
    · exact Or.inr table

/-- A page that was not mapped gets a frame exactly if there is one more than the
tables on the way to it need. -/
theorem Built.backPage (built : Built space st) (zero : isUsed st.pmm 0 = true) (page : Word) :
    (∃ frame st', st.backPage space page = (true, st') ∧ PageBacked space page frame st st' ∧
        missing st.mem (tablesOf space) (tablePath page) + 1 ≤ st.freeCount) ∨
      ∃ st', st.backPage space page = (false, st') ∧ FaultRefused space st st' ∧
        st.freeCount < missing st.mem (tablesOf space) (tablePath page) + 1 := by
  rcases Vmm.allocZeroedFrame_spec zero with ⟨failed, none_⟩ | ⟨frame, st₁, alloc, handed, zeroed⟩
  · right
    refine ⟨st, ?_, FaultRefused.refl built, by omega⟩
    rw [Vmm.backPage, failed]
    exact if_pos rfl
  obtain ⟨built₁, nodes₁, translated₁, apart₁⟩ := built.handed handed
  have same : missing st₁.mem (tablesOf space) (tablePath page) =
      missing st.mem (tablesOf space) (tablePath page) := by
    simp only [missing, nodes₁]
  have count₁ := handed.count
  have unfolded (mapped : Bool) (st' : Vmm)
      (call : st₁.vmmMapPageIn space page frame (vmmWritable ||| vmmUser) = (mapped, st')) :
      st.backPage space page = (mapped, if mapped then st' else st'.freeFrame frame) := by
    rw [Vmm.backPage, alloc]
    dsimp only
    rw [if_neg handed.nonzero, call]
    cases mapped with
    | false => rfl
    | true => rfl
  rcases built₁.wf.vmmMapPageIn page frame (vmmWritable ||| vmmUser) with
    ⟨pt, st₂, made, extended, node, above⟩ | ⟨st₂, st₃, failed, extended, refused, absent⟩
  · left
    have written := extended.wf.leaf node above (pageEntry frame (vmmWritable ||| vmmUser))
    have counted := extended.count
    rw [same, missing_eq_zero node] at counted
    have apart := extended.unlinked handed.usedAt apart₁
    have other : frame ≠ pt := by
      rintro rfl
      exact apart _ node
    have built₂ := built₁.extended extended
    refine ⟨frame, st₂.setEntry pt (levelIndex 12 page) (pageEntry frame (vmmWritable ||| vmmUser)),
      unfolded true _ made, ?_, by omega⟩
    constructor
    case built => exact ⟨written.wf, written.rights built₂.upper⟩
    case fresh => exact handed.free
    case taken => exact extended.grows _ handed.usedAt
    case zeroed =>
      intro j hj
      rw [Vmm.setEntry_mem, put_table other, extended.frame frame handed.usedAt apart₁,
        zeroed j hj]
    case apart =>
      intro q
      rw [written.nodes]
      exact apart q
    case here =>
      obtain ⟨w, found, rights⟩ := written.here (present_pageEntry _ _)
      rw [found, rights built₂.upper, target_pageEntry, writable_pageEntry, user_pageEntry,
        show target frame = frame from handed.aligned]
      rfl
    case others =>
      intro a other
      rw [written.others a other, extended.translated, translated₁]
  · right
    obtain ⟨rfl, none_⟩ := refused.full (extended.grows _ (handed.grows _ zero))
    have counted := extended.count
    have positive := missing_pos absent
    rw [same] at counted
    refine ⟨_, unfolded false _ failed, handed.givenBack built extended, by omega⟩

/-- A page fault is handled exactly when the page lies in a region of the current
space, is not mapped and frames are left for it and the tables on its way. Then
that page alone changes, and otherwise none does. -/
theorem page_fault_backs_page (stackRegions : List StackRegion) (cr3 faultAddr : Word)
    (built : Built (vmmCurrentAddressSpace cr3) st) (zero : isUsed st.pmm 0 = true) :
    ((st.vmmHandlePageFault stackRegions cr3 faultAddr).1 = true ↔
      InRegion (vmmCurrentAddressSpace cr3) (faultPage faultAddr) stackRegions ∧
        translate st.mem cr3 (faultPage faultAddr) = none ∧
        missing st.mem (tablesOf cr3) (tablePath (faultPage faultAddr)) + 1 ≤ st.freeCount) ∧
      if (st.vmmHandlePageFault stackRegions cr3 faultAddr).1 then
        ∃ frame, PageBacked (vmmCurrentAddressSpace cr3) (faultPage faultAddr) frame st
          (st.vmmHandlePageFault stackRegions cr3 faultAddr).2
      else FaultRefused (vmmCurrentAddressSpace cr3) st
        (st.vmmHandlePageFault stackRegions cr3 faultAddr).2 := by
  have same : translate st.mem (vmmCurrentAddressSpace cr3) (faultPage faultAddr) =
      translate st.mem cr3 (faultPage faultAddr) := by
    simp only [translate, vmmCurrentAddressSpace, and_pageAddrMask, target_target]
  have tables : tablesOf (vmmCurrentAddressSpace cr3) = tablesOf cr3 := by
    rw [tablesOf, tablesOf, vmmCurrentAddressSpace, and_pageAddrMask, target_target]
  have region := findRegion_isSome (vmmCurrentAddressSpace cr3) (faultPage faultAddr) stackRegions
  rw [Vmm.vmmHandlePageFault, ← region, ← same, ← tables]
  cases findRegion (vmmCurrentAddressSpace cr3) (faultPage faultAddr) stackRegions with
  | none => simpa using FaultRefused.refl built
  | some _ =>
    dsimp only
    rw [vmmIsMappedIn_eq]
    cases mapped : translate st.mem (vmmCurrentAddressSpace cr3) (faultPage faultAddr) with
    | some t => simpa using FaultRefused.refl built
    | none =>
      rcases built.backPage zero (faultPage faultAddr) with
        ⟨frame, st', made, backed, enough⟩ | ⟨st', failed, refused, few⟩
      · simp only [Option.isSome_none, Bool.false_eq_true, if_false, made, Option.isSome_some,
          true_and, if_true, true_iff]
        exact ⟨enough, frame, backed⟩
      · simp only [Option.isSome_none, Bool.false_eq_true, if_false, failed, Option.isSome_some,
          true_and, false_iff, Nat.not_le]
        exact ⟨few, refused⟩

/-- A stack of 1 MiB below the end of user memory, touched in its first page. -/
theorem page_fault_backs_page_boot : ∃ st,
    bootVmm (fun _ _ => 0) [⟨0, 0x40000000, true⟩] 0x200000 = some st ∧
      ((st.vmmHandlePageFault [⟨0x1000, 0x7FFFFFFFF000, 0x7FFFFFEFF000⟩] 0x1000
          0x7FFFFFFFE123).1 = true ↔
        InRegion (vmmCurrentAddressSpace 0x1000) (faultPage 0x7FFFFFFFE123)
            [⟨0x1000, 0x7FFFFFFFF000, 0x7FFFFFEFF000⟩] ∧
          translate st.mem 0x1000 (faultPage 0x7FFFFFFFE123) = none ∧
          missing st.mem (tablesOf 0x1000) (tablePath (faultPage 0x7FFFFFFFE123)) + 1 ≤
            st.freeCount) := by
  have below : Below512Gb [⟨0, 0x40000000, true⟩] := by
    intro e member _
    rw [List.mem_singleton.mp member]
    decide
  obtain ⟨st, booted, ready⟩ := bootVmm_ready (fun _ _ => 0) below 0x200000
  have zero : isUsed st.pmm 0 = true := ready.elim (fun r => r.spaces.zero) (fun full => full 0)
  have built : Built (vmmCurrentAddressSpace 0x1000) st := bootVmm_built booted
  exact ⟨st, booted, (page_fault_backs_page _ 0x1000 0x7FFFFFFFE123 built zero).1⟩

end
end MiniKernel.Memory.Paging
