import MiniKernel.Elf.Acceptance
import MiniKernel.Memory.PmmInit
import MiniKernel.Memory.SpaceRuns
import MiniKernel.Proc.UserEntry

/-!
# What a new process finds in memory

Source: kernel/core/process.c:107-219, kernel/core/elf/elf_loader.c, programs/linker.ld. A
program linked as the script links them starts with its image, its arguments and zeroes, and
has nothing else in the part of its space that is its own. Processes that were there before
see no difference.
-/
namespace MiniKernel.Proc.ImageStart
open Lib (Buffer)
open Lib.Radix (nodeAt nodeAt_step)
open Memory (isUsed Grows)
open Memory.Paging
open Elf (Accepted Image Loader Loads PagePut PagesPut PagesServed Phdr Placeable Stands contentOn
  ehdrOf elfLoad elfLoad_accepted elfLoad_loads elfLoad_served elfLoad_some imageContent imagePages
  pageByte pageCount pageCounts pfX phdrsOf ptLoad segmentPages segmentStart)

/-! ## The image -/

/-- Header `i` of an image is `ph`, and is to be loaded. -/
def HasSegment (img : Image) (i : Nat) (ph : Phdr) : Prop :=
  i < (ehdrOf img.data).phnum ∧ (phdrsOf img (ehdrOf img.data)).header i = ph ∧ ph.type = ptLoad

/-- An image as programs/linker.ld makes them: it starts at 4 MiB, leaves the last page of its
16 MiB to the stack, and its segments share no pages. -/
structure Linked (img : Image) : Prop where
  low : ∀ i ph, HasSegment img i ph → userImageLinkBase.toNat ≤ ph.vaddr.toNat
  high : ∀ i ph, HasSegment img i ph →
    ph.vaddr.toNat + ph.memsz.toNat + 4096 ≤ userImageLinkBase.toNat + userProcessSlotSize.toNat
  apart : ∀ i ph j ph', HasSegment img i ph → HasSegment img j ph' → i < j →
    Disjoint (segmentPages ph 0) (segmentPages ph' 0)

/-- The addresses that are a space's own. -/
def OwnPage (va : Word) : Prop := slot0 (levelIndex 39 va) = false

theorem userProcessLayout_slot {tid : BitVec 32} {imageBase stackCeiling : Word}
    (found : userProcessLayout tid = some (imageBase, stackCeiling)) :
    2 ^ 39 ≤ imageBase.toNat ∧ imageBase.toNat % 4096 = 0 ∧
      stackCeiling.toNat = imageBase.toNat + 2 ^ 24 ∧ stackCeiling.toNat ≤ 2 ^ 40 := by
  obtain ⟨low, high, whole⟩ := userProcessLayout_bounds found
  unfold userProcessLayout at found
  split at found
  · cases found
  simp only at found
  split at found
  · cases found
  next fits =>
  cases found
  simp only [not_or, gt_iff_lt, BitVec.not_lt] at fits
  have limit := BitVec.le_def.mp fits.2
  rw [show ((1 <<< 39) - userProcessSlotSize : Word).toNat = 2 ^ 39 - 2 ^ 24 by decide] at limit
  have size : userProcessSlotSize.toNat = 2 ^ 24 := by decide
  have base : userPml4SlotBase.toNat = 2 ^ 39 := by decide
  generalize tid.signExtend 64 * userProcessSlotSize = slot at limit low high whole ⊢
  have start : (userPml4SlotBase + slot).toNat = 2 ^ 39 + slot.toNat := by
    rw [BitVec.toNat_add, base]
    omega
  have stop : (userPml4SlotBase + slot + userProcessSlotSize).toNat =
      2 ^ 39 + slot.toNat + 2 ^ 24 := by
    rw [BitVec.toNat_add, start, size]
    omega
  omega

section
variable {tid : BitVec 32} {imageBase stackCeiling : Word} {ph : Phdr} {img : Image}

/-- How far the image is moved. -/
theorem loadBias_toNat (layout : userProcessLayout tid = some (imageBase, stackCeiling)) :
    (imageBase - userImageLinkBase).toNat = imageBase.toNat - 2 ^ 22 := by
  have low := (userProcessLayout_slot layout).1
  have base : userImageLinkBase.toNat = 2 ^ 22 := by decide
  rw [BitVec.toNat_sub_of_le (BitVec.le_def.mpr (by omega)), base]

/-- Moving an image by whole pages moves the pages of a segment. -/
theorem segmentPages_moved {loadBias : Word} (whole : loadBias.toNat % 4096 = 0) (n : Nat) :
    n ∈ segmentPages ph loadBias ↔
      loadBias.toNat / 4096 ≤ n ∧ n - loadBias.toNat / 4096 ∈ segmentPages ph 0 := by
  have still : segmentStart ph 0 = ph.vaddr.toNat := Nat.add_zero _
  rw [segmentPages, segmentPages, Set.mem_ofPred_eq, Set.mem_ofPred_eq, still, segmentStart]
  constructor
  · rintro ⟨k, inside, rfl⟩
    exact ⟨by omega, k, inside, by omega⟩
  · rintro ⟨above, k, inside, same⟩
    exact ⟨k, inside, by omega⟩

theorem pageCounts_moved {loadBias : Word} (whole : loadBias.toNat % 4096 = 0)
    (phdrs : Elf.Phdrs) (left i : Nat) :
    pageCounts phdrs loadBias left i = pageCounts phdrs 0 left i := by
  have same (ph : Phdr) : pageCount ph loadBias = pageCount ph 0 := by
    have still : segmentStart ph 0 = ph.vaddr.toNat := Nat.add_zero _
    rw [pageCount, pageCount, still, segmentStart]
    split
    · rfl
    · omega
  induction left generalizing i with
  | zero => rfl
  | succ left ih => rw [pageCounts, pageCounts, same, ih]

/-- Where the pages of a segment come to lie. -/
theorem Linked.between (linked : Linked img) {i : Nat} (segment : HasSegment img i ph)
    (layout : userProcessLayout tid = some (imageBase, stackCeiling)) :
    imageBase.toNat ≤ segmentStart ph (imageBase - userImageLinkBase) ∧
      segmentStart ph (imageBase - userImageLinkBase) + ph.memsz.toNat + 4096 ≤
        stackCeiling.toNat := by
  obtain ⟨low, whole, top, high⟩ := userProcessLayout_slot layout
  have first := linked.low i ph segment
  have last := linked.high i ph segment
  rw [show userImageLinkBase.toNat = 2 ^ 22 from rfl] at first last
  rw [show userProcessSlotSize.toNat = 2 ^ 24 by decide] at last
  rw [segmentStart, loadBias_toNat layout]
  omega

theorem ownPage_of_between {va : Word} (low : 2 ^ 39 ≤ va.toNat) (high : va.toNat < 2 ^ 40) :
    OwnPage va := by
  have one : levelIndex 39 va = 1 := by
    unfold levelIndex
    omega
  rw [OwnPage, one]
  rfl

theorem Linked.placeable (linked : Linked img)
    (layout : userProcessLayout tid = some (imageBase, stackCeiling)) :
    Placeable OwnPage (phdrsOf img (ehdrOf img.data)) (imageBase - userImageLinkBase)
      (ehdrOf img.data).phnum where
  room := fun i inside load => by
    have := linked.between ⟨inside, rfl, load⟩ layout
    have := (userProcessLayout_slot layout).2.2.2
    omega
  mine := fun i inside load n page => by
    obtain ⟨k, less, rfl⟩ := page
    obtain ⟨low, whole, top, high⟩ := userProcessLayout_slot layout
    obtain ⟨first, last⟩ := linked.between ⟨inside, rfl, load⟩ layout
    refine ownPage_of_between ?_ ?_
    · rw [BitVec.toNat_ofNat]
      omega
    · rw [BitVec.toNat_ofNat]
      omega
  apart := fun i j less inside first second => by
    have whole : (imageBase - userImageLinkBase).toNat % 4096 = 0 := by
      obtain ⟨low, whole, top, high⟩ := userProcessLayout_slot layout
      rw [loadBias_toNat layout]
      omega
    rw [Set.disjoint_left]
    intro n mine other
    exact Set.disjoint_left.mp
      (linked.apart i _ j _ ⟨by omega, rfl, first⟩ ⟨inside, rfl, second⟩ less)
      ((segmentPages_moved whole n).mp mine).2 ((segmentPages_moved whole n).mp other).2

end

/-! ## The tables -/

section
variable {boot : Memory.Pmm} {roots : List Word} {guarded : Nat → Option GuardedStack}
  {st st₁ st₂ : Vmm} {space kernel va frame r a : Word}

/-- The frames are accounted for, and the kernel's PML4 is `kernel`. -/
def HeldBy (boot : Memory.Pmm) (roots : List Word) (guarded : Nat → Option GuardedStack)
    (kernel : Word) (st : Vmm) : Prop :=
  Held boot roots guarded st ∧ st.kernelPml4 = kernel

/-- Mapping a frame in hand puts a page there and changes no other. -/
theorem Held.pagePut (held : HeldBy boot roots guarded kernel st) (own : space ∈ roots)
    (handed : Handed st st₁ frame) (mine : OwnPage va) {flags : Word}
    (allowed : user flags = true)
    (mapped : st₁.vmmMapPageIn space va frame flags = (true, st₂)) :
    HeldBy boot roots guarded kernel st₂ ∧
      PagePut (fun r => r = kernel ∨ r ∈ roots) space va frame st st₂ := by
  obtain ⟨held, rfl⟩ := held
  obtain ⟨held₁, fresh⟩ := held.handed handed
  have put := vmmMapPageIn_spec held₁.spaces own mine allowed fresh.aligned fresh.used fresh.unlinked
  rcases put with ⟨st', mapped', done⟩ | ⟨st', failed, -⟩
  swap
  · rw [failed] at mapped
    cases mapped
  rw [mapped'] at mapped
  cases mapped
  have kept := held.spaces.tablesKept handed
  refine ⟨⟨held.mapped own handed done, done.kernel.trans handed.kernel⟩, ?_⟩
  constructor
  case here => exact done.here
  case others =>
    intro r live a off
    have same := held.spaces.translate_kept (a := a) live kept
    rw [← same]
    refine done.translated r a ?_ off
    rcases live with rfl | live
    · exact Or.inl handed.kernel.symm
    · exact Or.inr live
  case free => exact handed.free
  case used => exact done.grows _ handed.usedAt
  case grows => exact handed.grows.trans done.grows

theorem Held.pagesPut (own : space ∈ roots) :
    PagesPut (HeldBy boot roots guarded kernel) (fun r => r = kernel ∨ r ∈ roots) OwnPage space := by
  intro st st₁ st₂ frame held alloc nonzero va flags mine allowed mapped
  exact Held.pagePut held own (allocFrame_handed held.1.spaces.zero alloc nonzero) mine allowed mapped

theorem missing_tablePath_le (mem : Tables) (T : Lib.Radix.Tree Word Word) (va : Word) :
    missing mem T (tablePath va) ≤ 3 := by
  have inside : (tablePath va).tails.toFinset.filter (fun q => nodeAt mem T q = none) ⊆
      {tablePath va, [levelIndex 30 va, levelIndex 39 va], [levelIndex 39 va]} := by
    intro q member
    simp only [Finset.mem_filter, List.mem_toFinset, List.mem_tails, tablePath] at member
    obtain ⟨suffix, none_⟩ := member
    simp only [Finset.mem_insert, Finset.mem_singleton, tablePath]
    simp only [List.suffix_cons_iff, List.suffix_nil] at suffix
    rcases suffix with same | same | same | rfl
    · exact Or.inl same
    · exact Or.inr (Or.inl same)
    · exact Or.inr (Or.inr same)
    · cases none_
  exact (Finset.card_le_card inside).trans Finset.card_le_three

/-- Three more frames are enough to map one in hand. -/
theorem Held.maps (held : Held boot roots guarded st) (own : space ∈ roots)
    (handed : Handed st st₁ frame) (mine : OwnPage va) {flags : Word} (allowed : user flags = true)
    (enough : 4 ≤ st.freeCount) :
    ∃ st₂, st₁.vmmMapPageIn space va frame flags = (true, st₂) ∧
      st.freeCount ≤ st₂.freeCount + 4 := by
  obtain ⟨held₁, fresh⟩ := held.handed handed
  have count := handed.count
  have few := missing_tablePath_le st₁.mem (spaceTree slot0 space) va
  rcases vmmMapPageIn_spec held₁.spaces own mine allowed fresh.aligned fresh.used fresh.unlinked with
    ⟨st₂, mapped, done⟩ | ⟨st₂, -, grown, absent, full⟩
  · have tables := done.count
    exact ⟨st₂, mapped, by omega⟩
  · have tables := grown.count
    have positive := missing_pos absent
    omega

theorem Held.pagesServed (own : space ∈ roots) :
    PagesServed (HeldBy boot roots guarded kernel) OwnPage space := by
  intro st held enough
  rcases Vmm.allocFrame_spec held.1.spaces.zero with ⟨-, none_⟩ | ⟨frame, st₁, alloc, taken⟩
  · omega
  · refine ⟨frame, st₁, alloc, taken.nonzero, fun va flags mine allowed => ?_⟩
    obtain ⟨st₂, mapped, count⟩ := Held.maps held.1 own taken.handed mine allowed enough
    exact ⟨st₂, mapped, (Held.pagePut held own taken.handed mine allowed mapped).1, count⟩

/-- What a space's own pages lead to is in use. -/
theorem user_used {t : Translation} (inv : Spaces slot0 roots st) (own : r ∈ roots)
    (mine : OwnPage a) (found : translate st.mem r a = some t) (allowed : t.user = true) :
    st.usedAt t.frame = true :=
  (inv.tables _ (forest_space slot0 _ own) _ _ (user_node inv own mine found allowed)).2

end

/-! ## The stack -/

/-- What the last page of a stack below `stackCeiling` holds. -/
def stackByte (argv : Buffer) (argvLen : Word) (stackCeiling a : Nat) : UInt8 :=
  if stackCeiling - 128 ≤ a ∧ a - (stackCeiling - 128) < min argvLen.toNat 128 then
    argv (a - (stackCeiling - 128))
  else 0

/-- The number of that page. -/
def stackPage (stackCeiling : Word) : Nat := (stackCeiling.toNat - 4096) / 4096

section
variable {boot : Memory.Pmm} {roots : List Word} {guarded : Nat → Option GuardedStack}
  {space kernel stackCeiling frame argvLen : Word} {argvStr : Buffer} {s t : Loader}
  {stack : UserStack}

theorem storeArgv_eq (offset : Word) {n : Nat} (room : offset.toNat + n ≤ 4096) (s : Loader)
    (f : Word) (j : Nat) :
    (storeArgv frame offset argvStr n s).bytes f j =
      if f = frame ∧ offset.toNat ≤ j ∧ j < offset.toNat + n then argvStr (j - offset.toNat)
      else s.bytes f j := by
  induction n with
  | zero =>
    rw [if_neg (by omega)]
    rfl
  | succ n ih =>
    have last : (offset + BitVec.ofNat 64 n).toNat = offset.toNat + n := by
      rw [BitVec.toNat_add, BitVec.toNat_ofNat]
      omega
    simp only [storeArgv, Loader.store, last]
    by_cases here : f = frame
    · rw [if_pos here, Function.update_apply, ih (by omega)]
      by_cases end_ : j = offset.toNat + n
      · rw [if_pos end_, if_pos ⟨here, by omega, by omega⟩, end_, Nat.add_sub_cancel_left]
      · have same : (f = frame ∧ offset.toNat ≤ j ∧ j < offset.toNat + n) ↔
            (f = frame ∧ offset.toNat ≤ j ∧ j < offset.toNat + (n + 1)) :=
          and_congr_right fun _ => by omega
        rw [if_neg end_]
        simp only [same]
    · rw [if_neg here, ih (by omega), if_neg (fun h => here h.1), if_neg (fun h => here h.1)]

/-- `setup_user_stack` maps one page, with the arguments at its end and zeroes before them. -/
theorem setupUserStackIn_page (low : 4096 ≤ stackCeiling.toNat)
    (whole : stackCeiling.toNat % 4096 = 0)
    (done : setupUserStackIn space stackCeiling frame argvStr argvLen s = (some stack, t)) :
    s.vmm.vmmMapPageIn space (stackCeiling - 4096) frame (vmmWritable ||| vmmUser) =
        (true, t.vmm) ∧
      ∀ f j, t.bytes f j =
        if f = frame ∧ 3968 ≤ j ∧ j < 3968 + min argvLen.toNat 128 then argvStr (j - 3968)
        else s.bytes f j := by
  have page := firstPage_eq low whole
  unfold setupUserStackIn at done
  rcases mapped : s.vmm.vmmMapPageIn space (stackCeiling - 4096) frame (vmmWritable ||| vmmUser) with
    ⟨ok, st⟩
  simp only [page, mapped] at done
  split at done
  · cases done
  next good =>
  obtain rfl : ok = true := by simpa using good
  have few : (if argvLen > userArgvReserved then userArgvReserved else argvLen).toNat =
      min argvLen.toNat 128 := by
    split
    · next more =>
      have := BitVec.lt_def.mp more
      rw [userArgvReserved_toNat] at this ⊢
      omega
    · next less =>
      rw [gt_iff_lt, BitVec.lt_def, userArgvReserved_toNat] at less
      omega
  have offset : (4096 - userArgvReserved : Word).toNat = 3968 := by decide
  cases done
  refine ⟨?_, fun f j => ?_⟩
  · rw [storeArgv_vmm]
  · rw [few, storeArgv_eq _ (by omega), offset]

theorem setupUserStack_loads (held : HeldBy boot roots guarded kernel s.vmm)
    (own : space ∈ roots) (low : 2 ^ 39 + 4096 ≤ stackCeiling.toNat)
    (high : stackCeiling.toNat ≤ 2 ^ 40) (whole : stackCeiling.toNat % 4096 = 0)
    (done : setupUserStack space stackCeiling argvStr argvLen s = (some stack, t)) :
    Loads (fun r => r = kernel ∨ r ∈ roots) space {stackPage stackCeiling}
      (contentOn (stackByte argvStr argvLen stackCeiling.toNat) {stackPage stackCeiling}) s t := by
  have below : (stackCeiling - 4096).toNat = stackCeiling.toNat - 4096 :=
    BitVec.toNat_sub_of_le (BitVec.le_def.mpr (show 4096 ≤ _ by omega))
  unfold setupUserStack at done
  rcases alloc : s.vmm.allocZeroedFrame with ⟨frame, st⟩
  simp only [alloc] at done
  split at done
  · cases done
  next nonzero =>
  have cleared := Elf.zeroBytes_bytes frame (Nat.le_refl 4096) { s with vmm := st }
  have tables := Elf.zeroBytes_vmm frame 4096 { s with vmm := st }
  generalize Loader.zeroBytes frame 4096 { s with vmm := st } = z at cleared tables done
  obtain ⟨mapped, written⟩ := setupUserStackIn_page (by omega) whole done
  rw [tables] at mapped
  have handed := allocZeroedFrame_handed held.1.spaces.zero alloc nonzero
  have page := (Held.pagePut held own handed (ownPage_of_between (by omega) (by omega))
    user_stackFlags mapped).2
  have loads := page.loads (stackByte argvStr argvLen stackCeiling.toNat) (by omega) (by omega)
    (fun f other => ?_) (fun j inside => ?_)
  · rwa [below] at loads
  · funext j
    rw [written, if_neg fun h => other h.1]
    exact (cleared f j).trans (if_neg fun h => other h.1)
  · have zero : z.bytes frame j = 0 := (cleared frame j).trans (if_pos ⟨rfl, inside⟩)
    rw [written, zero, below]
    have place : (stackCeiling.toNat - 128 ≤ stackCeiling.toNat - 4096 + j ∧
        j - 3968 < min argvLen.toNat 128) ↔
        3968 ≤ j ∧ j < 3968 + min argvLen.toNat 128 := by
      omega
    have same : stackCeiling.toNat - 4096 + j - (stackCeiling.toNat - 128) = j - 3968 := by omega
    simp only [stackByte, true_and, place, same]

/-- The stack takes no more than any other page. -/
theorem setupUserStack_served (argvStr : Buffer) (argvLen : Word)
    (held : HeldBy boot roots guarded kernel s.vmm) (own : space ∈ roots)
    (low : 2 ^ 39 + 4096 ≤ stackCeiling.toNat) (high : stackCeiling.toNat ≤ 2 ^ 40) (whole : stackCeiling.toNat % 4096 = 0)
    (enough : 4 ≤ s.vmm.freeCount) :
    ∃ stack t, setupUserStack space stackCeiling argvStr argvLen s = (some stack, t) := by
  have below : (stackCeiling - 4096).toNat = stackCeiling.toNat - 4096 :=
    BitVec.toNat_sub_of_le (BitVec.le_def.mpr (show 4096 ≤ _ by omega))
  rcases Vmm.allocZeroedFrame_spec held.1.spaces.zero with ⟨-, none_⟩ | ⟨frame, st, alloc, handed, -⟩
  · omega
  have mine : OwnPage (stackCeiling - 4096) := ownPage_of_between (by omega) (by omega)
  obtain ⟨st₂, mapped, -⟩ := Held.maps held.1 own handed mine user_stackFlags enough
  have page := firstPage_eq (by omega) whole
  unfold setupUserStack
  simp only [alloc, if_neg handed.nonzero]
  have tables := Elf.zeroBytes_vmm frame 4096 { s with vmm := st }
  generalize Loader.zeroBytes frame 4096 { s with vmm := st } = z at tables ⊢
  unfold setupUserStackIn
  simp only [page, tables, mapped, not_true_eq_false, if_false]
  exact ⟨_, _, rfl⟩

end

/-! ## The process -/

/-- The process `e` of `request` has its image and its arguments where `imageBase` and
`stackCeiling` say, and nothing else of its own; it starts in its code; and the processes whose
spaces are there in `s` have what they had. -/
structure StartedFrom (request : ElfSpawnRequest) (imageBase stackCeiling : Word)
    (bytes : Word → Nat → UInt8) (s : MemState) (l : Loader) (e : UserEntry) : Prop where
  entry : ∃ i ph, HasSegment request.image i ph ∧ ph.flags &&& pfX ≠ 0 ∧ ∃ k < ph.memsz.toNat,
    e.rip.toNat = segmentStart ph (imageBase - userImageLinkBase) + k
  image : ∀ i ph, HasSegment request.image i ph →
    ∀ a, a / 4096 ∈ segmentPages ph (imageBase - userImageLinkBase) →
      userByte l e.space (BitVec.ofNat 64 a) =
        some (pageByte request.image ph (segmentStart ph (imageBase - userImageLinkBase)) a)
  stack : ∀ a, a / 4096 = stackPage stackCeiling → userByte l e.space (BitVec.ofNat 64 a) =
    some (stackByte request.argv request.argvLen stackCeiling.toNat a)
  nothing : ∀ a, OwnPage a → userByte l e.space a ≠ none →
    a.toNat / 4096 = stackPage stackCeiling ∨ ∃ i ph, HasSegment request.image i ph ∧
      a.toNat / 4096 ∈ segmentPages ph (imageBase - userImageLinkBase)
  others : ∀ r ∈ s.spaces, ∀ a, OwnPage a →
    userByte l r a = userByte ⟨s.vmm, bytes, [], []⟩ r a

section
variable {boot : Memory.Pmm} {roots : List Word} {guarded : Nat → Option GuardedStack}
  {tid : BitVec 32} {imageBase stackCeiling space r a : Word} {img : Image} {s t : Loader}

theorem Stands.userByte {n : Nat} {b : UInt8} (stands : Stands space s n b) (low : n < 2 ^ 47) :
    userByte s space (BitVec.ofNat 64 n) = some b := by
  obtain ⟨frame, w, mapped, -, byte⟩ := stands
  have value : (BitVec.ofNat 64 n : Word).toNat = n := by
    rw [BitVec.toNat_ofNat]
    omega
  have canonical : Canonical (BitVec.ofNat 64 n) := Or.inl (by omega)
  rw [Proc.userByte, if_pos canonical, mapped, Option.bind_some, if_pos rfl, value, byte]

theorem userByte_unmapped (none_ : translate s.vmm.mem space a = none) :
    userByte s space a = none := by
  rw [userByte, none_]
  exact ite_self none

/-- What a space translates the same, from frames that were in use, reads the same. -/
theorem userByte_kept (inv : Spaces slot0 roots s.vmm) (own : r ∈ roots) (mine : OwnPage a)
    (same : translate t.vmm.mem r a = translate s.vmm.mem r a)
    (bytes : ∀ f, s.vmm.usedAt f = true → t.bytes f = s.bytes f) :
    userByte t r a = userByte s r a := by
  rw [userByte, userByte, same]
  cases found : translate s.vmm.mem r a with
  | none => rfl
  | some p =>
    cases allowed : p.user with
    | false => simp [allowed]
    | true => simp only [Option.bind_some, allowed, bytes _ (user_used inv own mine found allowed)]

/-- A new space has no pages of its own. -/
theorem created_empty {vmm : Vmm} {st : Vmm} (inv : Spaces slot0 roots st)
    (handed : Handed st vmm space)
    (copied : ∀ j < entriesPerTable, vmm.mem space j = st.mem st.kernelPml4 j) (mine : OwnPage a) :
    translate vmm.mem space a = none := by
  have inside : levelIndex 39 a < entriesPerTable := levelIndex_lt 39 a
  have root : target space = space := handed.aligned
  have absent : present (vmm.mem space (levelIndex 39 a)) = false := by
    rw [copied _ inside, inv.kernelSlots _ inside]
    exact mine
  rw [Memory.Paging.translate, root]
  exact if_pos absent

/-- Both together. -/
theorem image_stack_loads {kernel entry argvLen : Word} {argvStr : Buffer} {u : Loader}
    {stack : UserStack} (held : HeldBy boot roots guarded kernel s.vmm) (own : space ∈ roots)
    (linked : Linked img) (layout : userProcessLayout tid = some (imageBase, stackCeiling))
    (loaded : elfLoad space img (imageBase - userImageLinkBase) s = some (some entry, t))
    (done : setupUserStack space stackCeiling argvStr argvLen t = (some stack, u)) :
    Loads (fun r => r = kernel ∨ r ∈ roots) space
      (imagePages (phdrsOf img (ehdrOf img.data)) (imageBase - userImageLinkBase) 0
        (ehdrOf img.data).phnum ∪ {stackPage stackCeiling})
      (fun a b => imageContent img (phdrsOf img (ehdrOf img.data)) (imageBase - userImageLinkBase) 0
          (ehdrOf img.data).phnum a b ∨
        contentOn (stackByte argvStr argvLen stackCeiling.toNat) {stackPage stackCeiling} a b)
      s u := by
  obtain ⟨low, high, whole⟩ := userProcessLayout_bounds layout
  obtain ⟨kept, image⟩ := elfLoad_loads (Held.pagesPut own) (Or.inr own) (linked.placeable layout)
    held loaded
  have page := setupUserStack_loads kept own low high whole done
  refine image.trans (Or.inr own) page ?_
  rw [Set.disjoint_singleton_right]
  rintro ⟨i, -, inside, load, k, less, same⟩
  have between := linked.between ⟨inside, rfl, load⟩ layout
  rw [stackPage] at same
  omega

/-- The entry point of a linked image is where its code comes to lie. -/
theorem entry_moved (linked : Linked img)
    (layout : userProcessLayout tid = some (imageBase, stackCeiling)) {entry : Word}
    (loaded : elfLoad space img (imageBase - userImageLinkBase) s = some (some entry, t)) :
    ∃ i ph, HasSegment img i ph ∧ ph.flags &&& pfX ≠ 0 ∧ ∃ k < ph.memsz.toNat,
      entry.toNat = segmentStart ph (imageBase - userImageLinkBase) + k := by
  obtain ⟨⟨i, inside, load, code, first, last⟩, moved, -⟩ := elfLoad_some loaded
  have between := linked.between ⟨inside, rfl, load⟩ layout
  have high := (userProcessLayout_slot layout).2.2.2
  have above := BitVec.le_def.mp first
  refine ⟨i, _, ⟨inside, rfl, load⟩, code,
    (ehdrOf img.data).entry.toNat - ((phdrsOf img (ehdrOf img.data)).header i).vaddr.toNat,
    by omega, ?_⟩
  rw [moved, BitVec.toNat_add]
  rw [segmentStart] at between ⊢
  omega

end

section
variable {boot : Memory.Pmm} {tid : BitVec 32} {request : ElfSpawnRequest} {unset : Buffer}
  {bytes : Word → Nat → UInt8} {s : MemState} {l : Loader} {e : UserEntry} {spaces : List Word}
  {imageBase stackCeiling : Word}

/-- What a start that gets to user mode leaves behind, where the frames are accounted for. -/
theorem trampoline_started (held : Held boot s.spaces s.guarded s.vmm)
    (linked : Linked request.image)
    (ran : elfProcessTrampoline tid (some request) unset bytes s = some (some e, l, spaces)) :
    ∃ imageBase stackCeiling, userProcessLayout tid = some (imageBase, stackCeiling) ∧
      StartedFrom request imageBase stackCeiling bytes s l e := by
  unfold elfProcessTrampoline at ran
  rcases created : s.vmm.vmmCreateAddressSpace with ⟨space, vmm⟩
  simp only [created] at ran
  split at ran
  · cases ran
  next nonzero =>
  obtain ⟨handed, copied⟩ := created_handed held.spaces.zero created nonzero
  have own : space ∈ space :: s.spaces := List.mem_cons_self
  have kept := held.spaces.tablesKept handed
  split at ran
  · cases ran
  next imageBase stackCeiling layout =>
  refine ⟨imageBase, stackCeiling, layout, ?_⟩
  split at ran
  · cases ran
  · cases ran
  next entry l₁ loaded =>
  split at ran
  · cases ran
  next stack t done =>
  cases ran
  have inv : HeldBy boot (space :: s.spaces) s.guarded s.vmm.kernelPml4 vmm :=
    ⟨held.create handed copied, handed.kernel⟩
  have both := image_stack_loads inv own linked layout loaded done
  obtain ⟨low, whole, top, high⟩ := userProcessLayout_slot layout
  constructor
  case entry => exact entry_moved linked layout loaded
  case image =>
    rintro i _ ⟨inside, rfl, load⟩ a page
    have stands := both.new a _ (Or.inl ⟨i, Nat.zero_le i, inside, load, page, rfl⟩)
    obtain ⟨k, less, same⟩ := page
    have between := linked.between ⟨inside, rfl, load⟩ layout
    exact Stands.userByte stands (by omega)
  case stack =>
    intro a page
    have stands := both.new a _ (Or.inr ⟨page, rfl⟩)
    rw [stackPage] at page
    refine (Stands.userByte stands (by omega)).trans (congrArg some ?_)
    rw [stackByte, stackByte]
    split
    · next argument => rw [if_pos (by omega)]
    · rfl
  case nothing =>
    intro a mine reads
    by_cases canonical : Canonical a
    swap
    · exact absurd (if_neg canonical) reads
    by_contra away
    refine reads (userByte_unmapped ?_)
    rw [← created_empty held.spaces handed copied mine]
    refine both.others space (Or.inr own) a fun on => away ?_
    rcases on.2 with ⟨i, -, inside, load, k, less, same⟩ | same
    · have between := linked.between ⟨inside, rfl, load⟩ layout
      refine Or.inr ⟨i, _, ⟨inside, rfl, load⟩, k, less, ?_⟩
      rcases canonical with below | above
      · omega
      · omega
    · rw [Set.mem_singleton_iff, stackPage] at same
      rw [stackPage]
      rcases canonical with below | above
      · omega
      · omega
  case others =>
    intro r live a mine
    refine userByte_kept (s := ⟨s.vmm, bytes, [], []⟩) held.spaces live mine ?_ fun f used => ?_
    · have same := held.spaces.translate_kept (a := a) (Or.inr live) kept
      rw [← same]
      refine both.others r (Or.inr (List.mem_cons_of_mem _ live)) a fun on => ?_
      have free := handed.free
      rw [← on.1, (held.spaces.rootTable live).2] at free
      cases free
    · exact both.bytes f (handed.grows _ used)

/-- As many frames as a start may take: one for the new PML4, and four for each page. -/
def framesFor (img : Image) : Nat :=
  1 + 4 * (pageCounts (phdrsOf img (ehdrOf img.data)) 0 (ehdrOf img.data).phnum 0 + 1)

theorem trampoline_served (held : Held boot s.spaces s.guarded s.vmm) (linked : Linked request.image)
    (layout : userProcessLayout tid = some (imageBase, stackCeiling))
    (accepted : Accepted request.image) (enough : framesFor request.image ≤ s.vmm.freeCount) :
    ∃ e l spaces,
      elfProcessTrampoline tid (some request) unset bytes s = some (some e, l, spaces) := by
  unfold framesFor at enough
  obtain ⟨low, whole, top, high⟩ := userProcessLayout_slot layout
  have moved : (imageBase - userImageLinkBase).toNat % 4096 = 0 := by
    rw [loadBias_toNat layout]
    omega
  rcases vmmCreateAddressSpace_spec held.spaces.zero with
    ⟨-, none_⟩ | ⟨space, vmm, created, handed, copied⟩
  · omega
  have count := handed.count
  have own : space ∈ space :: s.spaces := List.mem_cons_self
  have inv : HeldBy boot (space :: s.spaces) s.guarded s.vmm.kernelPml4 vmm :=
    ⟨held.create handed copied, handed.kernel⟩
  obtain ⟨entry, l, loaded, kept, pages⟩ := @elfLoad_served _ _ _ _ _ ⟨vmm, bytes, [], []⟩
    (Held.pagesServed own) accepted (linked.placeable layout) inv
    (by rw [pageCounts_moved moved]; change _ ≤ vmm.freeCount; omega)
  rw [pageCounts_moved moved] at pages
  change vmm.freeCount ≤ _ at pages
  obtain ⟨stack, t, done⟩ := setupUserStack_served
    (fun i => if i < request.argvLen.toNat then request.argv i else unset i) request.argvLen kept own
    (by omega) high (by omega) (by omega)
  unfold elfProcessTrampoline
  simp only [created, if_neg handed.nonzero, layout, loaded, done]
  exact ⟨_, _, _, rfl⟩

theorem trampoline_accepted
    (ran : elfProcessTrampoline tid (some request) unset bytes s = some (some e, l, spaces)) :
    Accepted request.image := by
  unfold elfProcessTrampoline at ran
  rcases s.vmm.vmmCreateAddressSpace with ⟨space, vmm⟩
  simp only at ran
  split at ran
  · cases ran
  split at ran
  · cases ran
  split at ran
  · cases ran
  · cases ran
  next entry l₁ loaded => exact elfLoad_accepted loaded

theorem trampoline_answers (tid : BitVec 32) (request : ElfSpawnRequest) (unset : Buffer)
    (bytes : Word → Nat → UInt8) (s : MemState) :
    ∃ entered l spaces,
      elfProcessTrampoline tid (some request) unset bytes s = some (entered, l, spaces) := by
  unfold elfProcessTrampoline
  rcases created : s.vmm.vmmCreateAddressSpace with ⟨space, vmm⟩
  simp only [created]
  split
  · exact ⟨_, _, _, rfl⟩
  split
  · exact ⟨_, _, _, rfl⟩
  next imageBase stackCeiling _ =>
  obtain ⟨result, l, loaded⟩ := Elf.elfLoad_answers space request.image
    (imageBase - userImageLinkBase) ⟨vmm, bytes, [], []⟩
  simp only [loaded]
  cases result with
  | none => exact ⟨_, _, _, rfl⟩
  | some entry =>
    simp only
    split
    · exact ⟨_, _, _, rfl⟩
    · exact ⟨_, _, _, rfl⟩

/-- Without a frame left there is no start. -/
theorem trampoline_refused (full : s.vmm.vmmCreateAddressSpace = (0, s.vmm)) :
    elfProcessTrampoline tid (some request) unset bytes s =
      some (none, ⟨s.vmm, bytes, [], []⟩, s.spaces) := by
  unfold elfProcessTrampoline
  simp only [full, if_true]

end

/-! ## A small image -/

/-- One segment from 4 MiB on, of four bytes and 4996 zeroes: `inc edi; jmp -4`. -/
def loopBytes : List UInt8 :=
  [0x7F, 0x45, 0x4C, 0x46, 2, 1, 1, 0, 0, 0, 0, 0, 0, 0, 0, 0, 2, 0, 0x3E, 0, 1, 0, 0, 0,
    0, 0, 0x40, 0, 0, 0, 0, 0, 64, 0, 0, 0, 0, 0, 0, 0, 0, 0, 0, 0, 0, 0, 0, 0, 0, 0, 0, 0,
    64, 0, 56, 0, 1, 0, 0, 0, 0, 0, 0, 0,
    1, 0, 0, 0, 5, 0, 0, 0, 120, 0, 0, 0, 0, 0, 0, 0, 0, 0, 0x40, 0, 0, 0, 0, 0,
    0, 0, 0x40, 0, 0, 0, 0, 0, 4, 0, 0, 0, 0, 0, 0, 0, 0x88, 0x13, 0, 0, 0, 0, 0, 0,
    0, 0x10, 0, 0, 0, 0, 0, 0, 0xFF, 0xC7, 0xEB, 0xFC]

def loopImage : Image := ⟨fun p => loopBytes.getD p 0, 124⟩

def loopRequest : ElfSpawnRequest := ⟨loopImage, fun _ => 0x61, 3⟩

/-- 2 MiB of usable memory behind the first 2 MiB. -/
def twoMib : List Memory.E820Entry := [⟨0x200000, 0x200000, true⟩]

theorem loopImage_segment {i : Nat} {ph : Phdr} (segment : HasSegment loopImage i ph) :
    i = 0 ∧ ph.vaddr.toNat = 0x400000 ∧ ph.memsz.toNat = 5000 := by
  obtain ⟨inside, rfl, -⟩ := segment
  have one : (ehdrOf loopImage.data).phnum = 1 := by decide
  obtain rfl : i = 0 := by omega
  exact ⟨rfl, by decide, by decide⟩

theorem loopImage_linked : Linked loopImage where
  low := fun i ph segment => by
    rw [(loopImage_segment segment).2.1]
    decide
  high := fun i ph segment => by
    rw [(loopImage_segment segment).2.1, (loopImage_segment segment).2.2]
    decide
  apart := fun i ph j ph' first second less => by
    have := (loopImage_segment first).1
    have := (loopImage_segment second).1
    omega

theorem loopImage_accepted : Accepted loopImage where
  size := by decide
  magic := by decide
  class64 := by decide
  machine := by decide
  type := by decide
  phentsize := by decide
  phoff := by decide
  phnum := by decide
  entry := ⟨0, by decide, by decide, by decide, by decide, by decide⟩
  files := fun i inside _ => by
    have one : (ehdrOf loopImage.data).phnum = 1 := by decide
    obtain rfl : i = 0 := by omega
    exact ⟨by decide, by decide, by decide⟩

theorem twoMib_below : Below512Gb twoMib := by
  intro e member _
  rw [List.mem_singleton.mp member]
  decide

/-- `vmm_init` maps the region without a new table. -/
theorem twoMib_pmm {st : Vmm} (tables : BootTables st.mem 0x2003) (pml4 : st.kernelPml4 = 0x1000) :
    (st.map2mbIdentity 0x200000).pmm = st.pmm := by
  have top : st.mem 0x1000 0 = 0x2003 := tables.pml4 0 (by decide)
  have next : (st.setEntry 0x1000 0 0x2007).mem 0x2000 0 = 0x3003 := by
    rw [Vmm.setEntry_mem, Lib.Radix.put_table (by decide)]
    exact tables.pdpt 0 (by decide)
  have first : st.getOrCreateTable 0x1000 0 = (some 0x2000, st.setEntry 0x1000 0 0x2007) := by
    rw [getOrCreateTable_present (by rw [top]; decide), enterTable_eq, top]
    rfl
  have second : (st.setEntry 0x1000 0 0x2007).getOrCreateTable 0x2000 0 =
      (some 0x3000, (st.setEntry 0x1000 0 0x2007).setEntry 0x2000 0 0x3007) := by
    rw [getOrCreateTable_present (by rw [next]; decide), enterTable_eq, next]
    rfl
  have i4 : pml4Index 0x200000 = 0 := by decide
  have i3 : pdptIndex 0x200000 = 0 := by decide
  simp only [Vmm.map2mbIdentity, pml4, i4, i3, first, second]
  split
  · rw [Vmm.setEntry_pmm, Vmm.setEntry_pmm, Vmm.setEntry_pmm]
  · rw [Vmm.setEntry_pmm, Vmm.setEntry_pmm]

theorem twoMib_vmmInit (st : Vmm) : st.vmmInit twoMib = some (st.map2mbIdentity 0x200000) := by
  have start : (0x200000 : Word) &&& ~~~(page2mbSize - 1) = 0x200000 := by decide
  have few : ¬ 2 ^ 64 - 2 ^ 21 < (0x200000 + 0x200000 : Word).toNat := by decide
  have turns : ((0x200000 + 0x200000 : Word).toNat + (2 ^ 21 - 1) - (0x200000 : Word).toNat) /
      2 ^ 21 = 1 := by decide
  have entry : st.initEntry ⟨0x200000, 0x200000, true⟩ = some (st.mapRegions 1 0x200000) := by
    rw [Vmm.initEntry, if_neg (by decide)]
    simp only [start]
    rw [if_neg few, turns]
  rw [twoMib, Vmm.vmmInit, List.foldlM_cons, entry]
  rfl

/-- There are frames enough for it. -/
theorem twoMib_frames {boot : Vmm} (booted : bootVmm (fun _ _ => 0) twoMib 0x200000 = some boot) :
    framesFor loopImage ≤ boot.freeCount := by
  have needs : framesFor loopImage = 13 := by decide
  have pmm : boot.pmm = Memory.pmmInit twoMib 0x200000 := by
    have tables := initPt_tables ⟨fun _ _ => 0, Memory.pmmInit twoMib 0x200000, 0x1000⟩
    have kernel := initPt_kernelPml4 ⟨fun _ _ => 0, Memory.pmmInit twoMib 0x200000, 0x1000⟩
    have frames := initPt_pmm ⟨fun _ _ => 0, Memory.pmmInit twoMib 0x200000, 0x1000⟩
    unfold bootVmm at booted
    generalize initPt ⟨fun _ _ => 0, Memory.pmmInit twoMib 0x200000, 0x1000⟩ = st
      at tables kernel frames booted
    rw [twoMib_vmmInit] at booted
    cases booted
    rw [twoMib_pmm tables kernel, frames]
  have free : Finset.Ico 0x300 0x30D ⊆ Memory.clearFrames boot.pmm := by
    intro f inside
    rw [Finset.mem_Ico] at inside
    have offered : Memory.E820Entry.Frees ⟨0x200000, 0x200000, true⟩ f := by
      refine ⟨?_, rfl, by decide, ?_, ?_⟩
      · unfold Memory.pmmMaxFrames
        omega
      · change 0x200000 ≤ f * 4096
        omega
      · change (f + 1) * 4096 ≤ 0x200000 + 0x200000
        omega
    rw [Memory.clearFrames, Finset.mem_filter, Finset.mem_range, pmm, Memory.isUsed_pmmInit,
      Memory.bootReserved_iff]
    refine ⟨offered.1, ⟨_, List.mem_cons_self, offered⟩, ?_⟩
    rw [show Memory.frameOf (0x200000 + Memory.pmmFrameSize - 1) = 0x200 by decide]
    omega
  have count := Finset.card_le_card free
  rw [Nat.card_Ico] at count
  rw [needs]
  exact count

/-! ## Result -/

section
variable {s : MemState} {tid : BitVec 32} {request : ElfSpawnRequest} {imageBase stackCeiling : Word}

/-- However the machine came here since it booted: a thread with a request for a linked image
either exits or runs the image, the latter exactly if the image is accepted where there are
frames enough. -/
theorem process_starts_loaded {mem : Tables} {map : List Memory.E820Entry} {kernelEnd : Nat}
    {boot : Vmm} {calls : List ProcCall} (below : Below512Gb map)
    (booted : bootVmm mem map kernelEnd = some boot)
    (run : Lib.Machine.run procStep (MemState.start boot) calls = some s)
    (linked : Linked request.image)
    (layout : userProcessLayout tid = some (imageBase, stackCeiling)) (unset : Buffer)
    (bytes : Word → Nat → UInt8) :
    ∃ entered l spaces,
      elfProcessTrampoline tid (some request) unset bytes s = some (entered, l, spaces) ∧
        (∀ e ∈ entered, StartedFrom request imageBase stackCeiling bytes s l e) ∧
        (framesFor request.image ≤ s.vmm.freeCount →
          (entered.isSome ↔ Accepted request.image)) := by
  have inv : Accounted boot s := Lib.Machine.run_invariant
    (fun _ _ _ inv _ stepped => Accounted.procStep inv stepped)
    (Accounted.start (bootVmm_ready_of below booted)) (Lib.Machine.meets_always _ _) run
  rcases inv with held | ⟨exhausted, -⟩
  · obtain ⟨entered, l, spaces, ran⟩ := trampoline_answers tid request unset bytes s
    refine ⟨entered, l, spaces, ran, fun e entered_ => ?_, fun enough => ⟨fun some_ => ?_, ?_⟩⟩
    · rw [Option.mem_def.mp entered_] at ran
      obtain ⟨base, ceiling, found, started⟩ := trampoline_started held linked ran
      rw [layout] at found
      cases found
      exact started
    · obtain ⟨e, rfl⟩ := Option.isSome_iff_exists.mp some_
      exact trampoline_accepted ran
    · intro accepted
      obtain ⟨e, l', spaces', entered_⟩ := @trampoline_served _ tid request unset bytes s _ _ held
        linked layout accepted enough
      rw [ran] at entered_
      cases entered_
      rfl
  · rcases vmmCreateAddressSpace_spec (exhausted.used 0) with
      ⟨failed, none_⟩ | ⟨space, vmm, -, handed, -⟩
    · refine ⟨none, _, _, trampoline_refused failed, fun e absent => (by cases absent),
        fun enough => ?_⟩
      rw [none_, framesFor] at enough
      omega
    · exact absurd handed exhausted.not_handed

end

/-- Right after boot, thread 1 runs the image. -/
theorem process_starts_loaded_loop : ∃ st e l spaces,
    bootVmm (fun _ _ => 0) twoMib 0x200000 = some st ∧
      elfProcessTrampoline 1 (some loopRequest) (fun _ => 0) (fun _ _ => 0xFF) (MemState.start st) =
        some (some e, l, spaces) ∧
      StartedFrom loopRequest 0x8001000000 0x8002000000 (fun _ _ => 0xFF) (MemState.start st) l
        e := by
  obtain ⟨st, booted, -⟩ := bootVmm_ready (fun _ _ => 0) twoMib_below 0x200000
  have layout : userProcessLayout 1 = some (0x8001000000, 0x8002000000) := by decide
  obtain ⟨entered, l, spaces, ran, starts, accepts⟩ :=
    @process_starts_loaded (MemState.start st) 1 loopRequest 0x8001000000 0x8002000000 _ _ _ _ []
      twoMib_below booted rfl loopImage_linked layout (fun _ => 0) fun _ _ => 0xFF
  obtain ⟨e, rfl⟩ := Option.isSome_iff_exists.mp
    ((accepts (twoMib_frames booted)).mpr loopImage_accepted)
  exact ⟨st, e, l, spaces, booted, ran, starts e rfl⟩

end MiniKernel.Proc.ImageStart
