import MiniKernel.Memory.Mapping

/-!
# The kernel's own tables

Source: bootloader/bit32/init_pt.asm and kernel/mm/vmm.c:54-71, 348-370. The
bootloader maps the first 2 MiB page by page, and `vmm_init` adds 2 MiB pages
over the usable memory. Where that memory ends below 512 GiB the kernel uses
one slot of its PML4.
-/
namespace MiniKernel.Memory.Paging
open Lib Lib.Radix

/-- `init_pt_32`: the four tables from 0x1000 on, cleared and then filled. -/
def initPt (st : Vmm) : Vmm :=
  let st := [0x1000, 0x2000, 0x3000, 0x4000].foldl
    (fun st table => st.fillTable table (fun _ => 0) entriesPerTable) st
  let st := st.setEntry 0x1000 0 0x2003
  let st := st.setEntry 0x2000 0 0x3003
  let st := st.setEntry 0x3000 0 0x4003
  st.fillTable 0x4000 (fun i => 0x3 + BitVec.ofNat 64 i * 0x1000) entriesPerTable

def page2mbSize : Word := 0x200000

namespace Vmm

/-- `map_2mb_identity`. -/
def map2mbIdentity (physAddr : Word) (st : Vmm) : Vmm :=
  match getOrCreateTable st.kernelPml4 (pml4Index physAddr) st with
  | (none, st) => st
  | (some pdpt, st) =>
    match getOrCreateTable pdpt (pdptIndex physAddr) st with
    | (none, st) => st
    | (some pd, st) =>
      if st.mem pd (pdIndex physAddr) &&& pagePresent = 0 then
        st.setEntry pd (pdIndex physAddr)
          (physAddr ||| pagePresent ||| pageWritable ||| pageSize2Mb)
      else st

/-- `for (addr = start; n > 0; addr += PAGE_2MB_SIZE, n--) map_2mb_identity(addr)`. -/
def mapRegions : Nat → Word → Vmm → Vmm
  | 0, _, st => st
  | n + 1, addr, st => mapRegions n (addr + page2mbSize) (st.map2mbIdentity addr)

/-- One entry of the memory map in `vmm_init`. Past the last 2 MiB of the
address range `addr` starts over at 0, and the loop never ends. -/
def initEntry (st : Vmm) (entry : E820Entry) : Option Vmm :=
  if ¬ entry.usable then some st
  else
    let start := entry.base &&& ~~~(page2mbSize - 1)
    let stop := entry.base + entry.length
    if 2 ^ 64 - 2 ^ 21 < stop.toNat then none
    else some (st.mapRegions ((stop.toNat + (2 ^ 21 - 1) - start.toNat) / 2 ^ 21) start)

/-- `vmm_init`, with `cr3` as the bootloader left it. -/
def vmmInit (map : List E820Entry) (st : Vmm) : Option Vmm :=
  map.foldlM initEntry st

end Vmm

/-- The tables and the allocator when `kernel_main` has called `vmm_init`. -/
def bootVmm (mem : Tables) (map : List E820Entry) (kernelEnd : Nat) : Option Vmm :=
  (initPt { mem := mem, pmm := pmmInit map kernelEnd, kernelPml4 := 0x1000 }).vmmInit map

/-- The one slot of its PML4 that the kernel uses. -/
def slot0 (i : Nat) : Bool := decide (i = 0)

/-! ## The bootloader's tables -/

theorem initPt_pmm (st : Vmm) : (initPt st).pmm = st.pmm := by
  unfold initPt
  rw [Vmm.fillTable_pmm, Vmm.setEntry_pmm, Vmm.setEntry_pmm, Vmm.setEntry_pmm, List.foldl_cons,
    List.foldl_cons, List.foldl_cons, List.foldl_cons, List.foldl_nil, Vmm.fillTable_pmm,
    Vmm.fillTable_pmm, Vmm.fillTable_pmm, Vmm.fillTable_pmm]

theorem initPt_kernelPml4 (st : Vmm) : (initPt st).kernelPml4 = st.kernelPml4 := by
  unfold initPt
  rw [Vmm.fillTable_kernelPml4, Vmm.setEntry_kernelPml4, Vmm.setEntry_kernelPml4,
    Vmm.setEntry_kernelPml4, List.foldl_cons, List.foldl_cons, List.foldl_cons, List.foldl_cons,
    List.foldl_nil, Vmm.fillTable_kernelPml4, Vmm.fillTable_kernelPml4, Vmm.fillTable_kernelPml4,
    Vmm.fillTable_kernelPml4]

/-- What the bootloader leaves in its tables, `top` being the one entry of the
PML4. -/
structure BootTables (mem : Tables) (top : Word) : Prop where
  pml4 : ∀ i < entriesPerTable, mem 0x1000 i = if i = 0 then top else 0
  pdpt : ∀ i < entriesPerTable, mem 0x2000 i = if i = 0 then 0x3003 else 0
  pd : ∀ i < entriesPerTable, mem 0x3000 i = if i = 0 then 0x4003 else 0
  pt : ∀ i < entriesPerTable, mem 0x4000 i = 0x3 + BitVec.ofNat 64 i * 0x1000

theorem initPt_tables (st : Vmm) : BootTables (initPt st).mem 0x2003 := by
  unfold initPt
  constructor <;> intro i hi
  all_goals
    rcases Nat.eq_zero_or_pos i with rfl | later
    · simp [Vmm.fillTable_mem, Vmm.setEntry_mem, put, hi]
    · simp [Vmm.fillTable_mem, Vmm.setEntry_mem, put, hi, later.ne']

theorem BootTables.marked {mem : Tables} {top : Word} (boot : BootTables mem top) (e : Word) :
    BootTables (put mem 0x1000 0 e) e where
  pml4 := fun i hi => by
    by_cases at0 : i = 0
    · rw [at0, put_same, if_pos rfl]
    · rw [put_index at0, boot.pml4 i hi, if_neg at0, if_neg at0]
  pdpt := fun i hi => by rw [put_table (by decide), boot.pdpt i hi]
  pd := fun i hi => by rw [put_table (by decide), boot.pd i hi]
  pt := fun i hi => by rw [put_table (by decide), boot.pt i hi]

/-- The tree below the PML4 at boot: one table on each level. -/
theorem BootTables.node {mem : Tables} {top : Word} (boot : BootTables mem top)
    (leads : target top = 0x2000) {T : Tree Word Word} {slots : Nat → Bool}
    (root : T.root = 0x1000) (link : T.link = treeLink slots false) {p : Path} {b : Word}
    (node : nodeAt mem T p = some b) :
    (p, b) ∈ [([], 0x1000), ([0], 0x2000), ([0, 0], 0x3000), ([0, 0, 0], (0x4000 : Word))] := by
  induction p generalizing b with
  | nil =>
    cases node
    simp [root]
  | cons i p ih =>
    rw [nodeAt] at node
    obtain ⟨above, at_p, linked⟩ := Option.bind_eq_some_iff.mp node
    rw [link] at linked
    have entry := treeLink_eq_some.mp linked
    have hi : i < entriesPerTable := follows_bounded entry.1
    have entry : present (mem above i) = true ∧ target (mem above i) = b :=
      ⟨follows_present entry.1, entry.2⟩
    have place := ih at_p
    simp only [List.mem_cons, Prod.mk.injEq, List.not_mem_nil, or_false] at place
    -- every entry but the first of each table is empty
    have first (e : Word) (held : mem above i = if i = 0 then e else 0) :
        i = 0 ∧ target e = b := by
      by_cases at0 : i = 0
      · rw [held, if_pos at0] at entry
        exact ⟨at0, entry.2⟩
      · rw [held, if_neg at0] at entry
        cases entry.1
    rcases place with ⟨rfl, rfl⟩ | ⟨rfl, rfl⟩ | ⟨rfl, rfl⟩ | ⟨rfl, rfl⟩
    · obtain ⟨rfl, rfl⟩ := first _ (boot.pml4 i hi)
      rw [leads]
      decide
    · obtain ⟨rfl, rfl⟩ := first _ (boot.pdpt i hi)
      decide
    · obtain ⟨rfl, rfl⟩ := first _ (boot.pd i hi)
      decide
    · simp [treeLink, follows] at linked

/-- The bootloader's tables are well formed, once the kernel's slot is marked
for user access. -/
theorem BootTables.spaces {st : Vmm} (boot : BootTables st.mem 0x2007)
    (kernel : st.kernelPml4 = 0x1000) (low : ∀ f < 8, isUsed st.pmm f = true) :
    Spaces slot0 [] st ∧ UpperWritable st.mem (kernelTree slot0 st.kernelPml4) := by
  have only (T : Tree Word Word) (member : forest slot0 st.kernelPml4 [] T) :
      T = kernelTree slot0 0x1000 := by
    rcases member with same | ⟨r, none, -⟩
    · rw [same, kernel]
    · cases none
  have places (p : Path) (b : Word) (node : nodeAt st.mem (kernelTree slot0 0x1000) p = some b) :=
    boot.node (by decide) rfl rfl node
  simp only [List.mem_cons, Prod.mk.injEq, List.not_mem_nil, or_false] at places
  constructor
  · constructor
    case zero => exact low 0 (by decide)
    case nonzero => exact fun r none => absurd none (by simp)
    case separate =>
      intro S hs T ht p q b at_p at_q
      obtain rfl := only S hs
      obtain rfl := only T ht
      refine ⟨rfl, ?_⟩
      rcases places p b at_p with ⟨rfl, rfl⟩ | ⟨rfl, rfl⟩ | ⟨rfl, rfl⟩ | ⟨rfl, rfl⟩ <;>
        rcases places q _ at_q with ⟨rfl, same⟩ | ⟨rfl, same⟩ | ⟨rfl, same⟩ | ⟨rfl, same⟩ <;>
        first | rfl | exact absurd same (by decide)
    case tables =>
      intro T member p b node
      obtain rfl := only T member
      rcases places p b node with ⟨-, rfl⟩ | ⟨-, rfl⟩ | ⟨-, rfl⟩ | ⟨-, rfl⟩ <;>
        exact ⟨by unfold Aligned; decide, low _ (by decide)⟩
    case kernelSlots =>
      intro i hi
      rw [kernel, boot.pml4 i hi]
      by_cases at0 : i = 0
      · rw [if_pos at0, at0]
        rfl
      · rw [if_neg at0, slot0, decide_eq_false at0]
        rfl
    case kernelUser =>
      intro i hi slot
      rw [kernel, boot.pml4 i hi, if_pos (of_decide_eq_true slot)]
      rfl
    case shared => exact fun r none => absurd none (by simp)
    case own => exact fun r none => absurd none (by simp)
    case regions =>
      intro p b node deep i hi there large
      rw [kernel] at node
      rcases places p b node with ⟨rfl, rfl⟩ | ⟨rfl, rfl⟩ | ⟨rfl, rfl⟩ | ⟨rfl, rfl⟩
      all_goals try simp at deep
      rw [boot.pd i hi] at large
      by_cases at0 : i = 0
      · rw [if_pos at0] at large
        cases large
      · rw [if_neg at0] at large
        cases large
  · intro p b node short i hi there
    rw [kernel] at node
    have first (e : Word) (held : st.mem b i = if i = 0 then e else 0) (w : writable e = true) :
        writable (st.mem b i) = true := by
      by_cases at0 : i = 0
      · rw [held, if_pos at0, w]
      · rw [held, if_neg at0] at there
        cases there
    rcases places p b node with ⟨rfl, rfl⟩ | ⟨rfl, rfl⟩ | ⟨rfl, rfl⟩ | ⟨rfl, rfl⟩
    · exact first _ (boot.pml4 i hi) (by decide)
    · exact first _ (boot.pdpt i hi) (by decide)
    · exact first _ (boot.pd i hi) (by decide)
    · simp at short


section
variable {K : Nat → Bool} {roots : List Word} {st st' : Vmm} {a : Word}

/-- The entry of a 2 MiB page. -/
def regionEntry (a : Word) : Word := a ||| pagePresent ||| pageWritable ||| pageSize2Mb

theorem target_region (whole : a.toNat % 2 ^ 21 = 0) :
    target (regionEntry a) = regionBase (regionEntry a) := by
  have low (k : Nat) (hk : k < 21) : a.getLsbD k = false := by
    rw [← BitVec.testBit_toNat, ← Nat.div_add_mod' a.toNat (2 ^ 21), whole, Nat.add_zero,
      Nat.testBit_mul_two_pow, decide_eq_false (by omega), Bool.false_and]
  apply BitVec.eq_of_getLsbD_eq
  intro k hk
  rw [getLsbD_target, getLsbD_regionBase]
  rcases Nat.lt_or_ge k 21 with small | large
  · have flags : ∀ k < 21, ((pagePresent ||| pageWritable ||| pageSize2Mb).getLsbD k &&
        decide (12 ≤ k ∧ k < 52)) = false := by decide
    have clear := flags k small
    rw [regionEntry, BitVec.or_assoc, BitVec.or_assoc, ← BitVec.or_assoc pagePresent,
      BitVec.getLsbD_or, low k small, Bool.false_or, clear]
    simp [Nat.not_le.mpr small]
  · have : (12 ≤ k ∧ k < 52) ↔ (21 ≤ k ∧ k < 52) := by omega
    rw [decide_eq_decide.mpr this]

theorem writable_region : writable (regionEntry a) = true := by
  simp [regionEntry]

theorem huge_region : huge (regionEntry a) = true := by
  have : huge pageSize2Mb = true := by decide
  simp [regionEntry, this]

/-- A 2 MiB page in an empty entry of a page directory of the kernel's. -/
theorem Spaces.region {pd : Word} {p : Path} {i : Nat} (inv : Spaces K roots st)
    (node : nodeAt st.mem (kernelTree K st.kernelPml4) p = some pd) (deep : p.length = 2)
    (hi : i < entriesPerTable) (absent : present (st.mem pd i) = false)
    (whole : a.toNat % 2 ^ 21 = 0) :
    Spaces K roots (st.setEntry pd i (regionEntry a)) ∧
      (UpperWritable st.mem (kernelTree K st.kernelPml4) →
        UpperWritable (st.setEntry pd i (regionEntry a)).mem (kernelTree K st.kernelPml4)) := by
  have member := forest_kernel K st.kernelPml4 roots
  have flat : p ≠ [] := by
    rintro rfl
    cases deep
  have nowhere (e : Word) (stop : present e = false ∨ huge e = true) :
      (kernelTree K st.kernelPml4).link (i :: p) e = none := by
    rw [forest_follows member deep.le hi (fun top => absurd top flat), if_neg]
    rintro ⟨there, small⟩
    rcases stop with gone | large
    · rw [there] at gone
      cases gone
    · rw [small deep] at large
      cases large
  have nodes (S : Tree Word Word) (hs : forest K st.kernelPml4 roots S) (q : Path) :
      nodeAt (put st.mem pd i (regionEntry a)) S q = nodeAt st.mem S q :=
    inv.separate.nodeAt_relabel member node
      ((nowhere _ (Or.inr huge_region)).trans (nowhere _ (Or.inl absent)).symm) hs q
  constructor
  · refine inv.of_entry member node (fun top => absurd top flat) rfl (Grows.refl _)
      (fun d j _ other => put_other other) (inv.separate.of_nodes nodes) ?_ ?_ ?_
    · intro S hs q d at_q
      exact inv.tables S hs q d ((nodes S hs q).symm.trans at_q)
    · intro r live q d at_q shallow j hj private_ there
      have old := (nodes _ (forest_space K _ live) q).symm.trans at_q
      have other : d ≠ pd := by
        rintro rfl
        obtain ⟨same, -⟩ := inv.separate _ (forest_space K _ live) _ member q p d old node
        exact spaceTree_ne_kernelTree K _ _ same
      rw [Vmm.setEntry_mem, put_table other] at there ⊢
      exact inv.own r live q d old shallow j hj private_ there
    · intro q d at_q short j hj there large
      have old := (nodes _ member q).symm.trans at_q
      rw [Vmm.setEntry_mem] at there large ⊢
      by_cases here : d = pd ∧ j = i
      · obtain ⟨rfl, rfl⟩ := here
        rw [put_same]
        exact target_region whole
      · rw [put_other here] at there large ⊢
        exact inv.regions q d old short j hj there large
  · intro upper q d at_q short j hj there
    have old := (nodes _ member q).symm.trans at_q
    rw [Vmm.setEntry_mem] at there ⊢
    by_cases here : d = pd ∧ j = i
    · obtain ⟨rfl, rfl⟩ := here
      rw [put_same]
      exact writable_region
    · rw [put_other here] at there ⊢
      exact upper q d old short j hj there

/-- `map_2mb_identity` keeps the kernel's tables well formed. -/
theorem map2mbIdentity_spaces (inv : Spaces K roots st)
    (upper : UpperWritable st.mem (kernelTree K st.kernelPml4))
    (slot : K (levelIndex 39 a) = true) (whole : a.toNat % 2 ^ 21 = 0) :
    Spaces K roots (st.map2mbIdentity a) ∧
      UpperWritable (st.map2mbIdentity a).mem (kernelTree K st.kernelPml4) ∧
      (st.map2mbIdentity a).kernelPml4 = st.kernelPml4 := by
  obtain ⟨pdpt, found, node⟩ := getOrCreateTable_shared inv (Or.inl rfl) (levelIndex_lt 39 a) slot
  have member := forest_kernel K st.kernelPml4 roots
  have inside : [levelIndex 39 a] = [] → kernelTree K st.kernelPml4 ≠ kernelTree K st.kernelPml4 ∧
      K (levelIndex 30 a) = false := by simp
  simp only [Vmm.map2mbIdentity, pml4Index_eq, pdptIndex_eq, pdIndex_eq, found]
  rcases getOrCreateTable_spec inv member node (Nat.le_refl 1) (levelIndex_lt 30 a) inside with
    ⟨pd, st₁, made, placed⟩ | ⟨failed, -, -⟩
  swap
  · rw [failed]
    exact ⟨inv, upper, rfl⟩
  rw [made]
  have inv₁ := placed.inv
  have upper₁ := placed.rights inv member node upper
  have node₁ := placed.node
  rw [← placed.kernel] at upper₁ node₁ ⊢
  simp only [and_pagePresent]
  split
  · next absent =>
    obtain ⟨inv₂, upper₂⟩ := inv₁.region node₁ rfl (levelIndex_lt 21 a) absent whole
    exact ⟨inv₂, upper₂ upper₁, rfl⟩
  · exact ⟨inv₁, upper₁, rfl⟩

end

/-- The kernel's tables are well formed and it uses one slot. -/
structure KernelReady (st : Vmm) : Prop where
  spaces : Spaces slot0 [] st
  upper : UpperWritable st.mem (kernelTree slot0 st.kernelPml4)
  pml4 : st.kernelPml4 = 0x1000

section
variable {st : Vmm} {a : Word}

/-- What the bootloader leaves; the PML4 entry is not marked yet. -/
structure Booted (st : Vmm) : Prop where
  tables : BootTables st.mem 0x2003
  pml4 : st.kernelPml4 = 0x1000
  low : ∀ f < 8, isUsed st.pmm f = true

theorem levelIndex_low (below : a.toNat < 2 ^ 39) : levelIndex 39 a = 0 := by
  unfold levelIndex
  omega

theorem KernelReady.map2mb (ready : KernelReady st) (below : a.toNat < 2 ^ 39)
    (whole : a.toNat % 2 ^ 21 = 0) : KernelReady (st.map2mbIdentity a) := by
  have slot : slot0 (levelIndex 39 a) = true := by
    rw [levelIndex_low below]
    rfl
  obtain ⟨spaces, upper, kernel⟩ := map2mbIdentity_spaces ready.spaces ready.upper slot whole
  exact ⟨spaces, kernel ▸ upper, kernel.trans ready.pml4⟩

/-- The first `map_2mb_identity` marks the kernel's slot for user access. -/
theorem Booted.map2mb (booted : Booted st) (below : a.toNat < 2 ^ 39)
    (whole : a.toNat % 2 ^ 21 = 0) : KernelReady (st.map2mbIdentity a) := by
  have top : st.mem 0x1000 0 = 0x2003 := booted.tables.pml4 0 (by decide)
  have marked : st.map2mbIdentity a = (st.setEntry 0x1000 0 0x2007).map2mbIdentity a := by
    simp only [Vmm.map2mbIdentity, pml4Index_eq, levelIndex_low below, Vmm.setEntry_kernelPml4,
      booted.pml4]
    have before : st.getOrCreateTable 0x1000 0 = (some 0x2000, st.setEntry 0x1000 0 0x2007) := by
      rw [getOrCreateTable_present (by rw [top]; decide), enterTable_eq, top]
      rfl
    have after : (st.setEntry 0x1000 0 0x2007).getOrCreateTable 0x1000 0 =
        (some 0x2000, st.setEntry 0x1000 0 0x2007) := by
      rw [getOrCreateTable_present (by rw [Vmm.setEntry_mem, put_same]; decide), enterTable_eq,
        Vmm.setEntry_mem, put_same, Vmm.setEntry, Vmm.setEntry_mem, put_put]
      rfl
    rw [before, after]
  have tables : BootTables (st.setEntry 0x1000 0 0x2007).mem 0x2007 := booted.tables.marked 0x2007
  obtain ⟨spaces, upper⟩ := tables.spaces booted.pml4 booted.low
  rw [marked]
  exact KernelReady.map2mb ⟨spaces, upper, booted.pml4⟩ below whole

theorem toNat_regionStart (a : Word) :
    (a &&& ~~~(page2mbSize - 1)).toNat = a.toNat / 2 ^ 21 * 2 ^ 21 := by
  have hmask : (~~~(page2mbSize - 1)).toNat = (2 ^ 43 - 1) <<< 21 := by decide
  exact Lib.Words.toNat_and_high a _ 21 (by decide) hmask

theorem toNat_nextRegion (below : a.toNat < 2 ^ 39) :
    (a + page2mbSize).toNat = a.toNat + 2 ^ 21 := by
  rw [BitVec.toNat_add, show page2mbSize.toNat = 2 ^ 21 from rfl, Nat.mod_eq_of_lt (by omega)]

theorem KernelReady.mapRegions {n : Nat} (ready : KernelReady st) (whole : a.toNat % 2 ^ 21 = 0)
    (below : a.toNat + n * 2 ^ 21 ≤ 2 ^ 39) : KernelReady (st.mapRegions n a) := by
  induction n generalizing st a with
  | zero => exact ready
  | succ n ih =>
    have here : a.toNat < 2 ^ 39 := by omega
    have next := toNat_nextRegion here
    exact ih (ready.map2mb here whole) (by omega) (by omega)

theorem Booted.mapRegions {n : Nat} (booted : Booted st) (whole : a.toNat % 2 ^ 21 = 0)
    (below : a.toNat + n * 2 ^ 21 ≤ 2 ^ 39) :
    KernelReady (st.mapRegions n a) ∨ n = 0 := by
  cases n with
  | zero => exact Or.inr rfl
  | succ n =>
    have here : a.toNat < 2 ^ 39 := by omega
    have next := toNat_nextRegion here
    exact Or.inl ((booted.map2mb here whole).mapRegions (by omega) (by omega))

/-- Usable memory ends below 512 GiB. -/
def Below512Gb (map : List E820Entry) : Prop :=
  ∀ e ∈ map, e.usable = true → e.base.toNat + e.length.toNat ≤ 2 ^ 39

/-- An entry of the memory map is the 2 MiB regions it touches, none only where
it holds no memory. -/
theorem initEntry_regions (e : E820Entry)
    (below : e.usable = true → e.base.toNat + e.length.toNat ≤ 2 ^ 39) :
    ∃ n start, start.toNat % 2 ^ 21 = 0 ∧ start.toNat + n * 2 ^ 21 ≤ 2 ^ 39 ∧
      (∀ st : Vmm, st.initEntry e = some (st.mapRegions n start)) ∧
      (n = 0 → e.usable = true → e.length = 0) := by
  cases usable : e.usable with
  | false =>
    refine ⟨0, 0, by decide, by decide, fun st => ?_, fun _ no => by cases no⟩
    rw [Vmm.initEntry, if_pos (by simp [usable])]
    rfl
  | true =>
    have fits := below usable
    have stop : (e.base + e.length).toNat = e.base.toNat + e.length.toNat := by
      rw [BitVec.toNat_add, Nat.mod_eq_of_lt (by omega)]
    have start := toNat_regionStart e.base
    refine ⟨((e.base + e.length).toNat + (2 ^ 21 - 1) -
      (e.base &&& ~~~(page2mbSize - 1)).toNat) / 2 ^ 21, e.base &&& ~~~(page2mbSize - 1), ?_, ?_,
      fun st => ?_, ?_⟩
    · omega
    · rw [start, stop]
      omega
    · rw [Vmm.initEntry, if_neg (by simp [usable])]
      exact if_neg (by rw [stop]; omega)
    · intro none _
      rw [start, stop] at none
      apply BitVec.eq_of_toNat_eq
      simp
      omega

theorem KernelReady.vmmInit (map : List E820Entry) (below : Below512Gb map)
    (ready : KernelReady st) : ∃ st', st.vmmInit map = some st' ∧ KernelReady st' := by
  induction map generalizing st with
  | nil => exact ⟨st, rfl, ready⟩
  | cons e map ih =>
    obtain ⟨n, start, whole, fits, regions, -⟩ :=
      initEntry_regions e (below e (List.mem_cons_self ..))
    obtain ⟨st', rest, ready'⟩ := ih (fun e' he' => below e' (List.mem_cons_of_mem _ he'))
      (ready.mapRegions whole fits)
    refine ⟨st', ?_, ready'⟩
    rw [Vmm.vmmInit, List.foldlM_cons, regions]
    exact rest

/-- From the bootloader's tables, `vmm_init` makes the kernel's, unless the map
names no usable memory at all. -/
theorem Booted.vmmInit (map : List E820Entry) (below : Below512Gb map) (booted : Booted st) :
    ∃ st', st.vmmInit map = some st' ∧
      (KernelReady st' ∨ st' = st ∧ ∀ e ∈ map, e.usable = true → e.length = 0) := by
  induction map with
  | nil => exact ⟨st, rfl, Or.inr ⟨rfl, fun e none => by cases none⟩⟩
  | cons e map ih =>
    obtain ⟨n, start, whole, fits, regions, empty⟩ :=
      initEntry_regions e (below e (List.mem_cons_self ..))
    have below' : Below512Gb map := fun e' he' => below e' (List.mem_cons_of_mem _ he')
    have first : st.vmmInit (e :: map) = (st.mapRegions n start).vmmInit map := by
      rw [Vmm.vmmInit, List.foldlM_cons, regions]
      rfl
    rw [first]
    rcases booted.mapRegions whole fits with ready | rfl
    · obtain ⟨st', rest, ready'⟩ := ready.vmmInit map below'
      exact ⟨st', rest, Or.inl ready'⟩
    · obtain ⟨st', rest, same⟩ := ih below'
      refine ⟨st', rest, same.imp id fun unchanged => ⟨unchanged.1, ?_⟩⟩
      rintro e' (_ | ⟨_, he'⟩)
      · exact empty rfl
      · exact unchanged.2 e' he'

end

/-- An allocator told of no memory has none. -/
theorem pmmInit_empty {map : List E820Entry} (empty : ∀ e ∈ map, e.usable = true → e.length = 0)
    (kernelEnd f : Nat) : isUsed (pmmInit map kernelEnd) f = true := by
  have unchanged (s : Pmm) : map.foldl pmmAddEntry s = s := by
    induction map generalizing s with
    | nil => rfl
    | cons e map ih =>
      rw [List.foldl_cons]
      have here : pmmAddEntry s e = s := by
        unfold pmmAddEntry
        split
        · rfl
        · next usable =>
          split
          · rfl
          · have none := empty e (List.mem_cons_self ..) (by simpa using usable)
            have count : frameOf (min (e.base + e.length).toNat pmmMaxMemory) -
                frameOf (e.base.toNat + pmmFrameSize - 1) = 0 := by
              rw [none, show e.base + 0 = e.base from BitVec.add_zero _]
              unfold frameOf pmmFrameSize
              omega
            simp only [count, setFreeRange]
      rw [here]
      exact ih (fun e' he' => empty e' (List.mem_cons_of_mem _ he')) s
  unfold pmmInit
  rw [unchanged]
  refine reserveRange_grows _ _ _ _ (reserveRange_grows _ _ _ _ (reserveRange_grows _ _ _ _
    (reserveRange_grows _ _ _ _ ?_)))
  simp [isUsed]

/-- The boot area, the bootloader's tables among it, is never free. -/
theorem pmmInit_low (map : List E820Entry) (kernelEnd : Nat) {f : Nat} (hf : f < 8) :
    isUsed (pmmInit map kernelEnd) f = true := by
  have reserved := pmmInit_reserves map kernelEnd (f * pmmFrameSize)
    (Or.inl (by unfold pmmFrameSize; omega))
  rwa [frameOf, Nat.mul_div_cancel _ (by decide)] at reserved

/-- `kernel_main` up to `vmm_init`, with usable memory below 512 GiB. -/
theorem bootVmm_ready (mem : Tables) {map : List E820Entry} (below : Below512Gb map)
    (kernelEnd : Nat) : ∃ st, bootVmm mem map kernelEnd = some st ∧
      (KernelReady st ∨ ∀ f, isUsed st.pmm f = true) := by
  have booted : Booted (initPt ⟨mem, pmmInit map kernelEnd, 0x1000⟩) := by
    refine ⟨initPt_tables _, initPt_kernelPml4 _, fun f hf => ?_⟩
    rw [initPt_pmm]
    exact pmmInit_low map kernelEnd hf
  obtain ⟨st, made, ready | ⟨rfl, empty⟩⟩ := booted.vmmInit map below
  · exact ⟨st, made, Or.inl ready⟩
  · refine ⟨_, made, Or.inr fun f => ?_⟩
    rw [initPt_pmm]
    exact pmmInit_empty empty kernelEnd f

theorem bootVmm_ready_of {mem : Tables} {map : List E820Entry} (below : Below512Gb map)
    {kernelEnd : Nat} {boot : Vmm} (booted : bootVmm mem map kernelEnd = some boot) :
    KernelReady boot ∨ ∀ f, isUsed boot.pmm f = true := by
  obtain ⟨st, made, ready⟩ := bootVmm_ready mem below kernelEnd
  cases made.symm.trans booted
  exact ready

end MiniKernel.Memory.Paging
