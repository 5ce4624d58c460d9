import MiniKernel.Lib.Radix
import MiniKernel.Memory.Paging
import MiniKernel.Memory.Frames

/-!
# Building and taking down page tables

Source: kernel/mm/vmm.c:34-156 (tables on demand, `vmm_map_page_in`,
`vmm_unmap_page_in`), 284-346 (address spaces) and kernel/mm/pmm.c:108-137,
165-170. Tables and pages are frames of one physical memory, which the kernel
reaches through its identity mapping; the TLB is not modelled (`invlpg`).
-/
namespace MiniKernel.Memory.Paging
open Lib

/-- What the page-table code reads and writes. -/
structure Vmm where
  mem : Tables
  pmm : Pmm
  kernelPml4 : Word

def entriesPerTable : Nat := 512

/-- The flags callers pass to `vmm_map_page_in`. -/
def vmmWritable : Word := 0x2
def vmmUser : Word := 0x4

namespace Vmm

/-- `table[index] = e`. -/
def setEntry (table : Word) (index : Nat) (e : Word) (st : Vmm) : Vmm :=
  { st with mem := Radix.put st.mem table index e }

/-- `for (i = 0; i < n; i++) table[i] = entry(i)`. -/
def fillTable (table : Word) (entry : Nat → Word) : Nat → Vmm → Vmm
  | 0, st => st
  | n + 1, st => (fillTable table entry n st).setEntry table n (entry n)

/-- `pmm_alloc_frame`; address 0 for "none". -/
def allocFrame (st : Vmm) : Word × Vmm :=
  (BitVec.ofNat 64 (pmmAllocFrame st.pmm).1, { st with pmm := (pmmAllocFrame st.pmm).2 })

/-- `pmm_free_frame`. -/
def freeFrame (addr : Word) (st : Vmm) : Vmm :=
  { st with pmm := pmmFreeFrame addr.toNat st.pmm }

/-- The end of `get_or_create_table`: user bit set, then the table read back. -/
def enterTable (table : Word) (index : Nat) (st : Vmm) : Option Word × Vmm :=
  let st := st.setEntry table index (st.mem table index ||| pageUser)
  (some (st.mem table index &&& pageAddrMask), st)

/-- The branch of `get_or_create_table` for an absent entry. -/
def createTable (table : Word) (index : Nat) (st : Vmm) : Option Word × Vmm :=
  let (frame, st) := st.allocFrame
  if frame = 0 then (none, st)
  else
    enterTable table index ((st.fillTable frame (fun _ => 0) entriesPerTable).setEntry table index
      (frame ||| pagePresent ||| pageWritable))

/-- `get_or_create_table`. -/
def getOrCreateTable (table : Word) (index : Nat) (st : Vmm) : Option Word × Vmm :=
  if st.mem table index &&& pagePresent = 0 then createTable table index st
  else enterTable table index st

/-- `get_pd_entry`: the table and index of the page-directory entry. -/
def getPdEntry (pml4 virtAddr : Word) (st : Vmm) : Option (Word × Nat) :=
  let l4 := st.mem pml4 (pml4Index virtAddr)
  if l4 &&& pagePresent = 0 then none
  else
    let l3 := st.mem (l4 &&& pageAddrMask) (pdptIndex virtAddr)
    if l3 &&& pagePresent = 0 then none
    else some (l3 &&& pageAddrMask, pdIndex virtAddr)

/-- A new page table under a page-directory entry, filled by `entry`. -/
def newPageTable (pd : Word) (pdi : Nat) (entry : Nat → Word) (st : Vmm) : Option Word × Vmm :=
  let (frame, st) := st.allocFrame
  if frame = 0 then (none, st)
  else
    (some frame, (st.fillTable frame entry entriesPerTable).setEntry pd pdi
      (frame ||| pagePresent ||| pageWritable ||| pageUser))

/-- The entries a 2 MiB page is split into. -/
def splitEntry (pdEntry : Word) (i : Nat) : Word :=
  ((pdEntry &&& pageAddrMask) + BitVec.ofNat 64 i * 4096) |||
    (pdEntry &&& (pagePresent ||| pageWritable))

/-- The page table an entry of a page directory stands for, split or created
where there is none. -/
def pageTableOf (pd : Word) (pdi : Nat) (st : Vmm) : Option Word × Vmm :=
  let pdEntry := st.mem pd pdi
  if pdEntry &&& pagePresent ≠ 0 then
    if pdEntry &&& pageSize2Mb ≠ 0 then st.newPageTable pd pdi (splitEntry pdEntry)
    else (some (pdEntry &&& pageAddrMask), st)
  else st.newPageTable pd pdi (fun _ => 0)

/-- `get_or_split_pt_entry`: the table and index of the page-table entry. -/
def getOrSplitPtEntry (pml4 virtAddr : Word) (st : Vmm) : Option (Word × Nat) × Vmm :=
  match getOrCreateTable pml4 (pml4Index virtAddr) st with
  | (none, st) => (none, st)
  | (some pdpt, st) =>
    match getOrCreateTable pdpt (pdptIndex virtAddr) st with
    | (none, st) => (none, st)
    | (some pd, st) =>
      match pageTableOf pd (pdIndex virtAddr) st with
      | (none, st) => (none, st)
      | (some pt, st) =>
        (some (pt, ptIndex virtAddr),
          st.setEntry pd (pdIndex virtAddr) (st.mem pd (pdIndex virtAddr) ||| pageUser))

/-- `vmm_map_page_in`; `true` for 0. -/
def vmmMapPageIn (space virtAddr physAddr flags : Word) (st : Vmm) : Bool × Vmm :=
  match getOrSplitPtEntry (spacePml4 space) virtAddr st with
  | (none, st) => (false, st)
  | (some (pt, i), st) =>
    (true, st.setEntry pt i ((physAddr &&& pageAddrMask) ||| (flags &&& 0xFFF) ||| pagePresent))

/-- `vmm_unmap_page_in`; `true` for 0. -/
def vmmUnmapPageIn (space virtAddr : Word) (st : Vmm) : Bool × Vmm :=
  match st.getPdEntry (spacePml4 space) virtAddr with
  | none => (true, st)
  | some (pd, pdi) =>
    if st.mem pd pdi &&& pagePresent = 0 then (true, st)
    else
      match getOrSplitPtEntry (spacePml4 space) virtAddr st with
      | (none, st) => (false, st)
      | (some (pt, i), st) => (true, st.setEntry pt i 0)

/-- `vmm_is_mapped_in`. -/
def vmmIsMappedIn (space virtAddr : Word) (st : Vmm) : Bool :=
  match st.getPdEntry (spacePml4 space) virtAddr with
  | none => false
  | some (pd, pdi) =>
    let pdEntry := st.mem pd pdi
    if pdEntry &&& pagePresent = 0 then false
    else if pdEntry &&& pageSize2Mb ≠ 0 then true
    else decide (st.mem (pdEntry &&& pageAddrMask) (ptIndex virtAddr) &&& pagePresent ≠ 0)

/-- `vmm_create_address_space`. -/
def vmmCreateAddressSpace (st : Vmm) : Word × Vmm :=
  let (frame, st) := st.allocFrame
  if frame = 0 then (0, st)
  else (frame, st.fillTable frame (st.mem st.kernelPml4) entriesPerTable)

/-- `for (i = 0; i < n; i++) body(i)`. -/
def forEntries (body : Nat → Vmm → Vmm) : Nat → Vmm → Vmm
  | 0, st => st
  | n + 1, st => body n (forEntries body n st)

/-- The innermost loop body of `vmm_destroy_address_space`. -/
def freePage (pte : Word) (st : Vmm) : Vmm :=
  if pte &&& (pagePresent ||| pageUser) = pagePresent ||| pageUser then
    st.freeFrame (pte &&& pageAddrMask)
  else st

def freePageTable (l2 : Word) (st : Vmm) : Vmm :=
  if l2 &&& pagePresent = 0 then st
  -- user mappings are 4 KiB pages; huge pages are never freed
  else if l2 &&& pageSize2Mb ≠ 0 then st
  else
    let pt := l2 &&& pageAddrMask
    (st.forEntries (fun i st => st.freePage (st.mem pt i)) entriesPerTable).freeFrame pt

def freePageDirectory (l3 : Word) (st : Vmm) : Vmm :=
  if l3 &&& pagePresent = 0 then st
  else
    let pd := l3 &&& pageAddrMask
    (st.forEntries (fun i st => st.freePageTable (st.mem pd i)) entriesPerTable).freeFrame pd

/-- One top-level branch; what is the kernel's entry bit for bit is shared. -/
def freeBranch (l4 kernelEntry : Word) (st : Vmm) : Vmm :=
  if l4 &&& pagePresent = 0 ∨ l4 = kernelEntry then st
  else
    let pdpt := l4 &&& pageAddrMask
    (st.forEntries (fun i st => st.freePageDirectory (st.mem pdpt i)) entriesPerTable).freeFrame
      pdpt

/-- `vmm_destroy_address_space`. -/
def vmmDestroyAddressSpace (space : Word) (st : Vmm) : Vmm :=
  if space = 0 ∨ space = st.kernelPml4 then st
  else
    let pml4 := spacePml4 space
    (st.forEntries (fun i st => st.freeBranch (st.mem pml4 i) (st.mem st.kernelPml4 i))
      entriesPerTable).freeFrame space

end Vmm

/-! ## What the CPU makes of an address -/

/-- The 4 KiB page an address is translated to, with the effective rights. -/
structure Translation where
  frame : Word
  writable : Bool
  user : Bool
  deriving DecidableEq

/-- Bits 51..21 of an entry: the 2 MiB it maps. -/
def regionBase (e : Word) : Word := BitVec.ofNat 64 (e.toNat / 2 ^ 21 % 2 ^ 31 * 2 ^ 21)

/-- The translation of `a` under `cr3`; `none` where an entry is not present. -/
def translate (mem : Tables) (cr3 a : Word) : Option Translation :=
  let l4 := mem (target cr3) (levelIndex 39 a)
  if present l4 = false then none
  else
    let l3 := mem (target l4) (levelIndex 30 a)
    if present l3 = false then none
    else
      let l2 := mem (target l3) (levelIndex 21 a)
      if present l2 = false then none
      else if huge l2 = true then
        some ⟨regionBase l2 + BitVec.ofNat 64 (levelIndex 12 a) * 4096,
          writable l4 && writable l3 && writable l2, user l4 && user l3 && user l2⟩
      else
        let l1 := mem (target l2) (levelIndex 12 a)
        if present l1 = false then none
        else
          some ⟨target l1, writable l4 && writable l3 && writable l2 && writable l1,
            user l4 && user l3 && user l2 && user l1⟩

/-! ## Entry bits -/

theorem getLsbD_target (e : Word) (i : Nat) :
    (target e).getLsbD i = (e.getLsbD i && decide (12 ≤ i ∧ i < 52)) := by
  rw [← and_pageAddrMask, BitVec.getLsbD_and]
  congr 1
  rcases Nat.lt_or_ge i 64 with inside | outside
  · have : ∀ i < 64, pageAddrMask.getLsbD i = decide (12 ≤ i ∧ i < 52) := by decide
    exact this i inside
  · rw [BitVec.getLsbD_of_ge _ _ outside]
    exact (decide_eq_false (by omega)).symm

theorem target_or (a b : Word) : target (a ||| b) = target a ||| target b := by
  apply BitVec.eq_of_getLsbD_eq
  intro i _
  rw [BitVec.getLsbD_or, getLsbD_target, getLsbD_target, getLsbD_target, BitVec.getLsbD_or,
    Bool.and_or_distrib_right]

@[simp] theorem present_or (a b : Word) : present (a ||| b) = (present a || present b) :=
  BitVec.getLsbD_or
@[simp] theorem writable_or (a b : Word) : writable (a ||| b) = (writable a || writable b) :=
  BitVec.getLsbD_or
@[simp] theorem user_or (a b : Word) : user (a ||| b) = (user a || user b) := BitVec.getLsbD_or
@[simp] theorem huge_or (a b : Word) : huge (a ||| b) = (huge a || huge b) := BitVec.getLsbD_or

@[simp] theorem target_pagePresent : target pagePresent = 0 := by decide
@[simp] theorem target_pageWritable : target pageWritable = 0 := by decide
@[simp] theorem target_pageUser : target pageUser = 0 := by decide
@[simp] theorem target_zero : target 0#64 = 0#64 := by decide

@[simp] theorem present_target (e : Word) : present (target e) = false := by
  rw [present, getLsbD_target, decide_eq_false (by omega), Bool.and_false]
@[simp] theorem writable_target (e : Word) : writable (target e) = false := by
  rw [writable, getLsbD_target, decide_eq_false (by omega), Bool.and_false]
@[simp] theorem user_target (e : Word) : user (target e) = false := by
  rw [user, getLsbD_target, decide_eq_false (by omega), Bool.and_false]
@[simp] theorem huge_target (e : Word) : huge (target e) = false := by
  rw [huge, getLsbD_target, decide_eq_false (by omega), Bool.and_false]

@[simp] theorem present_pagePresent : present pagePresent = true := by decide
@[simp] theorem present_pageWritable : present pageWritable = false := by decide
@[simp] theorem present_pageUser : present pageUser = false := by decide
@[simp] theorem writable_pagePresent : writable pagePresent = false := by decide
@[simp] theorem writable_pageWritable : writable pageWritable = true := by decide
@[simp] theorem writable_pageUser : writable pageUser = false := by decide
@[simp] theorem user_pagePresent : user pagePresent = false := by decide
@[simp] theorem user_pageWritable : user pageWritable = false := by decide
@[simp] theorem user_pageUser : user pageUser = true := by decide
@[simp] theorem huge_pagePresent : huge pagePresent = false := by decide
@[simp] theorem huge_pageWritable : huge pageWritable = false := by decide
@[simp] theorem huge_pageUser : huge pageUser = false := by decide
@[simp] theorem present_zero : present 0#64 = false := by decide

/-- A frame address: page-aligned and within the address bits of an entry. -/
def Aligned (w : Word) : Prop := target w = w

theorem aligned_target (e : Word) : Aligned (target e) := target_target e

theorem or_pageUser_of_user {e : Word} (u : user e = true) : e ||| pageUser = e := by
  have hmask : pageUser = BitVec.twoPow 64 2 := by decide
  ext i hi
  rw [BitVec.getElem_or, hmask, BitVec.getElem_twoPow]
  by_cases at2 : i = 2
  · subst at2
    have : e[2] = true := u
    simp [this]
  · simp [at2]

theorem getLsbD_regionBase (e : Word) (i : Nat) :
    (regionBase e).getLsbD i = (e.getLsbD i && decide (21 ≤ i ∧ i < 52)) := by
  have value : (regionBase e).toNat = e.toNat / 2 ^ 21 % 2 ^ 31 * 2 ^ 21 := by
    rw [regionBase, BitVec.toNat_ofNat, Nat.mod_eq_of_lt (by omega)]
  rw [← BitVec.testBit_toNat, ← BitVec.testBit_toNat, value, Nat.testBit_mul_two_pow,
    Nat.testBit_mod_two_pow, Nat.testBit_div_two_pow]
  by_cases low : 21 ≤ i
  · have back : i - 21 + 21 = i := by omega
    have bound : i - 21 < 31 ↔ i < 52 := by omega
    simp [low, back, bound, Bool.and_comm]
  · simp [low]

theorem regionBase_or_pageUser (e : Word) : regionBase (e ||| pageUser) = regionBase e := by
  apply BitVec.eq_of_getLsbD_eq
  intro i hi
  rw [getLsbD_regionBase, getLsbD_regionBase, BitVec.getLsbD_or, Bool.and_or_distrib_right]
  have high : ∀ i < 64, (pageUser.getLsbD i && decide (21 ≤ i ∧ i < 52)) = false := by decide
  rw [high i hi, Bool.or_false]

/-- The pages of a region start at page addresses. -/
theorem getLsbD_splitPage (e : Word) (i k : Nat) (low : k < 12) :
    (target e + BitVec.ofNat 64 i * 4096).getLsbD k = false := by
  rw [← BitVec.testBit_toNat, BitVec.toNat_add, toNat_target, BitVec.toNat_mul]
  rw [show (4096 : Word).toNat = 4096 from rfl]
  have whole : ∃ n, (e.toNat / 4096 % 2 ^ 40 * 4096 +
      (BitVec.ofNat 64 i).toNat * 4096 % 2 ^ 64) % 2 ^ 64 = n * 4096 := by
    refine ⟨(e.toNat / 4096 % 2 ^ 40 * 4096 +
      (BitVec.ofNat 64 i).toNat * 4096 % 2 ^ 64) % 2 ^ 64 / 4096, ?_⟩
    omega
  obtain ⟨n, whole⟩ := whole
  rw [whole, show 4096 = 2 ^ 12 from rfl, Nat.testBit_mul_two_pow]
  simp
  omega

theorem getLsbD_splitEntry_low (e : Word) (i k : Nat) (low : k < 2) :
    (Vmm.splitEntry e i).getLsbD k = e.getLsbD k := by
  rw [Vmm.splitEntry, and_pageAddrMask, BitVec.getLsbD_or, getLsbD_splitPage e i k (by omega),
    Bool.false_or, BitVec.getLsbD_and]
  have mask : ∀ k < 2, (pagePresent ||| pageWritable).getLsbD k = true := by decide
  rw [mask k low, Bool.and_true]

/-- The pages a region is split into are the supervisor's. -/
@[simp] theorem user_splitEntry (e : Word) (i : Nat) : user (Vmm.splitEntry e i) = false := by
  rw [user, Vmm.splitEntry, and_pageAddrMask, BitVec.getLsbD_or,
    getLsbD_splitPage e i 2 (by decide), Bool.false_or, BitVec.getLsbD_and]
  rw [show (pagePresent ||| pageWritable).getLsbD 2 = false by decide, Bool.and_false]

@[simp] theorem present_splitEntry (e : Word) (i : Nat) : present (Vmm.splitEntry e i) = present e :=
  getLsbD_splitEntry_low e i 0 (by decide)

@[simp] theorem writable_splitEntry (e : Word) (i : Nat) :
    writable (Vmm.splitEntry e i) = writable e :=
  getLsbD_splitEntry_low e i 1 (by decide)

/-- The pages of an aligned 2 MiB region, one by one. -/
theorem target_splitEntry {e : Word} (region : target e = regionBase e) {i : Nat}
    (hi : i < entriesPerTable) :
    target (Vmm.splitEntry e i) = regionBase e + BitVec.ofNat 64 i * 4096 := by
  have base : (regionBase e).toNat = e.toNat / 2 ^ 21 % 2 ^ 31 * 2 ^ 21 := by
    rw [regionBase, BitVec.toNat_ofNat, Nat.mod_eq_of_lt (by omega)]
  have flags : target (e &&& (pagePresent ||| pageWritable)) = 0#64 := by
    apply BitVec.eq_of_getLsbD_eq
    intro k hk
    rw [getLsbD_target, BitVec.getLsbD_and]
    have mask : ∀ k < 64, ((pagePresent ||| pageWritable).getLsbD k &&
        decide (12 ≤ k ∧ k < 52)) = false := by decide
    rw [Bool.and_assoc, mask k hk]
    simp
  rw [Vmm.splitEntry, and_pageAddrMask, target_or, flags, region, BitVec.or_zero]
  apply BitVec.eq_of_toNat_eq
  rw [toNat_target, BitVec.toNat_add, base, BitVec.toNat_mul, BitVec.toNat_ofNat,
    show (4096 : Word).toNat = 4096 from rfl]
  unfold entriesPerTable at hi
  omega

/-- The source tests both bits of a page at once. -/
theorem and_presentUser (e : Word) :
    e &&& (pagePresent ||| pageUser) = pagePresent ||| pageUser ↔
      present e = true ∧ user e = true := by
  have hmask : ∀ i < 64, (pagePresent ||| pageUser).getLsbD i = decide (i = 0 ∨ i = 2) := by
    decide
  constructor
  · intro both
    have bit (i : Nat) (hi : i = 0 ∨ i = 2) : e.getLsbD i = true := by
      have at_i := congrArg (fun w => BitVec.getLsbD w i) both
      simp only [BitVec.getLsbD_and, hmask i (by omega), decide_eq_true hi, Bool.and_true] at at_i
      exact at_i
    exact ⟨bit 0 (Or.inl rfl), bit 2 (Or.inr rfl)⟩
  · rintro ⟨p, u⟩
    apply BitVec.eq_of_getLsbD_eq
    intro i hi
    rw [BitVec.getLsbD_and, hmask i hi]
    by_cases at0 : i = 0
    · subst at0
      simpa [present] using p
    · by_cases at2 : i = 2
      · subst at2
        simpa [user] using u
      · simp [at0, at2]

end MiniKernel.Memory.Paging
