import Mathlib.Data.BitVec
import Mathlib.Tactic
import MiniKernel.Lib.Words

/-!
# Four-level page tables as the kernel walks them

Source: kernel/mm/vmm.c:4-26 (entry bits, table indices) and 185-208
(`vmm_is_user_accessible_in`). The kernel reaches every table through the
identity mapping, so `table[index]` is a read of physical memory.

The second half states what the CPU itself does with a virtual address
(`Canonical`, `walk`), in bit positions rather than in the masks of the source.
PML4 and PDPT entries always point to tables here: `map_2mb_identity` sets the
page-size bit in PD entries only.
-/
namespace MiniKernel.Memory.Paging

/-- `unsigned long long`: addresses and page-table entries alike. -/
abbrev Word := BitVec 64

/-- Physical memory read as tables: entry `index` of the table at `base`. -/
abbrev Tables := Word → Nat → Word

def pagePresent : Word := 0x1
def pageWritable : Word := 0x2
def pageUser : Word := 0x4
def pageSize2Mb : Word := 0x80
def pageAddrMask : Word := 0x000FFFFFFFFFF000

def pml4Index (addr : Word) : Nat := ((addr >>> 39) &&& 0x1FF).toNat
def pdptIndex (addr : Word) : Nat := ((addr >>> 30) &&& 0x1FF).toNat
def pdIndex (addr : Word) : Nat := ((addr >>> 21) &&& 0x1FF).toNat
def ptIndex (addr : Word) : Nat := ((addr >>> 12) &&& 0x1FF).toNat

def spacePml4 (space : Word) : Word := space &&& pageAddrMask

/-- `vmm_current_address_space` of a CPU whose CR3 holds `cr3`. -/
def vmmCurrentAddressSpace (cr3 : Word) : Word := cr3 &&& pageAddrMask

/-- `vmm_is_user_accessible_in`: present and user at each level, a 2 MiB entry
ending the walk. -/
def vmmIsUserAccessibleIn (mem : Tables) (space virtAddr : Word) : Bool :=
  let l4 := mem (spacePml4 space) (pml4Index virtAddr)
  if l4 &&& pagePresent = 0 ∨ l4 &&& pageUser = 0 then false
  else
    let l3 := mem (l4 &&& pageAddrMask) (pdptIndex virtAddr)
    if l3 &&& pagePresent = 0 ∨ l3 &&& pageUser = 0 then false
    else
      let l2 := mem (l3 &&& pageAddrMask) (pdIndex virtAddr)
      if l2 &&& pagePresent = 0 ∨ l2 &&& pageUser = 0 then false
      else if l2 &&& pageSize2Mb ≠ 0 then true
      else
        let l1 := mem (l2 &&& pageAddrMask) (ptIndex virtAddr)
        decide (l1 &&& pagePresent ≠ 0 ∧ l1 &&& pageUser ≠ 0)

/-! ## The CPU's view -/

/-- Bits 63..47 are all equal; the CPU faults on any other address before it
translates. -/
def Canonical (a : Word) : Prop := a.toNat < 2 ^ 47 ∨ 2 ^ 64 - 2 ^ 47 ≤ a.toNat

instance (a : Word) : Decidable (Canonical a) := inferInstanceAs (Decidable (_ ∨ _))

def present (e : Word) : Bool := e.getLsbD 0
def writable (e : Word) : Bool := e.getLsbD 1
def user (e : Word) : Bool := e.getLsbD 2
def huge (e : Word) : Bool := e.getLsbD 7

/-- Nine address bits from `low` up. -/
def levelIndex (low : Nat) (a : Word) : Nat := a.toNat / 2 ^ low % 512

/-- Bits 51..12 of an entry: the frame it points to. -/
def target (e : Word) : Word := BitVec.ofNat 64 (e.toNat / 4096 % 2 ^ 40 * 4096)

/-- The entries the CPU consults for `a`, from the PML4 down to the leaf. -/
def walk (mem : Tables) (cr3 a : Word) : List Word :=
  let l4 := mem (target cr3) (levelIndex 39 a)
  let l3 := mem (target l4) (levelIndex 30 a)
  let l2 := mem (target l3) (levelIndex 21 a)
  if huge l2 then [l4, l3, l2] else [l4, l3, l2, mem (target l2) (levelIndex 12 a)]

/-- The walk for `a` is present and user at every level. -/
def UserMapped (mem : Tables) (cr3 a : Word) : Prop :=
  ∀ e ∈ walk mem cr3 a, present e = true ∧ user e = true

/-- The walk for `a` is writable at every level. -/
def WriteMapped (mem : Tables) (cr3 a : Word) : Prop :=
  ∀ e ∈ walk mem cr3 a, writable e = true

instance (mem : Tables) (cr3 a : Word) : Decidable (UserMapped mem cr3 a) :=
  inferInstanceAs (Decidable (∀ e ∈ walk mem cr3 a, _))

instance (mem : Tables) (cr3 a : Word) : Decidable (WriteMapped mem cr3 a) :=
  inferInstanceAs (Decidable (∀ e ∈ walk mem cr3 a, _))

/-! ## Masks of the source are bit positions of the CPU -/

theorem and_twoPow_eq_zero_iff (e : Word) (i : Nat) (hi : i < 64) :
    e &&& BitVec.twoPow 64 i = 0 ↔ e.getLsbD i = false := by
  rw [BitVec.and_twoPow]
  cases h : e.getLsbD i with
  | false => simp
  | true =>
    simp only [if_true, Bool.true_eq_false, iff_false]
    intro hz
    have := congrArg (fun w => BitVec.getLsbD w i) hz
    simp [hi] at this

@[simp] theorem and_pagePresent (e : Word) : e &&& pagePresent = 0 ↔ present e = false :=
  and_twoPow_eq_zero_iff e 0 (by decide)

@[simp] theorem and_pageUser (e : Word) : e &&& pageUser = 0 ↔ user e = false :=
  and_twoPow_eq_zero_iff e 2 (by decide)

@[simp] theorem and_pageSize2Mb (e : Word) : e &&& pageSize2Mb = 0 ↔ huge e = false :=
  and_twoPow_eq_zero_iff e 7 (by decide)

theorem toNat_and_pageAddrMask (e : Word) :
    (e &&& pageAddrMask).toNat = e.toNat / 4096 % 2 ^ 40 * 4096 := by
  have hmask : pageAddrMask.toNat = (2 ^ 40 - 1) <<< 12 := by decide
  rw [BitVec.toNat_and, hmask]
  exact Lib.Words.and_mask e.toNat 12 40

theorem toNat_target (e : Word) : (target e).toNat = e.toNat / 4096 % 2 ^ 40 * 4096 := by
  have bound : e.toNat / 4096 % 2 ^ 40 * 4096 < 2 ^ 64 := by omega
  rw [target, BitVec.toNat_ofNat, Nat.mod_eq_of_lt bound]

@[simp] theorem and_pageAddrMask (e : Word) : e &&& pageAddrMask = target e :=
  BitVec.eq_of_toNat_eq ((toNat_and_pageAddrMask e).trans (toNat_target e).symm)

@[simp] theorem target_target (e : Word) : target (target e) = target e := by
  apply BitVec.eq_of_toNat_eq
  simp only [toNat_target]
  omega

theorem toNat_shift_and (a : Word) (low : Nat) :
    ((a >>> low) &&& 0x1FF).toNat = levelIndex low a := by
  have hmask : (0x1FF : Word).toNat = 2 ^ 9 - 1 := by decide
  rw [BitVec.toNat_and, BitVec.toNat_ushiftRight, hmask, Nat.and_two_pow_sub_one_eq_mod,
    Nat.shiftRight_eq_div_pow]
  rfl

theorem pml4Index_eq (a : Word) : pml4Index a = levelIndex 39 a := toNat_shift_and a 39
theorem pdptIndex_eq (a : Word) : pdptIndex a = levelIndex 30 a := toNat_shift_and a 30
theorem pdIndex_eq (a : Word) : pdIndex a = levelIndex 21 a := toNat_shift_and a 21
theorem ptIndex_eq (a : Word) : ptIndex a = levelIndex 12 a := toNat_shift_and a 12

theorem levelIndex_lt (low : Nat) (a : Word) : levelIndex low a < 512 :=
  Nat.mod_lt _ (by decide)

/-- The kernel's check and the CPU's walk agree on every address, canonical or
not: both look at bits 12 to 47 only. -/
theorem vmmIsUserAccessibleIn_iff (mem : Tables) (space a : Word) :
    vmmIsUserAccessibleIn mem space a = true ↔ UserMapped mem space a := by
  simp only [vmmIsUserAccessibleIn, UserMapped, walk, spacePml4, and_pageAddrMask,
    and_pagePresent, and_pageUser, and_pageSize2Mb, pml4Index_eq, pdptIndex_eq, pdIndex_eq,
    ptIndex_eq, ne_eq]
  generalize mem (target space) (levelIndex 39 a) = l4
  generalize mem (target l4) (levelIndex 30 a) = l3
  generalize mem (target l3) (levelIndex 21 a) = l2
  by_cases h4 : present l4 = true ∧ user l4 = true
  · by_cases h3 : present l3 = true ∧ user l3 = true
    · by_cases h2 : present l2 = true ∧ user l2 = true
      · cases hh : huge l2 <;> simp [h4, h3, h2]
      · split <;> grind
    · split <;> grind
  · split <;> grind

@[simp] theorem userMapped_current (mem : Tables) (cr3 a : Word) :
    UserMapped mem (vmmCurrentAddressSpace cr3) a ↔ UserMapped mem cr3 a := by
  simp only [UserMapped, walk, vmmCurrentAddressSpace, and_pageAddrMask, target_target]

/-- Addresses on one page share their walk. -/
theorem walk_congr (mem : Tables) (cr3 a b : Word) (h : a.toNat / 4096 = b.toNat / 4096) :
    walk mem cr3 a = walk mem cr3 b := by
  have same (low : Nat) (hl : 12 ≤ low) : levelIndex low a = levelIndex low b := by
    obtain ⟨k, rfl⟩ := Nat.exists_eq_add_of_le hl
    simp only [levelIndex, Nat.pow_add, ← Nat.div_div_eq_div_mul]
    rw [show 2 ^ 12 = 4096 from rfl, h]
  simp only [walk, same 39 (by decide), same 30 (by decide), same 21 (by decide),
    same 12 (by decide)]

theorem userMapped_congr (mem : Tables) (cr3 a b : Word)
    (h : a.toNat / 4096 = b.toNat / 4096) : UserMapped mem cr3 a ↔ UserMapped mem cr3 b := by
  rw [UserMapped, UserMapped, walk_congr mem cr3 a b h]

end MiniKernel.Memory.Paging
