import MiniKernel.Memory.Paging

/-!
# `user_range_ok`: the check in front of every user pointer

Source: kernel/core/syscall.c:21-39. The range is rounded to pages and each
page is looked up in the current address space. The loop has no bound of its
own; it is given fuel for the pages between its two ends, and `none` would
mean that it is still running when the fuel is spent.
-/
namespace MiniKernel.Memory.UserRange
open Paging

/-- `for (page = start;; page += 0x1000)`: leave with 0 at the first page that
is not accessible, with 1 behind `last`. -/
def userRangeLoop (accessible : Word → Bool) (last : Word) : Nat → Word → Option Bool
  | 0, _ => none
  | fuel + 1, page =>
    if !accessible page then some false
    else if page = last then some true
    else userRangeLoop accessible last fuel (page + 0x1000)

def pageOf (a : Word) : Word := a &&& ~~~0xFFF

/-- `user_range_ok` in the address space `cr3` names. -/
def userRangeOk (mem : Tables) (cr3 vaddr len : Word) : Option Bool :=
  if len = 0 then some true
  else if len - 1 > ~~~0 - vaddr then some false
  else
    let space := vmmCurrentAddressSpace cr3
    let start := pageOf vaddr
    let last := pageOf (vaddr + len - 1)
    userRangeLoop (vmmIsUserAccessibleIn mem space) last ((last - start).toNat / 4096 + 1) start

/-- Byte `k` of the range that starts at `vaddr`. -/
def byteAt (vaddr : Word) (k : Nat) : Word := vaddr + BitVec.ofNat 64 k

/-- `vaddr + len - 1` stays a 64-bit number. -/
def NoWrap (vaddr len : Word) : Prop := vaddr.toNat + len.toNat - 1 < 2 ^ 64

/-- What the kernel needs of a range before it touches it. -/
def RangeTouchable (mem : Tables) (cr3 vaddr len : Word) : Prop :=
  NoWrap vaddr len ∧
    ∀ k < len.toNat, Canonical (byteAt vaddr k) ∧ UserMapped mem cr3 (byteAt vaddr k)

theorem toNat_pageOf (a : Word) : (pageOf a).toNat = a.toNat / 4096 * 4096 := by
  have hmask : (~~~(0xFFF : Word)).toNat = (2 ^ 52 - 1) <<< 12 := by decide
  exact Lib.Words.toNat_and_high a _ 12 (by decide) hmask

theorem toNat_byteAt (vaddr len : Word) (k : Nat) (wraps : NoWrap vaddr len)
    (hk : k < len.toNat) : (byteAt vaddr k).toNat = vaddr.toNat + k := by
  unfold NoWrap at wraps
  have hlen := len.isLt
  rw [byteAt, BitVec.toNat_add, BitVec.toNat_ofNat]
  omega

theorem byteAt_toNat (a : Word) (k : Nat) (room : a.toNat + k < 2 ^ 64) :
    (byteAt a k).toNat = a.toNat + k := by
  rw [byteAt, BitVec.toNat_add, BitVec.toNat_ofNat]
  omega

theorem byteAt_byteAt (a : Word) (i k : Nat) : byteAt (byteAt a i) k = byteAt a (i + k) := by
  rw [byteAt, byteAt, byteAt, BitVec.ofNat_add, BitVec.add_assoc]

theorem toNat_nextPage (page : Word) (room : page.toNat + 4096 < 2 ^ 64) :
    (page + 0x1000).toNat = page.toNat + 4096 := by
  rw [BitVec.toNat_add]
  exact Nat.mod_eq_of_lt room

@[simp] theorem byteAt_zero (a : Word) : byteAt a 0 = a := BitVec.add_zero a

theorem byteAt_nextPage (page : Word) (i : Nat) :
    byteAt (page + 0x1000) (4096 * i) = byteAt page (4096 * (i + 1)) := by
  have split : BitVec.ofNat 64 (4096 * (i + 1)) = 0x1000 + BitVec.ofNat 64 (4096 * i) := by
    rw [Nat.mul_add, Nat.add_comm, BitVec.ofNat_add]
    rfl
  rw [byteAt, byteAt, split, BitVec.add_assoc]

/-- The loop visits `page`, `page + 4096`, … up to `last` and no other page. -/
theorem userRangeLoop_eq (accessible : Word → Bool) (last : Word) (n fuel : Nat) (page : Word)
    (reach : page.toNat + 4096 * n = last.toNat) (enough : n < fuel) :
    ∃ r, userRangeLoop accessible last fuel page = some r ∧
      (r = true ↔ ∀ i ≤ n, accessible (byteAt page (4096 * i)) = true) := by
  induction n generalizing fuel page with
  | zero =>
    obtain ⟨fuel, rfl⟩ := Nat.exists_eq_add_one_of_ne_zero (Nat.ne_of_gt enough)
    have same : page = last := BitVec.eq_of_toNat_eq (by omega)
    refine ⟨accessible page, ?_, by simp⟩
    cases h : accessible page <;> simp [userRangeLoop, same ▸ h, same]
  | succ n ih =>
    obtain ⟨fuel, rfl⟩ := Nat.exists_eq_add_one_of_ne_zero
      (Nat.ne_of_gt (Nat.zero_lt_of_lt enough))
    have below : page.toNat + 4096 < 2 ^ 64 := by
      have := last.isLt
      omega
    have before : page ≠ last := by
      rintro rfl
      omega
    cases h : accessible page with
    | false =>
      refine ⟨false, by rw [userRangeLoop, if_pos (by rw [h]; rfl)], ?_⟩
      simp only [Bool.false_eq_true, false_iff]
      intro all
      have first := all 0 (Nat.zero_le _)
      rw [Nat.mul_zero, byteAt_zero, h] at first
      cases first
    | true =>
      have next := toNat_nextPage page below
      obtain ⟨r, hr, spec⟩ := ih fuel (page + 0x1000) (by omega) (by omega)
      refine ⟨r, by rw [userRangeLoop, if_neg (by simp [h]), if_neg before, hr], spec.trans ?_⟩
      constructor
      · intro all i hi
        cases i with
        | zero =>
          rw [Nat.mul_zero, byteAt_zero]
          exact h
        | succ i =>
          rw [← byteAt_nextPage]
          exact all i (by omega)
      · intro all i hi
        rw [byteAt_nextPage]
        exact all (i + 1) (by omega)

theorem noWrap_iff (vaddr len : Word) (positive : len ≠ 0) :
    NoWrap vaddr len ↔ ¬ len - 1 > ~~~0 - vaddr := by
  have hall : ~~~(0 : Word) = 0xFFFFFFFFFFFFFFFF := by decide
  rw [hall, NoWrap]
  bv_omega

/-- A page that passes the kernel's walk passes it at each of its bytes. -/
theorem accessible_congr (mem : Tables) (space a b : Word) (h : a.toNat / 4096 = b.toNat / 4096) :
    vmmIsUserAccessibleIn mem space a = vmmIsUserAccessibleIn mem space b := by
  rw [Bool.eq_iff_iff, vmmIsUserAccessibleIn_iff, vmmIsUserAccessibleIn_iff]
  exact userMapped_congr mem space a b h

/-- The pages from the first to the last one are the pages of the bytes. -/
theorem pages_cover_bytes (mem : Tables) (space vaddr len : Word) (n : Nat)
    (positive : len ≠ 0) (wraps : NoWrap vaddr len)
    (span : (pageOf vaddr).toNat + 4096 * n = (pageOf (vaddr + len - 1)).toNat) :
    (∀ i ≤ n, vmmIsUserAccessibleIn mem space (byteAt (pageOf vaddr) (4096 * i)) = true) ↔
      ∀ k < len.toNat, vmmIsUserAccessibleIn mem space (byteAt vaddr k) = true := by
  have hend : (vaddr + len - 1).toNat = vaddr.toNat + len.toNat - 1 := by
    unfold NoWrap at wraps
    bv_omega
  have hlen : len.toNat ≠ 0 := fun h => positive (BitVec.eq_of_toNat_eq h)
  rw [toNat_pageOf, toNat_pageOf, hend] at span
  have hstart : (pageOf vaddr).toNat = vaddr.toNat / 4096 * 4096 := toNat_pageOf vaddr
  have page (i : Nat) (hi : i ≤ n) :
      (byteAt (pageOf vaddr) (4096 * i)).toNat = (vaddr.toNat / 4096 + i) * 4096 := by
    unfold NoWrap at wraps
    rw [byteAt, BitVec.toNat_add, BitVec.toNat_ofNat, hstart]
    omega
  constructor
  · intro all k hk
    have hbyte := toNat_byteAt vaddr len k wraps hk
    have hi : (vaddr.toNat + k) / 4096 - vaddr.toNat / 4096 ≤ n := by omega
    rw [← all _ hi]
    apply accessible_congr
    rw [page _ hi, hbyte]
    omega
  · intro all i hi
    -- the byte of page `i` that lies in the range: its first, or `vaddr` itself
    have hk : (vaddr.toNat / 4096 + i) * 4096 - vaddr.toNat < len.toNat := by omega
    rw [← all _ hk]
    apply accessible_congr
    rw [page i hi, toNat_byteAt vaddr len _ wraps hk]
    omega

/-- `user_range_ok` always ends, and accepts a range exactly when it does not
wrap and every byte of it passes the kernel's own page walk. -/
theorem userRangeOk_eq (mem : Tables) (cr3 vaddr len : Word) :
    ∃ r, userRangeOk mem cr3 vaddr len = some r ∧
      (r = true ↔ NoWrap vaddr len ∧
        ∀ k < len.toNat,
          vmmIsUserAccessibleIn mem (vmmCurrentAddressSpace cr3) (byteAt vaddr k) = true) := by
  unfold userRangeOk
  by_cases hz : len = 0
  · subst hz
    refine ⟨true, if_pos rfl, ?_⟩
    have hv := vaddr.isLt
    have hnone : (0 : Word).toNat = 0 := rfl
    rw [NoWrap, hnone]
    refine ⟨fun _ => ⟨by omega, fun k hk => absurd hk (Nat.not_lt_zero k)⟩, fun _ => rfl⟩
  rw [if_neg hz]
  by_cases wraps : NoWrap vaddr len
  · rw [if_neg ((noWrap_iff vaddr len hz).mp wraps)]
    have hlen : len.toNat ≠ 0 := fun h => hz (BitVec.eq_of_toNat_eq h)
    have hend : (vaddr + len - 1).toNat = vaddr.toNat + len.toNat - 1 := by
      unfold NoWrap at wraps
      bv_omega
    have order : (pageOf vaddr).toNat ≤ (pageOf (vaddr + len - 1)).toNat := by
      rw [toNat_pageOf, toNat_pageOf, hend]
      omega
    have span : (pageOf vaddr).toNat +
        4096 * ((pageOf (vaddr + len - 1) - pageOf vaddr).toNat / 4096) =
          (pageOf (vaddr + len - 1)).toNat := by
      rw [BitVec.toNat_sub_of_le order]
      simp only [toNat_pageOf] at order ⊢
      omega
    obtain ⟨r, hr, spec⟩ := userRangeLoop_eq
      (vmmIsUserAccessibleIn mem (vmmCurrentAddressSpace cr3)) _ _ _ _ span (Nat.lt_succ_self _)
    refine ⟨r, hr, spec.trans ?_⟩
    rw [pages_cover_bytes mem _ vaddr len _ hz wraps span]
    exact ⟨fun h => ⟨wraps, h⟩, fun h => h.2⟩
  · rw [if_pos (not_not.mp (mt (noWrap_iff vaddr len hz).mpr wraps))]
    exact ⟨false, rfl, by simp [wraps]⟩

/-- An accepted range is present and user at every byte, for the CPU's walk. -/
theorem userRangeOk_mapped (mem : Tables) (cr3 vaddr len : Word)
    (accepted : userRangeOk mem cr3 vaddr len = some true) :
    NoWrap vaddr len ∧ ∀ k < len.toNat, UserMapped mem cr3 (byteAt vaddr k) := by
  obtain ⟨r, hr, spec⟩ := userRangeOk_eq mem cr3 vaddr len
  have all := spec.mp (Option.some.inj (hr.symm.trans accepted))
  refine ⟨all.1, fun k hk => ?_⟩
  have passed := all.2 k hk
  rwa [vmmIsUserAccessibleIn_iff, userMapped_current] at passed

/-- The range does not get past the walk with an address the CPU would refuse
to translate: it wraps, or some byte fails the walk, or all bytes are canonical. -/
def CanonicalOrRefused (mem : Tables) (cr3 vaddr len : Word) : Prop :=
  ¬ NoWrap vaddr len ∨
  (∃ k < len.toNat,
    vmmIsUserAccessibleIn mem (vmmCurrentAddressSpace cr3) (byteAt vaddr k) = false) ∨
  ∀ k < len.toNat, Canonical (byteAt vaddr k)

/-- `user_range_ok` ends, and its answer says whether the kernel can touch the
range, exactly on the ranges that are canonical or refused. -/
theorem userRangeOk_touchable_iff (mem : Tables) (cr3 vaddr len : Word) :
    (∃ r, userRangeOk mem cr3 vaddr len = some r ∧
      (r = true ↔ RangeTouchable mem cr3 vaddr len)) ↔
      CanonicalOrRefused mem cr3 vaddr len := by
  obtain ⟨r, hr, spec⟩ := userRangeOk_eq mem cr3 vaddr len
  have passes (k : Nat) :
      vmmIsUserAccessibleIn mem (vmmCurrentAddressSpace cr3) (byteAt vaddr k) = true ↔
        UserMapped mem cr3 (byteAt vaddr k) := by
    rw [vmmIsUserAccessibleIn_iff, userMapped_current]
  have touch : RangeTouchable mem cr3 vaddr len ↔
      r = true ∧ ∀ k < len.toNat, Canonical (byteAt vaddr k) := by
    simp only [spec, RangeTouchable, passes]
    exact ⟨fun h => ⟨⟨h.1, fun k hk => (h.2 k hk).2⟩, fun k hk => (h.2 k hk).1⟩,
      fun h => ⟨h.1.1, fun k hk => ⟨h.2 k hk, h.1.2 k hk⟩⟩⟩
  have refused : r = false ↔ ¬ NoWrap vaddr len ∨ ∃ k < len.toNat,
      vmmIsUserAccessibleIn mem (vmmCurrentAddressSpace cr3) (byteAt vaddr k) = false := by
    rw [← Bool.not_eq_true, spec, not_and_or]
    simp only [not_forall, Bool.not_eq_true, exists_prop]
  rw [CanonicalOrRefused, ← or_assoc, ← refused]
  constructor
  · rintro ⟨r', hr', agrees⟩
    obtain rfl : r = r' := Option.some.inj (hr.symm.trans hr')
    cases h : r with
    | false => exact Or.inl rfl
    | true => exact Or.inr (touch.mp (agrees.mp h)).2
  · intro condition
    refine ⟨r, hr, ?_⟩
    rw [touch]
    rcases condition with no | canonical
    · simp [no]
    · exact ⟨fun h => ⟨h, canonical⟩, And.left⟩

/-- One user page at the start of PML4 slot 1, as the loader maps them:
PML4 at 0x1000, PDPT at 0x2000, PD at 0x3000, PT at 0x4000, frame at 0x5000. -/
def oneUserPage (flags : Word) : Tables := fun base index =>
  if base = 0x1000 ∧ index = 1 then 0x2007
  else if base = 0x2000 ∧ index = 0 then 0x3007
  else if base = 0x3000 ∧ index = 0 then 0x4007
  else if base = 0x4000 ∧ index = 0 then 0x5000 ||| flags
  else 0

/-- Bit 48 set above a mapped page: the walk drops it, the CPU faults on it. -/
theorem userRangeOk_accepts_noncanonical :
    ¬ ∃ r, userRangeOk (oneUserPage 0x7) 0x1000 0x0001008000000000 1 = some r ∧
      (r = true ↔ RangeTouchable (oneUserPage 0x7) 0x1000 0x0001008000000000 1) := by
  rintro ⟨r, hr, agrees⟩
  have accepted : userRangeOk (oneUserPage 0x7) 0x1000 0x0001008000000000 1 = some true := by
    decide
  have yes : r = true := Option.some.inj (hr.symm.trans accepted)
  have canonical := ((agrees.mp yes).2 0 (by decide)).1
  exact absurd canonical (by decide)

/-- The first address of `oneUserPage`. -/
def pageStart : Word := 0x0000008000000000

theorem oneUserPage_accessible (k : Nat) (inside : k < 4096) :
    Canonical (byteAt pageStart k) ∧ UserMapped (oneUserPage 0x7) 0x1000 (byteAt pageStart k) := by
  have start : pageStart.toNat = 2 ^ 39 := rfl
  have byteK := byteAt_toNat pageStart k (by omega)
  have first : UserMapped (oneUserPage 0x7) 0x1000 pageStart := by
    rw [← vmmIsUserAccessibleIn_iff]
    decide
  constructor
  · exact Or.inl (by omega)
  · exact (userMapped_congr _ _ _ _ (by omega)).mpr first

end MiniKernel.Memory.UserRange
