import Mathlib.Tactic

/-!
# Numbers in machine words

What a signed word of 64 bits and its lower half are, for a number that was
counted up in it without a bound, and what is left of a word under a mask.
-/
namespace MiniKernel.Lib.Words

/-- The mask of the `width` bits from `low` on. -/
theorem and_mask (m low width : Nat) :
    m &&& ((2 ^ width - 1) <<< low) = m / 2 ^ low % 2 ^ width * 2 ^ low := by
  have shifted : ((m >>> low) &&& (2 ^ width - 1)) <<< low = m / 2 ^ low % 2 ^ width * 2 ^ low := by
    rw [Nat.shiftLeft_eq, Nat.and_two_pow_sub_one_eq_mod, Nat.shiftRight_eq_div_pow]
  rw [← shifted]
  apply Nat.eq_of_testBit_eq
  intro i
  simp only [Nat.testBit_and, Nat.testBit_shiftLeft, Nat.testBit_shiftRight]
  by_cases high : low ≤ i
  · simp [high]
  · simp [high]

/-- The mask of all bits from `low` on rounds down. -/
theorem toNat_and_high (a mask : BitVec 64) (low : Nat) (small : low ≤ 64)
    (bits : mask.toNat = (2 ^ (64 - low) - 1) <<< low) :
    (a &&& mask).toNat = a.toNat / 2 ^ low * 2 ^ low := by
  have bound : a.toNat / 2 ^ low < 2 ^ (64 - low) := by
    apply Nat.div_lt_of_lt_mul
    rw [← Nat.pow_add, Nat.add_sub_cancel' small]
    exact a.isLt
  rw [BitVec.toNat_and, bits, and_mask, Nat.mod_eq_of_lt bound]

/-- One more digit of a number that is read. -/
theorem ofNat_digit (width n d : Nat) :
    BitVec.ofNat width n * 10 + BitVec.ofNat width d = BitVec.ofNat width (n * 10 + d) := by
  rw [BitVec.ofNat_add, BitVec.ofNat_mul]
  rfl

/-- The word is negative when the number has its 64th bit. -/
theorem negative_iff (n : Nat) : (BitVec.ofNat 64 n).toInt < 0 ↔ 2 ^ 63 ≤ n % 2 ^ 64 := by
  rw [BitVec.toInt_eq_toNat_cond, BitVec.toNat_ofNat]
  split
  · omega
  · omega

/-- It is positive when the number has no 64th bit, and what is below is not 0. -/
theorem positive_iff (n : Nat) :
    (1 : BitVec 64).sle (BitVec.ofNat 64 n) = true ↔ 0 < n % 2 ^ 64 ∧ n % 2 ^ 64 < 2 ^ 63 := by
  have one : (1 : BitVec 64).toInt = 1 := by decide
  rw [BitVec.sle_iff_toInt_le, one, BitVec.toInt_eq_toNat_cond, BitVec.toNat_ofNat]
  split
  · omega
  · omega

/-- The lower half, one less. -/
theorem narrowed_toNat (n : Nat) : ((BitVec.ofNat 64 n).setWidth 32 - 1).toNat =
    if n % 2 ^ 32 = 0 then 2 ^ 32 - 1 else n % 2 ^ 32 - 1 := by
  rw [BitVec.toNat_sub, BitVec.toNat_setWidth, BitVec.toNat_ofNat]
  have low : n % 2 ^ 64 % 2 ^ 32 = n % 2 ^ 32 := by omega
  have one : (1 : BitVec 32).toNat = 1 := by decide
  rw [low, one]
  split
  · omega
  · omega

theorem narrowed_lt_iff (n count : Nat) (few : count < 2 ^ 32) :
    ((BitVec.ofNat 64 n).setWidth 32 - 1).toNat < count ↔
      1 ≤ n % 2 ^ 32 ∧ n % 2 ^ 32 ≤ count := by
  rw [narrowed_toNat]
  split
  · omega
  · omega

theorem signExtend_succ (x : BitVec 32) (small : x.toNat + 1 < 2 ^ 31) :
    ((x + 1).signExtend 64).toNat = x.toNat + 1 := by
  have next : (x + 1).toNat = x.toNat + 1 := by bv_omega
  have plus : (x + 1).msb = false := by
    rw [BitVec.msb_eq_false_iff_two_mul_lt, next]
    omega
  rw [BitVec.signExtend_eq_setWidth_of_msb_false plus, BitVec.toNat_setWidth, next]
  omega

theorem toInt_of_small {x : BitVec 32} (small : x.toNat < 2 ^ 31) : x.toInt = x.toNat := by
  rw [BitVec.toInt_eq_toNat_cond, if_pos (by omega)]

/-- A signed index from 0 on, below the number of entries. -/
theorem inRange_iff (x : BitVec 32) (count : Nat) (few : count ≤ 2 ^ 31) :
    0 ≤ x.toInt ∧ x.toInt < count ↔ x.toNat < count := by
  rw [BitVec.toInt_eq_toNat_cond]
  have bound := x.isLt
  split
  · omega
  · omega

end MiniKernel.Lib.Words
