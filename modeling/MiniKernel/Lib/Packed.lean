import Mathlib.Tactic

/-!
# Packed structs as numbers

A packed struct is the number its bytes spell, the first field in the lowest bits. What
is stored in a field is cut to the field's width, and read back at the field's offset.
-/
namespace MiniKernel.Lib.Packed

/-- A field's width in bits and what is stored in it. -/
abbrev Fields := List (Nat × Nat)

def pack : Fields → Nat
  | [] => 0
  | (width, value) :: rest => value % 2 ^ width + 2 ^ width * pack rest

def width (fields : Fields) : Nat := (fields.map Prod.fst).sum

/-- The bits of a number from an offset on. -/
def bits (n offset width : Nat) : Nat := n / 2 ^ offset % 2 ^ width

variable {fields rest : Fields}

theorem pack_lt (fields : Fields) : pack fields < 2 ^ width fields := by
  induction fields with
  | nil => exact Nat.one_pos
  | cons field fields ih =>
    obtain ⟨w, v⟩ := field
    have low := Nat.mod_lt v (Nat.two_pow_pos w)
    have sum : width ((w, v) :: fields) = w + width fields := rfl
    rw [pack, sum, Nat.pow_add]
    calc v % 2 ^ w + 2 ^ w * pack fields < 2 ^ w + 2 ^ w * pack fields := by omega
      _ = 2 ^ w * (pack fields + 1) := by ring
      _ ≤ 2 ^ w * 2 ^ width fields := Nat.mul_le_mul_left _ ih

theorem pack_append (fields rest : Fields) :
    pack (fields ++ rest) = pack fields + 2 ^ width fields * pack rest := by
  induction fields with
  | nil =>
    change pack rest = 0 + 2 ^ 0 * pack rest
    omega
  | cons field fields ih =>
    obtain ⟨w, v⟩ := field
    have sum : width ((w, v) :: fields) = w + width fields := rfl
    rw [List.cons_append, pack, pack, ih, sum, Nat.pow_add]
    ring

/-- What stands behind the first fields. -/
theorem pack_drop (fields rest : Fields) : pack (fields ++ rest) / 2 ^ width fields = pack rest := by
  rw [pack_append, Nat.add_mul_div_left _ _ (Nat.two_pow_pos _), Nat.div_eq_of_lt (pack_lt fields),
    Nat.zero_add]

/-- A field is read back at its offset. -/
theorem bits_pack (fields rest : Fields) (w v : Nat) :
    bits (pack (fields ++ (w, v) :: rest)) (width fields) w = v % 2 ^ w := by
  rw [bits, pack_drop, pack, Nat.add_mul_mod_self_left, Nat.mod_mod]

/-- A struct inside a larger one is read back whole. -/
theorem bits_pack_fields (before fields rest : Fields) :
    bits (pack (before ++ (fields ++ rest))) (width before) (width fields) = pack fields := by
  rw [bits, pack_drop, pack_append, Nat.add_mul_mod_self_left, Nat.mod_eq_of_lt (pack_lt fields)]

/-- Bits of some bits. -/
theorem bits_bits (n offset width low few : Nat) (inside : low + few ≤ width) :
    bits (bits n offset width) low few = bits n (offset + low) few := by
  obtain ⟨high, rfl⟩ := Nat.exists_eq_add_of_le (Nat.le_of_add_right_le inside)
  have fits : few ≤ high := by omega
  unfold bits
  rw [Nat.pow_add 2 low high, Nat.mod_mul_right_div_self, Nat.mod_mod_of_dvd _ (pow_dvd_pow 2 fits),
    Nat.div_div_eq_div_mul, ← Nat.pow_add]

/-- Adjacent bits join. -/
theorem bits_join (n offset low high : Nat) :
    bits n offset low + 2 ^ low * bits n (offset + low) high = bits n offset (low + high) := by
  unfold bits
  rw [Nat.pow_add 2 low high, Nat.mod_mul, Nat.div_div_eq_div_mul, ← Nat.pow_add]

end MiniKernel.Lib.Packed
