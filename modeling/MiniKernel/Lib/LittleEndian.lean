import Mathlib.Tactic

/-!
# Little-endian words in byte buffers

A buffer is a function from offsets to bytes. A 32-bit field is read and written
byte by byte, lowest byte first.
-/
namespace MiniKernel.Lib

/-- Bytes from some address on. -/
abbrev Buffer := Nat → UInt8

def readU32 (buf : Buffer) (p : Nat) : Nat :=
  (buf p).toNat + (buf (p + 1)).toNat * 2 ^ 8 + (buf (p + 2)).toNat * 2 ^ 16 +
    (buf (p + 3)).toNat * 2 ^ 24

def writeU32 (buf : Buffer) (p v : Nat) : Buffer := fun i =>
  if i = p then UInt8.ofNat v
  else if i = p + 1 then UInt8.ofNat (v / 2 ^ 8)
  else if i = p + 2 then UInt8.ofNat (v / 2 ^ 16)
  else if i = p + 3 then UInt8.ofNat (v / 2 ^ 24)
  else buf i

theorem readU32_lt (buf : Buffer) (p : Nat) : readU32 buf p < 2 ^ 32 := by
  unfold readU32
  have := (buf p).toNat_lt
  have := (buf (p + 1)).toNat_lt
  have := (buf (p + 2)).toNat_lt
  have := (buf (p + 3)).toNat_lt
  omega

theorem readU32_congr {a b : Buffer} {p q : Nat} (h : ∀ i < 4, a (p + i) = b (q + i)) :
    readU32 a p = readU32 b q := by
  have h0 := h 0 (by decide)
  have h1 := h 1 (by decide)
  have h2 := h 2 (by decide)
  have h3 := h 3 (by decide)
  simp only [Nat.add_zero] at h0
  unfold readU32
  rw [h0, h1, h2, h3]

theorem writeU32_outside (buf : Buffer) (p v i : Nat) (h : i < p ∨ p + 4 ≤ i) :
    writeU32 buf p v i = buf i := by
  unfold writeU32
  rw [if_neg (by omega), if_neg (by omega), if_neg (by omega), if_neg (by omega)]

theorem readU32_writeU32 (buf : Buffer) (p v : Nat) (hv : v < 2 ^ 32) :
    readU32 (writeU32 buf p v) p = v := by
  have b0 : writeU32 buf p v p = UInt8.ofNat v := by simp [writeU32]
  have b1 : writeU32 buf p v (p + 1) = UInt8.ofNat (v / 2 ^ 8) := by simp [writeU32]
  have b2 : writeU32 buf p v (p + 2) = UInt8.ofNat (v / 2 ^ 16) := by simp [writeU32]
  have b3 : writeU32 buf p v (p + 3) = UInt8.ofNat (v / 2 ^ 24) := by simp [writeU32]
  unfold readU32
  rw [b0, b1, b2, b3]
  simp only [UInt8.toNat_ofNat']
  omega

/-- Writing back what was read changes nothing. -/
theorem writeU32_readU32 (buf : Buffer) (p : Nat) : writeU32 buf p (readU32 buf p) = buf := by
  have h0 := (buf p).toNat_lt
  have h1 := (buf (p + 1)).toNat_lt
  have h2 := (buf (p + 2)).toNat_lt
  have h3 := (buf (p + 3)).toNat_lt
  funext i
  unfold writeU32 readU32
  split
  · next same =>
    subst same
    apply UInt8.toNat_inj.mp
    rw [UInt8.toNat_ofNat']
    omega
  split
  · next same =>
    subst same
    apply UInt8.toNat_inj.mp
    rw [UInt8.toNat_ofNat']
    omega
  split
  · next same =>
    subst same
    apply UInt8.toNat_inj.mp
    rw [UInt8.toNat_ofNat']
    omega
  split
  · next same =>
    subst same
    apply UInt8.toNat_inj.mp
    rw [UInt8.toNat_ofNat']
    omega
  · rfl

theorem readU32_writeU32_other (buf : Buffer) (p q v : Nat) (h : q + 4 ≤ p ∨ p + 4 ≤ q) :
    readU32 (writeU32 buf p v) q = readU32 buf q := by
  apply readU32_congr
  intro i hi
  exact writeU32_outside buf p v (q + i) (by omega)

/-! ## 64-bit fields -/

def readU64 (buf : Buffer) (p : Nat) : Nat := readU32 buf p + readU32 buf (p + 4) * 2 ^ 32

def writeU64 (buf : Buffer) (p v : Nat) : Buffer :=
  writeU32 (writeU32 buf p (v % 2 ^ 32)) (p + 4) (v / 2 ^ 32)

theorem readU64_lt (buf : Buffer) (p : Nat) : readU64 buf p < 2 ^ 64 := by
  unfold readU64
  have := readU32_lt buf p
  have := readU32_lt buf (p + 4)
  omega

theorem readU64_congr {a b : Buffer} {p q : Nat} (h : ∀ i < 8, a (p + i) = b (q + i)) :
    readU64 a p = readU64 b q := by
  have low : readU32 a p = readU32 b q := readU32_congr fun i hi => h i (by omega)
  have high : readU32 a (p + 4) = readU32 b (q + 4) := readU32_congr fun i hi => by
    rw [Nat.add_assoc, Nat.add_assoc]
    exact h _ (by omega)
  rw [readU64, readU64, low, high]

theorem writeU64_outside (buf : Buffer) (p v i : Nat) (h : i < p ∨ p + 8 ≤ i) :
    writeU64 buf p v i = buf i := by
  rw [writeU64, writeU32_outside _ _ _ _ (by omega), writeU32_outside _ _ _ _ (by omega)]

theorem readU64_writeU64 (buf : Buffer) (p v : Nat) (hv : v < 2 ^ 64) :
    readU64 (writeU64 buf p v) p = v := by
  unfold readU64 writeU64
  rw [readU32_writeU32_other _ _ _ _ (by omega), readU32_writeU32 _ _ _ (by omega),
    readU32_writeU32 _ _ _ (by omega)]
  omega

end MiniKernel.Lib
