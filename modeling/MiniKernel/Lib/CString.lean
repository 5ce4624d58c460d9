import MiniKernel.Lib.LittleEndian

/-!
# Strings in buffers of a fixed size

A string is what stands before the first NUL. A loop that finds no NUL leaves the
buffer and has no result.
-/
namespace MiniKernel.Lib.CString

/-- The string from `k` on, with `room` bytes of the buffer left. -/
def readFrom (src : Buffer) : Nat → Nat → Option (List UInt8)
  | 0, _ => none
  | room + 1, k => if src k = 0 then some [] else (readFrom src room (k + 1)).map (src k :: ·)

def read (size : Nat) (src : Buffer) : Option (List UInt8) := readFrom src size 0

/-- `while (src[k] != 0) { dst[k] = src[k]; k++; } dst[k] = 0;` -/
def copyFrom (src : Buffer) : Nat → Nat → Buffer → Option Buffer
  | 0, _, _ => none
  | room + 1, k, dst =>
    if src k = 0 then some (Function.update dst k 0)
    else copyFrom src room (k + 1) (Function.update dst k (src k))

def copy (size : Nat) (src dst : Buffer) : Option Buffer := copyFrom src size 0 dst

/-- A buffer with these bytes and zeros behind them. -/
def ofBytes (bytes : List UInt8) : Buffer := fun k => bytes.getD k 0

variable {src dst : Buffer} {t bytes : List UInt8} {size room k : Nat}

theorem readFrom_fits (held : readFrom src room k = some t) :
    t.length < room ∧ ∀ b ∈ t, b ≠ 0 := by
  induction room generalizing k t with
  | zero => cases held
  | succ room ih =>
    rw [readFrom] at held
    split at held
    · cases held
      exact ⟨Nat.zero_lt_succ room, nofun⟩
    · next more =>
      obtain ⟨rest, later, rfl⟩ := Option.map_eq_some_iff.mp held
      obtain ⟨short, plain⟩ := ih later
      constructor
      · exact Nat.succ_lt_succ short
      · intro b member
        rcases List.mem_cons.mp member with rfl | member
        · exact more
        · exact plain b member

/-- A string is shorter than its buffer, and has no NUL. -/
theorem read_fits (held : read size src = some t) : t.length < size ∧ ∀ b ∈ t, b ≠ 0 :=
  readFrom_fits held

/-- By induction on the room: a cell that was written is not written again. -/
theorem copyFrom_readFrom (dst : Buffer) (held : readFrom src room k = some t) :
    ∃ dst', copyFrom src room k dst = some dst' ∧ readFrom dst' room k = some t ∧
      ∀ j < k, dst' j = dst j := by
  induction room generalizing k t dst with
  | zero => cases held
  | succ room ih =>
    rw [readFrom] at held
    rw [copyFrom]
    split at held
    · next ends =>
      cases held
      rw [if_pos ends]
      refine ⟨_, rfl, ?_, fun j before => Function.update_of_ne (Nat.ne_of_lt before) _ _⟩
      rw [readFrom, Function.update_self, if_pos rfl]
    · next more =>
      obtain ⟨rest, later, rfl⟩ := Option.map_eq_some_iff.mp held
      obtain ⟨dst', copied, reads, same⟩ := ih (Function.update dst k (src k)) later
      have here : dst' k = src k := by rw [same k (Nat.lt_succ_self k), Function.update_self]
      rw [if_neg more]
      refine ⟨dst', copied, ?_, fun j before => ?_⟩
      · rw [readFrom, here, if_neg more, reads]
        rfl
      · rw [same j (Nat.lt_succ_of_lt before), Function.update_of_ne (Nat.ne_of_lt before)]

/-- A copy stays in the buffer, which then holds the same string. -/
theorem copy_read (dst : Buffer) (held : read size src = some t) :
    ∃ dst', copy size src dst = some dst' ∧ read size dst' = some t := by
  obtain ⟨dst', copied, reads, -⟩ := copyFrom_readFrom dst held
  exact ⟨dst', copied, reads⟩

theorem readFrom_ofBytes (bytes before : List UInt8) (fits : bytes.length < room) :
    readFrom (ofBytes (before ++ bytes)) room before.length = some (bytes.takeWhile (· ≠ 0)) := by
  induction bytes generalizing before room with
  | nil =>
    obtain ⟨room, rfl⟩ := Nat.exists_eq_add_one_of_ne_zero (Nat.ne_zero_of_lt fits)
    have ends : ofBytes (before ++ []) before.length = 0 := by simp [ofBytes]
    rw [readFrom, if_pos ends, List.takeWhile_nil]
  | cons b bytes ih =>
    obtain ⟨room, rfl⟩ := Nat.exists_eq_add_one_of_ne_zero (Nat.ne_zero_of_lt fits)
    have here : ofBytes (before ++ b :: bytes) before.length = b := by simp [ofBytes]
    rw [readFrom, here]
    split
    · next ends => rw [List.takeWhile_cons_of_neg (by simpa using ends)]
    · next more =>
      have rest := ih (before ++ [b]) (Nat.lt_of_succ_lt_succ fits)
      rw [List.append_assoc, List.singleton_append, List.length_append, List.length_singleton]
        at rest
      rw [rest, List.takeWhile_cons_of_pos (by simpa using more)]
      rfl

/-- Bytes that leave room for the NUL hold the string before their first NUL. -/
theorem read_ofBytes (fits : bytes.length < size) :
    read size (ofBytes bytes) = some (bytes.takeWhile (· ≠ 0)) :=
  readFrom_ofBytes bytes [] fits

end MiniKernel.Lib.CString
