import MiniKernel.Lib.LittleEndian

/-!
# Memory of separate blocks

A heap maps the start of each live block to its size and bytes. Loads, stores
and releases that miss a live block, or leave it, have no result. Blocks do not
overlap by construction; whoever hands them out must see to that.
-/
namespace MiniKernel.Lib

structure Block where
  size : Nat
  bytes : Buffer

abbrev Blocks := Nat → Option Block

namespace Blocks

/-- `len` bytes of the block at `p`, from `offset` on. -/
def load (blocks : Blocks) (p offset len : Nat) : Option (List UInt8) :=
  if len = 0 then some []
  else
    match blocks p with
    | none => none
    | some b =>
      if offset + len ≤ b.size then some ((List.range len).map fun i => b.bytes (offset + i))
      else none

/-- The bytes with `len` of them, from `offset` on, replaced. -/
def patch (bytes : Buffer) (offset len : Nat) (src : Buffer) : Buffer := fun i =>
  if offset ≤ i ∧ i < offset + len then src (i - offset) else bytes i

def store (blocks : Blocks) (p offset len : Nat) (src : Buffer) : Option Blocks :=
  if len = 0 then some blocks
  else
    match blocks p with
    | none => none
    | some b =>
      if offset + len ≤ b.size then
        some (Function.update blocks p (some { b with bytes := patch b.bytes offset len src }))
      else none

/-- Gives a block back; address 0 is no block. -/
def release (blocks : Blocks) (p : Nat) : Option Blocks :=
  if p = 0 then some blocks
  else if (blocks p).isSome then some (Function.update blocks p none)
  else none

def acquire (blocks : Blocks) (p size : Nat) (bytes : Buffer) : Blocks :=
  Function.update blocks p (some ⟨size, bytes⟩)

variable {blocks : Blocks} {p offset len : Nat} {b : Block}

theorem load_live (live : blocks p = some b) (inside : offset + len ≤ b.size) :
    blocks.load p offset len = some ((List.range len).map fun i => b.bytes (offset + i)) := by
  unfold load
  split
  · next empty => rw [empty]; rfl
  · simp only [live, if_pos inside]

/-- Storing in a live block changes that block's bytes and nothing else. -/
theorem store_live (src : Buffer) (live : blocks p = some b) (inside : offset + len ≤ b.size) :
    blocks.store p offset len src =
      some (Function.update blocks p (some { b with bytes := patch b.bytes offset len src })) := by
  unfold store
  split
  · next empty =>
    have same : patch b.bytes offset len src = b.bytes := by
      funext i
      rw [patch, if_neg (by omega)]
    rw [same, ← live, Function.update_eq_self]
  · simp only [live, if_pos inside]

theorem release_live (nonzero : p ≠ 0) (live : blocks p = some b) :
    blocks.release p = some (Function.update blocks p none) := by
  unfold release
  rw [if_neg nonzero, if_pos (by rw [live]; rfl)]

theorem patch_inside (bytes : Buffer) (src : Buffer) {i : Nat}
    (inside : offset ≤ i ∧ i < offset + len) : patch bytes offset len src i = src (i - offset) :=
  if_pos inside

theorem patch_outside (bytes : Buffer) (src : Buffer) {i : Nat}
    (outside : i < offset ∨ offset + len ≤ i) : patch bytes offset len src i = bytes i :=
  if_neg (by omega)

end Blocks
end MiniKernel.Lib
