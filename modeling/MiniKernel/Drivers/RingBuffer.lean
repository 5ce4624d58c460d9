import MiniKernel.Lib.LittleEndian
import MiniKernel.Lib.Queue
import MiniKernel.Lib.Ring

/-!
# The ring buffer

Source: kernel/lib/ring_buffer.c. Full and empty differ by one cell that stays
free. The memory behind `storage` is not bounded here; that the accesses keep to
the first `capacity` cells is proved.
-/
namespace MiniKernel.Drivers
open Lib (Buffer)
open Lib.Ring (window forward)
open Lib.Queue (Device Call Serves Refines pushed popped queue)

/-- `ring_buffer_t`. -/
structure RingBuffer where
  storage : Buffer
  capacity : BitVec 32
  head : BitVec 32
  tail : BitVec 32

def ringBufferInit (storage : Buffer) (capacity : BitVec 32) : RingBuffer :=
  { storage := storage, capacity := capacity, head := 0, tail := 0 }

/-- `ring_buffer_push`. -/
def ringBufferPush (value : UInt8) (rb : RingBuffer) : Bool × RingBuffer :=
  let next := (rb.head + 1) % rb.capacity
  if next = rb.tail then (false, rb)
  else
    (true, { rb with storage := Function.update rb.storage rb.head.toNat value, head := next })

/-- `ring_buffer_pop`, with what `*out` holds before and after. -/
def ringBufferPop (out : UInt8) (rb : RingBuffer) : Bool × UInt8 × RingBuffer :=
  if rb.tail = rb.head then (false, out, rb)
  else
    (true, rb.storage rb.tail.toNat, { rb with tail := (rb.tail + 1) % rb.capacity })

def ringBuffer : Device RingBuffer UInt8 where
  push := ringBufferPush
  pop := ringBufferPop

/-! ## The invariant -/

variable {size : Nat} [NeZero size] {rb : RingBuffer} {q : List UInt8}

/-- The values stand in the cells from `tail` on, with `head` behind the last of them
and a free cell between. -/
structure RingBuffer.Holds (size : Nat) [NeZero size] (rb : RingBuffer) (q : List UInt8) :
    Prop where
  capacity : rb.capacity.toNat = size
  few : q.length < size
  cells : ∃ pos : Fin size, rb.tail.toNat = pos.val ∧ rb.head.toNat = (forward pos q.length).val ∧
    window (fun i : Fin size => rb.storage i.val) pos q.length = q

/-- `(i + 1) % rb->capacity` is the next cell; the sum does not wrap. -/
theorem next_toNat {capacity i : BitVec 32} {pos : Fin size} (whole : capacity.toNat = size)
    (index : i.toNat = pos.val) : ((i + 1) % capacity).toNat = (pos + 1).val := by
  have bound := capacity.isLt
  have inside := pos.isLt
  have sum : (i + 1).toNat = pos.val + 1 := by
    have one : (1 : BitVec 32).toNat = 1 := by decide
    rw [BitVec.toNat_add, index, one]
    exact Nat.mod_eq_of_lt (by omega)
  rw [BitVec.toNat_umod, sum, whole, Fin.val_add, Fin.val_one', Nat.add_mod_mod]

namespace RingBuffer.Holds

/-- A buffer is full when its values leave one cell free. -/
theorem push_full (holds : rb.Holds size q) (full : q.length = size - 1) (value : UInt8) :
    ringBufferPush value rb = (false, rb) := by
  obtain ⟨whole, few, pos, tail, head, -⟩ := holds
  have last : q.length + 1 = size := by omega
  have around : (rb.head + 1) % rb.capacity = rb.tail := by
    apply BitVec.eq_of_toNat_eq
    rw [next_toNat whole head, ← Lib.Ring.forward_succ, last, Lib.Ring.forward_size, tail]
  rw [ringBufferPush, if_pos around]

/-- Below that, the value goes behind the others. -/
theorem push_room (holds : rb.Holds size q) (room : q.length < size - 1) (value : UInt8) :
    (ringBufferPush value rb).1 = true ∧ (ringBufferPush value rb).2.Holds size (q ++ [value]) := by
  obtain ⟨whole, few, pos, tail, head, cells⟩ := holds
  have next := next_toNat whole head
  rw [← Lib.Ring.forward_succ] at next
  have free : (rb.head + 1) % rb.capacity ≠ rb.tail := by
    intro same
    have apart := Lib.Ring.forward_ne pos (Nat.zero_lt_succ q.length) (by omega)
    rw [same, tail] at next
    exact apart (Fin.ext next)
  -- an update of the memory is one of its first `size` cells
  have stored : (fun i : Fin size => Function.update rb.storage rb.head.toNat value i.val) =
      Function.update (fun i : Fin size => rb.storage i.val) (forward pos q.length) value := by
    funext i
    simp only [Function.update_apply, head, Fin.ext_iff]
  rw [ringBufferPush, if_neg free]
  refine ⟨rfl, whole, ?_, pos, tail, ?_, ?_⟩
  · rw [List.length_append, List.length_singleton]
    omega
  · rw [List.length_append, List.length_singleton]
    exact next
  · dsimp only
    rw [stored, List.length_append, List.length_singleton, Lib.Ring.window_append,
      Lib.Ring.window_update _ _ _ _ few, cells]
    simp [window]

theorem pop_empty (holds : rb.Holds size []) (out : UInt8) :
    ringBufferPop out rb = (false, out, rb) := by
  obtain ⟨whole, few, pos, tail, head, -⟩ := holds
  have same : rb.tail = rb.head := BitVec.eq_of_toNat_eq (tail.trans head.symm)
  rw [ringBufferPop, if_pos same]

/-- The value at the tail is the oldest. -/
theorem pop_value {value : UInt8} (holds : rb.Holds size (value :: q)) (out : UInt8) :
    (ringBufferPop out rb).1 = true ∧ (ringBufferPop out rb).2.1 = value ∧
      (ringBufferPop out rb).2.2.Holds size q := by
  obtain ⟨whole, few, pos, tail, head, cells⟩ := holds
  rw [List.length_cons] at few head cells
  have apart : rb.tail ≠ rb.head := by
    intro same
    have cell := Lib.Ring.forward_ne pos (Nat.zero_lt_succ q.length) (by omega)
    rw [same, head] at tail
    exact cell (Fin.ext tail).symm
  obtain ⟨first, rest⟩ := List.cons.inj cells
  rw [ringBufferPop, if_neg apart]
  refine ⟨rfl, ?_, whole, by omega, pos + 1, next_toNat whole tail, head, rest⟩
  dsimp only
  rw [tail]
  exact first

end RingBuffer.Holds

/-! ## All calls -/

theorem ringBuffer_refines (size : Nat) [NeZero size] :
    Refines ringBuffer (size - 1) (RingBuffer.Holds size) where
  bounded := fun holds => Nat.le_sub_one_of_lt holds.few
  push := fun value holds room => holds.push_room room value
  full := fun value holds full => holds.push_full full value
  pop := fun _ out holds => holds.pop_value out
  empty := fun out holds => holds.pop_empty out

theorem ringBufferInit_holds (storage : Buffer) {capacity : BitVec 32}
    (whole : capacity.toNat = size) : (ringBufferInit storage capacity).Holds size [] where
  capacity := whole
  few := Nat.pos_of_neZero size
  cells := ⟨0, rfl, rfl, rfl⟩

/-- The next push and the next pop access one of the `capacity` cells. -/
theorem ring_buffer_inside (storage : Buffer) (capacity : BitVec 32)
    (positive : 1 ≤ capacity.toNat) (calls : List (Call UInt8)) :
    let rb := ringBuffer.after (ringBufferInit storage capacity) calls
    rb.head.toNat < capacity.toNat ∧ rb.tail.toNat < capacity.toNat := by
  have : NeZero capacity.toNat := ⟨by omega⟩
  have last := (ringBuffer_refines capacity.toNat).calls (ringBufferInit_holds storage rfl) calls
  obtain ⟨pos, tail, head, -⟩ := last.2.cells
  dsimp only
  rw [tail, head]
  exact ⟨Fin.isLt _, Fin.isLt _⟩

/-- After `ring_buffer_init`, over all calls: the answers are those of a queue that holds
`capacity - 1` bytes at most; what was pushed is what was popped followed by what is
stored, and the next push or pop is accepted by how much that is, or changes nothing. -/
theorem ring_buffer_is_queue (storage : Buffer) (capacity : BitVec 32)
    (positive : 1 ≤ capacity.toNat) (calls : List (Call UInt8)) :
    let answers := ringBuffer.answers (ringBufferInit storage capacity) calls
    answers = (queue (capacity.toNat - 1)).answers [] calls ∧
      ∃ stored, pushed answers = popped answers ++ stored ∧
        Serves ringBuffer (capacity.toNat - 1)
          (ringBuffer.after (ringBufferInit storage capacity) calls) stored := by
  have : NeZero capacity.toNat := ⟨by omega⟩
  exact (ringBuffer_refines capacity.toNat).fifo (ringBufferInit_holds storage rfl) calls

/-- Three cells, the third push refused, and once around. -/
def goesAround : List (Call UInt8) :=
  [.push 1, .push 2, .push 3, .pop 0, .push 4, .pop 0, .pop 0, .pop 9]

theorem ring_buffer_is_queue_around :
    ringBuffer.answers (ringBufferInit (fun _ => 0) 3) goesAround =
      [.pushed 1, .pushed 2, .full, .popped 1, .pushed 4, .popped 2, .popped 4, .empty 9] :=
  (ring_buffer_is_queue (fun _ => 0) 3 (by decide) goesAround).1.trans (by decide)

end MiniKernel.Drivers
