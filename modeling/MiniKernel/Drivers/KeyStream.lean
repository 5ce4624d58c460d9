import MiniKernel.Drivers.Keyboard
import MiniKernel.Drivers.RingBuffer

/-!
# The bytes of the keys

Source: kernel/drivers/keyboard/keyboard.c, keyboard_layout_tr.c and
kernel/lib/ring_buffer.c. One thread after the other calls `kbd_read_char` or
`kbd_getchar`; the interrupt may come between any two accesses of the call to the
ring buffer. What has been pressed and what has been read is noted.
-/
namespace MiniKernel.Drivers.Keyboard
open Lib.Ring (window forward)
open Lib.Machine (run Meets)

def scancodeLshift : UInt8 := 0x2A
def scancodeRshift : UInt8 := 0x36
def scancodeReleaseBit : UInt8 := 0x80
def scancodeLshiftUp : UInt8 := scancodeLshift ||| scancodeReleaseBit
def scancodeRshiftUp : UInt8 := scancodeRshift ||| scancodeReleaseBit

/-- A string of one character, as the source file has it. -/
def str (c : Char) : List UInt8 := String.utf8EncodeChar c

def scancodeToStr : List (UInt8 × List UInt8) := [
  (0x01, [0x1B]),
  (0x02, str '1'), (0x03, str '2'), (0x04, str '3'), (0x05, str '4'), (0x06, str '5'),
  (0x07, str '6'), (0x08, str '7'), (0x09, str '8'), (0x0A, str '9'), (0x0B, str '0'),
  (0x0C, str '*'), (0x0D, str '-'), (0x0E, [0x08]), (0x0F, [0x09]),
  (0x10, str 'q'), (0x11, str 'w'), (0x12, str 'e'), (0x13, str 'r'), (0x14, str 't'),
  (0x15, str 'y'), (0x16, str 'u'), (0x17, str 'ı'), (0x18, str 'o'), (0x19, str 'p'),
  (0x1A, str 'ğ'), (0x1B, str 'ü'), (0x1C, [0x0A]),
  (0x1E, str 'a'), (0x1F, str 's'), (0x20, str 'd'), (0x21, str 'f'), (0x22, str 'g'),
  (0x23, str 'h'), (0x24, str 'j'), (0x25, str 'k'), (0x26, str 'l'), (0x27, str 'ş'),
  (0x28, str 'i'), (0x29, str '"'), (0x2B, str ','),
  (0x2C, str 'z'), (0x2D, str 'x'), (0x2E, str 'c'), (0x2F, str 'v'), (0x30, str 'b'),
  (0x31, str 'n'), (0x32, str 'm'), (0x33, str 'ö'), (0x34, str 'ç'), (0x35, str '.'),
  (0x37, str '*'), (0x39, str ' '), (0x4A, str '-'), (0x4E, str '+'), (0x56, str '<')]

def scancodeToStrShifted : List (UInt8 × List UInt8) := [
  (0x01, [0x1B]),
  (0x02, str '!'), (0x03, [0x27]), (0x04, str '^'), (0x05, str '+'), (0x06, str '%'),
  (0x07, str '&'), (0x08, str '/'), (0x09, str '('), (0x0A, str ')'), (0x0B, str '='),
  (0x0C, str '?'), (0x0D, str '_'), (0x0E, [0x08]), (0x0F, [0x09]),
  (0x10, str 'Q'), (0x11, str 'W'), (0x12, str 'E'), (0x13, str 'R'), (0x14, str 'T'),
  (0x15, str 'Y'), (0x16, str 'U'), (0x17, str 'I'), (0x18, str 'O'), (0x19, str 'P'),
  (0x1A, str 'Ğ'), (0x1B, str 'Ü'), (0x1C, [0x0A]),
  (0x1E, str 'A'), (0x1F, str 'S'), (0x20, str 'D'), (0x21, str 'F'), (0x22, str 'G'),
  (0x23, str 'H'), (0x24, str 'J'), (0x25, str 'K'), (0x26, str 'L'), (0x27, str 'Ş'),
  (0x28, str 'İ'), (0x29, str 'é'), (0x2B, str ';'),
  (0x2C, str 'Z'), (0x2D, str 'X'), (0x2E, str 'C'), (0x2F, str 'V'), (0x30, str 'B'),
  (0x31, str 'N'), (0x32, str 'M'), (0x33, str 'Ö'), (0x34, str 'Ç'), (0x35, str ':'),
  (0x37, str '*'), (0x39, str ' '), (0x4A, str '-'), (0x4E, str '+'), (0x56, str '>')]

/-- `keyboard_layout_translate`; nothing for the null pointer. -/
def keyboardLayoutTranslate (scancode : UInt8) (shifted : Bool) : Option (List UInt8) :=
  if scancode ≥ 128 then none
  else if shifted then scancodeToStrShifted.lookup scancode
  else scancodeToStr.lookup scancode

/-- Where the reader is in `ring_buffer_pop`. -/
inductive PopPhase where
  | outside
  /-- Called, before the test. -/
  | testing
  /-- The test has found a value. -/
  | found
  /-- The value has been read, the tail not yet advanced. -/
  | taken (c : UInt8)
  deriving DecidableEq, Repr

structure KeyStream where
  shiftHeld : Bool
  kbdBuffer : RingBuffer
  phase : PopPhase
  /-- The sequences of the keys pressed so far. -/
  pressed : List (List UInt8)
  /-- The bytes returned so far. -/
  read : List UInt8

inductive StreamEvent where
  /-- `keyboard_irq_handler`. -/
  | scancode (scancode : UInt8)
  /-- `kbd_read_char`, or a round of the loop of `kbd_getchar`, calls `ring_buffer_pop`. -/
  | pop
  /-- The next access of `ring_buffer_pop`. -/
  | access

namespace KeyStream

/-- `keyboard_irq_handler`, for what it has read from the port. -/
def irqHandler (s : KeyStream) (scancode : UInt8) : KeyStream :=
  if scancode = scancodeLshift ∨ scancode = scancodeRshift then { s with shiftHeld := true }
  else if scancode = scancodeLshiftUp ∨ scancode = scancodeRshiftUp then
    { s with shiftHeld := false }
  else if scancode &&& scancodeReleaseBit ≠ 0 then s
  else
    match keyboardLayoutTranslate scancode s.shiftHeld with
    | none => s
    | some seq =>
      { s with
        kbdBuffer := seq.foldl ringBufferPush s.kbdBuffer
        pressed := s.pressed ++ [seq] }

/-- The accesses of `ring_buffer_pop`; where it answers 0, `kbd_read_char` returns
and `kbd_getchar` sleeps before the next round. -/
def access (s : KeyStream) : Option KeyStream :=
  match s.phase with
  | .outside => none
  | .testing =>
    some { s with phase := if s.kbdBuffer.tail = s.kbdBuffer.head then .outside else .found }
  | .found => some { s with phase := .taken (s.kbdBuffer.storage s.kbdBuffer.tail) }
  | .taken c =>
    some { s with
      kbdBuffer := { s.kbdBuffer with tail := s.kbdBuffer.tail + 1 }
      phase := .outside
      read := s.read ++ [c] }

def step (s : KeyStream) : StreamEvent → Option KeyStream
  | .scancode scancode => some (s.irqHandler scancode)
  | .pop => if s.phase = .outside then some { s with phase := .testing } else none
  | .access => s.access

/-- `keyboard_driver_init`. -/
def init (storage : Fin kbdBufferSize → UInt8) : KeyStream where
  shiftHeld := false
  kbdBuffer := { storage := storage, head := 0, tail := 0 }
  phase := .outside
  pressed := []
  read := []

end KeyStream

/-- How many values the buffer holds. -/
def RingBuffer.count (rb : RingBuffer) : Nat := (rb.head - rb.tail).val

/-- How many it has room for; one cell stays free. -/
def RingBuffer.room (rb : RingBuffer) : Nat := kbdBufferSize - 1 - rb.count

def RingBuffer.contents (rb : RingBuffer) : List UInt8 := window rb.storage rb.tail rb.count

/-- What was read and what is still in the buffer are the whole sequences of some
of the keys, in their order. -/
def WholeKeys (s : KeyStream) : Prop :=
  ∃ kept : List (List UInt8), kept.Sublist s.pressed ∧ s.read ++ s.kbdBuffer.contents = kept.flatten

/-- A key of two bytes does not come while there is room for one. -/
def RoomForKey (s : KeyStream) : StreamEvent → Prop
  | .scancode scancode => ∀ seq ∈ keyboardLayoutTranslate scancode s.shiftHeld,
      ¬ (seq.length = 2 ∧ s.kbdBuffer.room = 1)
  | _ => True

instance (s : KeyStream) (e : StreamEvent) : Decidable (RoomForKey s e) := by
  unfold RoomForKey
  split <;> infer_instance

/-! ## The layout -/

theorem mem_of_lookup {table : List (UInt8 × List UInt8)} {scancode : UInt8} {seq : List UInt8}
    (found : table.lookup scancode = some seq) : (scancode, seq) ∈ table := by
  obtain ⟨before, after, split, -⟩ := List.lookup_eq_some_iff.mp found
  rw [split]
  exact List.mem_append_right before List.mem_cons_self

/-- Every key of the layout stands for one character, of one or two bytes. -/
theorem translate_length {scancode : UInt8} {shifted : Bool} {seq : List UInt8}
    (translated : keyboardLayoutTranslate scancode shifted = some seq) :
    seq.length = 1 ∨ seq.length = 2 := by
  have plain : ∀ p ∈ scancodeToStr, p.2.length = 1 ∨ p.2.length = 2 := by decide
  have shift : ∀ p ∈ scancodeToStrShifted, p.2.length = 1 ∨ p.2.length = 2 := by decide
  unfold keyboardLayoutTranslate at translated
  split at translated
  · cases translated
  split at translated
  · exact shift _ (mem_of_lookup translated)
  · exact plain _ (mem_of_lookup translated)

/-! ## The ring buffer -/

variable {rb : RingBuffer}

theorem count_lt (rb : RingBuffer) : rb.count < kbdBufferSize := (rb.head - rb.tail).isLt

/-- The head is as far from the tail as there are values. -/
theorem forward_count (rb : RingBuffer) : forward rb.tail rb.count = rb.head := by
  apply Fin.ext
  have tail := rb.tail.isLt
  have head := rb.head.isLt
  rw [Lib.Ring.forward_val, RingBuffer.count, Fin.sub_def]
  unfold kbdBufferSize at *
  simp only
  omega

theorem count_eq_zero_iff (rb : RingBuffer) : rb.count = 0 ↔ rb.tail = rb.head := by
  rw [RingBuffer.count, Fin.val_eq_zero_iff, sub_eq_zero]
  exact eq_comm

/-- The head `n` values on from the tail. -/
theorem count_of_forward {n : Nat} (head : rb.head = forward rb.tail n) (small : n < kbdBufferSize) :
    rb.count = n := by
  have tail := rb.tail.isLt
  rw [RingBuffer.count, head, Fin.sub_def, Lib.Ring.forward_val]
  unfold kbdBufferSize at *
  simp only
  omega

/-- `kbd_buffer` as `ring_buffer_push` and `ring_buffer_pop` see it. -/
def RingBuffer.memory (rb : RingBuffer) : Drivers.RingBuffer where
  storage i := if h : i < kbdBufferSize then rb.storage ⟨i, h⟩ else 0
  capacity := BitVec.ofNat 32 kbdBufferSize
  head := BitVec.ofNat 32 rb.head.val
  tail := BitVec.ofNat 32 rb.tail.val

theorem index_toNat (i : Fin kbdBufferSize) : (BitVec.ofNat 32 i.val).toNat = i.val := by
  have inside := i.isLt
  unfold kbdBufferSize at inside
  rw [BitVec.toNat_ofNat]
  omega

theorem index_inj (i j : Fin kbdBufferSize) :
    BitVec.ofNat 32 i.val = BitVec.ofNat 32 j.val ↔ i = j := by
  constructor
  · intro same
    have value := congrArg BitVec.toNat same
    rw [index_toNat, index_toNat] at value
    exact Fin.ext value
  · rintro rfl
    rfl

/-- Counting modulo the capacity is counting in the cells. -/
theorem index_next (i : Fin kbdBufferSize) :
    (BitVec.ofNat 32 i.val + 1) % BitVec.ofNat 32 kbdBufferSize =
      BitVec.ofNat 32 (i + 1).val := by
  apply BitVec.eq_of_toNat_eq
  rw [index_toNat]
  exact next_toNat (by decide) (index_toNat i)

theorem memory_push (rb : RingBuffer) (value : UInt8) :
    Drivers.ringBufferPush value rb.memory =
      (decide (rb.head + 1 ≠ rb.tail), (ringBufferPush rb value).memory) := by
  have next : (rb.memory.head + 1) % rb.memory.capacity = BitVec.ofNat 32 (rb.head + 1).val :=
    index_next rb.head
  have around : BitVec.ofNat 32 (rb.head + 1).val = rb.memory.tail ↔ rb.head + 1 = rb.tail :=
    index_inj _ _
  rw [Drivers.ringBufferPush, next, ringBufferPush]
  by_cases full : rb.head + 1 = rb.tail
  · rw [if_pos (around.mpr full), if_pos full, decide_eq_false (not_not.mpr full)]
  · rw [if_neg (mt around.mp full), if_neg full, decide_eq_true full]
    simp only [RingBuffer.memory, index_toNat, Prod.mk.injEq, Drivers.RingBuffer.mk.injEq,
      and_true, true_and]
    funext i
    by_cases inside : i < kbdBufferSize
    · simp only [Function.update_apply, inside, Fin.ext_iff, dite_true]
    · have other : i ≠ rb.head.val := fun same => inside (same ▸ rb.head.isLt)
      simp only [Function.update_of_ne other, inside, dite_false]

/-- What the accesses of `ring_buffer_pop` come to when nothing comes between. -/
theorem memory_pop (rb : RingBuffer) (out : UInt8) :
    Drivers.ringBufferPop out rb.memory =
      if rb.tail = rb.head then (false, out, rb.memory)
      else (true, rb.storage rb.tail, ({ rb with tail := rb.tail + 1 } : RingBuffer).memory) := by
  have next : (rb.memory.tail + 1) % rb.memory.capacity = BitVec.ofNat 32 (rb.tail + 1).val :=
    index_next rb.tail
  have value : rb.memory.storage rb.memory.tail.toNat = rb.storage rb.tail := by
    simp only [RingBuffer.memory, index_toNat, Fin.isLt, dite_true]
  have same : rb.memory.tail = rb.memory.head ↔ rb.tail = rb.head := index_inj _ _
  rw [Drivers.ringBufferPop, next, value]
  by_cases empty : rb.tail = rb.head
  · rw [if_pos (same.mpr empty), if_pos empty]
  · rw [if_neg (mt same.mp empty), if_neg empty]
    rfl

theorem length_contents (rb : RingBuffer) : rb.contents.length = rb.count :=
  Lib.Ring.length_window ..

theorem memory_storage (rb : RingBuffer) :
    (fun i : Fin kbdBufferSize => rb.memory.storage i.val) = rb.storage := by
  funext i
  simp only [RingBuffer.memory, Fin.isLt, dite_true]

/-- What the walk from the tail finds are the values that the ring buffer holds. -/
theorem memory_holds (rb : RingBuffer) : rb.memory.Holds kbdBufferSize rb.contents := by
  have whole : (BitVec.ofNat 32 kbdBufferSize).toNat = kbdBufferSize := by decide
  refine ⟨whole, ?_, rb.tail, index_toNat rb.tail, ?_, ?_⟩
  · rw [length_contents]
    exact count_lt rb
  · rw [length_contents, forward_count]
    exact index_toNat rb.head
  · rw [memory_storage, length_contents, RingBuffer.contents]

theorem contents_of_holds {q : List UInt8} (holds : rb.memory.Holds kbdBufferSize q) :
    rb.contents = q := by
  obtain ⟨-, few, pos, tail, head, cells⟩ := holds
  obtain rfl : rb.tail = pos := Fin.ext ((index_toNat rb.tail).symm.trans tail)
  have last : rb.head = forward rb.tail q.length :=
    Fin.ext ((index_toNat rb.head).symm.trans head)
  rw [memory_storage] at cells
  rw [RingBuffer.contents, count_of_forward last few, cells]

theorem push_full (full : rb.room = 0) (value : UInt8) : ringBufferPush rb value = rb := by
  have few := count_lt rb
  have length := length_contents rb
  unfold RingBuffer.room at full
  have refused := (memory_holds rb).push_full (by omega) value
  rw [memory_push, Prod.mk.injEq, decide_eq_false_iff_not, not_not] at refused
  rw [ringBufferPush, if_pos refused.1]

/-- Where there is room, the value goes behind the others. -/
theorem push_room (room : 0 < rb.room) (value : UInt8) :
    (ringBufferPush rb value).contents = rb.contents ++ [value] ∧
      (ringBufferPush rb value).room + 1 = rb.room := by
  have length := length_contents rb
  unfold RingBuffer.room at room
  have holds := ((memory_holds rb).push_room (by omega) value).2
  rw [memory_push] at holds
  have contents := contents_of_holds holds
  have more := length_contents (ringBufferPush rb value)
  rw [contents, List.length_append, List.length_singleton] at more
  refine ⟨contents, ?_⟩
  unfold RingBuffer.room
  omega

theorem pushes_full (full : rb.room = 0) (seq : List UInt8) :
    seq.foldl ringBufferPush rb = rb := by
  induction seq with
  | nil => rfl
  | cons value seq ih => rw [List.foldl_cons, push_full full, ih]

theorem pushes_room (seq : List UInt8) (fits : seq.length ≤ rb.room) :
    (seq.foldl ringBufferPush rb).contents = rb.contents ++ seq := by
  induction seq generalizing rb with
  | nil => exact (List.append_nil _).symm
  | cons value seq ih =>
    rw [List.length_cons] at fits
    obtain ⟨contents, room⟩ := push_room (by omega : 0 < rb.room) value
    rw [List.foldl_cons, ih (by omega), contents, List.append_assoc, List.singleton_append]

theorem contents_ne_nil_iff (rb : RingBuffer) : rb.contents ≠ [] ↔ rb.tail ≠ rb.head := by
  rw [ne_eq, ne_eq, ← count_eq_zero_iff, ← List.length_eq_zero_iff, RingBuffer.contents,
    Lib.Ring.length_window]

/-- The value at the tail is the first to be read. -/
theorem contents_cons (value : rb.tail ≠ rb.head) :
    rb.contents = rb.storage rb.tail :: ({ rb with tail := rb.tail + 1 } : RingBuffer).contents := by
  have holds := memory_holds rb
  cases stored : rb.contents with
  | nil => exact absurd stored ((contents_ne_nil_iff rb).mpr value)
  | cons first q =>
    rw [stored] at holds
    obtain ⟨-, oldest, rest⟩ := holds.pop_value 0
    rw [memory_pop, if_neg value] at oldest rest
    rw [contents_of_holds rest, ← oldest]

/-! ## What every step keeps -/

/-- Whole keys, and a reader in `ring_buffer_pop` is about to take the first value. -/
structure StreamSound (s : KeyStream) : Prop where
  whole : WholeKeys s
  found : s.phase = .found → s.kbdBuffer.contents ≠ []
  taken : ∀ c, s.phase = .taken c → s.kbdBuffer.contents.head? = some c

variable {s t : KeyStream} {e : StreamEvent}

/-- The handler has pushed a whole key, or nothing of it. -/
theorem StreamSound.pressed (sound : StreamSound s) (seq : List UInt8)
    (fits : seq.length ≤ s.kbdBuffer.room ∨ s.kbdBuffer.room = 0) :
    StreamSound
      { s with
        kbdBuffer := seq.foldl ringBufferPush s.kbdBuffer
        pressed := s.pressed ++ [seq] } := by
  obtain ⟨kept, sublist, bytes⟩ := sound.whole
  rcases fits with room | full
  · have contents := pushes_room seq room
    constructor
    · exact ⟨kept ++ [seq], sublist.append_right [seq], by
        rw [contents, ← List.append_assoc, bytes, List.flatten_append, List.flatten_singleton]⟩
    · intro phase
      rw [contents]
      exact List.append_ne_nil_of_left_ne_nil (sound.found phase) seq
    · intro c phase
      have first := sound.taken c phase
      rw [contents, List.head?_append, first]
      rfl
  · rw [pushes_full full]
    exact ⟨⟨kept, sublist.trans (List.sublist_append_left _ _), bytes⟩, sound.found, sound.taken⟩

theorem StreamSound.irqHandler (sound : StreamSound s) {scancode : UInt8}
    (room : RoomForKey s (.scancode scancode)) : StreamSound (s.irqHandler scancode) := by
  unfold KeyStream.irqHandler
  split
  · exact ⟨sound.whole, sound.found, sound.taken⟩
  split
  · exact ⟨sound.whole, sound.found, sound.taken⟩
  split
  · exact sound
  split
  · exact sound
  · next seq translated =>
    have apart := room seq translated
    have length := translate_length translated
    exact sound.pressed seq (by omega)

theorem StreamSound.access (sound : StreamSound s) (h : s.access = some t) : StreamSound t := by
  obtain ⟨kept, sublist, bytes⟩ := sound.whole
  unfold KeyStream.access at h
  split at h
  · cases h
  · obtain rfl := Option.some.inj h
    split
    · exact ⟨⟨kept, sublist, bytes⟩, nofun, nofun⟩
    · next value =>
      exact ⟨⟨kept, sublist, bytes⟩, fun _ => (contents_ne_nil_iff _).mpr value, nofun⟩
  · next phase =>
    obtain rfl := Option.some.inj h
    have value := (contents_ne_nil_iff _).mp (sound.found phase)
    constructor
    · exact ⟨kept, sublist, bytes⟩
    · exact nofun
    · intro c taken
      rw [contents_cons value, List.head?_cons, PopPhase.taken.inj taken]
  · next c phase =>
    obtain rfl := Option.some.inj h
    have first := sound.taken c phase
    have value : s.kbdBuffer.tail ≠ s.kbdBuffer.head := by
      rw [← contents_ne_nil_iff]
      intro none
      rw [none] at first
      cases first
    rw [contents_cons value] at bytes first
    rw [List.head?_cons, Option.some.injEq] at first
    constructor
    · exact ⟨kept, sublist, by rw [← bytes, ← first, List.append_assoc, List.singleton_append]⟩
    · exact nofun
    · exact nofun

/-- Every step whose key finds room for both of its bytes or for none. -/
theorem keyStream_step (s : KeyStream) (e : StreamEvent) (t : KeyStream) (sound : StreamSound s)
    (ok : RoomForKey s e) (h : s.step e = some t) : StreamSound t := by
  cases e with
  | scancode scancode =>
    obtain rfl := Option.some.inj h
    exact sound.irqHandler ok
  | pop =>
    simp only [KeyStream.step] at h
    split at h
    · cases h
      exact ⟨sound.whole, nofun, nofun⟩
    · cases h
  | access => exact sound.access h

/-- In every run in which no key of two bytes comes while there is room for one,
the bytes are those of whole keys. -/
theorem keys_stay_whole (storage : Fin kbdBufferSize → UInt8) (es : List StreamEvent)
    (s : KeyStream) (ok : Meets KeyStream.step RoomForKey (.init storage) es)
    (ran : run KeyStream.step (.init storage) es = some s) : WholeKeys s := by
  have start : StreamSound (.init storage) := ⟨⟨[], List.Sublist.refl [], rfl⟩, nofun, nofun⟩
  exact (Lib.Machine.run_invariant keyStream_step start ok ran).whole

/-- `a` and `ğ` are typed and three bytes asked for, the `ğ` in the midst of a call. -/
def typesTwoKeys : List StreamEvent :=
  [.scancode 0x1E, .pop, .access, .scancode 0x1A, .access, .access, .pop, .access, .access,
    .access, .scancode 0x9A, .pop, .access]

theorem keys_stay_whole_typed :
    ∃ s, run KeyStream.step (.init fun _ => 0) typesTwoKeys = some s ∧ WholeKeys s := by
  have runs : (run KeyStream.step (.init fun _ => 0) typesTwoKeys).isSome := by decide +kernel
  obtain ⟨s, ran⟩ := Option.isSome_iff_exists.mp runs
  exact ⟨s, ran, keys_stay_whole (fun _ => 0) typesTwoKeys s (by decide +kernel) ran⟩

/-- The first byte of a `ğ` is all there is room for behind 254 other keys; then
everything is read. -/
def typesTooMuch : List StreamEvent :=
  List.replicate 254 (.scancode 0x1E) ++ .scancode 0x1A ::
    (List.replicate 255 [.pop, .access, .access, .access]).flatten

/-- The buffer is empty again, and what was read ends in the midst of the `ğ`. -/
theorem key_cut_in_two :
    ¬ ∀ storage es s, run KeyStream.step (.init storage) es = some s →
      s.kbdBuffer.contents = [] → WholeKeys s := by
  intro claim
  have ends : (run KeyStream.step (.init fun _ => 0) typesTooMuch).any fun s =>
      s.kbdBuffer.contents = [] ∧ s.read.count 0xC4 = 1 ∧ s.read.count 0x9F = 0 ∧
        ∀ seq ∈ s.pressed, seq.count 0xC4 = seq.count 0x9F := by decide +kernel
  obtain ⟨s, ran, ends⟩ := (Option.any_eq_true _ _).mp ends
  obtain ⟨drained, lead, tail, pairs⟩ := of_decide_eq_true ends
  obtain ⟨kept, sublist, bytes⟩ := claim _ _ s ran drained
  have same : kept.map (List.count 0xC4) = kept.map (List.count 0x9F) :=
    List.map_congr_left fun seq member => pairs seq (sublist.subset member)
  rw [drained, List.append_nil] at bytes
  rw [bytes, List.count_flatten, same, ← List.count_flatten, ← bytes, tail] at lead
  cases lead

end MiniKernel.Drivers.Keyboard
