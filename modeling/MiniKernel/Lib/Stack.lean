import MiniKernel.Lib.LittleEndian

/-!
# A stack of 64-bit words in memory

The stack grows down: a push stores below the stack pointer. Pushed words stand in
memory in the reverse order, a push touches no byte but those between the new and the
old stack pointer, and pops answer the words that stand there.
-/
namespace MiniKernel.Lib.Stack

abbrev Word := BitVec 64

def load (mem : Buffer) (a : Nat) : Word := BitVec.ofNat 64 (readU64 mem a)

def store (mem : Buffer) (a : Nat) (v : Word) : Buffer := writeU64 mem a v.toNat

/-- A memory and a stack pointer. -/
structure State where
  mem : Buffer
  sp : Word

def push (v : Word) (s : State) : State where
  mem := store s.mem (s.sp - 8).toNat v
  sp := s.sp - 8

def pop (s : State) : Word × State := (load s.mem s.sp.toNat, { s with sp := s.sp + 8 })

/-- The first value is pushed first. -/
def pushAll (vs : List Word) (s : State) : State := vs.foldl (fun s v => push v s) s

def popAll : Nat → State → List Word × State
  | 0, s => ([], s)
  | n + 1, s =>
    let (v, s) := pop s
    let (vs, s) := popAll n s
    (v :: vs, s)

/-- The words from an address on, upwards. -/
def loadAll (mem : Buffer) (a : Nat) (n : Nat) : List Word :=
  (List.range n).map fun i => load mem (a + 8 * i)

/-! ## Single words -/

variable {mem mem' : Buffer} {a b : Nat} {v : Word} {vs : List Word} {s : State} {n : Nat}

theorem load_store (mem : Buffer) (a : Nat) (v : Word) : load (store mem a v) a = v := by
  rw [load, store, readU64_writeU64 _ _ _ v.isLt, BitVec.ofNat_toNat, BitVec.setWidth_eq]

theorem load_congr (same : ∀ i, a ≤ i → i < a + 8 → mem i = mem' i) : load mem a = load mem' a := by
  rw [load, load, readU64_congr fun i few => same (a + i) (by omega) (by omega)]

theorem store_outside (mem : Buffer) (v : Word) {i : Nat} (outside : i < a ∨ a + 8 ≤ i) :
    store mem a v i = mem i := writeU64_outside mem a v.toNat i outside

theorem load_store_other (mem : Buffer) (v : Word) (apart : b + 8 ≤ a ∨ a + 8 ≤ b) :
    load (store mem a v) b = load mem b :=
  load_congr fun i low high => store_outside mem v (by omega)

theorem loadAll_congr (same : ∀ i, a ≤ i → i < a + 8 * n → mem i = mem' i) :
    loadAll mem a n = loadAll mem' a n := by
  refine List.map_congr_left fun i member => ?_
  have less : i < n := List.mem_range.mp member
  exact load_congr fun j low high => same j (by omega) (by omega)

theorem loadAll_succ (mem : Buffer) (a n : Nat) :
    loadAll mem a (n + 1) = load mem a :: loadAll mem (a + 8) n := by
  rw [loadAll, List.range_succ_eq_map, List.map_cons, List.map_map]
  refine congrArg₂ List.cons rfl (List.map_congr_left fun i _ => ?_)
  exact congrArg (load mem) (show a + 8 * (i + 1) = a + 8 + 8 * i by omega)

theorem loadAll_length (mem : Buffer) (a n : Nat) : (loadAll mem a n).length = n := by
  rw [loadAll, List.length_map, List.length_range]

/-- Storing one of the words changes that one. -/
theorem loadAll_store (mem : Buffer) (a n i : Nat) (v : Word) :
    loadAll (store mem (a + 8 * i) v) a n = (loadAll mem a n).set i v := by
  induction n generalizing a i with
  | zero => rfl
  | succ n ih =>
    rw [loadAll_succ, loadAll_succ]
    cases i with
    | zero =>
      rw [Nat.mul_zero, Nat.add_zero, load_store, List.set_cons_zero]
      exact congrArg (v :: ·) (loadAll_congr fun j low high => store_outside mem v (by omega))
    | succ i =>
      have up : a + 8 * (i + 1) = a + 8 + 8 * i := by omega
      rw [List.set_cons_succ, up, ih, load_store_other mem v (by omega)]

theorem loadAll_add (mem : Buffer) (a n k : Nat) :
    loadAll mem a (n + k) = loadAll mem a n ++ loadAll mem (a + 8 * n) k := by
  induction n generalizing a with
  | zero => rw [Nat.zero_add, Nat.mul_zero, Nat.add_zero, loadAll, loadAll, List.range_zero,
      List.map_nil, List.nil_append]
  | succ n ih =>
    have up : a + 8 + 8 * n = a + 8 * (n + 1) := by omega
    rw [Nat.add_right_comm, loadAll_succ, ih, loadAll_succ, List.cons_append, up]

/-! ## Many of them -/

theorem pushAll_cons (v : Word) (vs : List Word) (s : State) :
    pushAll (v :: vs) s = pushAll vs (push v s) := rfl

theorem pushAll_append (vs ws : List Word) (s : State) :
    pushAll (vs ++ ws) s = pushAll ws (pushAll vs s) := List.foldl_append ..

/-- There is room for `n` words below the stack pointer. -/
def Room (s : State) (n : Nat) : Prop := 8 * n ≤ s.sp.toNat

theorem push_sp (room : Room s 1) (v : Word) : (push v s).sp.toNat + 8 = s.sp.toNat := by
  unfold Room at room
  change (s.sp - 8).toNat + 8 = s.sp.toNat
  bv_omega

theorem pushAll_sp_eq (vs : List Word) (s : State) :
    (pushAll vs s).sp = s.sp - BitVec.ofNat 64 (8 * vs.length) := by
  induction vs generalizing s with
  | nil => exact (BitVec.sub_zero s.sp).symm
  | cons v vs ih =>
    rw [pushAll_cons, ih, List.length_cons, Nat.mul_succ, BitVec.ofNat_add]
    change s.sp - 8 - _ = _
    rw [BitVec.sub_sub, BitVec.add_comm]
    rfl

theorem pushAll_sp (vs : List Word) (room : Room s vs.length) :
    (pushAll vs s).sp.toNat + 8 * vs.length = s.sp.toNat := by
  induction vs generalizing s with
  | nil => rfl
  | cons v vs ih =>
    unfold Room at room ih
    rw [List.length_cons] at room
    have first := push_sp (s := s) (by unfold Room; omega) v
    have rest := ih (s := push v s) (by omega)
    rw [pushAll_cons, List.length_cons]
    omega

/-- The bytes outside the pushed words are what they were. -/
theorem pushAll_outside (room : Room s vs.length) {i : Nat}
    (outside : i + 8 * vs.length < s.sp.toNat ∨ s.sp.toNat ≤ i) :
    (pushAll vs s).mem i = s.mem i := by
  induction vs generalizing s with
  | nil => rfl
  | cons v vs ih =>
    unfold Room at room ih
    rw [List.length_cons] at room outside
    have first := push_sp (s := s) (by unfold Room; omega) v
    rw [pushAll_cons, ih (s := push v s) (by omega) (by omega)]
    refine store_outside s.mem v ?_
    change i < (push v s).sp.toNat ∨ (push v s).sp.toNat + 8 ≤ i
    omega

/-- The pushed words, the last one lowest. -/
theorem loadAll_pushAll (vs : List Word) (room : Room s vs.length) :
    loadAll (pushAll vs s).mem (pushAll vs s).sp.toNat vs.length = vs.reverse := by
  induction vs using List.reverseRecOn with
  | nil => rfl
  | append_singleton vs v ih =>
    unfold Room at room ih
    rw [List.length_append, List.length_singleton] at room
    have below := pushAll_sp (s := s) vs (by unfold Room; omega)
    have last := push_sp (s := pushAll vs s) (by unfold Room; omega) v
    have top : loadAll (push v (pushAll vs s)).mem ((push v (pushAll vs s)).sp.toNat + 8)
        vs.length = loadAll (pushAll vs s).mem (pushAll vs s).sp.toNat vs.length := by
      rw [last]
      refine loadAll_congr fun i low high => store_outside _ v ?_
      change i < (push v (pushAll vs s)).sp.toNat ∨ (push v (pushAll vs s)).sp.toNat + 8 ≤ i
      omega
    rw [pushAll_append, List.length_append, List.length_singleton, List.reverse_append,
      List.reverse_singleton, List.singleton_append]
    change loadAll (push v (pushAll vs s)).mem (push v (pushAll vs s)).sp.toNat _ = _
    rw [loadAll_succ, top, ih (by omega)]
    exact congrArg (· :: vs.reverse) (load_store _ _ v)

/-- What is popped are the words above the stack pointer. -/
theorem popAll_eq (fits : s.sp.toNat + 8 * n < 2 ^ 64) :
    popAll n s = (loadAll s.mem s.sp.toNat n, { s with sp := s.sp + BitVec.ofNat 64 (8 * n) }) := by
  induction n generalizing s with
  | zero =>
    have still : s.sp + BitVec.ofNat 64 (8 * 0) = s.sp := BitVec.add_zero s.sp
    rw [popAll, still]
    rfl
  | succ n ih =>
    have next : (s.sp + 8).toNat = s.sp.toNat + 8 := by bv_omega
    have rest := ih (s := { s with sp := s.sp + 8 }) (by
      change (s.sp + 8).toNat + _ < _
      omega)
    have up : s.sp + 8 + BitVec.ofNat 64 (8 * n) = s.sp + BitVec.ofNat 64 (8 * (n + 1)) := by
      rw [BitVec.add_assoc, Nat.mul_succ, BitVec.ofNat_add, BitVec.add_comm (BitVec.ofNat 64 (8 * n))]
      rfl
    rw [popAll]
    dsimp only [pop]
    rw [rest, loadAll_succ, next, up]

end MiniKernel.Lib.Stack
