import MiniKernel.Lib.Packed
import MiniKernel.Arch.Interrupts

/-!
# The descriptor tables

Source: kernel/arch/x86_64/{gdt.c,idt.c}, kernel/include/kernel/gdt.h.

The three packed tables the processor protects the kernel by, as the kernel fills them and
as the processor reads them. The limits of segments are left out, since long mode ignores
them, but the limit of the TSS counts.
-/
namespace MiniKernel.Arch
open Lib.Packed
open Lib.Stack (Word)

/-! ## What the kernel writes -/

/-- `set_entry`. -/
def setEntry (access granularity : Nat) : Fields :=
  [(16, 0), (16, 0), (8, 0), (8, access), (8, granularity), (8, 0)]

/-- `set_tss_descriptor`. -/
def setTssDescriptor (base limit : Nat) : Fields :=
  [(16, limit &&& 0xFFFF), (16, base &&& 0xFFFF), (8, base >>> 16 &&& 0xFF), (8, 0x89),
    (8, limit >>> 16 &&& 0x0F), (8, base >>> 24 &&& 0xFF), (32, base >>> 32 &&& 0xFFFFFFFF),
    (32, 0)]

/-- `sizeof(tss)`. -/
def tssSize : Nat := 104

/-- The TSS after `gdt_init` and `tss_set_kernel_stack(rsp0)`. -/
def tssFields (rsp0 : Word) : Fields :=
  (32, 0) :: (64, rsp0.toNat) :: List.replicate 11 (64, 0) ++ [(16, 0), (16, tssSize)]

/-- `gdt_init`, with the TSS at the address `tss`. -/
def gdtInit (tss : Word) : Fields :=
  setEntry 0x00 0x00 ++ setEntry 0x9A 0xAF ++ setEntry 0x92 0xA0 ++ setEntry 0xFA 0xAF ++
    setEntry 0xF2 0xA0 ++ setTssDescriptor tss.toNat (tssSize - 1)

/-- `sizeof(gdt) - 1`. -/
def gdtLimit : Nat := 55

def gdtKernelCode : Nat := 0x08

def idtGateInterrupt : Nat := 0x8E
def idtGateInterruptDpl3 : Nat := 0xEE

/-- `idt_set_gate_attr`. -/
def idtSetGateAttr (handler : Word) (typeAttr : Nat) : Fields :=
  [(16, handler.toNat &&& 0xFFFF), (16, gdtKernelCode), (8, 0), (8, typeAttr),
    (16, handler.toNat >>> 16 &&& 0xFFFF), (32, handler.toNat >>> 32 &&& 0xFFFFFFFF), (32, 0)]

/-- The gates of `idt_init`, in its order. -/
def idtGates : List Vector := (List.finRange 32).map .isr ++ [.irq 0, .irq 1, .syscall]

def Vector.typeAttr : Vector → Nat
  | .syscall => idtGateInterruptDpl3
  | _ => idtGateInterrupt

/-- `idt_init`, on the zeroes of a static table. -/
def idtInit (stub : Vector → Word) : Nat → Nat :=
  idtGates.foldl (fun idt v => Function.update idt v.number.toNat
    (pack (idtSetGateAttr (stub v) v.typeAttr))) fun _ => 0

/-- `sizeof(idt) - 1`. -/
def idtLimit : Nat := 4095

/-! ## What the processor reads -/

/-- A descriptor; `segment` is its S bit, `long` its L bit. -/
structure Descriptor where
  type : Nat
  segment : Bool
  dpl : Nat
  present : Bool
  long : Bool
  base : Nat
  limit : Nat
  deriving DecidableEq, Repr

/-- The descriptor a selector names; a system descriptor takes 16 bytes. -/
def descriptorAt (table limit index : Nat) : Option Descriptor :=
  let d := bits table (64 * index) 64
  if index = 0 ∨ limit < 8 * index + 7 then none
  else some {
    type := bits d 40 4
    segment := bits d 44 1 = 1
    dpl := bits d 45 2
    present := bits d 47 1 = 1
    long := bits d 53 1 = 1
    base := bits d 16 24 + 2 ^ 24 * bits d 56 8 +
      if bits d 44 1 = 1 then 0 else 2 ^ 32 * bits table (64 * index + 64) 32
    limit := bits d 0 16 + 2 ^ 16 * bits d 48 4 }

/-- The I/O permission bitmap of the TSS allows the port. -/
def PortPermitted (tss limit port : Nat) : Prop :=
  let iopb := bits tss (8 * 102) 16
  iopb + port / 8 + 1 ≤ limit ∧ bits tss (8 * iopb + port) 1 = 0

inductive Delivery where
  /-- At the address `rip` in the code segment `cs`; an interrupt gate clears IF. -/
  | enters (cs rip : Nat) (clearsIf : Bool)
  | fault (vector code : Nat)
  deriving DecidableEq, Repr

/-- The processor takes the interrupt `n` at the level `cpl`; `software` for an `int`
instruction. -/
def takeInterrupt (idt : Nat → Nat) (idtLimit gdt gdtLimit cpl : Nat) (software : Bool)
    (n : Nat) : Delivery :=
  let ext := if software then 0 else 1
  let gate := idt n
  let selector := bits gate 16 16
  if idtLimit < 16 * n + 15 ∨ (bits gate 40 5 ≠ 0xE ∧ bits gate 40 5 ≠ 0xF) then
    .fault 13 (8 * n + 2 + ext)
  else if software ∧ bits gate 45 2 < cpl then .fault 13 (8 * n + 2 + ext)
  else if bits gate 47 1 = 0 then .fault 11 (8 * n + 2 + ext)
  else
    match descriptorAt gdt gdtLimit (selector / 8) with
    | none => .fault 13 (8 * (selector / 8) + ext)
    | some d =>
      if d.segment = false ∨ d.type < 8 ∨ cpl < d.dpl then .fault 13 (8 * (selector / 8) + ext)
      else if d.present = false then .fault 11 (8 * (selector / 8) + ext)
      else
        .enters (8 * (selector / 8) + d.dpl) (bits gate 0 16 + 2 ^ 16 * bits gate 48 48)
          (bits gate 40 5 = 0xE)

/-! ## Segments and the TSS -/

/-- The descriptors of the kernel. -/
def gdtDescriptor (tss : Word) : Nat → Option Descriptor
  | 1 => some ⟨0xA, true, 0, true, true, 0, 0xF0000⟩
  | 2 => some ⟨0x2, true, 0, true, true, 0, 0⟩
  | 3 => some ⟨0xA, true, 3, true, true, 0, 0xF0000⟩
  | 4 => some ⟨0x2, true, 3, true, true, 0, 0⟩
  | 5 => some ⟨0x9, false, 0, true, false, tss.toNat, tssSize - 1⟩
  | _ => none

/-- The four parts of an address join again. -/
theorem address_parts (a : Word) :
    a.toNat % 2 ^ 16 + 2 ^ 16 * (a.toNat / 2 ^ 16 % 2 ^ 8) + 2 ^ 24 * (a.toNat / 2 ^ 24 % 2 ^ 8) +
      2 ^ 32 * (a.toNat / 2 ^ 32 % 2 ^ 32) = a.toNat := by
  have := a.isLt
  omega

theorem and_ffff (n : Nat) : n &&& 0xFFFF = n % 2 ^ 16 := Nat.and_two_pow_sub_one_eq_mod n 16

theorem and_ff (n : Nat) : n &&& 0xFF = n % 2 ^ 8 := Nat.and_two_pow_sub_one_eq_mod n 8

theorem and_ffffffff (n : Nat) : n &&& 0xFFFFFFFF = n % 2 ^ 32 :=
  Nat.and_two_pow_sub_one_eq_mod n 32

/-- The five segment descriptors are read as they were set. -/
theorem gdt_entry (before : Fields) (access granularity : Nat) (rest : Fields) :
    bits (pack (before ++ (setEntry access granularity ++ rest))) (width before) 64 =
      pack (setEntry access granularity) := bits_pack_fields before _ rest

theorem descriptorAt_segment (tss : Word) (index : Nat) (low : 1 ≤ index) (high : index ≤ 4) :
    descriptorAt (pack (gdtInit tss)) gdtLimit index = gdtDescriptor tss index := by
  have kernelCode : bits (pack (gdtInit tss)) (64 * 1) 64 = pack (setEntry 0x9A 0xAF) :=
    gdt_entry (setEntry 0 0) 0x9A 0xAF _
  have kernelData : bits (pack (gdtInit tss)) (64 * 2) 64 = pack (setEntry 0x92 0xA0) :=
    gdt_entry (setEntry 0 0 ++ setEntry 0x9A 0xAF) 0x92 0xA0 _
  have userCode : bits (pack (gdtInit tss)) (64 * 3) 64 = pack (setEntry 0xFA 0xAF) :=
    gdt_entry (setEntry 0 0 ++ setEntry 0x9A 0xAF ++ setEntry 0x92 0xA0) 0xFA 0xAF _
  have userData : bits (pack (gdtInit tss)) (64 * 4) 64 = pack (setEntry 0xF2 0xA0) :=
    gdt_entry (setEntry 0 0 ++ setEntry 0x9A 0xAF ++ setEntry 0x92 0xA0 ++ setEntry 0xFA 0xAF)
      0xF2 0xA0 _
  unfold descriptorAt
  dsimp only
  obtain rfl | rfl | rfl | rfl : index = 1 ∨ index = 2 ∨ index = 3 ∨ index = 4 := by omega
  · rw [kernelCode]
    rfl
  · rw [kernelData]
    rfl
  · rw [userCode]
    rfl
  · rw [userData]
    rfl

/-- The lower half of a TSS descriptor. -/
def tssLow (base limit : Nat) : Fields := (setTssDescriptor base limit).take 6

theorem tss_access (base limit low few : Nat) (inside : low + few ≤ 8) :
    bits (pack (tssLow base limit)) (40 + low) few = bits 0x89 low few := by
  have access : bits (pack (tssLow base limit)) 40 8 = 0x89 :=
    bits_pack ((setTssDescriptor base limit).take 3) [_, _] 8 0x89
  rw [← bits_bits _ 40 8 low few inside, access]

theorem tss_base (base : Word) (limit : Nat) :
    bits (pack (tssLow base.toNat limit)) 16 24 +
        2 ^ 24 * bits (pack (tssLow base.toNat limit)) 56 8 =
      base.toNat % 2 ^ 16 + 2 ^ 16 * (base.toNat / 2 ^ 16 % 2 ^ 8) +
        2 ^ 24 * (base.toNat / 2 ^ 24 % 2 ^ 8) := by
  have low : bits (pack (tssLow base.toNat limit)) 16 16 = (base.toNat &&& 0xFFFF) % 2 ^ 16 :=
    bits_pack ((setTssDescriptor base.toNat limit).take 1) [_, _, _, _] 16 _
  have mid : bits (pack (tssLow base.toNat limit)) 32 8 = (base.toNat >>> 16 &&& 0xFF) % 2 ^ 8 :=
    bits_pack ((setTssDescriptor base.toNat limit).take 2) [_, _, _] 8 _
  have high : bits (pack (tssLow base.toNat limit)) 56 8 = (base.toNat >>> 24 &&& 0xFF) % 2 ^ 8 :=
    bits_pack ((setTssDescriptor base.toNat limit).take 5) [] 8 _
  rw [← bits_join _ 16 16 8, low, mid, high, and_ffff, and_ff, and_ff, Nat.shiftRight_eq_div_pow,
    Nat.shiftRight_eq_div_pow, Nat.mod_mod, Nat.mod_mod, Nat.mod_mod]

/-- The entries before the TSS descriptor. -/
def segments : Fields :=
  setEntry 0x00 0x00 ++ setEntry 0x9A 0xAF ++ setEntry 0x92 0xA0 ++ setEntry 0xFA 0xAF ++
    setEntry 0xF2 0xA0

def tssHigh (base : Nat) : Fields := [(32, base >>> 32 &&& 0xFFFFFFFF), (32, 0)]

theorem gdt_lower (tss : Word) :
    bits (pack (gdtInit tss)) 320 64 = pack (tssLow tss.toNat (tssSize - 1)) :=
  bits_pack_fields segments (tssLow tss.toNat (tssSize - 1)) (tssHigh tss.toNat)

theorem gdt_upper (tss : Word) : bits (pack (gdtInit tss)) 384 64 = pack (tssHigh tss.toNat) := by
  have split : segments ++ tssLow tss.toNat (tssSize - 1) ++ (tssHigh tss.toNat ++ []) =
      gdtInit tss := rfl
  have offset : width (segments ++ tssLow tss.toNat (tssSize - 1)) = 384 := by
    simp [width, segments, setEntry, tssLow, setTssDescriptor]
  have part := bits_pack_fields (segments ++ tssLow tss.toNat (tssSize - 1)) (tssHigh tss.toNat) []
  rw [split, offset] at part
  exact part

theorem descriptorAt_tss (tss : Word) :
    descriptorAt (pack (gdtInit tss)) gdtLimit 5 = gdtDescriptor tss 5 := by
  have lower := gdt_lower tss
  have upper : bits (pack (gdtInit tss)) 384 32 = (tss.toNat >>> 32 &&& 0xFFFFFFFF) % 2 ^ 32 := by
    have part := bits_bits (pack (gdtInit tss)) 384 64 0 32 (by decide)
    rw [gdt_upper] at part
    exact part.symm.trans (bits_pack [] [_] 32 _)
  have limitLow : bits (pack (tssLow tss.toNat (tssSize - 1))) 0 16 = tssSize - 1 :=
    bits_pack [] [_, _, _, _, _] 16 _
  have limitHigh : bits (pack (tssLow tss.toNat (tssSize - 1))) 48 8 = 0 :=
    bits_pack ((setTssDescriptor tss.toNat (tssSize - 1)).take 4) [_] 8 _
  have limitTop : bits (pack (tssLow tss.toNat (tssSize - 1))) 48 4 = 0 := by
    have part := bits_bits (pack (tssLow tss.toNat (tssSize - 1))) 48 8 0 4 (by decide)
    rw [limitHigh] at part
    exact part.symm
  have long : bits (pack (tssLow tss.toNat (tssSize - 1))) 53 1 = 0 := by
    have part := bits_bits (pack (tssLow tss.toNat (tssSize - 1))) 48 8 5 1 (by decide)
    rw [limitHigh] at part
    exact part.symm
  have type := tss_access tss.toNat (tssSize - 1) 0 4 (by decide)
  have segment := tss_access tss.toNat (tssSize - 1) 4 1 (by decide)
  have dpl := tss_access tss.toNat (tssSize - 1) 5 2 (by decide)
  have present := tss_access tss.toNat (tssSize - 1) 7 1 (by decide)
  have whole := address_parts tss
  unfold descriptorAt
  dsimp only
  rw [lower, upper, limitLow, limitTop, long, type, segment, dpl, present, tss_base,
    and_ffffffff, Nat.shiftRight_eq_div_pow, Nat.mod_mod]
  change some (Descriptor.mk 9 false 0 true false (_ + 2 ^ 32 * _) _) = _
  rw [whole]
  rfl

/-- Beyond the TSS descriptor's lower half nothing is present. -/
theorem descriptorAt_none (tss : Word) (index : Nat) (beyond : index = 0 ∨ 6 ≤ index)
    (d : Descriptor) : ¬ (descriptorAt (pack (gdtInit tss)) gdtLimit index = some d ∧
      d.present = true) := by
  rintro ⟨found, present⟩
  unfold descriptorAt at found
  dsimp only at found
  by_cases outside : index = 0 ∨ gdtLimit < 8 * index + 7
  · rw [if_pos outside] at found
    cases found
  · rw [if_neg outside] at found
    unfold gdtLimit at outside
    obtain rfl : index = 6 := by omega
    cases found
    -- the upper half: its high word is the reserved field
    have reserved : bits (pack (tssHigh tss.toNat)) 32 32 = 0 := bits_pack [_] [] 32 0
    have part := bits_bits (pack (tssHigh tss.toNat)) 32 32 15 1 (by decide)
    rw [reserved] at part
    have absent : bits (bits (pack (gdtInit tss)) (64 * 6) 64) 47 1 = 0 := by
      rw [gdt_upper]
      exact part.symm
    rw [absent] at present
    cases present

/-- The selectors of the kernel name what the kernel set, and no other one is present. -/
theorem gdt_descriptors (tss : Word) (index : Nat) (d : Descriptor) :
    (descriptorAt (pack (gdtInit tss)) gdtLimit index = some d ∧ d.present = true) ↔
      gdtDescriptor tss index = some d := by
  by_cases inside : 1 ≤ index ∧ index ≤ 5
  · have read : descriptorAt (pack (gdtInit tss)) gdtLimit index = gdtDescriptor tss index := by
      obtain rfl | less : index = 5 ∨ index ≤ 4 := by omega
      · exact descriptorAt_tss tss
      · exact descriptorAt_segment tss index inside.1 less
    rw [read]
    refine and_iff_left_of_imp fun found => ?_
    obtain rfl | rfl | rfl | rfl | rfl :
        index = 1 ∨ index = 2 ∨ index = 3 ∨ index = 4 ∨ index = 5 := by omega
    all_goals cases found; rfl
  · have none : gdtDescriptor tss index = none := by
      match index, inside with
      | 0, _ => rfl
      | n + 6, _ => rfl
    rw [none]
    exact iff_of_false (descriptorAt_none tss index (by omega) d) nofun

/-- The processor finds the stack that `activate` has set, and no program may use a port. -/
theorem task_state (rsp0 : Word) :
    bits (pack (tssFields rsp0)) 32 64 = rsp0.toNat ∧
      ∀ port, ¬ PortPermitted (pack (tssFields rsp0)) (tssSize - 1) port := by
  constructor
  · have split : [(32, 0)] ++ (64, rsp0.toNat) ::
        (List.replicate 11 (64, 0) ++ [(16, 0), (16, tssSize)]) = tssFields rsp0 := rfl
    have stack := bits_pack [(32, 0)] (List.replicate 11 (64, 0) ++ [(16, 0), (16, tssSize)]) 64
      rsp0.toNat
    rw [split, Nat.mod_eq_of_lt rsp0.isLt] at stack
    exact stack
  · intro port permitted
    let before := (tssFields rsp0).take 14
    have split : before ++ (16, tssSize) :: [] = tssFields rsp0 := rfl
    have offset : width before = 8 * 102 := by
      simp [before, width, tssFields]
    have bitmap := bits_pack before [] 16 tssSize
    rw [split, offset] at bitmap
    have inside := permitted.1
    rw [bitmap] at inside
    change 104 + port / 8 + 1 ≤ 103 at inside
    omega

/-! ## Gates -/

def vectorAt (n : Nat) : Option Vector :=
  if h : n < 32 then some (.isr ⟨n, h⟩)
  else if n = 32 then some (.irq 0)
  else if n = 33 then some (.irq 1)
  else if n = 128 then some .syscall
  else none

theorem foldl_update {α β : Type} (key : α → Nat) (value : α → β) (xs : List α) (f : Nat → β)
    (n : Nat) : (xs.foldl (fun f x => Function.update f (key x) (value x)) f) n =
      ((xs.reverse.find? (key · = n)).map value).getD (f n) := by
  induction xs generalizing f with
  | nil => rfl
  | cons x xs ih =>
    rw [List.foldl_cons, ih, List.reverse_cons, List.find?_append]
    cases xs.reverse.find? (key · = n) with
    | some y => rfl
    | none =>
      by_cases same : key x = n
      · rw [same, Function.update_self]
        simp [same]
      · rw [Function.update_of_ne (Ne.symm same)]
        simp [same]

theorem find_gate (n : Nat) : idtGates.reverse.find? (·.number.toNat = n) = vectorAt n := by
  by_cases small : n < 129
  · have all : ∀ n < 129, idtGates.reverse.find? (·.number.toNat = n) = vectorAt n := by
      decide +kernel
    exact all n small
  · have none : vectorAt n = none := by
      unfold vectorAt
      rw [dif_neg (by omega), if_neg (by omega), if_neg (by omega), if_neg (by omega)]
    rw [none, List.find?_eq_none]
    intro v member
    have low : ∀ v ∈ idtGates.reverse, v.number.toNat ≤ 128 := by decide +kernel
    have less := low v member
    simp only [decide_eq_true_eq]
    omega

theorem idtInit_eq (stub : Vector → Word) (n : Nat) :
    idtInit stub n =
      ((vectorAt n).map fun v => pack (idtSetGateAttr (stub v) v.typeAttr)).getD 0 := by
  rw [idtInit, foldl_update, find_gate]

theorem gate_attr (handler : Word) (attr low few : Nat) (inside : low + few ≤ 8) :
    bits (pack (idtSetGateAttr handler attr)) (40 + low) few = bits (attr % 2 ^ 8) low few := by
  have whole : bits (pack (idtSetGateAttr handler attr)) 40 8 = attr % 2 ^ 8 :=
    bits_pack [_, _, _] [_, _, _] 8 attr
  rw [← bits_bits _ 40 8 low few inside, whole]

theorem gate_selector (handler : Word) (attr : Nat) :
    bits (pack (idtSetGateAttr handler attr)) 16 16 = gdtKernelCode :=
  bits_pack [_] [_, _, _, _, _] 16 gdtKernelCode

theorem gate_offset (handler : Word) (attr : Nat) :
    bits (pack (idtSetGateAttr handler attr)) 0 16 +
      2 ^ 16 * bits (pack (idtSetGateAttr handler attr)) 48 48 = handler.toNat := by
  have low : bits (pack (idtSetGateAttr handler attr)) 0 16 = (handler.toNat &&& 0xFFFF) % 2 ^ 16 :=
    bits_pack [] [_, _, _, _, _, _] 16 _
  have mid : bits (pack (idtSetGateAttr handler attr)) 48 16 =
      (handler.toNat >>> 16 &&& 0xFFFF) % 2 ^ 16 := bits_pack [_, _, _, _] [_, _] 16 _
  have high : bits (pack (idtSetGateAttr handler attr)) 64 32 =
      (handler.toNat >>> 32 &&& 0xFFFFFFFF) % 2 ^ 32 := bits_pack [_, _, _, _, _] [_] 32 _
  have less := handler.isLt
  rw [← bits_join _ 48 16 32, low, mid, high, and_ffff, and_ffff, and_ffffffff,
    Nat.shiftRight_eq_div_pow, Nat.shiftRight_eq_div_pow]
  omega

/-- What the gates have in common, and the level each asks of an `int`. -/
theorem gate_level (handler : Word) (v : Vector) :
    bits (pack (idtSetGateAttr handler v.typeAttr)) 40 5 = 0xE ∧
      bits (pack (idtSetGateAttr handler v.typeAttr)) 45 2 = (if v = .syscall then 3 else 0) ∧
      bits (pack (idtSetGateAttr handler v.typeAttr)) 47 1 = 1 := by
  have attr : bits (v.typeAttr % 2 ^ 8) 0 5 = 0xE ∧
      bits (v.typeAttr % 2 ^ 8) 5 2 = (if v = .syscall then 3 else 0) ∧
      bits (v.typeAttr % 2 ^ 8) 7 1 = 1 := by
    cases v with
    | isr n =>
      rw [if_neg (by simp), show (Vector.isr n).typeAttr = 0x8E from rfl]
      decide
    | irq n =>
      rw [if_neg (by simp), show (Vector.irq n).typeAttr = 0x8E from rfl]
      decide
    | syscall => decide
  obtain ⟨type, dpl, present⟩ := attr
  exact ⟨(gate_attr handler _ 0 5 (by decide)).trans type,
    (gate_attr handler _ 5 2 (by decide)).trans dpl,
    (gate_attr handler _ 7 1 (by decide)).trans present⟩

theorem vectorAt_le {n : Nat} {v : Vector} (found : vectorAt n = some v) : n ≤ 128 := by
  by_contra large
  unfold vectorAt at found
  rw [dif_neg (by omega), if_neg (by omega), if_neg (by omega), if_neg (by omega)] at found
  cases found

/-- Only the system call's gate lets an `int` of ring 3 through. Everything else it can
name ends in a general protection fault, and what the hardware raises ends in its stub. -/
theorem interrupt_delivery (stub : Vector → Word) (tss : Word) (cpl : Fin 4) (software : Bool)
    (n : Nat) :
    takeInterrupt (idtInit stub) idtLimit (pack (gdtInit tss)) gdtLimit cpl software n =
      match vectorAt n with
      | some v =>
        if software = true ∧ v ≠ .syscall ∧ 0 < cpl.val then .fault 13 (8 * n + 2)
        else .enters gdtKernelCode (stub v).toNat true
      | none => .fault 13 (8 * n + 2 + if software then 0 else 1) := by
  have code := descriptorAt_segment tss 1 (by decide) (by decide)
  unfold takeInterrupt
  rw [idtInit_eq]
  cases found : vectorAt n with
  | none =>
    have empty : idtLimit < 16 * n + 15 ∨
        (bits 0 40 5 ≠ 0xE ∧ bits 0 40 5 ≠ 0xF) := Or.inr (by decide)
    exact if_pos empty
  | some v =>
    have small := vectorAt_le found
    obtain ⟨type, dpl, present⟩ := gate_level (stub v) v
    have known : ¬ (idtLimit < 16 * n + 15 ∨ ((0xE : Nat) ≠ 0xE ∧ (0xE : Nat) ≠ 0xF)) := by
      unfold idtLimit
      omega
    have index : gdtKernelCode / 8 = 1 := rfl
    dsimp only [Option.map_some, Option.getD_some]
    rw [type, dpl, present, gate_selector, gate_offset, index, code, if_neg known]
    have level := cpl.isLt
    by_cases refused : software = true ∧ v ≠ .syscall ∧ 0 < cpl.val
    · rw [if_pos refused, if_neg refused.2.1, if_pos ⟨refused.1, refused.2.2⟩, if_pos refused.1]
    · rw [if_neg refused, if_neg]
      · simp [gdtDescriptor, gdtKernelCode]
      · rintro ⟨soft, below⟩
        by_cases call : v = .syscall
        · rw [if_pos call] at below
          omega
        · rw [if_neg call] at below
          exact refused ⟨soft, call, below⟩

end MiniKernel.Arch
