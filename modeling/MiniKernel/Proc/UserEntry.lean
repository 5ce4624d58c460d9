import MiniKernel.Elf.LoaderTables
import MiniKernel.Memory.GuardedStacks
import MiniKernel.Memory.StackFaults

/-!
# From the spawn request to user mode

Source: kernel/core/process.c:107-219, kernel/arch/x86_64/usermode.asm. A new
thread takes the request it was given, makes its address space, loads the image
and puts the arguments at the end of its stack. The contents of the frames are
kept beside the tables, as the loader keeps them.
-/
namespace MiniKernel.Proc
open Lib (Buffer)
open Memory (isUsed)
open Memory.Paging
open Elf (Image Loader elfLoad PagesKeep elfLoad_keeps)

def userPml4SlotBase : Word := 0x0000008000000000
def userProcessSlotSize : Word := 16 * 1024 * 1024
def userImageLinkBase : Word := 0x0000000000400000
def userArgvReserved : Word := 128

/-- `elf_spawn_request_t`; who frees the image is left out. -/
structure ElfSpawnRequest where
  image : Image
  argv : Buffer
  argvLen : Word

/-- `user_process_layout`: the base of the image and the end of the stack. -/
def userProcessLayout (tid : BitVec 32) : Option (Word × Word) :=
  if tid.toInt < 0 then none
  else
    let slot := tid.signExtend 64 * userProcessSlotSize
    if slot / userProcessSlotSize ≠ tid.signExtend 64 ∨
        slot > (1 <<< 39) - userProcessSlotSize then none
    else
      let imageBase := userPml4SlotBase + slot
      some (imageBase, imageBase + userProcessSlotSize)

/-- What `setup_user_stack` stores through its last three pointers. -/
structure UserStack where
  stackTop : Word
  argvUaddr : Word
  argvLen : Word

/-- `for (i = 0; i < n; i++) kview[i] = argv_str[i]`. -/
def storeArgv (frame offset : Word) (argvStr : Buffer) : Nat → Loader → Loader
  | 0, s => s
  | n + 1, s =>
    (storeArgv frame offset argvStr n s).store frame (offset + BitVec.ofNat 64 n) (argvStr n)

/-- `setup_user_stack` from the zeroed frame on. -/
def setupUserStackIn (space stackCeiling frame : Word) (argvStr : Buffer) (argvLen : Word)
    (s : Loader) : Option UserStack × Loader :=
  let firstPage := (stackCeiling - 4096) &&& ~~~(4096 - 1)
  let (mapped, vmm) := s.vmm.vmmMapPageIn space firstPage frame (vmmWritable ||| vmmUser)
  let s := { s with vmm := vmm }
  if ¬ mapped then (none, { s with vmm := s.vmm.freeFrame frame })
  else
    let argvLen := if argvLen > userArgvReserved then userArgvReserved else argvLen
    let argvPageOffset := 4096 - userArgvReserved
    (some
      { stackTop := stackCeiling - userArgvReserved
        argvUaddr := firstPage + argvPageOffset
        argvLen := argvLen },
      storeArgv frame argvPageOffset argvStr argvLen.toNat s)

/-- `setup_user_stack`; `none` for -1. The list of growable stacks is left out. -/
def setupUserStack (space stackCeiling : Word) (argvStr : Buffer) (argvLen : Word) (s : Loader) :
    Option UserStack × Loader :=
  let (frame, vmm) := s.vmm.allocZeroedFrame
  let s := { s with vmm := vmm }
  if frame = 0 then (none, s)
  else setupUserStackIn space stackCeiling frame argvStr argvLen (s.zeroBytes frame 4096)

/-- A program's first instruction: its address space and registers. -/
structure UserEntry where
  space : Word
  rip : Word
  rsp : Word
  rdi : Word
  rsi : Word

/-- `enter_usermode`, in the space that CR3 holds. -/
def enterUsermode (space entry userStackTop arg0 arg1 : Word) : UserEntry where
  space := space
  rip := entry
  rsp := userStackTop
  rdi := arg0
  rsi := arg1

/-- `elf_process_trampoline` on thread `tid`, up to `enter_usermode` or the exit
with -1. `unset` is what the array `argv` holds before. -/
def elfProcessTrampoline (tid : BitVec 32) (request : Option ElfSpawnRequest) (unset : Buffer)
    (bytes : Word → Nat → UInt8) (s : MemState) :
    Option (Option UserEntry × Loader × List Word) :=
  let l : Loader := { vmm := s.vmm, bytes := bytes, reads := [], writes := [] }
  match request with
  | none => some (none, l, s.spaces)
  | some request =>
    let argv : Buffer := fun i => if i < request.argvLen.toNat then request.argv i else unset i
    let (space, vmm) := l.vmm.vmmCreateAddressSpace
    let l := { l with vmm := vmm }
    if space = 0 then some (none, l, s.spaces)
    else
      match userProcessLayout tid with
      | none => some (none, l, space :: s.spaces)
      | some (imageBase, stackCeiling) =>
        match elfLoad space request.image (imageBase - userImageLinkBase) l with
        | none => none
        | some (none, l) => some (none, l, space :: s.spaces)
        | some (some entry, l) =>
          match setupUserStack space stackCeiling argv request.argvLen l with
          | (none, l) => some (none, l, space :: s.spaces)
          | (some stack, l) =>
            some (some (enterUsermode space entry stack.stackTop stack.argvUaddr stack.argvLen), l,
              space :: s.spaces)

/-- The kernel's work on memory, the start of processes included. -/
inductive ProcCall where
  | memory (call : MemCall)
  | start (tid : BitVec 32) (request : Option ElfSpawnRequest) (unset : Buffer)
      (bytes : Word → Nat → UInt8)

def procStep (s : MemState) : ProcCall → Option MemState
  | .memory call => memStep s call
  | .start tid request unset bytes =>
    (elfProcessTrampoline tid request unset bytes s).map fun r =>
      { s with vmm := r.2.1.vmm, spaces := r.2.2 }

/-- The byte a user of the space reads at an address. -/
def userByte (l : Loader) (space a : Word) : Option UInt8 :=
  if Canonical a then
    (translate l.vmm.mem space a).bind fun t =>
      if t.user then some (l.bytes t.frame (a.toNat % 4096)) else none
  else none

/-- A process is entered with `args`: its first two arguments are a pointer into
the last page of its stack, not below the stack pointer, and their length. -/
structure EntersWith (tid : BitVec 32) (args : List UInt8) (l : Loader) (e : UserEntry) : Prop where
  above : e.rsp.toNat ≤ e.rdi.toNat
  page : ∃ imageBase stackCeiling, userProcessLayout tid = some (imageBase, stackCeiling) ∧
    stackCeiling.toNat - 4096 ≤ e.rdi.toNat ∧ e.rdi.toNat + e.rsi.toNat ≤ stackCeiling.toNat
  length : e.rsi.toNat = args.length
  bytes : ∀ k < args.length, userByte l e.space (e.rdi + BitVec.ofNat 64 k) = some (args.getD k 0)

/-! ## The stack and what is put on it -/

/-- The stack ends on a page boundary in PML4 slot 1. -/
theorem userProcessLayout_bounds {tid : BitVec 32} {imageBase stackCeiling : Word}
    (found : userProcessLayout tid = some (imageBase, stackCeiling)) :
    2 ^ 39 + 4096 ≤ stackCeiling.toNat ∧ stackCeiling.toNat ≤ 2 ^ 40 ∧
      stackCeiling.toNat % 4096 = 0 := by
  unfold userProcessLayout at found
  split at found
  · cases found
  simp only at found
  split at found
  · cases found
  next fits =>
  cases found
  simp only [not_or, gt_iff_lt, BitVec.not_lt] at fits
  have high := BitVec.le_def.mp fits.2
  have limit : ((1 <<< 39) - userProcessSlotSize : Word).toNat = 2 ^ 39 - 2 ^ 24 := by decide
  rw [limit] at high
  have size : userProcessSlotSize.toNat = 2 ^ 24 := by decide
  have base : userPml4SlotBase.toNat = 2 ^ 39 := by decide
  have slot : (tid.signExtend 64 * userProcessSlotSize).toNat % 4096 = 0 := by
    rw [BitVec.toNat_mul, size]
    omega
  generalize tid.signExtend 64 * userProcessSlotSize = offset at high slot
  rw [BitVec.toNat_add, BitVec.toNat_add, size, base]
  omega

@[simp] theorem storeArgv_vmm (frame offset : Word) (argvStr : Buffer) (n : Nat) (s : Loader) :
    (storeArgv frame offset argvStr n s).vmm = s.vmm := by
  induction n with
  | zero => rfl
  | succ n ih => exact ih

theorem storeArgv_bytes (frame offset : Word) (argvStr : Buffer) {n : Nat}
    (room : offset.toNat + n ≤ 4096) (s : Loader) {k : Nat} (hk : k < n) :
    (storeArgv frame offset argvStr n s).bytes frame (offset.toNat + k) = argvStr k := by
  induction n with
  | zero => cases hk
  | succ n ih =>
    have last : (offset + BitVec.ofNat 64 n).toNat = offset.toNat + n := by
      rw [BitVec.toNat_add, BitVec.toNat_ofNat]
      omega
    simp only [storeArgv, Loader.store, if_true, last]
    by_cases own : k = n
    · rw [own, Function.update_self]
    · rw [Function.update_of_ne (by omega)]
      exact ih (by omega) (by omega)

theorem userArgvReserved_toNat : userArgvReserved.toNat = 128 := rfl

theorem firstPage_eq {stackCeiling : Word} (low : 4096 ≤ stackCeiling.toNat)
    (whole : stackCeiling.toNat % 4096 = 0) :
    (stackCeiling - 4096) &&& ~~~(4096 - 1) = stackCeiling - 4096 := by
  have rounded := Elf.toNat_pageMask (stackCeiling - 4096)
  have below : (stackCeiling - 4096).toNat = stackCeiling.toNat - 4096 :=
    BitVec.toNat_sub_of_le (BitVec.le_def.mpr low)
  apply BitVec.eq_of_toNat_eq
  rw [below] at rounded ⊢
  exact rounded.trans (by omega)

/-- The frame is mapped at the end of the stack, and has the arguments in its
last 128 bytes. -/
theorem setupUserStackIn_some {space stackCeiling frame argvLen : Word} {argvStr : Buffer}
    {s t : Loader} {stack : UserStack} (low : 4096 ≤ stackCeiling.toNat)
    (whole : stackCeiling.toNat % 4096 = 0) (few : argvLen.toNat ≤ 128)
    (done : setupUserStackIn space stackCeiling frame argvStr argvLen s = (some stack, t)) :
    s.vmm.vmmMapPageIn space (stackCeiling - 4096) frame (vmmWritable ||| vmmUser) =
        (true, t.vmm) ∧
      (∀ k < argvLen.toNat, t.bytes frame (3968 + k) = argvStr k) ∧
      stack = ⟨stackCeiling - 128, stackCeiling - 128, argvLen⟩ := by
  have page := firstPage_eq low whole
  have kept : ¬ argvLen > userArgvReserved := by
    rw [gt_iff_lt, BitVec.lt_def, userArgvReserved_toNat]
    omega
  have offset : (4096 - userArgvReserved : Word) = 3968 := by decide
  have end_ : stackCeiling - 4096 + 3968 = stackCeiling - 128 := by bv_omega
  unfold setupUserStackIn at done
  rcases mapped : s.vmm.vmmMapPageIn space (stackCeiling - 4096) frame (vmmWritable ||| vmmUser) with
    ⟨ok, st⟩
  simp only [page, mapped, if_neg kept, offset, end_] at done
  split at done
  · cases done
  next good =>
  obtain rfl : ok = true := by simpa using good
  obtain ⟨made, rfl⟩ := Prod.mk.inj done
  cases Option.some.inj made
  refine ⟨?_, fun k hk => ?_, rfl⟩
  · rw [storeArgv_vmm]
  · have start : (3968 : Word).toNat = 3968 := rfl
    have stored := storeArgv_bytes frame 3968 argvStr (n := argvLen.toNat) (by rw [start]; omega)
      { s with vmm := st } hk
    rwa [start] at stored

/-- To the tables, a stack is one new page. -/
theorem setupUserStack_vmm (space : Word) {stackCeiling : Word} (argvStr : Buffer)
    (argvLen : Word) (s : Loader) (low : 4096 ≤ stackCeiling.toNat) (whole : stackCeiling.toNat % 4096 = 0) :
    (setupUserStack space stackCeiling argvStr argvLen s).2.vmm =
      (s.vmm.mapNewPage space (stackCeiling - 4096) (vmmWritable ||| vmmUser)).2 := by
  have page := firstPage_eq low whole
  unfold setupUserStack Vmm.mapNewPage
  rcases s.vmm.allocZeroedFrame with ⟨frame, st⟩
  simp only
  split
  · rfl
  have cleared : (Loader.zeroBytes frame 4096 { s with vmm := st }).vmm = st :=
    Elf.zeroBytes_vmm ..
  generalize Loader.zeroBytes frame 4096 { s with vmm := st } = z at cleared ⊢
  unfold setupUserStackIn
  simp only [cleared, page]
  rcases st.vmmMapPageIn space (stackCeiling - 4096) frame (vmmWritable ||| vmmUser) with
    ⟨_ | _, st'⟩
  · rfl
  · exact storeArgv_vmm ..

/-! ## Tables in which a process can be set up -/

/-- What is known of a space before its image is loaded: `I` is kept from page to
page, and a page of a user's is where it was put. -/
structure SpaceSound (I : Vmm → Prop) (space : Word) : Prop where
  pages : PagesKeep I space
  stack : ∀ {st st₁ st₂ : Vmm} {frame page : Word}, I st → slot0 (levelIndex 39 page) = false →
    st.allocZeroedFrame = (frame, st₁) → frame ≠ 0 →
    st₁.vmmMapPageIn space page frame (vmmWritable ||| vmmUser) = (true, st₂) →
    ∃ w, translate st₂.mem space page = some ⟨frame, w, true⟩

section
variable {boot : Memory.Pmm} {roots : List Word} {guarded : Nat → Option GuardedStack}
  {st st' : Vmm} {space r c : Word}

theorem allocFrame_handed (zero : isUsed st.pmm 0 = true) (alloc : st.allocFrame = (c, st'))
    (nonzero : c ≠ 0) : Handed st st' c := by
  rcases Vmm.allocFrame_spec zero with ⟨failed, -⟩ | ⟨frame, st₁, taken, spec⟩
  · rw [failed] at alloc
    cases alloc
    exact absurd rfl nonzero
  · rw [taken] at alloc
    cases alloc
    exact spec.handed

theorem allocFrame_refused (zero : isUsed st.pmm 0 = true) (alloc : st.allocFrame = (0, st')) :
    st' = st := by
  rcases Vmm.allocFrame_spec zero with ⟨failed, -⟩ | ⟨frame, st₁, taken, spec⟩
  · rw [failed] at alloc
    cases alloc
    rfl
  · rw [taken] at alloc
    cases alloc
    exact absurd rfl spec.nonzero

theorem allocZeroedFrame_handed (zero : isUsed st.pmm 0 = true)
    (alloc : st.allocZeroedFrame = (c, st')) (nonzero : c ≠ 0) : Handed st st' c := by
  rcases Vmm.allocZeroedFrame_spec zero with ⟨failed, -⟩ | ⟨frame, st₁, taken, handed, -⟩
  · rw [failed] at alloc
    cases alloc
    exact absurd rfl nonzero
  · rw [taken] at alloc
    cases alloc
    exact handed

theorem created_handed (zero : isUsed st.pmm 0 = true)
    (created : st.vmmCreateAddressSpace = (c, st')) (nonzero : c ≠ 0) :
    Handed st st' c ∧ ∀ j < entriesPerTable, st'.mem c j = st.mem st.kernelPml4 j := by
  rcases vmmCreateAddressSpace_spec zero with ⟨failed, -⟩ | ⟨frame, st₁, made, handed, copied⟩
  · rw [failed] at created
    cases created
    exact absurd rfl nonzero
  · rw [made] at created
    cases created
    exact ⟨handed, copied⟩

theorem user_stackFlags : user (vmmWritable ||| vmmUser) = true := by decide

/-- A space whose own tables are well formed. -/
theorem Built.sound (space : Word) :
    SpaceSound (fun st => Built space st ∧ isUsed st.pmm 0 = true) space := by
  refine ⟨⟨?_, ?_⟩, ?_⟩
  · intro st st' inv alloc
    rw [allocFrame_refused inv.2 alloc]
    exact inv
  · intro st st' frame inv alloc nonzero va flags _
    have handed := allocFrame_handed inv.2 alloc nonzero
    have built := (inv.1.handed handed).1
    have kept := (built.wf.mapped_alone va frame flags).1
    refine ⟨⟨kept.wf, kept.upper built.upper⟩, ?_⟩
    exact Elf.vmmMapPageIn_grows space va frame flags st' _ (handed.grows _ inv.2)
  · intro st st₁ st₂ frame page inv _ alloc nonzero mapped
    have handed := allocZeroedFrame_handed inv.2 alloc nonzero
    have leaf := ((inv.1.handed handed).1.wf.mapped_alone page frame (vmmWritable ||| vmmUser)).2
    rw [mapped] at leaf
    obtain ⟨-, w, found⟩ := leaf
    have aligned : target frame = frame := handed.aligned
    rw [aligned, user_stackFlags] at found
    exact ⟨w, found⟩

/-- One of the spaces whose frames are accounted for, wherever its image goes. -/
theorem Held.sound (own : r ∈ roots) : SpaceSound (Held boot roots guarded) r := by
  refine ⟨⟨?_, ?_⟩, ?_⟩
  · intro st st' held alloc
    rw [allocFrame_refused held.spaces.zero alloc]
    exact held
  · intro st st' frame held alloc nonzero va flags allowed
    have handed := allocFrame_handed held.spaces.zero alloc nonzero
    obtain ⟨held', fresh⟩ := held.handed handed
    cases slot : slot0 (levelIndex 39 va) with
    | true => exact held'.tuned (held'.remap (Or.inr own) slot frame flags)
    | false =>
      rcases vmmMapPageIn_spec held'.spaces own slot allowed fresh.aligned fresh.used
        fresh.unlinked with ⟨st₂, mapped, done⟩ | ⟨st₂, failed, grown, -, -⟩
      · rw [mapped]
        exact held.mapped own handed done
      · rw [failed]
        exact held'.grown own grown
  · intro st st₁ st₂ frame page held slot alloc nonzero mapped
    rcases held.page own slot user_stackFlags with failed | ⟨c, st', alloc', -, -, page_⟩
    · rw [failed] at alloc
      cases alloc
      exact absurd rfl nonzero
    · rw [alloc'] at alloc
      cases alloc
      rcases page_ with ⟨st₃, mapped', done⟩ | ⟨st₃, failed, -⟩
      · rw [mapped'] at mapped
        cases mapped
        exact done.here
      · rw [failed] at mapped
        cases mapped

/-! ## One process -/

/-- The request was filled with `args`. -/
structure Carries (request : ElfSpawnRequest) (args : List UInt8) : Prop where
  few : args.length ≤ 128
  length : request.argvLen.toNat = args.length
  bytes : ∀ k < args.length, request.argv k = args.getD k 0

theorem translate_page {mem : Tables} {cr3 a b : Word} (same : pathOf a = pathOf b) :
    translate mem cr3 a = translate mem cr3 b := by
  simp only [pathOf, List.cons.injEq, and_true] at same
  obtain ⟨l1, l2, l3, l4⟩ := same
  simp only [Memory.Paging.translate, l1, l2, l3, l4]

/-- The 128 bytes at the end of a stack whose last page is mapped to `frame`. -/
theorem userByte_stack {l : Loader} {stackCeiling frame : Word} {w : Bool}
    (low : 2 ^ 39 + 4096 ≤ stackCeiling.toNat) (high : stackCeiling.toNat ≤ 2 ^ 40)
    (whole : stackCeiling.toNat % 4096 = 0)
    (mapped : translate l.vmm.mem space (stackCeiling - 4096) = some ⟨frame, w, true⟩)
    {k : Nat} (hk : k < 128) :
    userByte l space (stackCeiling - 128 + BitVec.ofNat 64 k) = some (l.bytes frame (3968 + k)) := by
  have page : (stackCeiling - 4096).toNat = stackCeiling.toNat - 4096 :=
    BitVec.toNat_sub_of_le (BitVec.le_def.mpr (show 4096 ≤ _ by omega))
  have first : (stackCeiling - 128).toNat = stackCeiling.toNat - 128 :=
    BitVec.toNat_sub_of_le (BitVec.le_def.mpr (show 128 ≤ _ by omega))
  have address : (stackCeiling - 128 + BitVec.ofNat 64 k).toNat = stackCeiling.toNat - 128 + k := by
    rw [BitVec.toNat_add, BitVec.toNat_ofNat, first]
    omega
  have canonical : Canonical (stackCeiling - 128 + BitVec.ofNat 64 k) := Or.inl (by omega)
  have same : pathOf (stackCeiling - 128 + BitVec.ofNat 64 k) = pathOf (stackCeiling - 4096) := by
    rw [pathOf_eq_iff, address, page]
    omega
  have offset : (stackCeiling - 128 + BitVec.ofNat 64 k).toNat % 4096 = 3968 + k := by omega
  rw [userByte, if_pos canonical, translate_page same, mapped, Option.bind_some, if_pos rfl, offset]

theorem slot0_stack {stackCeiling : Word} (low : 2 ^ 39 + 4096 ≤ stackCeiling.toNat)
    (high : stackCeiling.toNat ≤ 2 ^ 40) :
    slot0 (levelIndex 39 (stackCeiling - 4096)) = false := by
  have page : (stackCeiling - 4096).toNat = stackCeiling.toNat - 4096 :=
    BitVec.toNat_sub_of_le (BitVec.le_def.mpr (show 4096 ≤ _ by omega))
  have one : levelIndex 39 (stackCeiling - 4096) = 1 := by
    unfold levelIndex
    omega
  rw [one]
  rfl

/-- A stack that was set up has the arguments where the program looks for them. -/
theorem setupUserStack_enters {I : Vmm → Prop} {tid : BitVec 32} {imageBase stackCeiling : Word}
    {argvStr : Buffer} {argvLen entry : Word} {args : List UInt8} {l t : Loader} {stack : UserStack}
    (sound : SpaceSound I space) (inv : I l.vmm)
    (layout : userProcessLayout tid = some (imageBase, stackCeiling))
    (few : args.length ≤ 128) (length : argvLen.toNat = args.length)
    (holds : ∀ k < args.length, argvStr k = args.getD k 0)
    (done : setupUserStack space stackCeiling argvStr argvLen l = (some stack, t)) :
    EntersWith tid args t
      (enterUsermode space entry stack.stackTop stack.argvUaddr stack.argvLen) := by
  obtain ⟨low, high, whole⟩ := userProcessLayout_bounds layout
  unfold setupUserStack at done
  rcases alloc : l.vmm.allocZeroedFrame with ⟨frame, st⟩
  simp only [alloc] at done
  split at done
  · cases done
  next nonzero =>
  obtain ⟨mapped, copied, rfl⟩ := setupUserStackIn_some (by omega) whole (by omega) done
  rw [Elf.zeroBytes_vmm] at mapped
  obtain ⟨w, here⟩ := sound.stack inv (slot0_stack low high) alloc nonzero mapped
  have first : (stackCeiling - 128).toNat = stackCeiling.toNat - 128 :=
    BitVec.toNat_sub_of_le (BitVec.le_def.mpr (show 128 ≤ _ by omega))
  constructor
  case above => exact Nat.le_refl _
  case page =>
    refine ⟨imageBase, stackCeiling, layout, ?_, ?_⟩
    · change stackCeiling.toNat - 4096 ≤ (stackCeiling - 128).toNat
      omega
    · change (stackCeiling - 128).toNat + argvLen.toNat ≤ stackCeiling.toNat
      omega
  case length => exact length
  case bytes =>
    intro k hk
    refine (userByte_stack low high whole here (by omega)).trans ?_
    rw [copied k (by omega), holds k hk]

/-- Whatever image and thread it is, a thread that is handed its arguments and
gets to user mode has them there. -/
theorem trampoline_enters {tid : BitVec 32} {request : ElfSpawnRequest} {unset : Buffer}
    {bytes : Word → Nat → UInt8} {s : MemState} {args : List UInt8} (carries : Carries request args)
    (sound : ∀ space vmm, s.vmm.vmmCreateAddressSpace = (space, vmm) → space ≠ 0 →
      ∃ I : Vmm → Prop, I vmm ∧ SpaceSound I space) :
    ∃ entered l spaces,
      elfProcessTrampoline tid (some request) unset bytes s = some (entered, l, spaces) ∧
        ∀ e ∈ entered, EntersWith tid args l e := by
  unfold elfProcessTrampoline
  rcases created : s.vmm.vmmCreateAddressSpace with ⟨space, vmm⟩
  simp only [created]
  split
  · exact ⟨none, _, _, rfl, fun e none_ => by cases none_⟩
  next nonzero =>
  obtain ⟨I, inv, spaceSound⟩ := sound space vmm created nonzero
  cases layout : userProcessLayout tid with
  | none => exact ⟨none, _, _, rfl, fun e none_ => by cases none_⟩
  | some found =>
    obtain ⟨imageBase, stackCeiling⟩ := found
    obtain ⟨result, l, loaded⟩ := Elf.elfLoad_answers space request.image
      (imageBase - userImageLinkBase) { vmm := vmm, bytes := bytes, reads := [], writes := [] }
    have kept := elfLoad_keeps spaceSound.pages inv loaded
    simp only [loaded]
    cases result with
    | none => exact ⟨none, _, _, rfl, fun e none_ => by cases none_⟩
    | some entry =>
      simp only
      rcases done : setupUserStack space stackCeiling
        (fun i => if i < request.argvLen.toNat then request.argv i else unset i)
        request.argvLen l with ⟨_ | stack, t⟩
      · exact ⟨none, _, _, rfl, fun e none_ => by cases none_⟩
      refine ⟨_, t, _, rfl, fun e entered => ?_⟩
      cases Option.some.inj entered
      refine setupUserStack_enters spaceSound kept layout carries.few carries.length ?_ done
      intro k hk
      rw [if_pos (carries.length.symm ▸ hk), carries.bytes k hk]

/-! ## All runs -/

/-- A start keeps account of the frames. -/
theorem trampoline_held {tid : BitVec 32} {request : Option ElfSpawnRequest} {unset : Buffer}
    {bytes : Word → Nat → UInt8} {s : MemState} {entered : Option UserEntry} {l : Loader}
    {spaces : List Word} (held : Held boot s.spaces s.guarded s.vmm)
    (ran : elfProcessTrampoline tid request unset bytes s = some (entered, l, spaces)) :
    Held boot spaces s.guarded l.vmm := by
  unfold elfProcessTrampoline at ran
  cases request with
  | none =>
    cases ran
    exact held
  | some request =>
    rcases vmmCreateAddressSpace_spec held.spaces.zero with
      ⟨failed, -⟩ | ⟨space, vmm, created, handed, copied⟩
    · simp only [failed, if_true] at ran
      cases ran
      exact held
    · have own := held.create handed copied
      simp only [created, if_neg handed.nonzero] at ran
      cases layout : userProcessLayout tid with
      | none =>
        simp only [layout] at ran
        cases ran
        exact own
      | some found =>
        obtain ⟨imageBase, stackCeiling⟩ := found
        simp only [layout] at ran
        rcases loaded : elfLoad space request.image (imageBase - userImageLinkBase)
          { vmm := vmm, bytes := bytes, reads := [], writes := [] } with _ | ⟨result, l'⟩
        all_goals simp only [loaded] at ran
        · cases ran
        have kept := elfLoad_keeps (Held.sound List.mem_cons_self).pages own loaded
        cases result with
        | none =>
          cases ran
          exact kept
        | some entry =>
          obtain ⟨low, high, whole⟩ := userProcessLayout_bounds layout
          have stack := setupUserStack_vmm space (fun i =>
            if i < request.argvLen.toNat then request.argv i else unset i)
            request.argvLen l' (by omega) whole
          have mapped := kept.mapNewPage List.mem_cons_self (slot0_stack low high) user_stackFlags
          rw [← stack] at mapped
          simp only at ran
          split at ran
          all_goals
            next done =>
            cases ran
            rw [done] at mapped
            exact mapped

theorem trampoline_exhausted {tid : BitVec 32} {request : Option ElfSpawnRequest} {unset : Buffer}
    {bytes : Word → Nat → UInt8} {s : MemState} {entered : Option UserEntry} {l : Loader}
    {spaces : List Word} (exhausted : Exhausted s)
    (ran : elfProcessTrampoline tid request unset bytes s = some (entered, l, spaces)) :
    l.vmm = s.vmm ∧ spaces = s.spaces := by
  unfold elfProcessTrampoline at ran
  cases request with
  | none =>
    cases ran
    exact ⟨rfl, rfl⟩
  | some request =>
    rcases vmmCreateAddressSpace_spec (exhausted.used 0) with
      ⟨failed, -⟩ | ⟨space, vmm, -, handed, -⟩
    · simp only [failed, if_true] at ran
      cases ran
      exact ⟨rfl, rfl⟩
    · exact absurd handed exhausted.not_handed

theorem Accounted.procStep {boot : Vmm} {s t : MemState} {call : ProcCall}
    (inv : Accounted boot s) (stepped : procStep s call = some t) : Accounted boot t := by
  cases call with
  | memory call => exact inv.step stepped
  | start tid request unset bytes =>
    obtain ⟨⟨entered, l, spaces⟩, ran, rfl⟩ := Option.map_eq_some_iff.mp stepped
    rcases inv with held | ⟨exhausted, used⟩
    · have after := trampoline_held held ran
      exact Or.inl after
    · obtain ⟨vmm, same⟩ := trampoline_exhausted exhausted ran
      refine Or.inr ⟨⟨fun f => ?_, exhausted.guarded, same.trans exhausted.spaces⟩, used⟩
      change isUsed l.vmm.pmm f = true
      rw [vmm, exhausted.used f]

/-- Where a process can be set up: the kernel's own tables are well formed, or
the machine, with its memory below 512 GiB, has come here since it booted. -/
inductive Sound (s : MemState) : Prop where
  | tables (built : Built s.vmm.kernelPml4 s.vmm) (aligned : Aligned s.vmm.kernelPml4)
      (zero : isUsed s.vmm.pmm 0 = true)
  | reached {mem : Tables} {map : List Memory.E820Entry} {kernelEnd : Nat} {boot : Vmm}
      {calls : List ProcCall} (below : Below512Gb map)
      (booted : bootVmm mem map kernelEnd = some boot)
      (run : Lib.Machine.run procStep (MemState.start boot) calls = some s)

theorem Sound.booted {mem : Tables} {map : List Memory.E820Entry} {kernelEnd : Nat} {boot : Vmm}
    (below : Below512Gb map) (booted : bootVmm mem map kernelEnd = some boot) :
    Sound (MemState.start boot) :=
  Sound.reached below booted (show Lib.Machine.run procStep (MemState.start boot) [] = _ from rfl)

/-- A space made in such a state will do. -/
theorem Sound.create {s : MemState} (sound : Sound s) {vmm : Vmm}
    (created : s.vmm.vmmCreateAddressSpace = (space, vmm)) (nonzero : space ≠ 0) :
    ∃ I : Vmm → Prop, I vmm ∧ SpaceSound I space := by
  cases sound with
  | tables built aligned zero =>
    obtain ⟨handed, copied⟩ := created_handed zero created nonzero
    have root : target s.vmm.kernelPml4 = s.vmm.kernelPml4 := aligned
    have own := built.create handed (by rwa [root])
    exact ⟨_, ⟨own, handed.grows _ zero⟩, Built.sound space⟩
  | reached below booted run =>
    have inv : Accounted _ s := Lib.Machine.run_invariant
      (fun _ _ _ inv _ stepped => Accounted.procStep inv stepped)
      (Accounted.start (bootVmm_ready_of below booted)) (Lib.Machine.meets_always _ _) run
    rcases inv with held | ⟨exhausted, -⟩
    · obtain ⟨handed, copied⟩ := created_handed held.spaces.zero created nonzero
      exact ⟨_, held.create handed copied, Held.sound List.mem_cons_self⟩
    · have handed := (created_handed (exhausted.used 0) created nonzero).1
      exact absurd handed exhausted.not_handed

end

end MiniKernel.Proc
