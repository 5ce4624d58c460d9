import MiniKernel.Storage.FileFrame
import MiniKernel.Sched.Thread

/-!
# System calls on the persistent filesystem

Source: kernel/core/fd.c, kernel/core/syscall.c:80-200 and 273-298,
kernel/sched/thread.c:407-456. Calls run one at a time, with interrupts off.
Consoles, pipes and memory files are answered by the rest of the kernel: what
they answer is a parameter of the call, and they touch nothing that is modelled
here but the descriptor.
-/
namespace MiniKernel.Storage
open Drivers
open Lib (Buffer)
open Sched (FdKind FdSlot threadMaxFds resetFdSlot consoleFdSlot)

def fdCreate : BitVec 64 := 1
def fdPersist : BitVec 64 := 2
def fdTrunc : BitVec 64 := 4

def sysIoMaxLen : Nat := 4096
def sysOpenNameMax : Nat := 32

/-- `fds` and `uid` are the fields of the thread slots. -/
structure Files where
  ufs : Ufs
  fds : Nat → Fin threadMaxFds → FdSlot
  uid : Nat → BitVec 32

def Files.setFd (s : Files) (tid : Nat) (i : Fin threadMaxFds) (slot : FdSlot) : Files :=
  { s with fds := Function.update s.fds tid (Function.update (s.fds tid) i slot) }

theorem toNat_lt_threadMaxFds {fd : Int} (h : 0 ≤ fd ∧ fd < threadMaxFds) :
    fd.toNat < threadMaxFds := by omega

/-- `fd < 0 || fd >= THREAD_MAX_FDS`. -/
def fdIndex (fd : Int) : Option (Fin threadMaxFds) :=
  if h : 0 ≤ fd ∧ fd < threadMaxFds then some ⟨fd.toNat, toNat_lt_threadMaxFds h⟩ else none

/-- `sched_fd_open`; descriptors 0 and 1 are not handed out. -/
def schedFdOpen (tid : Nat) (kind : FdKind) (handle : Int) (s : Files) : Int × Files :=
  match (List.finRange threadMaxFds).find? fun i => 2 ≤ i.val ∧ (s.fds tid i).kind = .unused with
  | some i => (i.val, s.setFd tid i { kind := kind, handle := handle, cursor := 0 })
  | none => (-1, s)

/-- `sched_fd_get`: the number of a descriptor in use. -/
def schedFdGet (tid : Nat) (fd : Int) (s : Files) : Option (Fin threadMaxFds) :=
  (fdIndex fd).filter fun i => (s.fds tid i).kind ≠ .unused

/-- The name a handler copies from user memory, at most 31 bytes of it. -/
def copiedName (src : Buffer) : CString where
  bytes := ((List.range (sysOpenNameMax - 1)).map src).takeWhile (· ≠ 0)
  nonzero := fun b hb => of_decide_eq_true (List.all_eq_true.mp List.all_takeWhile b hb)

/-- `me == ufs_owner(handle)`. -/
def isOwner (tid : Nat) (handle : Int) (s : Files) : Bool :=
  (s.uid tid).toNat = ufsOwner s.ufs handle

/-- Access to a file by its owner, or by others under a permission bit. -/
def permitted (tid : Nat) (handle : Int) (bit : UInt8) (s : Files) : Bool :=
  isOwner tid handle s || (ufsPerm s.ufs handle &&& bit) ≠ 0

/-- `fd_open`; `memfs` is what `memfs_find` or `memfs_create` answers. -/
def fdOpen (tid : Nat) (name : CString) (flags : BitVec 64) (memfs : Option Nat) (s : Files) :
    Int × Files :=
  if flags &&& fdPersist ≠ 0 then
    match ufsFind s.ufs name with
    | none =>
      if flags &&& fdCreate = 0 then (-1, s)
      else
        let created := ufsCreate name (s.uid tid).toNat s.ufs
        let s := { s with ufs := created.2 }
        match created.1 with
        | none => (-1, s)
        | some handle => schedFdOpen tid .ufs handle s
    | some handle =>
      if ¬ permitted tid handle ufsPermOtherRead s then (-1, s)
      else if flags &&& fdTrunc ≠ 0 then
        if ¬ permitted tid handle ufsPermOtherWrite s then (-1, s)
        else schedFdOpen tid .ufs handle { s with ufs := (ufsTruncate handle 0 s.ufs).2 }
      else schedFdOpen tid .ufs handle s
  else
    match memfs with
    | none => (-1, s)
    | some handle => schedFdOpen tid .memfs handle s

/-- `fd_close`. -/
def fdClose (tid : Nat) (fd : Int) (s : Files) : Int × Files :=
  match schedFdGet tid fd s with
  | none => (-1, s)
  | some i => (0, s.setFd tid i resetFdSlot)

/-- `slot->cursor += (unsigned int)n`, if `n` is positive. -/
def advance (tid : Nat) (i : Fin threadMaxFds) (n : Int) (s : Files) : Files :=
  if n > 0 then
    s.setFd tid i { s.fds tid i with cursor := wrap32 ((s.fds tid i).cursor + n.toNat) }
  else s

/-- `fd_read`: the result and the bytes that come from the persistent filesystem. -/
def fdRead (tid : Nat) (fd : Int) (len : Nat) (answer : Int) (s : Files) :
    Int × List UInt8 × Files :=
  match schedFdGet tid fd s with
  | none => (-1, [], s)
  | some i =>
    let slot := s.fds tid i
    match slot.kind with
    | .console | .pipeRead => (answer, [], s)
    | .ufs =>
      if ¬ permitted tid slot.handle ufsPermOtherRead s then (-1, [], s)
      else
        let r := ufsReadAt slot.handle slot.cursor len s.ufs
        (r.1, r.2.1, advance tid i r.1 { s with ufs := r.2.2 })
    | .memfs => (answer, [], advance tid i answer s)
    | .unused | .pipeWrite => (-1, [], s)

/-- `fd_write`. -/
def fdWrite (tid : Nat) (fd : Int) (buf : Buffer) (len : Nat) (answer : Int) (s : Files) :
    Int × Files :=
  match schedFdGet tid fd s with
  | none => (-1, s)
  | some i =>
    let slot := s.fds tid i
    match slot.kind with
    | .console | .pipeWrite => (answer, s)
    | .ufs =>
      if ¬ permitted tid slot.handle ufsPermOtherWrite s then (-1, s)
      else
        let r := ufsWriteAt slot.handle slot.cursor buf len s.ufs
        (r.1, advance tid i r.1 { s with ufs := r.2 })
    | .memfs => (answer, advance tid i answer s)
    | .unused | .pipeRead => (-1, s)

/-- System calls on files; `rangeOk` is what `user_range_ok` says of the user's
buffer or name, `memfs` and `answer` what the rest of the kernel does. -/
inductive FileCall where
  | sysOpen (tid : Nat) (rangeOk : Bool) (src : Buffer) (flags : BitVec 64) (memfs : Option Nat)
  | sysRead (tid : Nat) (rangeOk : Bool) (fd : Int) (len : Nat) (answer : Int)
  | sysWrite (tid : Nat) (rangeOk : Bool) (fd : Int) (buf : Buffer) (len : Nat) (answer : Int)
  | sysClose (tid : Nat) (fd : Int)
  | sysRemove (tid : Nat) (rangeOk : Bool) (src : Buffer)
  | sysChmod (tid : Nat) (rangeOk : Bool) (src : Buffer) (perm : UInt8)

/-- `ufs_find`, then the test of the owner that SYS_REMOVE and SYS_CHMOD make. -/
def ownFile (tid : Nat) (name : CString) (s : Files) : Option Nat :=
  (ufsFind s.ufs name).filter fun handle => isOwner tid handle s

/-- The cases of `syscall_handler` on files: the result, the bytes stored from
the persistent filesystem, and the state. -/
def fileCall (s : Files) : FileCall → Int × List UInt8 × Files
  | .sysOpen tid rangeOk src flags memfs =>
    if ¬ rangeOk then (-1, [], s)
    else
      let r := fdOpen tid (copiedName src) flags memfs s
      (r.1, [], r.2)
  | .sysRead tid rangeOk fd len answer =>
    if len > sysIoMaxLen ∨ ¬ rangeOk then (-1, [], s) else fdRead tid fd len answer s
  | .sysWrite tid rangeOk fd buf len answer =>
    if len > sysIoMaxLen ∨ ¬ rangeOk then (-1, [], s)
    else
      let r := fdWrite tid fd buf len answer s
      (r.1, [], r.2)
  | .sysClose tid fd =>
    let r := fdClose tid fd s
    (r.1, [], r.2)
  | .sysRemove tid rangeOk src =>
    if ¬ rangeOk then (-1, [], s)
    else
      match ownFile tid (copiedName src) s with
      | none => (-1, [], s)
      | some _ =>
        let r := ufsDelete (copiedName src) s.ufs
        (if r.1 then 0 else -1, [], { s with ufs := r.2 })
  | .sysChmod tid rangeOk src perm =>
    if ¬ rangeOk then (-1, [], s)
    else
      match ownFile tid (copiedName src) s with
      | none => (-1, [], s)
      | some handle =>
        let r := ufsChmod handle perm s.ufs
        (if r.1 then 0 else -1, [], { s with ufs := r.2 })

/-- The directory slot in which a call creates a file. -/
def takesSlot (s : Files) : FileCall → Option Nat
  | .sysOpen _ rangeOk src flags _ =>
    let name := copiedName src
    if rangeOk ∧ flags &&& fdPersist ≠ 0 ∧ flags &&& fdCreate ≠ 0 ∧ s.ufs.ready ∧
        0 < name.bytes.length ∧ name.bytes.length < ufsNameMax ∧ ufsFind s.ufs name = none then
      firstFree s.ufs.directory
    else none
  | _ => none

/-! ## Reading the descriptors after a call -/

@[simp] theorem setFd_ufs (s : Files) (tid : Nat) (i : Fin threadMaxFds) (slot : FdSlot) :
    (s.setFd tid i slot).ufs = s.ufs := rfl

@[simp] theorem setFd_uid (s : Files) (tid : Nat) (i : Fin threadMaxFds) (slot : FdSlot) :
    (s.setFd tid i slot).uid = s.uid := rfl

theorem setFd_fds (s : Files) (tid t : Nat) (i j : Fin threadMaxFds) (slot : FdSlot) :
    (s.setFd tid i slot).fds t j = if t = tid ∧ j = i then slot else s.fds t j := by
  unfold Files.setFd
  by_cases thread : t = tid
  · subst thread
    by_cases same : j = i
    · subst same
      simp
    · simp [same]
  · simp [thread]

theorem schedFdOpen_spec (tid : Nat) (kind : FdKind) (handle : Int) (s : Files) :
    schedFdOpen tid kind handle s = (-1, s) ∨
      ∃ i, (s.fds tid i).kind = .unused ∧ schedFdOpen tid kind handle s =
        ((i.val : Int), s.setFd tid i { kind := kind, handle := handle, cursor := 0 }) := by
  unfold schedFdOpen
  split
  · next i found =>
    have free := List.find?_some found
    simp only [Bool.decide_and, Bool.and_eq_true, decide_eq_true_eq] at free
    exact Or.inr ⟨i, free.2, rfl⟩
  · exact Or.inl rfl

theorem advance_ufs (tid : Nat) (i : Fin threadMaxFds) (n : Int) (s : Files) :
    (advance tid i n s).ufs = s.ufs := by
  unfold advance
  split <;> rfl

theorem ownFile_spec {tid : Nat} {name : CString} {s : Files} {handle : Nat}
    (found : ownFile tid name s = some handle) :
    ufsFind s.ufs name = some handle ∧ isOwner tid handle s = true := by
  rwa [ownFile, Option.filter_eq_some_iff] at found

end MiniKernel.Storage
