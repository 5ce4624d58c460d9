import Mathlib.Data.List.TakeWhile
import MiniKernel.Memory.UserRange
import MiniKernel.Storage.Descriptors
import MiniKernel.Storage.MemfsMap

/-!
# File names from user memory

Source: kernel/core/syscall.c:78-129 and 273-298, kernel/core/fd.c:9-48.
SYS_OPEN, SYS_REMOVE and SYS_CHMOD check 32 bytes at the pointer, whatever the
name is, and copy at most 31. `user` is what the CPU reads at an address of the
current address space.
-/
namespace MiniKernel.Storage
open Lib (Buffer)
open Memory.Paging (Word Tables Canonical UserMapped userMapped_congr userMapped_current
  vmmIsUserAccessibleIn_iff)
open Memory
open Memory.UserRange (userRangeOk userRangeOk_eq NoWrap oneUserPage pageStart byteAt_toNat
  byteAt_byteAt oneUserPage_accessible)

/-- Both filesystems. -/
structure NameState where
  files : Files
  mem : Memfs

/-- The answers of `kmalloc` are part of a call. -/
inductive NameCall where
  | sysOpen (flags : BitVec 64) (tableGrant bufferGrant : Grant)
  | sysRemove
  | sysChmod (perm : UInt8)

/-- `memfs_find`, then `memfs_create` under FD_CREATE. -/
def memfsOpen (name : CString) (flags : BitVec 64) (tableGrant bufferGrant : Grant) (m : Memfs) :
    Option (Int × Memfs) :=
  if memfsFind name m < 0 then
    if flags &&& fdCreate = 0 then some (-1, m) else memfsCreate name tableGrant bufferGrant m
  else some (memfsFind name m, m)

/-- `fd_open` on both filesystems. -/
def fdOpenName (tid : Nat) (name : CString) (flags : BitVec 64) (tableGrant bufferGrant : Grant)
    (s : NameState) : Option (Int × NameState) :=
  if flags &&& fdPersist ≠ 0 then
    let r := fdOpen tid name flags none s.files
    some (r.1, { s with files := r.2 })
  else
    (memfsOpen name flags tableGrant bufferGrant s.mem).map fun a =>
      let r := fdOpen tid name flags (if a.1 < 0 then none else some a.1.toNat) s.files
      (r.1, { files := r.2, mem := a.2 })

/-- A handler behind its copy of the name. -/
def actOn (tid : Nat) (name : CString) (s : NameState) : NameCall → Option (Int × NameState)
  | .sysOpen flags tableGrant bufferGrant => fdOpenName tid name flags tableGrant bufferGrant s
  | .sysRemove =>
    match ownFile tid name s.files with
    | none => some (-1, s)
    | some _ =>
      let r := ufsDelete name s.files.ufs
      some (if r.1 then 0 else -1, { s with files := { s.files with ufs := r.2 } })
  | .sysChmod perm =>
    match ownFile tid name s.files with
    | none => some (-1, s)
    | some handle =>
      let r := ufsChmod handle perm s.files.ufs
      some (if r.1 then 0 else -1, { s with files := { s.files with ufs := r.2 } })

/-- The bytes from a user pointer on. -/
def userBytes (user : Word → UInt8) (ptr : Word) : Buffer := fun k => user (UserRange.byteAt ptr k)

/-- The three cases of `syscall_handler`, for a name at `ptr`. -/
def nameCall (mem : Tables) (cr3 : Word) (user : Word → UInt8) (ptr : Word) (tid : Nat)
    (s : NameState) (call : NameCall) : Option (Int × NameState) :=
  (userRangeOk mem cr3 ptr (BitVec.ofNat 64 sysOpenNameMax)).bind fun ok =>
    if !ok then some (-1, s) else actOn tid (copiedName (userBytes user ptr)) s call

/-- The call of the file model; `answer` stands for the filesystem in memory. -/
def NameCall.toFileCall (tid : Nat) (ok : Bool) (src : Buffer) (answer : Option Nat) :
    NameCall → FileCall
  | .sysOpen flags _ _ => .sysOpen tid ok src flags answer
  | .sysRemove => .sysRemove tid ok src
  | .sysChmod perm => .sysChmod tid ok src perm

/-- `nameCall` is a call of the file model, with what `user_range_ok` says of the name. -/
theorem nameCall_fileCall {mem : Tables} {cr3 : Word} {user : Word → UInt8} {ptr : Word} {tid : Nat}
    {s : NameState} {call : NameCall} {ok : Bool} {r : Int} {t : NameState}
    (checked : userRangeOk mem cr3 ptr (BitVec.ofNat 64 sysOpenNameMax) = some ok)
    (called : nameCall mem cr3 user ptr tid s call = some (r, t)) :
    ∃ answer, fileCall s.files (call.toFileCall tid ok (userBytes user ptr) answer) =
      (r, [], t.files) := by
  rw [nameCall, checked, Option.bind_some] at called
  cases ok with
  | false =>
    cases called
    refine ⟨none, ?_⟩
    cases call <;> rfl
  | true =>
    change actOn tid (copiedName (userBytes user ptr)) s call = some (r, t) at called
    cases call with
    | sysOpen flags tableGrant bufferGrant =>
      rw [actOn, fdOpenName] at called
      split at called
      · cases called
        exact ⟨none, rfl⟩
      · obtain ⟨a, -, rest⟩ := Option.map_eq_some_iff.mp called
        cases rest
        exact ⟨if a.1 < 0 then none else some a.1.toNat, rfl⟩
    | sysRemove | sysChmod =>
      refine ⟨none, ?_⟩
      rw [actOn] at called
      rw [NameCall.toFileCall, fileCall, if_neg (by decide)]
      cases own : ownFile tid (copiedName (userBytes user ptr)) s.files with
      | none =>
        rw [own] at called
        cases called
        rfl
      | some handle =>
        rw [own] at called
        cases called
        rfl

/-- A string of the user's, wholly in pages the user may access. -/
structure UserString (mem : Tables) (cr3 : Word) (user : Word → UInt8) (ptr : Word)
    (name : CString) : Prop where
  below : ptr.toNat + name.bytes.length < 2 ^ 64
  accessible : ∀ k ≤ name.bytes.length,
    Canonical (UserRange.byteAt ptr k) ∧ UserMapped mem cr3 (UserRange.byteAt ptr k)
  holds : ∀ k ≤ name.bytes.length, userBytes user ptr k = name.bytes.getD k 0

/-- A call acts on the name itself if a file of memory can have it; a longer one
is refused, or is at least not taken for another. -/
def NameTaken (mem : Tables) (cr3 : Word) (user : Word → UInt8) (ptr : Word) (name : CString) :
    Prop :=
  ∀ tid s call,
    nameCall mem cr3 user ptr tid s call = actOn tid name s call ∨
      (sysOpenNameMax ≤ name.bytes.length ∧
        nameCall mem cr3 user ptr tid s call = some (-1, s))

/-! ## The check and the copy -/

/-- The 32 bytes at `ptr` do not pass the end of memory, and the last is accessible. -/
def NameWindow (mem : Tables) (cr3 ptr : Word) : Prop :=
  ptr.toNat + 31 < 2 ^ 64 ∧ UserMapped mem cr3 (UserRange.byteAt ptr 31)

/-- The 32 bytes at `ptr` lie on the page of `ptr` and the page of the last one. -/
theorem window_iff {mem : Tables} {cr3 ptr : Word} (first : UserMapped mem cr3 ptr) :
    userRangeOk mem cr3 ptr (BitVec.ofNat 64 sysOpenNameMax) = some true ↔
      NameWindow mem cr3 ptr := by
  obtain ⟨r, answered, spec⟩ := userRangeOk_eq mem cr3 ptr (BitVec.ofNat 64 sysOpenNameMax)
  have len : (BitVec.ofNat 64 sysOpenNameMax).toNat = 32 := rfl
  rw [answered, Option.some.injEq, spec, NoWrap, len, NameWindow]
  simp only [vmmIsUserAccessibleIn_iff, userMapped_current]
  constructor
  · intro ⟨room, mapped⟩
    exact ⟨by omega, mapped 31 (by decide)⟩
  · intro ⟨room, last⟩
    refine ⟨by omega, fun k hk => ?_⟩
    have byteK := byteAt_toNat ptr k (by omega)
    have byteLast := byteAt_toNat ptr 31 room
    by_cases same : (UserRange.byteAt ptr k).toNat / 4096 = ptr.toNat / 4096
    · exact (userMapped_congr mem cr3 _ _ same).mpr first
    · exact (userMapped_congr mem cr3 _ (UserRange.byteAt ptr 31) (by omega)).mpr last

theorem UserString.first {mem : Tables} {cr3 : Word} {user : Word → UInt8} {ptr : Word}
    {name : CString} (string : UserString mem cr3 user ptr name) : UserMapped mem cr3 ptr := by
  have mapped := (string.accessible 0 (Nat.zero_le _)).2
  rwa [UserRange.byteAt_zero] at mapped

theorem CString.ext_bytes {a b : CString} (same : a.bytes = b.bytes) : a = b := by
  cases a
  cases b
  cases same
  rfl

/-- The copy stops at the terminator, or has 31 bytes. -/
theorem copiedName_bytes {src : Buffer} {name : CString}
    (holds : ∀ k ≤ name.bytes.length, src k = name.bytes.getD k 0) :
    (copiedName src).bytes = name.bytes.take 31 := by
  have bytes : (copiedName src).bytes = ((List.range 31).map src).takeWhile (· ≠ 0) := rfl
  have ends : src name.bytes.length = 0 := by
    rw [holds _ (Nat.le_refl _), List.getD_eq_default _ _ (Nat.le_refl _)]
  rw [bytes]
  by_cases short : name.bytes.length < 31
  · rw [List.take_of_length_le (by omega)]
    exact (takeWhile_eq_iff src 31 name.bytes name.nonzero ⟨_, short, ends⟩).mpr
      ⟨fun j hj => holds j (by omega), ends⟩
  · have copied : (List.range 31).map src = name.bytes.take 31 := by
      apply List.ext_getElem
      · simp
        omega
      · intro j hj hj'
        have inside : j < name.bytes.length := by
          rw [List.length_take] at hj'
          omega
        rw [List.getElem_map, List.getElem_range, List.getElem_take, holds j (by omega),
          List.getD_eq_getElem _ 0 inside]
    rw [copied]
    apply List.takeWhile_eq_self_iff.mpr
    intro b hb
    exact decide_eq_true (name.nonzero b (List.mem_of_mem_take hb))

/-- What a call with a string does: all of it is refused, or its first 31 bytes are the name. -/
theorem nameCall_eq {mem : Tables} {cr3 : Word} {user : Word → UInt8} {ptr : Word} {name : CString}
    (string : UserString mem cr3 user ptr name) :
    ∃ copied : CString, copied.bytes = name.bytes.take 31 ∧
      (NameWindow mem cr3 ptr → ∀ tid s call,
        nameCall mem cr3 user ptr tid s call = actOn tid copied s call) ∧
      (¬ NameWindow mem cr3 ptr → ∀ tid s call,
        nameCall mem cr3 user ptr tid s call = some (-1, s)) := by
  have window := window_iff string.first
  obtain ⟨ok, answered, -⟩ := userRangeOk_eq mem cr3 ptr (BitVec.ofNat 64 sysOpenNameMax)
  rw [answered, Option.some.injEq] at window
  refine ⟨copiedName (userBytes user ptr), copiedName_bytes string.holds, ?_, ?_⟩
  · intro shown tid s call
    have yes := window.mpr shown
    rw [nameCall, answered, yes]
    rfl
  · intro hidden tid s call
    have no : ok = false := by
      cases ok with
      | false => rfl
      | true => exact absurd (window.mp rfl) hidden
    rw [nameCall, answered, no]
    rfl

/-! ## A call that shows its name -/

/-- The file is in memory: opened by its name it gets the first descriptor, by
another it is not found. -/
theorem exists_telling_call (name : CString) (short : name.bytes.length < memfsNameMax) :
    ∃ s call, (∃ t, actOn 0 name s call = some (2, t)) ∧
      ∀ other : CString, other.bytes ≠ name.bytes → actOn 0 other s call = some (-1, s) := by
  obtain ⟨r, m, created, ok, files⟩ :=
    memfsCreate_spec memfsStart_ok short (grantAt 16) (grantAt 512)
  have made : findSlot memfsStart name = none ∧
      createGranted (grantAt 16) (grantAt 512) memfsStart = true := ⟨rfl, rfl⟩
  rw [if_pos made] at files
  obtain ⟨slot, -, -, held⟩ := files
  let s : NameState := { files := bootFiles (fun _ => fun _ => 0) (fun _ => none) fun _ => 0, mem := m }
  refine ⟨s, .sysOpen 0 (grantAt 16) (grantAt 512), ?_, ?_⟩
  · obtain ⟨-, none_held⟩ | ⟨found, answer, -⟩ := memfsFind_spec ok name
    · have own := held slot
      rw [if_pos rfl] at own
      exact absurd rfl (none_held slot _ own)
    · have here : ¬ memfsFind name m < 0 := by omega
      let slot2 : Sched.FdSlot := { kind := .memfs, handle := found, cursor := 0 }
      refine ⟨{ s with files := s.files.setFd 0 ⟨2, by decide⟩ slot2 }, ?_⟩
      rw [actOn, fdOpenName, if_neg (by decide), memfsOpen, if_neg here, Option.map_some,
        if_neg here, answer]
      rfl
  · intro other different
    obtain ⟨absent, -⟩ | ⟨found, -, f, foundFile, same⟩ := memfsFind_spec ok other
    · have missing : memfsFind other m < 0 := by omega
      rw [actOn, fdOpenName, if_neg (by decide), memfsOpen, if_pos missing, if_pos (by decide)]
      rfl
    · have own := held found
      rw [foundFile] at own
      split at own
      · cases own
        exact absurd same.symm different
      · have nothing := memFile_unused (memfsStart_unused found)
        rw [nothing] at own
        cases own

/-- A short name whose window is hidden is refused where its file could be opened. -/
theorem hidden_not_taken {mem : Tables} {cr3 : Word} {user : Word → UInt8} {ptr : Word}
    {name : CString} (string : UserString mem cr3 user ptr name)
    (short : name.bytes.length < sysOpenNameMax) (hidden : ¬ NameWindow mem cr3 ptr) :
    ¬ NameTaken mem cr3 user ptr name := by
  intro taken
  obtain ⟨copied, -, -, refused⟩ := nameCall_eq string
  obtain ⟨s, call, ⟨t, opened⟩, -⟩ := exists_telling_call name short
  obtain same | ⟨long, -⟩ := taken 0 s call
  · rw [refused hidden, opened] at same
    cases same
  · omega

/-- A long name opens the file that has its first 31 bytes as its name. -/
theorem long_not_taken {mem : Tables} {cr3 : Word} {user : Word → UInt8} {ptr : Word}
    {name : CString} (string : UserString mem cr3 user ptr name)
    (long : sysOpenNameMax ≤ name.bytes.length) : ¬ NameTaken mem cr3 user ptr name := by
  intro taken
  have max : sysOpenNameMax = 32 := rfl
  have below := string.below
  have window : NameWindow mem cr3 ptr := ⟨by omega, (string.accessible 31 (by omega)).2⟩
  obtain ⟨copied, cut, acts, -⟩ := nameCall_eq string
  have length : copied.bytes.length = 31 := by
    rw [cut, List.length_take]
    omega
  obtain ⟨s, call, ⟨t, opened⟩, others⟩ := exists_telling_call copied (by rw [length]; decide)
  have different : name.bytes ≠ copied.bytes := by
    intro same
    rw [same, length] at long
    omega
  obtain same | ⟨-, same⟩ := taken 0 s call
  · rw [acts window, opened, others name different] at same
    cases same
  · rw [acts window, opened] at same
    cases same

/-- A string of the user's is acted on as the name it is exactly if it has fewer
than 32 bytes and the 32 bytes at its start are accessible. -/
theorem name_taken_iff {mem : Tables} {cr3 : Word} {user : Word → UInt8} {ptr : Word}
    {name : CString} (string : UserString mem cr3 user ptr name) :
    NameTaken mem cr3 user ptr name ↔
      name.bytes.length < sysOpenNameMax ∧ NameWindow mem cr3 ptr := by
  constructor
  · intro taken
    have short : name.bytes.length < sysOpenNameMax := by
      by_contra long
      exact long_not_taken string (Nat.not_lt.mp long) taken
    refine ⟨short, ?_⟩
    by_contra hidden
    exact hidden_not_taken string short hidden taken
  · intro ⟨short, window⟩ tid s call
    obtain ⟨copied, cut, acts, -⟩ := nameCall_eq string
    have whole : copied = name := by
      apply CString.ext_bytes
      have max : sysOpenNameMax = 32 := rfl
      rw [cut, List.take_of_length_le (by omega)]
    exact Or.inl (by rw [acts window, whole])

/-- A string somewhere on the page. -/
theorem oneUserPage_string (user : Word → UInt8) (offset : Nat) (name : CString)
    (inside : offset + name.bytes.length < 4096)
    (holds : ∀ k ≤ name.bytes.length,
      userBytes user (UserRange.byteAt pageStart offset) k = name.bytes.getD k 0) :
    UserString (oneUserPage 0x7) 0x1000 user (UserRange.byteAt pageStart offset) name := by
  have start : pageStart.toNat = 2 ^ 39 := rfl
  have byteOffset := byteAt_toNat pageStart offset (by omega)
  refine ⟨by omega, fun k hk => ?_, holds⟩
  rw [byteAt_byteAt]
  exact oneUserPage_accessible (offset + k) (by omega)

/-- A name at the start of the page. -/
theorem name_taken_first : NameTaken (oneUserPage 0x7) 0x1000
    (fun a => if a = pageStart then 0x66 else 0) (UserRange.byteAt pageStart 0) nameF :=
  (name_taken_iff (oneUserPage_string _ 0 nameF (by decide) (by decide))).mpr
    ⟨by decide, by decide, (oneUserPage_accessible 31 (by decide)).2⟩

/-- 40 letters. -/
def longName : CString where
  bytes := List.replicate 40 0x66
  nonzero := fun b hb => by
    rw [List.eq_of_mem_replicate hb]
    decide

/-- In the last two bytes of the page a name of one letter is refused; 40
letters at its start are taken for 31. -/
theorem name_refused_and_name_cut :
    (UserString (oneUserPage 0x7) 0x1000
        (fun a => if a = UserRange.byteAt pageStart 4094 then 0x66 else 0)
        (UserRange.byteAt pageStart 4094) nameF ∧
      ¬ NameTaken (oneUserPage 0x7) 0x1000
        (fun a => if a = UserRange.byteAt pageStart 4094 then 0x66 else 0)
        (UserRange.byteAt pageStart 4094) nameF) ∧
    UserString (oneUserPage 0x7) 0x1000 (fun a => if a.toNat < 2 ^ 39 + 40 then 0x66 else 0)
        (UserRange.byteAt pageStart 0) longName ∧
      ¬ NameTaken (oneUserPage 0x7) 0x1000 (fun a => if a.toNat < 2 ^ 39 + 40 then 0x66 else 0)
        (UserRange.byteAt pageStart 0) longName := by
  have atEnd := oneUserPage_string
    (fun a => if a = UserRange.byteAt pageStart 4094 then 0x66 else 0) 4094 nameF (by decide)
    (by decide)
  have atStart := oneUserPage_string (fun a => if a.toNat < 2 ^ 39 + 40 then 0x66 else 0) 0 longName
    (by decide) (by decide)
  refine ⟨⟨atEnd, hidden_not_taken atEnd (by decide) ?_⟩, atStart, long_not_taken atStart (by decide)⟩
  intro window
  have last := (vmmIsUserAccessibleIn_iff _ _ _).mpr window.2
  revert last
  decide

end MiniKernel.Storage
