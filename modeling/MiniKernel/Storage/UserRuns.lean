import Mathlib.Data.List.TakeWhile
import MiniKernel.Storage.ListFiles
import MiniKernel.Storage.Reboot
import MiniKernel.Storage.UsersSave

/-!
# Accounts over additions and reboots

Source: kernel/core/users.c. Names are told apart up to their terminators; what
stands behind a terminator is saved and loaded with the rest and means nothing.
What a boot loads is the table as it was last saved, byte for byte.
-/
namespace MiniKernel.Storage
open Drivers
open Lib (Buffer writeU32)
open Lib.Machine (run)

/-- `users_authenticate`: the uid, or `none` for -1. -/
def usersAuthenticate (accounts : Accounts) (username password : CString) : Option (BitVec 32) :=
  match (List.finRange 16).find? fun i =>
      (accounts i).inUse && strEq (accounts i).name username with
  | none => none
  | some i =>
    if (accounts i).passwordHash ≠ hashPassword password then none else some (accounts i).uid

/-- `users_name_for_uid`: the bytes stored from `out` on, or `none` for -1. -/
def usersNameForUid (accounts : Accounts) (uid : BitVec 32) (outLen : Nat) :
    Option (List UInt8) :=
  ((List.finRange 16).find? fun i => (accounts i).inUse && decide ((accounts i).uid = uid)).map
    fun i => copyOut (accounts i).name (outLen - 1) 0

/-- A machine starts with a table of zeros, mounts its disk and loads the table. -/
def usersReboot (u : Users) : Users :=
  (usersInit { accounts := noAccounts, ufs := remount u.ufs.drive.sectors }).2

inductive UsersEvent where
  | add (username password : CString) (uid : BitVec 32)
  | reboot

def usersStep (u : Users) : UsersEvent → Option Users
  | .add username password uid => some (usersAdd username password uid u).2
  | .reboot => some (usersReboot u)

/-- `users_init` would load this file. -/
def PasswdSaved (s : Ufs) : Prop :=
  ∃ h : Nat, ufsFind s passwdFile = some h ∧ ufsSize s h = userMaxAccounts * recordSize

/-- The bytes of a username, up to its terminator. -/
def Account.nameBytes (a : Account) : List UInt8 :=
  ((List.range userNameMax).map a.name).takeWhile (· ≠ 0)

/-- Usernames are terminated, and no two accounts have the same. -/
structure Tidy (accounts : Accounts) : Prop where
  short : ∀ i, (accounts i).inUse = true → (accounts i).nameBytes.length < userNameMax
  distinct : ∀ i j, (accounts i).inUse = true → (accounts j).inUse = true →
    (accounts i).nameBytes = (accounts j).nameBytes → i = j

/-- A free account has become the one that was asked for, and no other is changed. -/
def AddsOne (username password : CString) (uid : BitVec 32) (old new : Accounts) : Prop :=
  ∃ slot, (old slot).inUse = false ∧ (new slot).inUse = true ∧
    (new slot).nameBytes = username.bytes ∧ (new slot).uid = uid ∧
    (new slot).passwordHash = hashPassword password ∧ ∀ i ≠ slot, new i = old i

/-- Both tables give the same answers. -/
structure SameAnswers (a b : Accounts) : Prop where
  authenticate : ∀ username password,
    usersAuthenticate a username password = usersAuthenticate b username password
  nameForUid : ∀ uid outLen, usersNameForUid a uid outLen = usersNameForUid b uid outLen

/-! ## Names -/

theorem Account.nameBytes_eq_iff {a : Account} (zero : ∃ j < userNameMax, a.name j = 0)
    (name : CString) : a.nameBytes = name.bytes ↔ strEq a.name name = true := by
  rw [Account.nameBytes, takeWhile_eq_iff a.name userNameMax name.bytes name.nonzero zero]
  simp [strEq]

theorem Account.terminated {a : Account} (short : a.nameBytes.length < userNameMax) :
    ∃ j < userNameMax, a.name j = 0 := by
  by_contra endless
  have nonzero (j : Nat) (hj : j < userNameMax) : a.name j ≠ 0 := fun zero => endless ⟨j, hj, zero⟩
  have whole : a.nameBytes = (List.range userNameMax).map a.name := by
    apply List.takeWhile_eq_self_iff.mpr
    intro b hb
    obtain ⟨j, hj, rfl⟩ := List.mem_map.mp hb
    exact decide_eq_true (nonzero j (List.mem_range.mp hj))
  rw [whole, List.length_map, List.length_range] at short
  exact Nat.lt_irrefl _ short

/-- What `set_username` writes is the name, whatever was there before. -/
theorem setUsername_nameBytes (a : Account) {name : CString}
    (short : name.bytes.length < userNameMax) : (setUsername a name).nameBytes = name.bytes := by
  have bound : name.bytes.length < 20 := short
  have cut : min name.bytes.length (userNameMax - 1) = name.bytes.length := by
    unfold userNameMax
    omega
  have byte {j : Nat} (hj : j ≤ name.bytes.length) :
      (setUsername a name).name j = if j < name.bytes.length then name.bytes.getD j 0 else 0 := by
    have inside : j < 20 := by omega
    simp only [Account.name, dif_pos inside, setUsername, cut]
    split
    · rfl
    · rw [if_pos (by omega)]
  have zero : (setUsername a name).name name.bytes.length = 0 := by
    rw [byte (Nat.le_refl _), if_neg (Nat.lt_irrefl _)]
  rw [Account.nameBytes, takeWhile_eq_iff _ _ _ name.nonzero ⟨_, short, zero⟩]
  refine ⟨fun j hj => ?_, zero⟩
  rw [byte (Nat.le_of_lt hj), if_pos hj]

theorem setUsername_inUse (a : Account) {name : CString} (some_ : 0 < name.bytes.length) :
    (setUsername a name).inUse = true := by
  have first : name.bytes.getD 0 0 ≠ 0 := by
    rw [List.getD_eq_getElem _ _ some_]
    exact name.nonzero _ (List.getElem_mem some_)
  have head : (setUsername a name).username 0 = name.bytes.getD 0 0 :=
    if_pos (by simp only [Fin.val_zero, userNameMax]; omega)
  unfold Account.inUse
  rw [head]
  exact decide_eq_true first

/-! ## The table -/

theorem defaultAccounts_tidy (accounts : Accounts) : Tidy (defaultAccounts accounts) := by
  have root : (defaultAccounts accounts 0).nameBytes = rootName.bytes :=
    setUsername_nameBytes { accounts 0 with username := Function.update (accounts 0).username 0 0 }
      (by decide)
  have user : (defaultAccounts accounts 1).nameBytes = userName.bytes :=
    setUsername_nameBytes { accounts 1 with username := Function.update (accounts 1).username 0 0 }
      (by decide)
  have only {i : Fin 16} (used : (defaultAccounts accounts i).inUse = true) : i = 0 ∨ i = 1 := by
    by_contra neither
    rw [not_or] at neither
    have cleared : (defaultAccounts accounts i).username 0 = 0 := by
      unfold defaultAccounts
      simp only [if_neg neither.1, if_neg neither.2]
      exact Function.update_self ..
    rw [Account.inUse, cleared] at used
    exact absurd used (by decide)
  have differ : rootName.bytes ≠ userName.bytes := by decide
  refine ⟨fun i used => ?_, fun i j usedI usedJ names => ?_⟩
  · rcases only used with rfl | rfl
    · rw [root]
      decide
    · rw [user]
      decide
  · rcases only usedI with rfl | rfl <;> rcases only usedJ with rfl | rfl
    · rfl
    · exact absurd (root.symm.trans (names.trans user)) differ
    · exact absurd (root.symm.trans (names.symm.trans user)) differ
    · rfl

theorem usersAdd_addsOne {username password : CString} {uid : BitVec 32} {u : Users}
    (ok : (usersAdd username password uid u).1 = true) :
    AddsOne username password uid u.accounts (usersAdd username password uid u).2.accounts := by
  have accepted : ¬ Refused username u.accounts := fun refused => by
    rw [usersAdd_refused password uid refused] at ok
    cases ok
  obtain ⟨slot, free, result⟩ := usersAdd_accepted password uid accepted
  rw [Refused, not_or, not_or] at accepted
  obtain ⟨⟨some_, short⟩, _⟩ := accepted
  have unused := List.find?_some free
  rw [Bool.not_eq_true'] at unused
  rw [result]
  refine ⟨slot, unused, ?_, ?_, ?_, ?_, fun i other => Function.update_of_ne other _ _⟩
  · simp only [withAccount, Function.update_self]
    exact setUsername_inUse (u.accounts slot) (Nat.pos_of_ne_zero some_)
  · simp only [withAccount, Function.update_self]
    exact setUsername_nameBytes (u.accounts slot) (Nat.lt_of_not_le short)
  · simp only [withAccount, Function.update_self]
  · simp only [withAccount, Function.update_self]

/-- A name that is not taken is none of the table's. -/
theorem Tidy.untaken {accounts : Accounts} (tidy : Tidy accounts) {username : CString}
    (free : nameTaken accounts username = false) (i : Fin 16)
    (used : (accounts i).inUse = true) : (accounts i).nameBytes ≠ username.bytes := by
  intro same
  rw [Account.nameBytes_eq_iff (Account.terminated (tidy.short i used))] at same
  have here := List.any_eq_false.mp free i (List.mem_finRange i)
  rw [used, same] at here
  exact here rfl

theorem Tidy.added {u : Users} (tidy : Tidy u.accounts) (username password : CString)
    (uid : BitVec 32) : Tidy (usersAdd username password uid u).2.accounts := by
  by_cases refused : Refused username u.accounts
  · rw [usersAdd_refused password uid refused]
    exact tidy
  have accepted := refused
  rw [Refused, not_or, not_or, not_or] at accepted
  obtain ⟨⟨_, short⟩, untaken, _⟩ := accepted
  have fresh := tidy.untaken (Bool.eq_false_iff.mpr untaken)
  obtain ⟨_, _, result⟩ := usersAdd_accepted password uid refused
  have ok : (usersAdd username password uid u).1 = true := by rw [result]
  obtain ⟨slot, _, _, name, _, _, others⟩ := usersAdd_addsOne ok
  generalize (usersAdd username password uid u).2.accounts = new at name others ⊢
  refine ⟨fun i used => ?_, fun i j usedI usedJ names => ?_⟩
  · by_cases own : i = slot
    · rw [own, name]
      exact Nat.lt_of_not_le short
    · rw [others i own] at used ⊢
      exact tidy.short i used
  · by_cases ownI : i = slot
    · by_cases ownJ : j = slot
      · exact ownI.trans ownJ.symm
      · rw [ownI, name, others j ownJ] at names
        rw [others j ownJ] at usedJ
        exact absurd names.symm (fresh j usedJ)
    · by_cases ownJ : j = slot
      · rw [ownJ, name, others i ownI] at names
        rw [others i ownI] at usedI
        exact absurd names (fresh i usedI)
      · rw [others i ownI] at usedI names
        rw [others j ownJ] at usedJ names
        exact tidy.distinct i j usedI usedJ names

/-! ## The file of the table -/

/-- The bytes of the file for this table. -/
def passwdBytes (accounts : Accounts) : List UInt8 := (List.range 512).map (passwdImage accounts)

def HoldsTable (s : Ufs) (accounts : Accounts) : Prop :=
  ∃ f, fileMap s passwdFile.bytes = some f ∧ f.bytes = passwdBytes accounts

theorem length_passwdBytes (accounts : Accounts) : (passwdBytes accounts).length = 512 := by
  rw [passwdBytes, List.length_map, List.length_range]

/-- The slot that `ufs_find` finds holds the file of that name. -/
theorem Mounted.found {s : Ufs} (mounted : Mounted s) {h : Nat}
    (found : ufsFind s passwdFile = some h) :
    handleValid s h = true ∧ handleName s h = some passwdFile.bytes ∧
      fileMap s passwdFile.bytes = some (fileAt s h) := by
  have vol := mounted.volume
  rw [ufsFind_eq_slotOf vol.laid.ready vol.named, slotOf_eq_some_iff vol.named] at found
  obtain ⟨slot, used, name⟩ := found
  have valid : handleValid s h = true := by
    unfold handleValid
    rw [vol.laid.ready, Int.toNat_natCast, used]
    simp [slot]
  obtain ⟨_, _, named, file⟩ := handle_file vol valid
  rw [Int.toNat_natCast, name] at named file
  exact ⟨valid, named, file⟩

theorem Mounted.missing {s : Ufs} (mounted : Mounted s) (missing : ufsFind s passwdFile = none) :
    fileMap s passwdFile.bytes = none := by
  rw [ufsFind_eq_slotOf mounted.volume.laid.ready mounted.volume.named] at missing
  rw [fileMap, missing, Option.map_none]

theorem Mounted.find_eq {s t : Ufs} (mounted : Mounted s) (mounted' : Mounted t)
    (kept : NamesKept s.directory t.directory) : ufsFind t passwdFile = ufsFind s passwdFile := by
  rw [ufsFind_eq_slotOf mounted.volume.laid.ready mounted.volume.named,
    ufsFind_eq_slotOf mounted'.volume.laid.ready mounted'.volume.named]
  apply List.find?_congr
  intro i _
  rw [kept.used i, nameAt_congr fun j hj => kept i j hj]

theorem length_fileAt (s : Ufs) (i : Nat) :
    (fileAt s i).bytes.length = entrySize s.directory i := by
  rw [fileAt, List.length_map, List.length_range]

theorem Mounted.passwdSaved_iff {s : Ufs} (mounted : Mounted s) :
    PasswdSaved s ↔ ∃ f, fileMap s passwdFile.bytes = some f ∧ f.bytes.length = 512 := by
  constructor
  · rintro ⟨h, found, size⟩
    obtain ⟨valid, _, file⟩ := mounted.found found
    refine ⟨_, file, ?_⟩
    rw [ufsSize, if_pos valid] at size
    rw [length_fileAt]
    exact size
  · rintro ⟨f, file, size⟩
    rcases found : ufsFind s passwdFile with _ | h
    · rw [mounted.missing found] at file
      cases file
    · obtain ⟨valid, _, file'⟩ := mounted.found found
      rw [file', Option.some.injEq] at file
      rw [← file, length_fileAt] at size
      refine ⟨h, found, ?_⟩
      rw [ufsSize, if_pos valid]
      exact size

theorem HoldsTable.saved {s : Ufs} {accounts : Accounts} (holds : HoldsTable s accounts)
    (mounted : Mounted s) : PasswdSaved s := by
  obtain ⟨f, file, bytes⟩ := holds
  exact mounted.passwdSaved_iff.mpr ⟨f, file, by rw [bytes, length_passwdBytes]⟩

theorem ufsTruncate_names (handle : Int) (newSize : Nat) (s : Ufs) :
    NamesKept s.directory (ufsTruncate handle newSize s).2.directory := by
  unfold ufsTruncate
  split
  · exact fun _ _ _ => rfl
  split
  · exact fun _ _ _ => rfl
  · rw [(persist_frame _).1]
    exact namesKept_writeU32 handle.toNat (Nat.add_le_add_left (by decide) _) (by omega)

theorem ufsChmod_names (handle : Int) (perm : UInt8) (s : Ufs) :
    NamesKept s.directory (ufsChmod handle perm s).2.directory := by
  unfold ufsChmod
  split
  · exact fun _ _ _ => rfl
  · rw [(persist_frame _).1]
    exact namesKept_update handle.toNat perm (Nat.add_le_add_left (by decide) _) (by omega)

/-- The table is written to the empty file, or there is no room for it. -/
theorem table_written {s : Ufs} (mounted : Mounted s) {h : Nat}
    (found : ufsFind s passwdFile = some h) (empty : entrySize s.directory h = 0)
    (accounts : Accounts) :
    Mounted (perform (.writeAt h 0 (passwdImage accounts) 512) s) ∧
      ((NoRoom s h 512 ∧
          fileMap (perform (.writeAt h 0 (passwdImage accounts) 512) s) = fileMap s) ∨
        HoldsTable (perform (.writeAt h 0 (passwdImage accounts) 512) s) accounts) := by
  obtain ⟨_, named, file⟩ := mounted.found found
  have scope : InScope s (.writeAt h 0 (passwdImage accounts) 512) := fun _ =>
    ⟨Nat.zero_le _, by decide⟩
  have nothing : (fileAt s h).bytes = [] := by
    unfold fileAt
    rw [empty]
    rfl
  refine ⟨mounted.perform scope, ?_⟩
  have refines := (perform_refines mounted.volume _ scope).2
  unfold Refines at refines
  simp only [mapOp, named, Option.map_some, mapStep, file] at refines
  by_cases full : NoRoom s h 512
  · left
    refine ⟨full, ?_⟩
    have noRoom : room s (.writeAt h 0 (passwdImage accounts) 512) = false :=
      decide_eq_false fun room => room full
    rw [noRoom] at refines
    exact refines.2
  · right
    have some_ : room s (.writeAt h 0 (passwdImage accounts) 512) = true := by
      unfold room
      exact decide_eq_true full
    have length : (512 : BitVec 32).toNat = 512 := by decide
    have spliced (offset : Nat) : splice [] offset ((List.range 512).map (passwdImage accounts)) =
        passwdBytes accounts := by
      rw [splice, List.take_nil, List.drop_nil, List.nil_append, List.append_nil, passwdBytes]
    rw [some_, if_neg (by simp), nothing, length, spliced] at refines
    have stored := congrFun refines.2 passwdFile.bytes
    simp only [Function.update_self] at stored
    exact ⟨_, stored, by simp only⟩

/-- `persist` on an existing file, step by step. -/
theorem usersPersist_found {s : Ufs} {h : Nat} (found : ufsFind s passwdFile = some h)
    (accounts : Accounts) : usersPersist accounts s =
      perform (.writeAt h 0 (passwdImage accounts) 512) (perform (.truncate h 0) s) := by
  unfold usersPersist
  rw [found]
  rfl

theorem truncated_empty {s : Ufs} (mounted : Mounted s) {h : Nat}
    (found : ufsFind s passwdFile = some h) :
    Mounted (perform (.truncate h 0) s) ∧ ufsFind (perform (.truncate h 0) s) passwdFile = some h ∧
      entrySize (perform (.truncate h 0) s).directory h = 0 ∧
      entryCapacity (perform (.truncate h 0) s).directory h = entryCapacity s.directory h := by
  have after := mounted.perform (o := .truncate h 0) fun _ => Nat.zero_le _
  have kept := ufsTruncate_names h 0 s
  have directory : (perform (.truncate h 0) s).directory =
      writeU32 s.directory (entryAt h + 24) 0 := by
    change (ufsTruncate h 0 s).2.directory = _
    unfold ufsTruncate
    rw [if_neg (not_not_intro (mounted.found found).1), if_neg (Nat.not_lt_zero _),
      (persist_frame _).1, Int.toNat_natCast]
  refine ⟨after, (mounted.find_eq after kept).trans found, ?_, ?_⟩
  · rw [directory, entrySize, Lib.readU32_writeU32 _ _ _ (by decide)]
  · rw [directory]
    exact (writeSize_sameExtent s.directory h h 0).2

/-- `ufs_create` for the table: there is no file still, or there is an empty one. -/
theorem passwd_created {s : Ufs} (mounted : Mounted s) (missing : ufsFind s passwdFile = none) :
    Mounted (ufsCreate passwdFile 0 s).2 ∧
      ((ufsCreate passwdFile 0 s).1 = none ∧
          fileMap (ufsCreate passwdFile 0 s).2 passwdFile.bytes = none ∨
        ∃ h, (ufsCreate passwdFile 0 s).1 = some h ∧
          ufsFind (ufsCreate passwdFile 0 s).2 passwdFile = some h ∧
          entrySize (ufsCreate passwdFile 0 s).2.directory h = 0) := by
  have made : Mounted (ufsCreate passwdFile 0 s).2 :=
    mounted.perform (o := .create passwdFile 0) trivial
  refine ⟨made, ?_⟩
  have absent := mounted.missing missing
  have refines := (perform_refines mounted.volume (.create passwdFile 0) trivial).2
  unfold Refines at refines
  simp only [mapOp, mapStep, absent] at refines
  change _ ∧ fileMap (ufsCreate passwdFile 0 s).2 = _ at refines
  by_cases some_ : room s (.create passwdFile 0) = true
  · right
    have named : ¬ (passwdFile.bytes.length = 0 ∨ passwdFile.bytes.length ≥ ufsNameMax ∨
        (none : Option File).isSome = true ∨ ¬ room s (.create passwdFile 0) = true) := by
      rintro (short | long | taken | full)
      · exact absurd short (by decide)
      · exact absurd long (by decide)
      · cases taken
      · exact full some_
    rw [if_neg named] at refines
    obtain ⟨⟨slot, slots, result⟩, map⟩ := refines
    change slotOf (ufsCreate passwdFile 0 s).2.directory passwdFile.bytes = some slot at slots
    have found : ufsFind (ufsCreate passwdFile 0 s).2 passwdFile = some slot := by
      rw [ufsFind_eq_slotOf made.volume.laid.ready made.volume.named]
      exact slots
    refine ⟨slot, ?_, found, ?_⟩
    · rw [ufsResult] at result
      split at result
      · next handle same =>
        simp only [Prod.mk.injEq, Nat.cast_inj, and_true] at result
        have made' : (ufsCreate passwdFile 0 s).1 = some handle := same
        rw [made', result]
      · simp only [Prod.mk.injEq] at result
        omega
    · have file := (made.found found).2.2
      rw [map] at file
      simp only [Function.update_self, Option.some.injEq] at file
      rw [← length_fileAt, ← file, List.length_nil]
  · left
    rw [if_pos (Or.inr (Or.inr (Or.inr some_)))] at refines
    obtain ⟨result, map⟩ := refines
    refine ⟨?_, by rw [map]; exact absent⟩
    change ufsResult s (.create passwdFile 0) = _ at result
    rw [ufsResult] at result
    split at result
    · simp only [Prod.mk.injEq] at result
      omega
    · next same => exact same

/-- After a save the file is the table's, if it was saved at all; it is where the
file had room for it. -/
theorem usersPersist_saves {s : Ufs} (mounted : Mounted s) (accounts : Accounts) :
    Mounted (usersPersist accounts s) ∧
      (PasswdSaved (usersPersist accounts s) → HoldsTable (usersPersist accounts s) accounts) ∧
      (PasswdSaved s → HoldsTable (usersPersist accounts s) accounts) := by
  -- what a write to the empty file leaves
  have written {t : Ufs} {h : Nat} (mountedT : Mounted t) (found : ufsFind t passwdFile = some h)
      (empty : entrySize t.directory h = 0) :
      Mounted (perform (.writeAt h 0 (passwdImage accounts) 512) t) ∧
        (PasswdSaved (perform (.writeAt h 0 (passwdImage accounts) 512) t) →
          HoldsTable (perform (.writeAt h 0 (passwdImage accounts) 512) t) accounts) ∧
        (¬ NoRoom t h 512 →
          HoldsTable (perform (.writeAt h 0 (passwdImage accounts) 512) t) accounts) := by
    obtain ⟨after, full | holds⟩ := table_written mountedT found empty accounts
    · refine ⟨after, fun saved => ?_, fun roomy => absurd full.1 roomy⟩
      obtain ⟨f, file, length⟩ := after.passwdSaved_iff.mp saved
      rw [full.2, (mountedT.found found).2.2, Option.some.injEq] at file
      rw [← file, fileAt, List.length_map, List.length_range, empty] at length
      exact absurd length (by decide)
    · exact ⟨after, fun _ => holds, fun _ => holds⟩
  rcases found : ufsFind s passwdFile with _ | h
  · have absent : ¬ PasswdSaved s := fun ⟨h, found', _⟩ => by
      rw [found] at found'
      cases found'
    obtain ⟨made, outcome⟩ := passwd_created mounted found
    unfold usersPersist
    rw [found]
    rcases created : ufsCreate passwdFile 0 s with ⟨result, t⟩
    rw [created] at made outcome
    rcases outcome with ⟨rfl, missing⟩ | ⟨h, rfl, found', empty⟩
    · refine ⟨made, fun saved => ?_, fun saved => absurd saved absent⟩
      obtain ⟨f, file, _⟩ := made.passwdSaved_iff.mp saved
      rw [missing] at file
      cases file
    · have changed : Mounted (ufsChmod h 0 t).2 := made.perform (o := .chmod h 0) trivial
      have still := (made.find_eq changed (ufsChmod_names h 0 t)).trans found'
      have refines := (perform_refines made.volume (.chmod h 0) trivial).2
      have file := (changed.found still).2.2
      obtain ⟨_, named, file'⟩ := made.found found'
      unfold Refines at refines
      simp only [mapOp, named, Option.map_some, mapStep, file'] at refines
      change _ ∧ fileMap (ufsChmod h 0 t).2 = _ at refines
      rw [refines.2, Function.update_self, Option.some.injEq] at file
      have empty' : entrySize (ufsChmod h 0 t).2.directory h = 0 := by
        rw [← empty, ← length_fileAt, ← length_fileAt, ← file]
      obtain ⟨mountedT, holds, _⟩ := written changed still empty'
      exact ⟨mountedT, holds, fun saved => absurd saved absent⟩
  · obtain ⟨after, found', empty, capacity⟩ := truncated_empty mounted found
    rw [usersPersist_found found]
    obtain ⟨mountedT, holds, roomy⟩ := written after found' empty
    refine ⟨mountedT, holds, fun saved => roomy fun full => ?_⟩
    obtain ⟨h', found'', size⟩ := saved
    rw [found] at found''
    cases found''
    obtain ⟨valid, _, _⟩ := mounted.found found
    have slot := (handleValid_spec valid).1
    rw [Int.toNat_natCast] at slot
    have sized := mounted.volume.laid.sized h slot
    have small := mounted.volume.laid.allocated.capacity_le slot
    rw [ufsSize, if_pos valid, Int.toNat_natCast] at size
    have tight := full.1
    rw [capacity] at tight
    unfold wrap32 sectorSize at tight
    unfold userMaxAccounts recordSize at size
    omega

/-! ## Runs -/

theorem answers_read {s : Ufs} {handle : Int} {offset len : BitVec 32} {bytes : List UInt8}
    (answers : Answers s (.readAt handle offset len) (some bytes)) :
    (ufsReadAt handle offset.toNat len.toNat s).2.1 = bytes := congrArg Prod.snd answers

/-- A boot loads the table that its volume holds. -/
theorem usersInit_loads {u : Users} (mounted : Mounted u.ufs) {accounts : Accounts}
    (holds : HoldsTable u.ufs accounts) :
    (usersInit u).1 = false ∧ (usersInit u).2.accounts = accounts ∧
      Mounted (usersInit u).2.ufs ∧ HoldsTable (usersInit u).2.ufs accounts := by
  obtain ⟨h, found, size⟩ := holds.saved mounted
  obtain ⟨valid, named, file⟩ := mounted.found found
  obtain ⟨f, stored, bytes⟩ := holds
  have refines := (perform_refines mounted.volume (.readAt h 0 512) trivial).2
  have after := mounted.perform (o := .readAt h 0 512) trivial
  unfold Refines at refines
  simp only [mapOp, named, Option.map_some, mapStep, stored, bytes] at refines
  obtain ⟨result, map⟩ := refines
  have read : (ufsReadAt h 0 512 u.ufs).2.1 = passwdBytes accounts := by
    have second := answers_read result
    rwa [List.take_of_length_le (by rw [List.length_drop, length_passwdBytes]; decide)] at second
  have table : (fun i : Fin 16 => accountOf fun p =>
      (passwdBytes accounts).getD (i.val * recordSize + p) 0) = accounts := by
    have image : ∀ p < 512, (passwdBytes accounts).getD p 0 = passwdImage accounts p := by
      intro p hp
      rw [passwdBytes, List.getD_eq_getElem?_getD, List.getElem?_map, List.getElem?_range hp,
        Option.map_some, Option.getD_some]
    exact @accounts_of_image (fun p => (passwdBytes accounts).getD p 0) accounts image
  have length : userMaxAccounts * recordSize = 512 := rfl
  unfold usersInit
  simp only [found, size, ne_eq, not_true, if_false]
  rw [length, read, table]
  refine ⟨trivial, rfl, after, f, ?_, bytes⟩
  rw [← stored]
  exact congrFun map _

/-- What every addition and every reboot keeps. -/
structure Kept (u : Users) : Prop where
  mounted : Mounted u.ufs
  holds : HoldsTable u.ufs u.accounts
  tidy : Tidy u.accounts

theorem Kept.added {u : Users} (kept : Kept u) (username password : CString) (uid : BitVec 32) :
    Kept (usersAdd username password uid u).2 := by
  have tidy := kept.tidy.added username password uid
  by_cases refused : Refused username u.accounts
  · rw [usersAdd_refused password uid refused]
    exact kept
  obtain ⟨slot, _, result⟩ := usersAdd_accepted password uid refused
  rw [result] at tidy ⊢
  obtain ⟨mounted, _, holds⟩ := usersPersist_saves kept.mounted
    (withAccount u.accounts slot username password uid)
  exact ⟨mounted, holds (kept.holds.saved kept.mounted), tidy⟩

theorem Kept.rebooted {u : Users} (kept : Kept u) :
    Kept (usersReboot u) ∧ (usersReboot u).accounts = u.accounts := by
  obtain ⟨mounted, same⟩ := kept.mounted.remount
  obtain ⟨f, file, bytes⟩ := kept.holds
  obtain ⟨_, loaded, after, holds⟩ := usersInit_loads
    (u := { accounts := noAccounts, ufs := remount u.ufs.drive.sectors }) mounted
    ⟨f, by rw [same]; exact file, bytes⟩
  exact ⟨⟨after, loaded ▸ holds, loaded ▸ kept.tidy⟩, loaded⟩

/-- A table that is seeded and saved: from then on, whatever is added and however
often the machine is rebooted, names stay short and apart, an addition changes
one free account, and a boot loads a table with the same answers. -/
theorem accounts_survive (u₀ : Users) (mounted : Mounted u₀.ufs)
    (saved : PasswdSaved (seedDefaults u₀).ufs) (events : List UsersEvent) (u : Users)
    (reached : run usersStep (seedDefaults u₀) events = some u) :
    Tidy u.accounts ∧
      (∀ username password uid, (usersAdd username password uid u).1 = true →
        AddsOne username password uid u.accounts (usersAdd username password uid u).2.accounts) ∧
      ∀ n : Nat, SameAnswers (usersReboot^[n] u).accounts u.accounts := by
  have start : Kept (seedDefaults u₀) := by
    obtain ⟨after, holds, _⟩ := usersPersist_saves mounted (defaultAccounts u₀.accounts)
    exact ⟨after, holds saved, defaultAccounts_tidy u₀.accounts⟩
  have kept : Kept u := Lib.Machine.run_invariant
    (fun s e t kept _ stepped => by
      cases e with
      | add username password uid =>
        cases stepped
        exact kept.added username password uid
      | reboot =>
        cases stepped
        exact kept.rebooted.1)
    start (Lib.Machine.meets_always _ events) reached
  refine ⟨kept.tidy, fun username password uid => usersAdd_addsOne, fun n => ?_⟩
  have same : Kept (usersReboot^[n] u) ∧ (usersReboot^[n] u).accounts = u.accounts := by
    induction n with
    | zero => exact ⟨kept, rfl⟩
    | succ n ih =>
      rw [Function.iterate_succ_apply']
      exact ⟨ih.1.rebooted.1, ih.1.rebooted.2.trans ih.2⟩
  rw [same.2]
  exact ⟨fun _ _ => rfl, fun _ _ => rfl⟩

/-- A new disk, on which the first boot seeds and saves the defaults. -/
def blankUsers : Users := { accounts := noAccounts, ufs := freshVolume fun _ _ => 0 }

theorem blankUsers_saved : PasswdSaved (seedDefaults blankUsers).ufs :=
  ⟨0, by decide +kernel, by decide +kernel⟩

/-- An account is added, and the machine rebooted three times. -/
theorem accounts_survive_bob :
    let u := usersReboot (usersAdd bobName bobName 1001 (seedDefaults blankUsers)).2
    Tidy u.accounts ∧ SameAnswers (usersReboot^[2] u).accounts u.accounts := by
  obtain ⟨tidy, _, same⟩ := accounts_survive blankUsers (freshVolume_mounted _) blankUsers_saved
    [.add bobName bobName 1001, .reboot] _ rfl
  exact ⟨tidy, same 2⟩

end MiniKernel.Storage
