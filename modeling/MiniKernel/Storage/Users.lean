import MiniKernel.Storage.UfsRemount

/-!
# The account table

Source: kernel/core/users.c. The table is saved as one file of 16 records of 32
bytes, which is one sector. `users_init` reseeds the defaults wherever it does
not find a file of that size.
-/
namespace MiniKernel.Storage
open Drivers
open Lib (Buffer readU32 writeU32)

def userNameMax : Nat := 20
def userMaxAccounts : Nat := 16
def recordSize : Nat := 32

/-- ".passwd" -/
def passwdFile : CString := ⟨[0x2E, 0x70, 0x61, 0x73, 0x73, 0x77, 0x64], by simp⟩

/-- `account_t`. -/
structure Account where
  username : Fin 20 → UInt8
  uid : BitVec 32
  passwordHash : BitVec 32

abbrev Accounts := Fin 16 → Account

structure Users where
  accounts : Accounts
  ufs : Ufs

def hashBytes (h : BitVec 32) (bytes : List UInt8) : BitVec 32 :=
  bytes.foldl (fun h b => (h ^^^ b.toBitVec.setWidth 32) * 16777619) h

/-- "MiniKernelSalt" -/
def passwordSalt : List UInt8 :=
  [0x4D, 0x69, 0x6E, 0x69, 0x4B, 0x65, 0x72, 0x6E, 0x65, 0x6C, 0x53, 0x61, 0x6C, 0x74]

def hashPassword (password : CString) : BitVec 32 :=
  hashBytes (hashBytes 2166136261 passwordSalt) password.bytes

/-- The bytes of the username, and zeros. -/
def Account.name (a : Account) : Buffer := fun j => if h : j < 20 then a.username ⟨j, h⟩ else 0

def Account.inUse (a : Account) : Bool := a.username 0 ≠ 0

/-- `set_username`: the bytes behind the terminator stay. -/
def setUsername (a : Account) (name : CString) : Account :=
  let n := min name.bytes.length (userNameMax - 1)
  { a with
    username := fun j =>
      if j.val < n then name.bytes.getD j.val 0 else if j.val = n then 0 else a.username j }

/-- The record of an account, as `persist` builds it. -/
def recordOf (a : Account) : Buffer :=
  writeU32 (writeU32 a.name 20 a.uid.toNat) 24 a.passwordHash.toNat

def passwdImage (accounts : Accounts) : Buffer := fun p =>
  if h : p / recordSize < userMaxAccounts then recordOf (accounts ⟨p / recordSize, h⟩) (p % recordSize)
  else 0

/-- `persist`; every result is ignored. -/
def usersPersist (accounts : Accounts) (s : Ufs) : Ufs :=
  let buf := passwdImage accounts
  match ufsFind s passwdFile with
  | none =>
    match ufsCreate passwdFile 0 s with
    | (none, s) => s
    | (some handle, s) =>
      let s := (ufsChmod handle 0 s).2
      (ufsWriteAt handle 0 buf (userMaxAccounts * recordSize) s).2
  | some handle =>
    let s := (ufsTruncate handle 0 s).2
    (ufsWriteAt handle 0 buf (userMaxAccounts * recordSize) s).2

/-- "root" and "user" -/
def rootName : CString := ⟨[0x72, 0x6F, 0x6F, 0x74], by simp⟩
def userName : CString := ⟨[0x75, 0x73, 0x65, 0x72], by simp⟩

def defaultAccounts (accounts : Accounts) : Accounts := fun i =>
  let cleared := { accounts i with username := Function.update (accounts i).username 0 0 }
  if i = 0 then
    { setUsername cleared rootName with uid := 0, passwordHash := hashPassword rootName }
  else if i = 1 then
    { setUsername cleared userName with uid := 1000, passwordHash := hashPassword userName }
  else cleared

def seedDefaults (u : Users) : Users :=
  let accounts := defaultAccounts u.accounts
  { accounts := accounts, ufs := usersPersist accounts u.ufs }

def accountOf (record : Buffer) : Account where
  username := fun j => record j.val
  uid := BitVec.ofNat 32 (readU32 record 20)
  passwordHash := BitVec.ofNat 32 (readU32 record 24)

/-- `users_init`, and whether it has seeded the defaults. The buffer is static:
where a read fails it holds zeros. -/
def usersInit (u : Users) : Bool × Users :=
  match ufsFind u.ufs passwdFile with
  | none => (true, seedDefaults u)
  | some handle =>
    if ufsSize u.ufs handle ≠ userMaxAccounts * recordSize then (true, seedDefaults u)
    else
      let read := ufsReadAt handle 0 (userMaxAccounts * recordSize) u.ufs
      let buf : Buffer := fun p => read.2.1.getD p 0
      (false, { accounts := fun i => accountOf fun p => buf (i.val * recordSize + p), ufs := read.2.2 })

def nameTaken (accounts : Accounts) (username : CString) : Bool :=
  (List.finRange 16).any fun i => (accounts i).inUse && strEq (accounts i).name username

def freeAccount (accounts : Accounts) : Option (Fin 16) :=
  (List.finRange 16).find? fun i => !(accounts i).inUse

def withAccount (accounts : Accounts) (slot : Fin 16) (username password : CString)
    (uid : BitVec 32) : Accounts :=
  Function.update accounts slot
    { setUsername (accounts slot) username with uid := uid, passwordHash := hashPassword password }

/-- `users_add`; true is 0. -/
def usersAdd (username password : CString) (uid : BitVec 32) (u : Users) : Bool × Users :=
  if username.bytes.length = 0 ∨ username.bytes.length ≥ userNameMax then (false, u)
  else if nameTaken u.accounts username then (false, u)
  else
    match freeAccount u.accounts with
    | none => (false, u)
    | some slot =>
      let accounts := withAccount u.accounts slot username password uid
      (true, { accounts := accounts, ufs := usersPersist accounts u.ufs })

/-! ## The image of the table -/

theorem readU32_recordOf (a : Account) :
    readU32 (recordOf a) 20 = a.uid.toNat ∧ readU32 (recordOf a) 24 = a.passwordHash.toNat := by
  constructor
  · rw [recordOf, Lib.readU32_writeU32_other _ _ _ _ (by decide),
      Lib.readU32_writeU32 _ _ _ a.uid.isLt]
  · rw [recordOf, Lib.readU32_writeU32 _ _ _ a.passwordHash.isLt]

theorem recordOf_name (a : Account) (j : Fin 20) : recordOf a j.val = a.username j := by
  have hj := j.isLt
  rw [recordOf, Lib.writeU32_outside _ _ _ _ (by omega), Lib.writeU32_outside _ _ _ _ (by omega),
    Account.name, dif_pos hj]

theorem accountOf_recordOf (a : Account) : accountOf (recordOf a) = a := by
  obtain ⟨uid, hash⟩ := readU32_recordOf a
  unfold accountOf
  rw [uid, hash, BitVec.ofNat_toNat, BitVec.ofNat_toNat]
  cases a with
  | mk username uid passwordHash =>
    congr
    funext j
    exact recordOf_name _ j

theorem accountOf_congr {a b : Buffer} (same : ∀ p < 28, a p = b p) : accountOf a = accountOf b := by
  unfold accountOf
  rw [Lib.readU32_congr fun j hj => same (20 + j) (by omega),
    Lib.readU32_congr fun j hj => same (24 + j) (by omega)]
  congr
  funext j
  exact same j.val (by omega)

/-- What is saved is what is loaded. -/
theorem accounts_of_image {buf : Buffer} {accounts : Accounts}
    (image : ∀ p < 512, buf p = passwdImage accounts p) :
    (fun i : Fin 16 => accountOf fun p => buf (i.val * recordSize + p)) = accounts := by
  funext i
  have hi := i.isLt
  have bytes : accountOf (fun p => buf (i.val * recordSize + p)) =
      accountOf (recordOf (accounts i)) := by
    refine accountOf_congr fun p hp => ?_
    have quotient : (i.val * recordSize + p) / recordSize = i.val := by
      unfold recordSize
      omega
    have remainder : (i.val * recordSize + p) % recordSize = p := by
      unfold recordSize
      omega
    rw [image _ (by unfold recordSize; omega), passwdImage]
    simp only [quotient, remainder]
    exact dif_pos hi
  rw [bytes, accountOf_recordOf]

end MiniKernel.Storage
