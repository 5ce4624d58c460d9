import MiniKernel.Lib.Blocks
import MiniKernel.Storage.FileMap

/-!
# The filesystem in memory

Source: kernel/core/memfs.c. File contents live in blocks from `kmalloc`; the
table's own block is tracked as well, its slots are kept as a function. What
`kmalloc` answers is part of each call: nothing, or a block that is not in use,
with whatever bytes it holds. An access outside a live block has no result.
-/
namespace MiniKernel.Storage
open Lib (Buffer Block Blocks)

def memfsInitialCapacity : Nat := 4
def memfsNameMax : Nat := 32
def memfsInitialBufferSize : Nat := 256

/-- `sizeof(memfs_entry_t)`. -/
def memfsEntrySize : Nat := 56

structure MemfsEntry where
  name : Buffer
  data : Nat
  size : Nat
  capacity : Nat
  inUse : Bool

structure Memfs where
  /-- The slots of the table; only those below `entryCapacity` exist. -/
  entries : Nat → MemfsEntry
  entryCapacity : Nat
  /-- The address of the table, 0 before the first one. -/
  table : Nat
  blocks : Blocks

/-- An answer of `kmalloc`: the address, 0 for failure, and what the block holds,
as bytes and as table slots. -/
structure Grant where
  pointer : Nat
  bytes : Buffer
  slots : Nat → MemfsEntry

/-- `kmalloc` never returns a block in use, nor one larger than `PMM_MAX_MEMORY`. -/
def kmallocAnswer (size : Nat) (g : Grant) (blocks : Blocks) : Option Nat :=
  if g.pointer = 0 ∨ (blocks g.pointer).isSome ∨ size > 2 ^ 32 then none else some g.pointer

def initEntrySlot (e : MemfsEntry) : MemfsEntry :=
  { name := Function.update e.name 0 0, data := 0, size := 0, capacity := 0, inUse := false }

def copyEntrySlot (dst src : MemfsEntry) : MemfsEntry :=
  { src with name := fun i => if i < memfsNameMax then src.name i else dst.name i }

/-- `grow_table`; true is 0. The capacity stays far below the range of an `int`,
as `kmalloc` refuses the table before. -/
def growTable (g : Grant) (s : Memfs) : Option (Bool × Memfs) :=
  let newCapacity :=
    if s.entryCapacity = 0 then memfsInitialCapacity else s.entryCapacity * 2
  match kmallocAnswer (memfsEntrySize * newCapacity) g s.blocks with
  | none => some (false, s)
  | some newTable =>
    let blocks := s.blocks.acquire newTable (memfsEntrySize * newCapacity) g.bytes
    (blocks.release s.table).map fun blocks =>
      (true,
        { entries := fun i =>
            if i < s.entryCapacity then copyEntrySlot (g.slots i) (s.entries i)
            else initEntrySlot (g.slots i)
          entryCapacity := newCapacity
          table := newTable
          blocks := blocks })

/-- `str_eq(entry->name, name)`. -/
def MemfsEntry.named (e : MemfsEntry) (name : CString) : Bool :=
  (List.range name.bytes.length).all (fun j => e.name j = name.bytes.getD j 0) &&
    e.name name.bytes.length = 0

/-- `copy_name`. -/
def copyName (dst : Buffer) (name : CString) : Buffer := fun i =>
  let n := min name.bytes.length (memfsNameMax - 1)
  if i < n then name.bytes.getD i 0 else if i = n then 0 else dst i

def findSlot (s : Memfs) (name : CString) : Option Nat :=
  (List.range s.entryCapacity).find? fun i => (s.entries i).inUse && (s.entries i).named name

def findFreeSlot (s : Memfs) : Option Nat :=
  (List.range s.entryCapacity).find? fun i => !(s.entries i).inUse

/-- The slot `memfs_create` takes, growing the table if there is none free. -/
def takeSlot (g : Grant) (s : Memfs) : Option (Option Nat × Memfs) :=
  match findFreeSlot s with
  | some slot => some (some slot, s)
  | none => (growTable g s).map fun r => (if r.1 then some s.entryCapacity else none, r.2)

def memfsCreate (name : CString) (tableGrant bufferGrant : Grant) (s : Memfs) :
    Option (Int × Memfs) :=
  match findSlot s name with
  | some _ => some (-1, s)
  | none =>
    (takeSlot tableGrant s).map fun r =>
      match r.1 with
      | none => (-1, r.2)
      | some slot =>
        match kmallocAnswer memfsInitialBufferSize bufferGrant r.2.blocks with
        | none => (-1, r.2)
        | some buf =>
          (slot,
            { r.2 with
              entries := Function.update r.2.entries slot
                { name := copyName (r.2.entries slot).name name
                  data := buf
                  size := 0
                  capacity := memfsInitialBufferSize
                  inUse := true }
              blocks := r.2.blocks.acquire buf memfsInitialBufferSize bufferGrant.bytes })

def memfsFind (name : CString) (s : Memfs) : Int :=
  match findSlot s name with
  | some slot => slot
  | none => -1

def memfsDelete (name : CString) (s : Memfs) : Option (Int × Memfs) :=
  match findSlot s name with
  | none => some (-1, s)
  | some slot =>
    (s.blocks.release (s.entries slot).data).map fun blocks =>
      (0,
        { s with
          entries := Function.update s.entries slot (initEntrySlot (s.entries slot))
          blocks := blocks })

/-- The test of a handle in `memfs_size`, `memfs_write_at` and `memfs_read_at`. -/
def memfsValid (s : Memfs) (handle : Int) : Bool :=
  decide (0 ≤ handle) && decide (handle < s.entryCapacity) && (s.entries handle.toNat).inUse

def memfsSize (s : Memfs) (handle : Int) : Nat :=
  if memfsValid s handle then (s.entries handle.toNat).size else 0

/-- `ensure_capacity` of memfs.c: the new capacity. -/
def doubledCapacity (capacity needed : Nat) : Nat := doubleUntil needed 32 (wrap32 (capacity * 2))

/-- `ensure_capacity`; true is 0. -/
def memfsEnsureCapacity (slot needed : Nat) (g : Grant) (s : Memfs) : Option (Bool × Memfs) :=
  let e := s.entries slot
  if needed ≤ e.capacity then some (true, s)
  else
    let newCapacity := doubledCapacity e.capacity needed
    match kmallocAnswer newCapacity g s.blocks with
    | none => some (false, s)
    | some newBuf => do
      let blocks := s.blocks.acquire newBuf newCapacity g.bytes
      let old ← blocks.load e.data 0 e.size
      let blocks ← blocks.store newBuf 0 e.size fun i => old.getD i 0
      let blocks ← blocks.release e.data
      some (true,
        { s with
          entries := Function.update s.entries slot { e with data := newBuf, capacity := newCapacity }
          blocks := blocks })

def memfsWriteAt (handle : Int) (offset : Nat) (buf : Buffer) (len : Nat) (g : Grant) (s : Memfs) :
    Option (Int × Memfs) :=
  if ¬ memfsValid s handle then some (-1, s)
  else
    let needed := wrap32 (offset + len)
    if needed < offset then some (-1, s)
    else do
      let r ← memfsEnsureCapacity handle.toNat needed g s
      if ¬ r.1 then some (-1, r.2)
      else
        let e := r.2.entries handle.toNat
        let blocks ← r.2.blocks.store e.data offset len buf
        some (toInt32 len,
          { r.2 with
            entries := if needed > e.size then
                Function.update r.2.entries handle.toNat { e with size := needed }
              else r.2.entries
            blocks := blocks })

/-- `memfs_read_at`: the result and the bytes stored into the buffer. -/
def memfsReadAt (handle : Int) (offset len : Nat) (s : Memfs) : Option (Int × List UInt8) :=
  if ¬ memfsValid s handle then some (-1, [])
  else
    let e := s.entries handle.toNat
    if offset ≥ e.size then some (0, [])
    else
      let len := min len (e.size - offset)
      (s.blocks.load e.data offset len).map fun bytes => (toInt32 len, bytes)

inductive MemfsCall where
  | create (name : CString) (tableGrant bufferGrant : Grant)
  | find (name : CString)
  | delete (name : CString)
  | writeAt (handle : Int) (offset : BitVec 32) (buf : Buffer) (len : BitVec 32) (grant : Grant)
  | readAt (handle : Int) (offset len : BitVec 32)

/-- The result of a call, the bytes it stores for the caller, and what it leaves. -/
def memfsCall (s : Memfs) : MemfsCall → Option (Int × List UInt8 × Memfs)
  | .create name tableGrant bufferGrant =>
    (memfsCreate name tableGrant bufferGrant s).map fun r => (r.1, [], r.2)
  | .find name => some (memfsFind name s, [], s)
  | .delete name => (memfsDelete name s).map fun r => (r.1, [], r.2)
  | .writeAt handle offset buf len grant =>
    (memfsWriteAt handle offset.toNat buf len.toNat grant s).map fun r => (r.1, [], r.2)
  | .readAt handle offset len =>
    (memfsReadAt handle offset.toNat len.toNat s).map fun r => (r.1, r.2, s)

/-- Before the first file. -/
def memfsStart : Memfs where
  entries _ := { name := fun _ => 0, data := 0, size := 0, capacity := 0, inUse := false }
  entryCapacity := 0
  table := 0
  blocks _ := none

end MiniKernel.Storage
