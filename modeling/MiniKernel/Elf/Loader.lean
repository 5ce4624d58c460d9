import MiniKernel.Lib.LittleEndian
import MiniKernel.Memory.PageTables

/-!
# Loading ELF images

Source: kernel/core/elf/elf_loader.c. An image is memory from `data` on, of which
`size` bytes are the file; nothing keeps the code from reading beyond them but
its own checks. Every byte that is read of the image and every byte that is
written to a frame is noted. Offsets, counts and addresses wrap at 64 bits.
-/
namespace MiniKernel.Elf
open Lib (Buffer readU32 readU64)
open Memory.Paging (Word Vmm vmmWritable vmmUser)

structure Image where
  data : Buffer
  size : Word

/-- The page tables with the frame allocator, the bytes of the frames, and what
has been read and written so far. -/
structure Loader where
  vmm : Vmm
  bytes : Word → Nat → UInt8
  reads : List Nat
  writes : List (Word × Nat)

def pageSize4k : Word := 4096
def ehdrSize : Nat := 64
def phdrSize : Nat := 56
def ptLoad : Nat := 1
def elfMachineX86_64 : Nat := 0x3E
def elfClass64 : Nat := 2
def elfTypeExec : Nat := 2
def pfX : BitVec 32 := 0x1
def pfW : BitVec 32 := 0x2

def readU16 (buf : Buffer) (p : Nat) : Nat := (buf p).toNat + (buf (p + 1)).toNat * 2 ^ 8

/-- `elf64_ehdr_t`, as far as it is looked at. -/
structure Ehdr where
  ident : Nat → UInt8
  type : Nat
  machine : Nat
  entry : Word
  phoff : Word
  phentsize : Nat
  phnum : Nat

/-- `elf64_phdr_t`, as far as it is looked at. -/
structure Phdr where
  type : Nat
  flags : BitVec 32
  offset : Word
  vaddr : Word
  filesz : Word
  memsz : Word

def ehdrOf (data : Buffer) : Ehdr where
  ident := data
  type := readU16 data 16
  machine := readU16 data 18
  entry := BitVec.ofNat 64 (readU64 data 24)
  phoff := BitVec.ofNat 64 (readU64 data 32)
  phentsize := readU16 data 54
  phnum := readU16 data 56

def phdrOf (data : Buffer) (at_ : Nat) : Phdr where
  type := readU32 data at_
  flags := BitVec.ofNat 32 (readU32 data (at_ + 4))
  offset := BitVec.ofNat 64 (readU64 data (at_ + 8))
  vaddr := BitVec.ofNat 64 (readU64 data (at_ + 16))
  filesz := BitVec.ofNat 64 (readU64 data (at_ + 32))
  memsz := BitVec.ofNat 64 (readU64 data (at_ + 40))

/-- Where `data + eh->e_phoff + i * eh->e_phentsize` points to, in the image. -/
def Ehdr.phdrAt (eh : Ehdr) (i : Nat) : Word := eh.phoff + BitVec.ofNat 64 (i * eh.phentsize)

namespace Loader

/-- `len` bytes of the image are looked at. -/
def look (start len : Nat) (s : Loader) : Loader :=
  { s with reads := s.reads ++ (List.range len).map (start + ·) }

/-- `kview[offset] = b`. -/
def store (frame offset : Word) (b : UInt8) (s : Loader) : Loader :=
  { s with
    bytes := fun f => if f = frame then Function.update (s.bytes f) offset.toNat b else s.bytes f
    writes := s.writes ++ [(frame, offset.toNat)] }

/-- `for (i = 0; i < n; i++) kview[i] = 0`. -/
def zeroBytes (frame : Word) : Nat → Loader → Loader
  | 0, s => s
  | n + 1, s => (zeroBytes frame n s).store frame (BitVec.ofNat 64 n) 0

/-- `for (k = 0; k < n; k++) kview[page_off + k] = data[file_off + k]`. -/
def copyBytes (img : Image) (frame pageOff fileOff : Word) : Nat → Loader → Loader
  | 0, s => s
  | n + 1, s =>
    let from_ := (fileOff + BitVec.ofNat 64 n).toNat
    ((copyBytes img frame pageOff fileOff n s).look from_ 1).store frame
      (pageOff + BitVec.ofNat 64 n) (img.data from_)

end Loader

/-- The bytes of the segment that the file has for the page at `va`: where they
start and end. -/
def copyRange (ph : Phdr) (segmentVaddr va : Word) : Word × Word :=
  let segDataEnd := segmentVaddr + ph.filesz
  (if va > segmentVaddr then va else segmentVaddr,
    if va + pageSize4k < segDataEnd then va + pageSize4k else segDataEnd)

/-- The body of the loop of `load_segment`; false for -1. -/
def loadPage (space : Word) (img : Image) (ph : Phdr) (segmentVaddr va : Word) (s : Loader) :
    Bool × Loader :=
  let (frame, vmm) := s.vmm.allocFrame
  let s := { s with vmm := vmm }
  if frame = 0 then (false, s)
  else
    let s := s.zeroBytes frame 4096
    let flags := if ph.flags &&& pfW ≠ 0 then vmmUser ||| vmmWritable else vmmUser
    let (mapped, vmm) := s.vmm.vmmMapPageIn space va frame flags
    let s := { s with vmm := vmm }
    if ¬ mapped then (false, s)
    else
      let (copyStart, copyEnd) := copyRange ph segmentVaddr va
      if copyEnd > copyStart then
        let fileOff := ph.offset + (copyStart - segmentVaddr)
        let pageOff := copyStart - va
        (true, s.copyBytes img frame pageOff fileOff (copyEnd - copyStart).toNat)
      else (true, s)

/-- The loop of `load_segment` from `va` on, in at most `fuel` turns; `none` where
they do not suffice. -/
def loadPages (space : Word) (img : Image) (ph : Phdr) (segmentVaddr vaddrEnd : Word) :
    Nat → Word → Loader → Option (Bool × Loader)
  | 0, va, s => if va < vaddrEnd then none else some (true, s)
  | fuel + 1, va, s =>
    if va < vaddrEnd then
      match loadPage space img ph segmentVaddr va s with
      | (false, s) => some (false, s)
      | (true, s) => loadPages space img ph segmentVaddr vaddrEnd fuel (va + pageSize4k) s
    else some (true, s)

/-- There are no more pages than this: see `loadPages_ends`. -/
def maxPages : Nat := 2 ^ 52

/-- `load_segment`; false for -1. -/
def loadSegment (space : Word) (img : Image) (ph : Phdr) (loadBias : Word) (s : Loader) :
    Option (Bool × Loader) :=
  if ph.filesz > ph.memsz ∨ ph.offset > img.size ∨ ph.filesz > img.size - ph.offset then
    some (false, s)
  else if ph.vaddr + loadBias < ph.vaddr then some (false, s)
  else
    let segmentVaddr := ph.vaddr + loadBias
    if ph.memsz = 0 then some (true, s)
    else
      let vaddrStart := segmentVaddr &&& ~~~(pageSize4k - 1)
      let vaddrEnd := (segmentVaddr + ph.memsz + pageSize4k - 1) &&& ~~~(pageSize4k - 1)
      if vaddrEnd < segmentVaddr then some (false, s)
      else loadPages space img ph segmentVaddr vaddrEnd maxPages vaddrStart s

/-- The program headers as the loops come to them: where header `i` starts in the
image, and what it says. -/
structure Phdrs where
  start : Nat → Nat
  header : Nat → Phdr

def phdrsOf (img : Image) (eh : Ehdr) : Phdrs where
  start := fun i => (eh.phdrAt i).toNat
  header := fun i => phdrOf img.data (eh.phdrAt i).toNat

/-- The loop of `entry_is_executable` from header `i` on, with `left` to go. -/
def entryLoop (phdrs : Phdrs) (entry : Word) : Nat → Nat → Loader → Bool × Loader
  | 0, _, s => (false, s)
  | left + 1, i, s =>
    let ph := phdrs.header i
    let s := s.look (phdrs.start i) phdrSize
    if ph.type ≠ ptLoad ∨ ph.flags &&& pfX = 0 ∨ ph.memsz = 0 then
      entryLoop phdrs entry left (i + 1) s
    else if ph.vaddr + ph.memsz < ph.vaddr then (false, s)
    else if entry ≥ ph.vaddr ∧ entry < ph.vaddr + ph.memsz then (true, s)
    else entryLoop phdrs entry left (i + 1) s

/-- `entry_is_executable`. -/
def entryIsExecutable (img : Image) (eh : Ehdr) (s : Loader) : Bool × Loader :=
  entryLoop (phdrsOf img eh) eh.entry eh.phnum 0 s

/-- The loop of `elf_load` from header `i` on, with `left` to go. -/
def loadSegments (space : Word) (img : Image) (phdrs : Phdrs) (loadBias : Word) :
    Nat → Nat → Loader → Option (Bool × Loader)
  | 0, _, s => some (true, s)
  | left + 1, i, s =>
    let ph := phdrs.header i
    let s := s.look (phdrs.start i) phdrSize
    if ph.type ≠ ptLoad then loadSegments space img phdrs loadBias left (i + 1) s
    else
      match loadSegment space img ph loadBias s with
      | none => none
      | some (false, s) => some (false, s)
      | some (true, s) => loadSegments space img phdrs loadBias left (i + 1) s

/-- `elf_load`: the entry point, or `none` for -1; no answer at all where a loop
runs out of turns. -/
def elfLoad (space : Word) (img : Image) (loadBias : Word) (s : Loader) :
    Option (Option Word × Loader) :=
  if img.size.toNat < ehdrSize then some (none, s)
  else
    let eh := ehdrOf img.data
    let s := s.look 0 ehdrSize
    if eh.ident 0 ≠ 0x7F ∨ eh.ident 1 ≠ 0x45 ∨ eh.ident 2 ≠ 0x4C ∨ eh.ident 3 ≠ 0x46 then
      some (none, s)
    else if (eh.ident 4).toNat ≠ elfClass64 then some (none, s)
    else if eh.machine ≠ elfMachineX86_64 then some (none, s)
    else if eh.type ≠ elfTypeExec then some (none, s)
    else if eh.phentsize ≠ phdrSize then some (none, s)
    else if eh.phoff > img.size ∨ eh.phnum > (img.size - eh.phoff).toNat / eh.phentsize then
      some (none, s)
    else
      match entryIsExecutable img eh s with
      | (false, s) => some (none, s)
      | (true, s) =>
        match loadSegments space img (phdrsOf img eh) loadBias eh.phnum 0 s with
        | none => none
        | some (false, s) => some (none, s)
        | some (true, s) =>
          if eh.entry + loadBias < eh.entry then some (none, s)
          else some (some (eh.entry + loadBias), s)

end MiniKernel.Elf
