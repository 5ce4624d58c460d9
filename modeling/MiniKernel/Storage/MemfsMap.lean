import MiniKernel.Memory.HeapRuns
import MiniKernel.Storage.Memfs

/-!
# The filesystem in memory as a map

Source: kernel/core/memfs.c. `memFile` is what a slot holds, `memMap` what the
names stand for. Each call changes at most one slot; the others keep their
entries and their blocks, also while the table or a buffer moves.
-/
namespace MiniKernel.Storage
open Lib (Buffer Block Blocks)
open Lib.Blocks

/-! ## What the slots hold -/

structure MemFile where
  name : List UInt8
  bytes : List UInt8

/-- The name in an entry, up to its first zero. -/
def MemfsEntry.storedName (e : MemfsEntry) : List UInt8 :=
  ((List.range memfsNameMax).map e.name).takeWhile (· ≠ 0)

def memContents (s : Memfs) (e : MemfsEntry) : List UInt8 :=
  match s.blocks e.data with
  | none => []
  | some b => (List.range e.size).map b.bytes

/-- The slot exists and is in use. -/
def Memfs.Used (s : Memfs) (i : Nat) : Prop := i < s.entryCapacity ∧ (s.entries i).inUse = true

instance (s : Memfs) (i : Nat) : Decidable (s.Used i) := inferInstanceAs (Decidable (_ ∧ _))

def memFile (s : Memfs) (i : Nat) : Option MemFile :=
  if s.Used i then some ⟨(s.entries i).storedName, memContents s (s.entries i)⟩ else none

/-- A used entry has a block of its capacity, and its name is terminated. -/
structure DataOk (s : Memfs) (e : MemfsEntry) : Prop where
  nonzero : e.data ≠ 0
  notTable : e.data ≠ s.table
  live : ∃ b, s.blocks e.data = some b ∧ b.size = e.capacity
  fits : e.size ≤ e.capacity
  positive : 0 < e.capacity
  capacity : e.capacity < 2 ^ 32
  size : e.size < 2 ^ 31
  terminated : ∃ k < memfsNameMax, e.name k = 0

structure MemfsOk (s : Memfs) : Prop where
  small : s.entryCapacity ≤ 2 ^ 27
  untabled : s.entryCapacity = 0 → s.table = 0
  tabled : 0 < s.entryCapacity → s.table ≠ 0 ∧ (s.blocks s.table).isSome = true
  data : ∀ i, s.Used i → DataOk s (s.entries i)
  apart : ∀ i, s.Used i → ∀ j, s.Used j → (s.entries i).data = (s.entries j).data → i = j
  distinct : ∀ i, s.Used i → ∀ j, s.Used j →
    (s.entries i).storedName = (s.entries j).storedName → i = j

theorem memFile_used {s : Memfs} {i : Nat} (used : s.Used i) :
    memFile s i = some ⟨(s.entries i).storedName, memContents s (s.entries i)⟩ := if_pos used

theorem memFile_unused {s : Memfs} {i : Nat} (unused : ¬ s.Used i) : memFile s i = none :=
  if_neg unused

theorem memContents_live {s : Memfs} {e : MemfsEntry} {b : Block} (live : s.blocks e.data = some b) :
    memContents s e = (List.range e.size).map b.bytes := by
  simp only [memContents, live]

/-! ## Names -/

theorem named_iff {e : MemfsEntry} (name : CString) (term : ∃ k < memfsNameMax, e.name k = 0) :
    e.named name = true ↔ e.storedName = name.bytes := by
  rw [MemfsEntry.storedName, takeWhile_eq_iff e.name memfsNameMax name.bytes name.nonzero term]
  simp [MemfsEntry.named]

theorem copyName_stored (dst : Buffer) (name : CString) (e : MemfsEntry)
    (short : name.bytes.length < memfsNameMax) (copied : e.name = copyName dst name) :
    (∃ k < memfsNameMax, e.name k = 0) ∧ e.storedName = name.bytes := by
  have length : min name.bytes.length (memfsNameMax - 1) = name.bytes.length := by
    unfold memfsNameMax at *
    omega
  have zero : e.name name.bytes.length = 0 := by
    rw [copied]
    simp [copyName, length]
  have term : ∃ k < memfsNameMax, e.name k = 0 := ⟨_, short, zero⟩
  refine ⟨term, ?_⟩
  rw [MemfsEntry.storedName, takeWhile_eq_iff e.name memfsNameMax name.bytes name.nonzero term]
  refine ⟨fun j hj => ?_, zero⟩
  rw [copied]
  simp [copyName, length, hj]

theorem findSlot_some {s : Memfs} (ok : MemfsOk s) {name : CString} {slot : Nat}
    (found : findSlot s name = some slot) :
    s.Used slot ∧ (s.entries slot).storedName = name.bytes := by
  have holds := List.find?_some found
  rw [Bool.and_eq_true] at holds
  have used : s.Used slot :=
    ⟨List.mem_range.mp (List.mem_of_find?_eq_some found), holds.1⟩
  exact ⟨used, (named_iff name (ok.data slot used).terminated).mp holds.2⟩

theorem findSlot_none {s : Memfs} (ok : MemfsOk s) {name : CString}
    (absent : findSlot s name = none) (i : Nat) (used : s.Used i) :
    (s.entries i).storedName ≠ name.bytes := by
  intro same
  have none := List.find?_eq_none.mp absent i (List.mem_range.mpr used.1)
  have named := (named_iff name (ok.data i used).terminated).mpr same
  simp [used.2, named] at none

theorem findFreeSlot_some {s : Memfs} {slot : Nat} (found : findFreeSlot s = some slot) :
    slot < s.entryCapacity ∧ ¬ s.Used slot := by
  have free := List.find?_some found
  refine ⟨List.mem_range.mp (List.mem_of_find?_eq_some found), fun used => ?_⟩
  simp [used.2] at free

/-! ## One slot changes -/

/-- A slot that is not touched keeps its file. -/
theorem memFile_kept {s t : Memfs} {i : Nat} (used : t.Used i ↔ s.Used i)
    (name : s.Used i → (t.entries i).storedName = (s.entries i).storedName)
    (data : s.Used i → (t.entries i).data = (s.entries i).data)
    (size : s.Used i → (t.entries i).size = (s.entries i).size)
    (blocks : s.Used i → t.blocks (s.entries i).data = s.blocks (s.entries i).data) :
    memFile t i = memFile s i := by
  by_cases own : s.Used i
  · rw [memFile_used own, memFile_used (used.mpr own), name own, memContents, memContents, data own,
      size own, blocks own]
  · rw [memFile_unused own, memFile_unused fun h => own (used.mp h)]

/-- `t` is `s` with slot `slot` changed; blocks of other slots, and the table's, are left alone. -/
structure OneSlot (slot : Nat) (s t : Memfs) : Prop where
  capacity : t.entryCapacity = s.entryCapacity
  table : t.table = s.table
  entries : ∀ i, i ≠ slot → t.entries i = s.entries i
  blocks : ∀ i, i ≠ slot → s.Used i → t.blocks (s.entries i).data = s.blocks (s.entries i).data
  tableBlock : 0 < s.entryCapacity → (t.blocks s.table).isSome = (s.blocks s.table).isSome

theorem OneSlot.used {slot i : Nat} {s t : Memfs} (one : OneSlot slot s t) (other : i ≠ slot) :
    t.Used i ↔ s.Used i := by
  unfold Memfs.Used
  rw [one.capacity, one.entries i other]

theorem OneSlot.memFile {slot i : Nat} {s t : Memfs} (one : OneSlot slot s t) (other : i ≠ slot) :
    memFile t i = memFile s i := by
  have same := one.entries i other
  exact memFile_kept (one.used other) (fun _ => by rw [same]) (fun _ => by rw [same])
    (fun _ => by rw [same]) (one.blocks i other)

theorem OneSlot.ok {slot : Nat} {s t : Memfs} (one : OneSlot slot s t) (ok : MemfsOk s)
    (own : t.Used slot → DataOk t (t.entries slot))
    (apart : t.Used slot → ∀ j, j ≠ slot → s.Used j →
      (s.entries j).data ≠ (t.entries slot).data)
    (names : t.Used slot → ∀ j, j ≠ slot → s.Used j →
      (s.entries j).storedName ≠ (t.entries slot).storedName) : MemfsOk t := by
  constructor
  · rw [one.capacity]
    exact ok.small
  · rw [one.capacity, one.table]
    exact ok.untabled
  · rw [one.capacity, one.table]
    intro positive
    rw [one.tableBlock positive]
    exact ok.tabled positive
  · intro i used
    by_cases same : i = slot
    · subst same
      exact own used
    · have usedS := (one.used same).mp used
      have data := ok.data i usedS
      rw [one.entries i same]
      refine { data with notTable := ?_, live := ?_ }
      · rw [one.table]
        exact data.notTable
      · rw [one.blocks i same usedS]
        exact data.live
  · intro i usedI j usedJ same
    by_cases hi : i = slot
    · subst hi
      by_contra other
      have hj : j ≠ i := fun h => other h.symm
      rw [one.entries j hj] at same
      exact apart usedI j hj ((one.used hj).mp usedJ) same.symm
    · by_cases hj : j = slot
      · subst hj
        rw [one.entries i hi] at same
        exact absurd same (apart usedJ i hi ((one.used hi).mp usedI))
      · rw [one.entries i hi, one.entries j hj] at same
        exact ok.apart i ((one.used hi).mp usedI) j ((one.used hj).mp usedJ) same
  · intro i usedI j usedJ same
    by_cases hi : i = slot
    · subst hi
      by_contra other
      have hj : j ≠ i := fun h => other h.symm
      rw [one.entries j hj] at same
      exact names usedI j hj ((one.used hj).mp usedJ) same.symm
    · by_cases hj : j = slot
      · subst hj
        rw [one.entries i hi] at same
        exact absurd same (names usedJ i hi ((one.used hi).mp usedI))
      · rw [one.entries i hi, one.entries j hj] at same
        exact ok.distinct i ((one.used hi).mp usedI) j ((one.used hj).mp usedJ) same

/-! ## `kmalloc` and the table -/

theorem kmallocAnswer_some {size p : Nat} {g : Grant} {blocks : Blocks}
    (answered : kmallocAnswer size g blocks = some p) :
    p ≠ 0 ∧ blocks p = none ∧ size ≤ 2 ^ 32 := by
  unfold kmallocAnswer at answered
  split at answered
  · cases answered
  · next refused =>
    cases answered
    push Not at refused
    refine ⟨refused.1, ?_, by omega⟩
    simpa using refused.2.1

/-- What the kernel's heap answers is such an answer, if the blocks are among its
live allocations. -/
theorem kmalloc_is_answer {boot : Memory.Pmm} {s : Memory.HeapState}
    (zero : Memory.isUsed boot 0 = true) (inv : Memory.HeapInvariant boot s) {blocks : Blocks}
    (live : ∀ p, (blocks p).isSome = true → (s.live p).isSome = true)
    (size : Memory.Paging.Word) :
    ∃ p mem, Memory.kmallocMem size s.mem = some (p, mem) ∧ ∀ bytes slots,
      kmallocAnswer size.toNat ⟨p, bytes, slots⟩ blocks = if p = 0 then none else some p := by
  obtain ⟨p, mem, result, fresh, after⟩ := inv.kmalloc zero size
  refine ⟨p, mem, result, fun bytes slots => ?_⟩
  unfold kmallocAnswer
  by_cases null : p = 0
  · rw [if_pos (Or.inl null), if_pos null]
  rw [if_neg null, if_neg]
  rintro (zero' | taken | large)
  · exact null zero'
  · have := live p taken
    rw [fresh null] at this
    cases this
  · -- the block lies in frames, of which there are 2^20
    obtain ⟨h, _, intact, _⟩ := after.heap zero
    have alive : (Memory.afterKmalloc size s p mem).live p = some size.toNat := by
      unfold Memory.afterKmalloc
      simp only [if_neg null, Function.update_self]
    obtain ⟨b, hb, _, _, room⟩ := intact.live p _ alive
    have inside := (h.owned b hb).tracked
    unfold Memory.HeapBlock.stop Memory.pmmMaxFrames Memory.pmmFrameSize at inside
    omega

theorem MemfsOk.notData {s : Memfs} (ok : MemfsOk s) {p i : Nat} (free : s.blocks p = none)
    (used : s.Used i) : (s.entries i).data ≠ p := by
  rintro rfl
  obtain ⟨b, live, _⟩ := (ok.data i used).live
  rw [free] at live
  cases live

theorem MemfsOk.notTable {s : Memfs} (ok : MemfsOk s) {p : Nat} (free : s.blocks p = none)
    (positive : 0 < s.entryCapacity) : s.table ≠ p := by
  rintro rfl
  have := (ok.tabled positive).2
  rw [free] at this
  cases this

theorem initEntrySlot_unused (e : MemfsEntry) : (initEntrySlot e).inUse = false := rfl

theorem copyEntrySlot_stored (dst src : MemfsEntry) :
    (copyEntrySlot dst src).storedName = src.storedName := rfl

/-- `grow_table` fails without a change, or gives every file to a larger table. -/
theorem growTable_spec {s : Memfs} (ok : MemfsOk s) (g : Grant) :
    growTable g s = some (false, s) ∨ ∃ t, growTable g s = some (true, t) ∧ MemfsOk t ∧
      (∀ i, memFile t i = memFile s i) ∧ s.entryCapacity < t.entryCapacity ∧
      ¬ t.Used s.entryCapacity := by
  unfold growTable
  simp only
  generalize hcap : (if s.entryCapacity = 0 then memfsInitialCapacity
    else s.entryCapacity * 2) = newCapacity
  have more : s.entryCapacity < newCapacity := by
    rw [← hcap]
    unfold memfsInitialCapacity
    split <;> omega
  split
  · exact Or.inl rfl
  next p answered =>
  obtain ⟨nonzero, free, small⟩ := kmallocAnswer_some answered
  right
  have released : ∃ blocks, (s.blocks.acquire p (memfsEntrySize * newCapacity) g.bytes).release
        s.table = some blocks ∧ (blocks p).isSome = true ∧
      ∀ i, s.Used i → blocks (s.entries i).data = s.blocks (s.entries i).data := by
    have kept (i : Nat) (used : s.Used i) : acquire s.blocks p (memfsEntrySize * newCapacity)
        g.bytes (s.entries i).data = s.blocks (s.entries i).data :=
      Function.update_of_ne (ok.notData free used) ..
    have new : acquire s.blocks p (memfsEntrySize * newCapacity) g.bytes p =
        some ⟨memfsEntrySize * newCapacity, g.bytes⟩ := Function.update_self ..
    rcases Nat.eq_zero_or_pos s.entryCapacity with empty | positive
    · rw [ok.untabled empty]
      exact ⟨_, rfl, by rw [new]; rfl, kept⟩
    · have other := ok.notTable free positive
      obtain ⟨tableNonzero, tableLive⟩ := ok.tabled positive
      obtain ⟨b, live⟩ := Option.isSome_iff_exists.mp tableLive
      have live' : acquire s.blocks p (memfsEntrySize * newCapacity) g.bytes s.table = some b := by
        rw [← live]
        exact Function.update_of_ne other ..
      refine ⟨_, release_live tableNonzero live', ?_, fun i used => ?_⟩
      · rw [Function.update_of_ne (Ne.symm other), new]
        rfl
      · rw [Function.update_of_ne (ok.data i used).notTable]
        exact kept i used
  obtain ⟨blocks, released, newLive, kept⟩ := released
  rw [released]
  let t : Memfs :=
    { entries := fun i =>
        if i < s.entryCapacity then copyEntrySlot (g.slots i) (s.entries i)
        else initEntrySlot (g.slots i)
      entryCapacity := newCapacity
      table := p
      blocks := blocks }
  have old (i : Nat) (hi : i < s.entryCapacity) :
      t.entries i = copyEntrySlot (g.slots i) (s.entries i) := if_pos hi
  have used (i : Nat) : t.Used i ↔ s.Used i := by
    unfold Memfs.Used
    by_cases hi : i < s.entryCapacity
    · rw [old i hi]
      exact and_congr_left fun _ => iff_of_true (Nat.lt_trans hi more) hi
    · have fresh : t.entries i = initEntrySlot (g.slots i) := if_neg hi
      rw [fresh, initEntrySlot_unused]
      simp [hi]
  have name (i : Nat) (h : s.Used i) :
      (t.entries i).storedName = (s.entries i).storedName := by
    rw [old i h.1]
    exact copyEntrySlot_stored _ _
  have data (i : Nat) (h : s.Used i) : (t.entries i).data = (s.entries i).data := by
    rw [old i h.1]
    rfl
  refine ⟨t, rfl, ⟨?_, ?_, ?_, ?_, ?_, ?_⟩, fun i => ?_, more, ?_⟩
  · change newCapacity ≤ 2 ^ 27
    unfold memfsEntrySize at small
    omega
  · intro empty
    change newCapacity = 0 at empty
    omega
  · exact fun _ => ⟨nonzero, newLive⟩
  · intro i usedT
    have usedS := (used i).mp usedT
    have h := ok.data i usedS
    have entry := old i usedS.1
    obtain ⟨k, hk, zero⟩ := h.terminated
    rw [entry]
    refine ⟨h.nonzero, ok.notData free usedS, ?_, h.fits, h.positive, h.capacity, h.size,
      ⟨k, hk, ?_⟩⟩
    · change ∃ b, blocks (s.entries i).data = some b ∧ b.size = (s.entries i).capacity
      rw [kept i usedS]
      exact h.live
    · rw [← zero]
      exact if_pos hk
  · intro i usedI j usedJ same
    rw [data i ((used i).mp usedI), data j ((used j).mp usedJ)] at same
    exact ok.apart i ((used i).mp usedI) j ((used j).mp usedJ) same
  · intro i usedI j usedJ same
    rw [name i ((used i).mp usedI), name j ((used j).mp usedJ)] at same
    exact ok.distinct i ((used i).mp usedI) j ((used j).mp usedJ) same
  · exact memFile_kept (used i) (name i) (data i)
      (fun h => by rw [old i h.1]; rfl) (kept i)
  · intro h
    exact Nat.lt_irrefl _ ((used _).mp h).1

/-! ## The calls on slots -/

theorem memFile_name {s : Memfs} {i : Nat} {f : MemFile} (held : memFile s i = some f) :
    s.Used i ∧ f.name = (s.entries i).storedName ∧ f.bytes = memContents s (s.entries i) := by
  unfold memFile at held
  split at held
  · next used =>
    cases held
    exact ⟨used, rfl, rfl⟩
  · cases held

theorem findSlot_none_file {s : Memfs} (ok : MemfsOk s) {name : CString}
    (absent : findSlot s name = none) (i : Nat) (f : MemFile) (held : memFile s i = some f) :
    f.name ≠ name.bytes := by
  obtain ⟨used, same, _⟩ := memFile_name held
  rw [same]
  exact findSlot_none ok absent i used

/-- Finding a slot for a new file changes no file. -/
theorem takeSlot_spec {s : Memfs} (ok : MemfsOk s) (g : Grant) :
    ∃ r t, takeSlot g s = some (r, t) ∧ MemfsOk t ∧ (∀ i, memFile t i = memFile s i) ∧
      ∀ slot, r = some slot → slot < t.entryCapacity ∧ ¬ t.Used slot := by
  unfold takeSlot
  split
  · next slot found =>
    refine ⟨_, s, rfl, ok, fun _ => rfl, fun slot' same => ?_⟩
    cases same
    exact findFreeSlot_some found
  · rcases growTable_spec ok g with refused | ⟨t, grown, okT, files, more, free⟩
    · rw [refused]
      exact ⟨none, s, rfl, ok, fun _ => rfl, fun _ same => by cases same⟩
    · rw [grown]
      refine ⟨_, t, rfl, okT, files, fun slot same => ?_⟩
      cases same
      exact ⟨more, free⟩

/-- Whether `kmalloc` answers what the call asks for. -/
def createGranted (tableGrant bufferGrant : Grant) (s : Memfs) : Bool :=
  match takeSlot tableGrant s with
  | some (some _, t) => (kmallocAnswer memfsInitialBufferSize bufferGrant t.blocks).isSome
  | _ => false

/-- `memfs_create` makes an empty file in an unused slot, or changes no file. -/
theorem memfsCreate_spec {s : Memfs} (ok : MemfsOk s) {name : CString}
    (short : name.bytes.length < memfsNameMax) (tableGrant bufferGrant : Grant) :
    ∃ r t, memfsCreate name tableGrant bufferGrant s = some (r, t) ∧ MemfsOk t ∧
      if findSlot s name = none ∧ createGranted tableGrant bufferGrant s = true then
        ∃ slot : Nat, r = slot ∧ memFile s slot = none ∧
          ∀ i, memFile t i = if i = slot then some ⟨name.bytes, []⟩ else memFile s i
      else r = -1 ∧ ∀ i, memFile t i = memFile s i := by
  unfold memfsCreate
  cases found : findSlot s name with
  | some slot => exact ⟨-1, s, rfl, ok, by simp⟩
  | none =>
    obtain ⟨r, t, taken, okT, files, free⟩ := takeSlot_spec ok tableGrant
    simp only [taken, createGranted, Option.map_some, true_and]
    cases r with
    | none => exact ⟨-1, t, rfl, okT, by simpa using files⟩
    | some slot =>
      obtain ⟨hslot, unused⟩ := free slot rfl
      simp only
      rcases Option.eq_none_or_eq_some
        (kmallocAnswer memfsInitialBufferSize bufferGrant t.blocks) with refused | ⟨buf, answered⟩
      · simp only [refused]
        exact ⟨-1, t, rfl, okT, by simpa using files⟩
      · simp only [answered]
        obtain ⟨nonzero, freeBuf, _⟩ := kmallocAnswer_some answered
        let e : MemfsEntry :=
          { name := copyName (t.entries slot).name name
            data := buf
            size := 0
            capacity := memfsInitialBufferSize
            inUse := true }
        let u : Memfs :=
          { t with
            entries := Function.update t.entries slot e
            blocks := t.blocks.acquire buf memfsInitialBufferSize bufferGrant.bytes }
        obtain ⟨term, stored⟩ := copyName_stored (t.entries slot).name name e short rfl
        have entry : u.entries slot = e := Function.update_self ..
        have block : u.blocks buf = some ⟨memfsInitialBufferSize, bufferGrant.bytes⟩ :=
          Function.update_self ..
        have one : OneSlot slot t u := by
          refine ⟨rfl, rfl, fun i other => Function.update_of_ne other .., fun i _ used => ?_,
            fun positive => ?_⟩
          · exact Function.update_of_ne (okT.notData freeBuf used) ..
          · have other := okT.notTable freeBuf positive
            change (Function.update t.blocks buf _ t.table).isSome = _
            rw [Function.update_of_ne other]
        have usedU : u.Used slot := ⟨hslot, by rw [entry]⟩
        refine ⟨slot, u, rfl, one.ok okT (fun _ => ?_) (fun _ j _ usedJ => ?_)
          (fun _ j _ usedJ => ?_), ?_⟩
        · rw [entry]
          refine ⟨nonzero, ?_, ⟨_, block, rfl⟩, Nat.zero_le _, show 0 < 256 by decide,
            show 256 < 2 ^ 32 by decide, show 0 < 2 ^ 31 by decide, term⟩
          exact Ne.symm (okT.notTable freeBuf (Nat.zero_lt_of_lt hslot))
        · rw [entry]
          exact okT.notData freeBuf usedJ
        · rw [entry, stored]
          have held := memFile_used usedJ
          rw [files j] at held
          exact findSlot_none_file ok found j _ held
        · simp only [Option.isSome_some, if_true]
          refine ⟨slot, rfl, by rw [← files]; exact memFile_unused unused, fun i => ?_⟩
          by_cases own : i = slot
          · rw [if_pos own, own, memFile_used usedU, entry, stored, memContents_live block]
            rfl
          · rw [if_neg own, one.memFile own, files]

theorem memfsFind_spec {s : Memfs} (ok : MemfsOk s) (name : CString) :
    (memfsFind name s = -1 ∧ ∀ i f, memFile s i = some f → f.name ≠ name.bytes) ∨
      ∃ slot : Nat, memfsFind name s = slot ∧ ∃ f, memFile s slot = some f ∧ f.name = name.bytes := by
  unfold memfsFind
  split
  · next slot found =>
    obtain ⟨used, same⟩ := findSlot_some ok found
    exact Or.inr ⟨slot, rfl, _, memFile_used used, same⟩
  · next absent => exact Or.inl ⟨rfl, findSlot_none_file ok absent⟩

/-- `memfs_delete` empties the slot of the name, if there is one. -/
theorem memfsDelete_spec {s : Memfs} (ok : MemfsOk s) (name : CString) :
    ∃ r t, memfsDelete name s = some (r, t) ∧ MemfsOk t ∧
      ((r = -1 ∧ t = s ∧ ∀ i f, memFile s i = some f → f.name ≠ name.bytes) ∨
        (r = 0 ∧ ∃ slot f, memFile s slot = some f ∧ f.name = name.bytes ∧
          ∀ i, memFile t i = if i = slot then none else memFile s i)) := by
  unfold memfsDelete
  split
  · next absent =>
    exact ⟨-1, s, rfl, ok, Or.inl ⟨rfl, rfl, findSlot_none_file ok absent⟩⟩
  · next slot found =>
    obtain ⟨used, same⟩ := findSlot_some ok found
    have data := ok.data slot used
    obtain ⟨b, live, _⟩ := data.live
    rw [release_live data.nonzero live]
    let t : Memfs :=
      { s with
        entries := Function.update s.entries slot (initEntrySlot (s.entries slot))
        blocks := Function.update s.blocks (s.entries slot).data none }
    have entry : t.entries slot = initEntrySlot (s.entries slot) := Function.update_self ..
    have unused : ¬ t.Used slot := fun h => by
      have := h.2
      rw [entry] at this
      cases this
    have one : OneSlot slot s t := by
      refine ⟨rfl, rfl, fun i other => Function.update_of_ne other .., fun i other usedI => ?_,
        fun _ => ?_⟩
      · exact Function.update_of_ne (fun h => other (ok.apart i usedI slot used h)) ..
      · change (Function.update s.blocks (s.entries slot).data none s.table).isSome = _
        rw [Function.update_of_ne (Ne.symm data.notTable)]
    refine ⟨0, t, rfl, one.ok ok (fun h => absurd h unused) (fun h => absurd h unused)
      (fun h => absurd h unused), Or.inr ⟨rfl, slot, _, memFile_used used, same, fun i => ?_⟩⟩
    by_cases own : i = slot
    · rw [if_pos own, own, memFile_unused unused]
    · rw [if_neg own, one.memFile own]

theorem doubledCapacity_spec {capacity needed : Nat} (positive : 0 < capacity)
    (more : capacity < needed) (small : needed < 2 ^ 31) :
    needed ≤ doubledCapacity capacity needed ∧ doubledCapacity capacity needed < 2 ^ 32 := by
  have noWrap : wrap32 (capacity * 2) = capacity * 2 := Nat.mod_eq_of_lt (by omega)
  have spec := doubleUntil_spec needed 32 (capacity * 2) (by omega) small (by omega)
  rw [doubledCapacity, noWrap]
  omega

/-- Whether `kmalloc` gives a larger buffer where one is needed. -/
def writeGranted (slot needed : Nat) (g : Grant) (s : Memfs) : Bool :=
  decide (needed ≤ (s.entries slot).capacity) ||
    (kmallocAnswer (doubledCapacity (s.entries slot).capacity needed) g s.blocks).isSome

/-- `ensure_capacity` moves the contents to a buffer that is large enough, or
changes nothing. -/
theorem memfsEnsureCapacity_spec {s : Memfs} (ok : MemfsOk s) {slot needed : Nat}
    (used : s.Used slot) (small : needed < 2 ^ 31) (g : Grant) :
    if writeGranted slot needed g s = true then
      ∃ t, memfsEnsureCapacity slot needed g s = some (true, t) ∧ MemfsOk t ∧
        OneSlot slot s t ∧ t.Used slot ∧ needed ≤ (t.entries slot).capacity ∧
        (t.entries slot).size = (s.entries slot).size ∧ memFile t slot = memFile s slot
    else memfsEnsureCapacity slot needed g s = some (false, s) := by
  have data := ok.data slot used
  obtain ⟨b, live, room⟩ := data.live
  unfold writeGranted memfsEnsureCapacity
  simp only
  by_cases fits : needed ≤ (s.entries slot).capacity
  · simp only [fits, decide_true, Bool.true_or, if_true]
    exact ⟨s, rfl, ok, ⟨rfl, rfl, fun _ _ => rfl, fun _ _ _ => rfl, fun _ => rfl⟩, used, fits, rfl,
      rfl⟩
  simp only [fits, decide_false, Bool.false_or, if_false]
  cases answered : kmallocAnswer (doubledCapacity (s.entries slot).capacity needed) g s.blocks with
  | none => simp
  | some p =>
    obtain ⟨nonzero, free, _⟩ := kmallocAnswer_some answered
    obtain ⟨enough, bound⟩ := doubledCapacity_spec data.positive (Nat.not_le.mp fits) small
    have other : (s.entries slot).data ≠ p := ok.notData free used
    generalize doubledCapacity (s.entries slot).capacity needed = capacity at *
    let old : List UInt8 := (List.range (s.entries slot).size).map b.bytes
    let copied : Buffer := patch g.bytes 0 (s.entries slot).size fun i => old.getD i 0
    have oldLive : s.blocks.acquire p capacity g.bytes (s.entries slot).data = some b := by
      rw [← live]
      exact Function.update_of_ne other ..
    have newLive : s.blocks.acquire p capacity g.bytes p = some ⟨capacity, g.bytes⟩ :=
      Function.update_self ..
    have loaded := @load_live _ _ 0 (s.entries slot).size _ oldLive
      (by rw [room]; have := data.fits; omega)
    simp only [Nat.zero_add] at loaded
    have stored := @store_live _ _ 0 (s.entries slot).size _
      (fun i => old.getD i 0) newLive (by simp only; have := data.fits; omega)
    let middle : Blocks := Function.update (s.blocks.acquire p capacity g.bytes) p
      (some { size := capacity, bytes := copied })
    have oldMiddle : middle (s.entries slot).data = some b := by
      rw [← oldLive]
      exact Function.update_of_ne other ..
    have released := release_live data.nonzero oldMiddle
    let t : Memfs :=
      { s with
        entries := Function.update s.entries slot
          { s.entries slot with data := p, capacity := capacity }
        blocks := Function.update middle (s.entries slot).data none }
    have entry : t.entries slot = { s.entries slot with data := p, capacity := capacity } :=
      Function.update_self ..
    have blockT : t.blocks p = some ⟨capacity, copied⟩ := by
      change Function.update middle (s.entries slot).data none p = _
      rw [Function.update_of_ne (Ne.symm other)]
      exact Function.update_self ..
    have outside (q : Nat) (hp : q ≠ p) (hd : q ≠ (s.entries slot).data) :
        t.blocks q = s.blocks q := by
      change Function.update middle (s.entries slot).data none q = _
      rw [Function.update_of_ne hd]
      change Function.update (acquire s.blocks p capacity g.bytes) p _ q = _
      rw [Function.update_of_ne hp]
      exact Function.update_of_ne hp ..
    have usedT : t.Used slot := ⟨used.1, by rw [entry]; exact used.2⟩
    have one : OneSlot slot s t := by
      refine ⟨rfl, rfl, fun i ne => Function.update_of_ne ne .., fun i ne usedI => ?_,
        fun positive => ?_⟩
      · exact outside _ (ok.notData free usedI) fun h => ne (ok.apart i usedI slot used h)
      · rw [outside _ (ok.notTable free positive) (Ne.symm data.notTable)]
    simp only [Option.isSome_some, if_true]
    refine ⟨t, ?_, one.ok ok (fun _ => ?_) (fun _ j _ usedJ => ?_) (fun _ j ne usedJ => ?_), one,
      usedT, ?_, ?_, ?_⟩
    · simp only [loaded, stored, released, Option.bind_eq_bind, Option.bind_some, old, copied,
        middle, t]
    · rw [entry]
      exact ⟨nonzero, Ne.symm (ok.notTable free (Nat.zero_lt_of_lt used.1)), ⟨_, blockT, rfl⟩,
        by have := data.fits; simp only; omega, by simp only; omega, bound, data.size,
        data.terminated⟩
    · rw [entry]
      exact ok.notData free usedJ
    · rw [entry]
      exact fun same => ne (ok.distinct j usedJ slot used same)
    · rw [entry]
      exact enough
    · rw [entry]
    · have contents : memContents t (t.entries slot) = memContents s (s.entries slot) := by
        rw [entry, memContents_live live, memContents_live (b := ⟨capacity, copied⟩) blockT]
        apply List.map_congr_left
        intro i hi
        have inside := List.mem_range.mp hi
        simp [copied, patch, old, inside]
      rw [memFile_used usedT, memFile_used used, contents, entry]
      rfl

theorem memfsValid_iff (s : Memfs) (handle : Int) :
    memfsValid s handle = true ↔ 0 ≤ handle ∧ s.Used handle.toNat := by
  unfold memfsValid Memfs.Used
  rw [Bool.and_eq_true, Bool.and_eq_true, decide_eq_true_eq, decide_eq_true_eq]
  constructor
  · rintro ⟨⟨low, high⟩, used⟩
    exact ⟨low, by omega, used⟩
  · rintro ⟨low, high, used⟩
    exact ⟨⟨low, by omega⟩, used⟩

/-- `splice`, byte by byte, where there is no gap. -/
theorem map_patch_eq_splice (bytes : Buffer) {size offset len : Nat} (src : Buffer)
    (noGap : offset ≤ size) :
    (List.range (max size (offset + len))).map (patch bytes offset len src) =
      splice ((List.range size).map bytes) offset ((List.range len).map src) := by
  apply List.ext_getElem
  · simp [splice]
    omega
  · intro i hi hi'
    simp only [List.length_map, List.length_range] at hi
    simp only [List.getElem_map, List.getElem_range, splice, List.getElem_append, List.length_append,
      List.length_take, List.length_map, List.length_range, List.getElem_take, List.getElem_drop]
    have cut : min offset size = offset := Nat.min_eq_left noGap
    simp only [cut]
    split
    · next inWrite =>
      split
      · next before => exact patch_outside bytes src (Or.inl before)
      · next inside => exact patch_inside bytes src ⟨by omega, inWrite⟩
    · next beyond =>
      rw [patch_outside bytes src (Or.inr (by omega))]
      congr 1
      omega

/-- `memfs_write_at` lays the data over the contents, or changes no file. -/
theorem memfsWriteAt_spec {s : Memfs} (ok : MemfsOk s) {handle : Int} {offset len : Nat}
    (valid : memfsValid s handle = true) (noGap : offset ≤ (s.entries handle.toNat).size)
    (small : offset + len < 2 ^ 31) (buf : Buffer) (g : Grant) :
    ∃ r t, memfsWriteAt handle offset buf len g s = some (r, t) ∧ MemfsOk t ∧
      if writeGranted handle.toNat (offset + len) g s = true then
        r = len ∧ ∃ f, memFile s handle.toNat = some f ∧
          ∀ i, memFile t i = if i = handle.toNat then
            some ⟨f.name, splice f.bytes offset ((List.range len).map buf)⟩ else memFile s i
      else r = -1 ∧ t = s := by
  obtain ⟨_, used⟩ := (memfsValid_iff s handle).mp valid
  have needed : wrap32 (offset + len) = offset + len := Nat.mod_eq_of_lt (by omega)
  have grown := memfsEnsureCapacity_spec ok used small g
  unfold memfsWriteAt
  rw [if_neg (not_not_intro valid)]
  simp only [needed]
  rw [if_neg (by omega)]
  split at grown
  swap
  · next refused =>
    rw [grown]
    exact ⟨-1, s, rfl, ok, by rw [if_neg refused]; exact ⟨rfl, rfl⟩⟩
  · next granted =>
    obtain ⟨t, result, okT, one, usedT, room, size, file⟩ := grown
    have data := okT.data _ usedT
    obtain ⟨b, live, capacity⟩ := data.live
    have stored := @store_live _ _ offset len _ buf live (by omega)
    let e : MemfsEntry := { t.entries handle.toNat with
      size := max (t.entries handle.toNat).size (offset + len) }
    let u : Memfs :=
      { t with
        entries := if offset + len > (t.entries handle.toNat).size then
            Function.update t.entries handle.toNat
              { t.entries handle.toNat with size := offset + len }
          else t.entries
        blocks := Function.update t.blocks (t.entries handle.toNat).data
          (some { b with bytes := patch b.bytes offset len buf }) }
    have entries : u.entries = Function.update t.entries handle.toNat e := by
      simp only [u, e]
      split
      · next longer => rw [Nat.max_eq_right (Nat.le_of_lt longer)]
      · next same => rw [Nat.max_eq_left (Nat.not_lt.mp same), Function.update_eq_self]
    have entry : u.entries handle.toNat = e := by
      rw [entries]
      exact Function.update_self ..
    have block : u.blocks (t.entries handle.toNat).data =
        some { b with bytes := patch b.bytes offset len buf } := Function.update_self ..
    have usedU : u.Used handle.toNat := ⟨usedT.1, by rw [entry]; exact usedT.2⟩
    have oneU : OneSlot handle.toNat t u := by
      refine ⟨rfl, rfl, fun i other => ?_, fun i other usedI => ?_, fun _ => ?_⟩
      · rw [entries]
        exact Function.update_of_ne other ..
      · exact Function.update_of_ne (fun h => other (okT.apart i usedI _ usedT h)) ..
      · change (Function.update t.blocks (t.entries handle.toNat).data _ t.table).isSome = _
        rw [Function.update_of_ne (Ne.symm data.notTable)]
    rw [result]
    simp only [Option.bind_eq_bind, Option.bind_some, not_true_eq_false, if_false, stored]
    refine ⟨_, u, rfl, oneU.ok okT (fun _ => ?_) (fun _ j other usedJ => ?_)
      (fun _ j other usedJ => ?_), ?_⟩
    · rw [entry]
      have := data.fits
      have := data.size
      exact ⟨data.nonzero, data.notTable, ⟨_, block, capacity⟩, by simp only [e]; omega,
        data.positive, data.capacity, by simp only [e]; omega, data.terminated⟩
    · rw [entry]
      exact fun same => other (okT.apart j usedJ _ usedT same)
    · rw [entry]
      exact fun same => other (okT.distinct j usedJ _ usedT same)
    · rw [if_pos granted]
      refine ⟨toInt32_small (by omega), _, memFile_used used, fun i => ?_⟩
      by_cases own : i = handle.toNat
      · subst own
        rw [memFile_used usedT, memFile_used used] at file
        injection file with file
        injection file with name contents
        have written : memContents u e = (List.range e.size).map (patch b.bytes offset len buf) :=
          memContents_live (e := e) block
        rw [if_pos rfl, memFile_used usedU, entry, written, ← name, ← contents,
          memContents_live live]
        simp only [e, map_patch_eq_splice b.bytes buf (size ▸ noGap)]
        rfl
      · rw [if_neg own, oneU.memFile own, one.memFile own]

/-- `memfs_read_at` delivers what the file holds there. -/
theorem memfsReadAt_spec {s : Memfs} (ok : MemfsOk s) {handle : Int}
    (valid : memfsValid s handle = true) (offset len : Nat) :
    ∃ f, memFile s handle.toNat = some f ∧ memfsReadAt handle offset len s =
      some ((((f.bytes.drop offset).take len).length : Int), (f.bytes.drop offset).take len) := by
  obtain ⟨_, used⟩ := (memfsValid_iff s handle).mp valid
  have data := ok.data _ used
  obtain ⟨b, live, room⟩ := data.live
  refine ⟨_, memFile_used used, ?_⟩
  rw [memContents_live live]
  unfold memfsReadAt
  rw [if_neg (not_not_intro valid)]
  simp only
  by_cases beyond : offset ≥ (s.entries handle.toNat).size
  · rw [if_pos beyond, List.drop_eq_nil_of_le (by simpa using beyond), List.take_nil]
    rfl
  · have fits := data.fits
    have small := data.size
    have loaded := @load_live _ _ offset
      (min len ((s.entries handle.toNat).size - offset)) _ live (by omega)
    have bytes : (((List.range (s.entries handle.toNat).size).map b.bytes).drop offset).take len =
        (List.range (min len ((s.entries handle.toNat).size - offset))).map
          fun i => b.bytes (offset + i) := by
      apply List.ext_getElem
      · simp
      · intro i hi hi'
        simp
    rw [if_neg beyond, loaded, bytes, List.length_map, List.length_range, Option.map_some,
      toInt32_small (by omega)]

/-! ## The calls on names -/

/-- What the filesystem is for: byte strings under names. -/
abbrev NameMap := List UInt8 → Option (List UInt8)

inductive NameOp where
  | create (name : List UInt8)
  | find (name : List UInt8)
  | delete (name : List UInt8)
  | write (name : List UInt8) (offset : Nat) (data : List UInt8)
  | read (name : List UInt8) (offset len : Nat)

/-- An operation on the map: `none` is failure, `granted` whether there is memory. -/
def nameStep (m : NameMap) (granted : Bool) : NameOp → Option (List UInt8) × NameMap
  | .create name =>
    if m name = none ∧ granted = true then (some [], Function.update m name (some []))
    else (none, m)
  | .find name => ((m name).map fun _ => [], m)
  | .delete name =>
    if (m name).isSome then (some [], Function.update m name none) else (none, m)
  | .write name offset data =>
    match m name with
    | none => (none, m)
    | some bytes =>
      if granted then (some [], Function.update m name (some (splice bytes offset data)))
      else (none, m)
  | .read name offset len => ((m name).map fun bytes => (bytes.drop offset).take len, m)

/-- The abstraction. -/
def memMap (s : Memfs) : NameMap := fun name =>
  ((List.range s.entryCapacity).find? fun i =>
    decide (s.Used i) && decide ((s.entries i).storedName = name)).map
      fun i => memContents s (s.entries i)

theorem memMap_eq_some_iff {s : Memfs} (ok : MemfsOk s) (name bytes : List UInt8) :
    memMap s name = some bytes ↔ ∃ i, memFile s i = some ⟨name, bytes⟩ := by
  unfold memMap
  rw [Option.map_eq_some_iff]
  constructor
  · rintro ⟨i, found, rfl⟩
    have holds := List.find?_some found
    rw [Bool.and_eq_true, decide_eq_true_eq, decide_eq_true_eq] at holds
    exact ⟨i, by rw [memFile_used holds.1, holds.2]⟩
  · rintro ⟨i, held⟩
    obtain ⟨used, rfl, rfl⟩ := memFile_name held
    cases found : (List.range s.entryCapacity).find? fun j =>
        decide (s.Used j) && decide ((s.entries j).storedName = (s.entries i).storedName) with
    | none =>
      have none := List.find?_eq_none.mp found i (List.mem_range.mpr used.1)
      simp [used] at none
    | some j =>
      have holds := List.find?_some found
      rw [Bool.and_eq_true, decide_eq_true_eq, decide_eq_true_eq] at holds
      exact ⟨j, rfl, by rw [ok.distinct j holds.1 i used holds.2]⟩

theorem memMap_eq_none_iff {s : Memfs} (ok : MemfsOk s) (name : List UInt8) :
    memMap s name = none ↔ ∀ i f, memFile s i = some f → f.name ≠ name := by
  constructor
  · rintro none i f held rfl
    have found := (memMap_eq_some_iff ok f.name f.bytes).mpr ⟨i, held⟩
    rw [none] at found
    cases found
  · intro absent
    by_contra found
    obtain ⟨bytes, found⟩ := Option.ne_none_iff_exists'.mp found
    obtain ⟨i, held⟩ := (memMap_eq_some_iff ok name bytes).mp found
    exact absent i _ held rfl

theorem memMap_same {s t : Memfs} (okS : MemfsOk s) (okT : MemfsOk t)
    (files : ∀ i, memFile t i = memFile s i) : memMap t = memMap s := by
  funext name
  apply Option.ext
  intro bytes
  rw [memMap_eq_some_iff okT, memMap_eq_some_iff okS]
  exact exists_congr fun i => by rw [files i]

/-- A slot that takes the place of the only file with its name. -/
theorem memMap_put {s t : Memfs} {slot : Nat} {name bytes : List UInt8} (okS : MemfsOk s)
    (okT : MemfsOk t)
    (files : ∀ i, memFile t i = if i = slot then some ⟨name, bytes⟩ else memFile s i)
    (only : ∀ i f, memFile s i = some f → (f.name = name ↔ i = slot)) :
    memMap t = Function.update (memMap s) name (some bytes) := by
  funext other
  apply Option.ext
  intro data
  rw [memMap_eq_some_iff okT]
  by_cases same : other = name
  · subst same
    rw [Function.update_self]
    constructor
    · rintro ⟨i, held⟩
      rw [files] at held
      split at held
      · cases held
        rfl
      · next ne => exact absurd ((only i _ held).mp rfl) ne
    · intro held
      cases held
      exact ⟨slot, by rw [files, if_pos rfl]⟩
  · rw [Function.update_of_ne same, memMap_eq_some_iff okS]
    constructor
    · rintro ⟨i, held⟩
      rw [files] at held
      split at held
      · cases held
        exact absurd rfl same
      · exact ⟨i, held⟩
    · rintro ⟨i, held⟩
      refine ⟨i, ?_⟩
      rw [files, if_neg fun own => same ((only i _ held).mpr own), held]

theorem memMap_remove {s t : Memfs} {slot : Nat} {name : List UInt8} (okS : MemfsOk s)
    (okT : MemfsOk t) (files : ∀ i, memFile t i = if i = slot then none else memFile s i)
    (only : ∀ i f, memFile s i = some f → (f.name = name ↔ i = slot)) :
    memMap t = Function.update (memMap s) name none := by
  funext other
  apply Option.ext
  intro data
  rw [memMap_eq_some_iff okT]
  by_cases same : other = name
  · subst same
    rw [Function.update_self]
    refine iff_of_false ?_ (fun h => by cases h)
    rintro ⟨i, held⟩
    rw [files] at held
    split at held
    · cases held
    · next ne => exact ne ((only i _ held).mp rfl)
  · rw [Function.update_of_ne same, memMap_eq_some_iff okS]
    constructor
    · rintro ⟨i, held⟩
      rw [files] at held
      split at held
      · cases held
      · exact ⟨i, held⟩
    · rintro ⟨i, held⟩
      refine ⟨i, ?_⟩
      rw [files, if_neg fun own => same ((only i _ held).mpr own), held]

/-- The name a handle stands for. -/
def handleStored (s : Memfs) (handle : Int) : Option (List UInt8) :=
  if memfsValid s handle then some (s.entries handle.toNat).storedName else none

/-- A call by name; a handle without a file names none. -/
def nameOp (s : Memfs) : MemfsCall → Option NameOp
  | .create name _ _ => some (.create name.bytes)
  | .find name => some (.find name.bytes)
  | .delete name => some (.delete name.bytes)
  | .writeAt handle offset buf len _ => (handleStored s handle).map fun name =>
      .write name offset.toNat ((List.range len.toNat).map buf)
  | .readAt handle offset len => (handleStored s handle).map fun name =>
      .read name offset.toNat len.toNat

/-- Whether `kmalloc` gives the call what it asks for. -/
def granted (s : Memfs) : MemfsCall → Bool
  | .create _ tableGrant bufferGrant => createGranted tableGrant bufferGrant s
  | .writeAt handle offset _ len grant =>
    writeGranted handle.toNat (offset.toNat + len.toNat) grant s
  | _ => true

/-- The result and the bytes stored say what the map's answer says. -/
def SaysAnswer (c : MemfsCall) (r : Int) (bytes : List UInt8) (t : Memfs) :
    Option (List UInt8) → Prop
  | none => r = -1 ∧ bytes = []
  | some data =>
    bytes = data ∧
      match c with
      | .create name _ _ => ∃ slot : Nat, r = slot ∧ memFile t slot = some ⟨name.bytes, []⟩
      | .find name => ∃ slot : Nat, r = slot ∧ ∃ f, memFile t slot = some f ∧ f.name = name.bytes
      | .delete _ => r = 0
      | .writeAt _ _ _ len _ => r = len.toNat
      | .readAt _ _ _ => r = data.length

/-- A call does on the files what its image does on the map. Files keep their
slots while they exist, and a call that fails changes none of them. -/
structure BehavesAsMap (s : Memfs) (c : MemfsCall) (r : Int) (bytes : List UInt8) (t : Memfs) :
    Prop where
  map :
    match nameOp s c with
    | none => r = -1 ∧ bytes = [] ∧ memMap t = memMap s
    | some op => SaysAnswer c r bytes t (nameStep (memMap s) (granted s c) op).1 ∧
        memMap t = (nameStep (memMap s) (granted s c) op).2
  distinct : ∀ i f, memFile t i = some f → ∀ j g, memFile t j = some g → f.name = g.name → i = j
  handles : ∀ i f, memFile s i = some f → (∀ name, c = .delete name → f.name ≠ name.bytes) →
    ∃ g, memFile t i = some g ∧ g.name = f.name ∧
      ((∀ offset buf len grant, c ≠ .writeAt i offset buf len grant) → g = f)
  failed : r = -1 → ∀ i, memFile t i = memFile s i

/-- Names may be as long as `copy_name` takes; writes leave no gap, and files stay
below 2^31 bytes. -/
def MemfsScope (s : Memfs) : MemfsCall → Prop
  | .create name _ _ => name.bytes.length < memfsNameMax
  | .writeAt handle offset _ len _ => memfsValid s handle = true →
      offset.toNat ≤ memfsSize s handle ∧ offset.toNat + len.toNat < 2 ^ 31
  | _ => True

theorem MemfsOk.distinctFiles {s : Memfs} (ok : MemfsOk s) (i : Nat) (f : MemFile)
    (hf : memFile s i = some f) (j : Nat) (g : MemFile) (hg : memFile s j = some g)
    (same : f.name = g.name) : i = j := by
  obtain ⟨usedI, nameI, _⟩ := memFile_name hf
  obtain ⟨usedJ, nameJ, _⟩ := memFile_name hg
  exact ok.distinct i usedI j usedJ (nameI.symm.trans (same.trans nameJ))

/-- A call that changes no file. -/
theorem behaves_of_same {s t : Memfs} {c : MemfsCall} {r : Int} {bytes : List UInt8}
    (okT : MemfsOk t) (files : ∀ i, memFile t i = memFile s i)
    (map : match nameOp s c with
      | none => r = -1 ∧ bytes = [] ∧ memMap t = memMap s
      | some op => SaysAnswer c r bytes t (nameStep (memMap s) (granted s c) op).1 ∧
          memMap t = (nameStep (memMap s) (granted s c) op).2) : BehavesAsMap s c r bytes t :=
  ⟨map, okT.distinctFiles, fun i f held _ => ⟨f, by rw [files, held], rfl, fun _ => rfl⟩,
    fun _ => files⟩

theorem create_behaves {s : Memfs} (ok : MemfsOk s) {name : CString} {tableGrant bufferGrant : Grant}
    (short : name.bytes.length < memfsNameMax) :
    ∃ r bytes t, memfsCall s (.create name tableGrant bufferGrant) = some (r, bytes, t) ∧
      MemfsOk t ∧ BehavesAsMap s (.create name tableGrant bufferGrant) r bytes t := by
  obtain ⟨r, t, called, okT, outcome⟩ := memfsCreate_spec ok short tableGrant bufferGrant
  have absent : findSlot s name = none ↔ memMap s name.bytes = none := by
    rw [memMap_eq_none_iff ok]
    constructor
    · exact findSlot_none_file ok
    · intro none
      by_contra found
      obtain ⟨slot, found⟩ := Option.ne_none_iff_exists'.mp found
      obtain ⟨used, same⟩ := findSlot_some ok found
      exact none slot _ (memFile_used used) same
  refine ⟨r, [], t, by rw [memfsCall, called]; rfl, okT, ?_⟩
  by_cases made : findSlot s name = none ∧ createGranted tableGrant bufferGrant s = true
  · rw [if_pos made] at outcome
    obtain ⟨slot, rfl, unused, files⟩ := outcome
    have none := absent.mp made.1
    have map := memMap_put ok okT files fun i f held => by
      refine iff_of_false ((memMap_eq_none_iff ok _).mp none i f held) ?_
      rintro rfl
      rw [unused] at held
      cases held
    refine ⟨?_, okT.distinctFiles, fun i f held _ => ⟨f, ?_, rfl, fun _ => rfl⟩, fun failed => ?_⟩
    · simp only [nameOp, nameStep, granted, none, made.2, and_self, if_true, SaysAnswer, true_and]
      exact ⟨⟨slot, rfl, by rw [files, if_pos rfl]⟩, map⟩
    · rw [files, if_neg, held]
      rintro rfl
      rw [unused] at held
      cases held
    · omega
  · rw [if_neg made] at outcome
    obtain ⟨rfl, files⟩ := outcome
    apply behaves_of_same okT files
    have refused : ¬ (memMap s name.bytes = none ∧ createGranted tableGrant bufferGrant s = true) :=
      fun h => made ⟨absent.mpr h.1, h.2⟩
    have step : nameStep (memMap s) (createGranted tableGrant bufferGrant s) (.create name.bytes) =
        (none, memMap s) := if_neg refused
    simp only [nameOp, granted, step, SaysAnswer, and_self, true_and]
    exact memMap_same ok okT files

theorem find_behaves {s : Memfs} (ok : MemfsOk s) (name : CString) :
    BehavesAsMap s (.find name) (memfsFind name s) [] s := by
  apply behaves_of_same ok fun _ => rfl
  simp only [nameOp, nameStep]
  rcases memfsFind_spec ok name with ⟨result, absent⟩ | ⟨slot, result, f, held, same⟩
  · rw [(memMap_eq_none_iff ok _).mpr absent, result]
    exact ⟨⟨rfl, rfl⟩, trivial⟩
  · rw [(memMap_eq_some_iff ok _ f.bytes).mpr ⟨slot, by rw [held, ← same]⟩]
    exact ⟨⟨rfl, slot, result, f, held, same⟩, trivial⟩

theorem delete_behaves {s : Memfs} (ok : MemfsOk s) (name : CString) :
    ∃ r bytes t, memfsCall s (.delete name) = some (r, bytes, t) ∧ MemfsOk t ∧
      BehavesAsMap s (.delete name) r bytes t := by
  obtain ⟨r, t, called, okT, outcome⟩ := memfsDelete_spec ok name
  refine ⟨r, [], t, by rw [memfsCall, called]; rfl, okT, ?_⟩
  rcases outcome with ⟨rfl, rfl, absent⟩ | ⟨rfl, slot, f, held, same, files⟩
  · apply behaves_of_same ok fun _ => rfl
    have none := (memMap_eq_none_iff ok _).mpr absent
    simp only [nameOp, nameStep, none, Option.isSome_none, Bool.false_eq_true, if_false, SaysAnswer,
      and_self]
  · have only (i : Nat) (g : MemFile) (heldG : memFile s i = some g) :
        g.name = name.bytes ↔ i = slot := by
      constructor
      · exact fun h => ok.distinctFiles i g heldG slot f held (h.trans same.symm)
      · rintro rfl
        rw [held] at heldG
        cases heldG
        exact same
    have map := memMap_remove ok okT files only
    have present : memMap s name.bytes = some f.bytes :=
      (memMap_eq_some_iff ok _ _).mpr ⟨slot, by rw [held, ← same]⟩
    refine ⟨?_, okT.distinctFiles, fun i g heldG other => ⟨g, ?_, rfl, fun _ => rfl⟩, fun failed => ?_⟩
    · simp only [nameOp, nameStep, present, Option.isSome_some, if_true, SaysAnswer, true_and]
      exact map
    · rw [files, if_neg fun own => other name rfl ((only i g heldG).mpr own), heldG]
    · cases failed

theorem handleStored_valid {s : Memfs} {handle : Int} (valid : memfsValid s handle = true) :
    handleStored s handle = some (s.entries handle.toNat).storedName := if_pos valid

theorem handleStored_invalid {s : Memfs} {handle : Int} (invalid : ¬ memfsValid s handle = true) :
    handleStored s handle = none := if_neg invalid

theorem writeAt_behaves {s : Memfs} (ok : MemfsOk s) {handle : Int} {offset len : BitVec 32}
    {buf : Buffer} {grant : Grant} (scope : MemfsScope s (.writeAt handle offset buf len grant)) :
    ∃ r bytes t, memfsCall s (.writeAt handle offset buf len grant) = some (r, bytes, t) ∧
      MemfsOk t ∧ BehavesAsMap s (.writeAt handle offset buf len grant) r bytes t := by
  by_cases valid : memfsValid s handle = true
  swap
  · have refused : memfsWriteAt handle offset.toNat buf len.toNat grant s = some (-1, s) :=
      if_pos valid
    refine ⟨-1, [], s, by rw [memfsCall, refused]; rfl, ok, ?_⟩
    apply behaves_of_same ok fun _ => rfl
    simp only [nameOp, handleStored_invalid valid, Option.map_none, and_self]
  obtain ⟨noGap, small⟩ := scope valid
  rw [memfsSize, if_pos valid] at noGap
  obtain ⟨nonneg, used⟩ := (memfsValid_iff s handle).mp valid
  obtain ⟨r, t, called, okT, outcome⟩ := memfsWriteAt_spec ok valid noGap small buf grant
  refine ⟨r, [], t, by rw [memfsCall, called]; rfl, okT, ?_⟩
  have present : memMap s (s.entries handle.toNat).storedName =
      some (memContents s (s.entries handle.toNat)) :=
    (memMap_eq_some_iff ok _ _).mpr ⟨_, memFile_used used⟩
  by_cases allowed : writeGranted handle.toNat (offset.toNat + len.toNat) grant s = true
  · rw [if_pos allowed] at outcome
    obtain ⟨rfl, f, held, files⟩ := outcome
    rw [memFile_used used] at held
    cases held
    have only (i : Nat) (g : MemFile) (heldG : memFile s i = some g) :
        g.name = (s.entries handle.toNat).storedName ↔ i = handle.toNat := by
      constructor
      · exact fun h => ok.distinctFiles i g heldG _ _ (memFile_used used) h
      · rintro rfl
        rw [memFile_used used] at heldG
        cases heldG
        rfl
    have map := memMap_put ok okT files only
    refine ⟨?_, okT.distinctFiles, fun i g heldG _ => ?_, fun failed => ?_⟩
    · simp only [nameOp, handleStored_valid valid, Option.map_some, nameStep, present, granted,
        allowed, if_true, SaysAnswer, true_and]
      exact map
    · by_cases own : i = handle.toNat
      · subst own
        rw [memFile_used used] at heldG
        cases heldG
        refine ⟨_, (files _).trans (if_pos rfl), rfl, fun other => ?_⟩
        have handle_eq : ((handle.toNat : Nat) : Int) = handle := Int.toNat_of_nonneg nonneg
        exact absurd (congrArg (MemfsCall.writeAt · offset buf len grant) handle_eq.symm)
          (other offset buf len grant)
      · exact ⟨g, by rw [files, if_neg own, heldG], rfl, fun _ => rfl⟩
    · omega
  · rw [if_neg allowed] at outcome
    obtain ⟨rfl, rfl⟩ := outcome
    apply behaves_of_same ok fun _ => rfl
    have step : nameStep (memMap t) (writeGranted handle.toNat (offset.toNat + len.toNat) grant t)
        (.write (t.entries handle.toNat).storedName offset.toNat ((List.range len.toNat).map buf)) =
        (none, memMap t) := by
      simp only [nameStep, present]
      exact if_neg allowed
    simp only [nameOp, handleStored_valid valid, Option.map_some, granted, step, SaysAnswer,
      and_self]

theorem readAt_behaves {s : Memfs} (ok : MemfsOk s) (handle : Int) (offset len : BitVec 32) :
    ∃ r bytes t, memfsCall s (.readAt handle offset len) = some (r, bytes, t) ∧ MemfsOk t ∧
      BehavesAsMap s (.readAt handle offset len) r bytes t := by
  by_cases valid : memfsValid s handle = true
  swap
  · have refused : memfsReadAt handle offset.toNat len.toNat s = some (-1, []) := if_pos valid
    refine ⟨-1, [], s, by rw [memfsCall, refused]; rfl, ok, ?_⟩
    apply behaves_of_same ok fun _ => rfl
    simp only [nameOp, handleStored_invalid valid, Option.map_none, and_self]
  obtain ⟨_, used⟩ := (memfsValid_iff s handle).mp valid
  obtain ⟨f, held, called⟩ := memfsReadAt_spec ok valid offset.toNat len.toNat
  rw [memFile_used used] at held
  cases held
  refine ⟨_, _, s, by rw [memfsCall, called]; rfl, ok, ?_⟩
  apply behaves_of_same ok fun _ => rfl
  have present : memMap s (s.entries handle.toNat).storedName =
      some (memContents s (s.entries handle.toNat)) :=
    (memMap_eq_some_iff ok _ _).mpr ⟨_, memFile_used used⟩
  simp only [nameOp, handleStored_valid valid, Option.map_some, nameStep, present, SaysAnswer,
    and_self]

/-- Every call has a result: no access misses a live block. -/
theorem memfsCall_behaves {s : Memfs} (ok : MemfsOk s) {c : MemfsCall} (scope : MemfsScope s c) :
    ∃ r bytes t, memfsCall s c = some (r, bytes, t) ∧ MemfsOk t ∧ BehavesAsMap s c r bytes t := by
  cases c with
  | create name tableGrant bufferGrant => exact create_behaves ok scope
  | find name => exact ⟨_, _, _, rfl, ok, find_behaves ok name⟩
  | delete name => exact delete_behaves ok name
  | writeAt handle offset buf len grant => exact writeAt_behaves ok scope
  | readAt handle offset len => exact readAt_behaves ok handle offset len

/-! ## Runs -/

def memfsStep (s : Memfs) (c : MemfsCall) : Option Memfs := (memfsCall s c).map fun r => r.2.2

theorem memfsStart_unused (i : Nat) : ¬ memfsStart.Used i := fun used => Nat.not_lt_zero i used.1

theorem memfsStart_ok : MemfsOk memfsStart :=
  ⟨Nat.zero_le _, fun _ => rfl, fun positive => absurd positive (Nat.lt_irrefl 0),
    fun i used => absurd used (memfsStart_unused i),
    fun i used => absurd used (memfsStart_unused i),
    fun i used => absurd used (memfsStart_unused i)⟩

/-- From an empty map on, every call of every run has a result, and does to the
files what its image does to the map. -/
theorem memfs_is_map (calls : List MemfsCall) (s : Memfs)
    (meets : Lib.Machine.Meets memfsStep MemfsScope memfsStart calls)
    (reached : Lib.Machine.run memfsStep memfsStart calls = some s) :
    memMap memfsStart = (fun _ => none) ∧ ∀ c, MemfsScope s c →
      ∃ r bytes t, memfsCall s c = some (r, bytes, t) ∧ BehavesAsMap s c r bytes t := by
  have ok : MemfsOk s := Lib.Machine.run_invariant
    (fun s c t ok scope stepped => by
      obtain ⟨r, bytes, u, called, okU, _⟩ := memfsCall_behaves ok scope
      simp only [memfsStep, called, Option.map_some, Option.some.injEq] at stepped
      exact stepped ▸ okU)
    memfsStart_ok meets reached
  refine ⟨rfl, fun c scope => ?_⟩
  obtain ⟨r, bytes, t, called, _, behaves⟩ := memfsCall_behaves ok scope
  exact ⟨r, bytes, t, called, behaves⟩

/-- Answers of `kmalloc` at some address. -/
def grantAt (p : Nat) : Grant where
  pointer := p
  bytes _ := 0
  slots _ := memfsStart.entries 0

/-- A file is created, and its first byte can be written. -/
theorem memfs_is_map_created : ∃ s,
    Lib.Machine.run memfsStep memfsStart [.create nameF (grantAt 16) (grantAt 512)] = some s ∧
      ∃ r bytes t, memfsCall s (.writeAt 0 0 (fun _ => 7) 1 (grantAt 1024)) = some (r, bytes, t) ∧
        BehavesAsMap s (.writeAt 0 0 (fun _ => 7) 1 (grantAt 1024)) r bytes t :=
  ⟨_, rfl, (memfs_is_map [.create nameF (grantAt 16) (grantAt 512)] _
    ⟨show nameF.bytes.length < memfsNameMax by decide, fun _ _ => trivial⟩ rfl).2 _ fun _ => ⟨Nat.zero_le _, by decide⟩⟩

end MiniKernel.Storage
