import MiniKernel.Memory.PageTables

/-!
# Who owns which table

Source: kernel/mm/vmm.c. Below the top level every table belongs to one tree:
the kernel's, under the PML4 slots the kernel uses, or one address space's,
under all other slots. `Spaces` says so, and is what building tables keeps.
-/
namespace MiniKernel.Memory.Paging
open Lib Lib.Radix

/-! ## Frames under their addresses -/

/-- The allocator counts the frame at an address as taken. -/
def Vmm.usedAt (st : Vmm) (addr : Word) : Bool := isUsed st.pmm (frameOf addr.toNat)

/-- How many frames are left. -/
def Vmm.freeCount (st : Vmm) : Nat := (clearFrames st.pmm).card

theorem frameOf_inj {a b : Word} (ha : Aligned a) (hb : Aligned b)
    (same : frameOf a.toNat = frameOf b.toNat) : a = b := by
  apply BitVec.eq_of_toNat_eq
  have left := toNat_target a
  have right := toNat_target b
  rw [ha] at left
  rw [hb] at right
  unfold frameOf pmmFrameSize at same
  omega

/-- One frame handed out, memory as it was. -/
structure Taken (st st' : Vmm) (frame : Word) : Prop where
  mem : st'.mem = st.mem
  kernel : st'.kernelPml4 = st.kernelPml4
  nonzero : frame ≠ 0
  aligned : Aligned frame
  free : st.usedAt frame = false
  used : ∀ f, isUsed st'.pmm f = (isUsed st.pmm f || decide (f = frameOf frame.toNat))
  count : st'.freeCount + 1 = st.freeCount

theorem Taken.usedAt {st st' : Vmm} {frame b : Word} (taken : Taken st st' frame) (hb : Aligned b) :
    st'.usedAt b = (st.usedAt b || decide (b = frame)) := by
  rw [Vmm.usedAt, taken.used]
  congr 1
  rw [decide_eq_decide]
  exact ⟨frameOf_inj hb taken.aligned, fun same => by rw [same]⟩

theorem Taken.grows {st st' : Vmm} {frame : Word} (taken : Taken st st' frame) :
    Grows st.pmm st'.pmm := by
  intro f used
  rw [taken.used, used]
  rfl

namespace Vmm

theorem allocFrame_taken {st : Vmm} {f : Nat} (addr : (pmmAllocFrame st.pmm).1 = f * pmmFrameSize)
    (allocated : Allocated st.pmm (pmmAllocFrame st.pmm).2 f 1) (nonzero : f ≠ 0) :
    Taken st st.allocFrame.2 st.allocFrame.1 := by
  have low := allocated.bounded Nat.one_pos
  have clear := allocated.free f (Nat.le_refl f) (Nat.lt_succ_self f)
  have value : st.allocFrame.1.toNat = f * 4096 := by
    rw [allocFrame, addr, BitVec.toNat_ofNat]
    unfold pmmFrameSize
    unfold pmmMaxFrames at low
    omega
  have here : frameOf st.allocFrame.1.toNat = f := by
    rw [value]
    unfold frameOf pmmFrameSize
    omega
  have one (g : Nat) : isUsed (pmmAllocFrame st.pmm).2 g = (isUsed st.pmm g || decide (g = f)) := by
    rw [allocated.taken]
    congr 1
    rw [decide_eq_decide]
    omega
  refine ⟨rfl, rfl, ?_, ?_, ?_, ?_, ?_⟩
  · intro none
    rw [none] at value
    simp at value
    omega
  · apply BitVec.eq_of_toNat_eq
    rw [toNat_target, value]
    unfold pmmMaxFrames at low
    omega
  · rw [usedAt, here]
    exact clear
  · intro g
    rw [here]
    exact one g
  · have split : clearFrames st.pmm = insert f (clearFrames (pmmAllocFrame st.pmm).2) := by
      ext g
      rw [Finset.mem_insert, mem_clearFrames, mem_clearFrames, one]
      by_cases at_f : g = f
      · simp [at_f, clear]
      · simp [at_f]
    have new : f ∉ clearFrames (pmmAllocFrame st.pmm).2 := by
      rw [mem_clearFrames, one]
      simp
    rw [freeCount, freeCount, allocFrame, split, Finset.card_insert_of_notMem new]

theorem allocFrame_spec {st : Vmm} (zero : isUsed st.pmm 0 = true) :
    (st.allocFrame = (0, st) ∧ st.freeCount = 0) ∨
      ∃ frame st', st.allocFrame = (frame, st') ∧ Taken st st' frame := by
  rcases pmmAllocFrame_spec st.pmm with failed | ⟨f, addr, allocated⟩
  · left
    have full := (pmmAllocFrame_zero_iff zero).mp (by rw [failed])
    refine ⟨by rw [allocFrame, failed]; rfl, Finset.card_eq_zero.mpr ?_⟩
    refine Finset.eq_empty_of_forall_notMem fun f clear => ?_
    rw [mem_clearFrames, full f] at clear
    cases clear
  · right
    refine ⟨_, _, rfl, allocFrame_taken addr allocated ?_⟩
    rintro rfl
    rw [allocated.free 0 (Nat.le_refl 0) Nat.one_pos] at zero
    cases zero

@[simp] theorem setEntry_pmm (table : Word) (i : Nat) (e : Word) (st : Vmm) :
    (st.setEntry table i e).pmm = st.pmm := rfl

@[simp] theorem setEntry_kernelPml4 (table : Word) (i : Nat) (e : Word) (st : Vmm) :
    (st.setEntry table i e).kernelPml4 = st.kernelPml4 := rfl

theorem setEntry_mem (table : Word) (i : Nat) (e : Word) (st : Vmm) :
    (st.setEntry table i e).mem = put st.mem table i e := rfl

@[simp] theorem setEntry_freeCount (table : Word) (i : Nat) (e : Word) (st : Vmm) :
    (st.setEntry table i e).freeCount = st.freeCount := by
  rw [freeCount, setEntry_pmm, freeCount]

theorem fillTable_mem (table : Word) (entry : Nat → Word) (n : Nat) (st : Vmm) (b : Word) (j : Nat) :
    (st.fillTable table entry n).mem b j =
      if b = table ∧ j < n then entry j else st.mem b j := by
  induction n with
  | zero => simp [fillTable]
  | succ n ih =>
    rw [fillTable, setEntry_mem]
    by_cases here : b = table ∧ j = n
    · obtain ⟨rfl, rfl⟩ := here
      simp
    · rw [put_other here, ih]
      by_cases at_table : b = table
      · have other : j ≠ n := fun at_n => here ⟨at_table, at_n⟩
        have : j < n ↔ j < n + 1 := by omega
        simp [at_table, this]
      · simp [at_table]

@[simp] theorem fillTable_pmm (table : Word) (entry : Nat → Word) (n : Nat) (st : Vmm) :
    (st.fillTable table entry n).pmm = st.pmm := by
  induction n with
  | zero => rfl
  | succ n ih => exact ih

@[simp] theorem fillTable_kernelPml4 (table : Word) (entry : Nat → Word) (n : Nat) (st : Vmm) :
    (st.fillTable table entry n).kernelPml4 = st.kernelPml4 := by
  induction n with
  | zero => rfl
  | succ n ih => exact ih

end Vmm

/-! ## The trees -/

/-- Whether the entry at a path leads further down, `slots` being the top-level
entries that belong to the tree. With `leaves`, user pages count as nodes. -/
def follows (slots : Nat → Bool) (leaves : Bool) (path : Path) (e : Word) : Bool :=
  match path with
  | [i] => decide (i < entriesPerTable) && slots i && present e
  | [i, _] => decide (i < entriesPerTable) && present e
  | [i, _, _] => decide (i < entriesPerTable) && present e && !huge e
  | [i, _, _, _] => leaves && decide (i < entriesPerTable) && present e && user e
  | _ => false

def treeLink (slots : Nat → Bool) (leaves : Bool) (path : Path) (e : Word) : Option Word :=
  if follows slots leaves path e then some (target e) else none

/-- The kernel's tables, under the slots it uses. -/
def kernelTree (kernelSlot : Nat → Bool) (kernelPml4 : Word) : Tree Word Word :=
  ⟨kernelPml4, treeLink kernelSlot false⟩

/-- The private tables and user pages of a space, under all other slots. -/
def spaceTree (kernelSlot : Nat → Bool) (root : Word) : Tree Word Word :=
  ⟨root, treeLink (fun i => !kernelSlot i) true⟩

/-- The trees of one memory. -/
def forest (kernelSlot : Nat → Bool) (kernelPml4 : Word) (roots : List Word) (T : Tree Word Word) :
    Prop :=
  T = kernelTree kernelSlot kernelPml4 ∨ ∃ r ∈ roots, T = spaceTree kernelSlot r

/-- Kernel slots are the present ones of the kernel's PML4 and are the same in
every space, and their 2 MiB pages are aligned; everything else belongs to one
space, whose private entries carry the user bit and never map 2 MiB. -/
structure Spaces (kernelSlot : Nat → Bool) (roots : List Word) (st : Vmm) : Prop where
  zero : isUsed st.pmm 0 = true
  nonzero : ∀ r ∈ roots, r ≠ 0
  separate : Separate st.mem (forest kernelSlot st.kernelPml4 roots)
  tables : ∀ T, forest kernelSlot st.kernelPml4 roots T → ∀ p b, nodeAt st.mem T p = some b →
    Aligned b ∧ st.usedAt b = true
  kernelSlots : ∀ i < entriesPerTable, present (st.mem st.kernelPml4 i) = kernelSlot i
  kernelUser : ∀ i < entriesPerTable, kernelSlot i = true → user (st.mem st.kernelPml4 i) = true
  shared : ∀ r ∈ roots, ∀ i < entriesPerTable, kernelSlot i = true →
    st.mem r i = st.mem st.kernelPml4 i
  own : ∀ r ∈ roots, ∀ p b, nodeAt st.mem (spaceTree kernelSlot r) p = some b → p.length ≤ 2 →
    ∀ i < entriesPerTable, (p = [] → kernelSlot i = false) → present (st.mem b i) = true →
      user (st.mem b i) = true ∧ huge (st.mem b i) = false
  regions : ∀ p b, nodeAt st.mem (kernelTree kernelSlot st.kernelPml4) p = some b → p.length = 2 →
    ∀ i < entriesPerTable, present (st.mem b i) = true → huge (st.mem b i) = true →
      target (st.mem b i) = regionBase (st.mem b i)

theorem huge_of_aligned {w : Word} (aligned : Aligned w) : huge w = false := by
  rw [← show target w = w from aligned, huge_target]

theorem target_table {w : Word} (aligned : Aligned w) :
    target (w ||| pagePresent ||| pageWritable) = w := by
  rw [target_or, target_or, target_pagePresent, target_pageWritable]
  simpa using show target w = w from aligned

section Trees
variable {K : Nat → Bool} {roots : List Word} {st st' : Vmm} {T : Tree Word Word}
  {slots : Nat → Bool} {leaves : Bool} {p q : Path} {b c e : Word} {i : Nat}

theorem treeLink_eq_some : treeLink slots leaves p e = some c ↔
    follows slots leaves p e = true ∧ target e = c := by
  unfold treeLink
  split
  · next yes => simp [yes]
  · next no => simp [no]

theorem treeLink_eq_none : treeLink slots leaves p e = none ↔ follows slots leaves p e = false := by
  unfold treeLink
  split
  · next yes => simp [yes]
  · next no => simp [Bool.eq_false_iff.mpr no]

theorem follows_bounded (yes : follows slots leaves (i :: p) e = true) : i < entriesPerTable := by
  unfold follows at yes
  split at yes <;> simp_all

theorem follows_present (yes : follows slots leaves p e = true) : present e = true := by
  unfold follows at yes
  split at yes <;> simp_all

theorem forest_link (member : forest K b roots T) :
    ∃ slots leaves, T.link = treeLink slots leaves := by
  rcases member with rfl | ⟨r, -, rfl⟩
  · exact ⟨_, _, rfl⟩
  · exact ⟨_, _, rfl⟩

theorem forest_bounded (member : forest K b roots T) (i : Nat) (p : Path) (e c : Word)
    (linked : T.link (i :: p) e = some c) : i < entriesPerTable := by
  obtain ⟨slots, leaves, link⟩ := forest_link member
  rw [link, treeLink_eq_some] at linked
  exact follows_bounded linked.1

/-- Above the pages, an entry of a tree leads down when it is present and, in a
page directory, no 2 MiB page. -/
theorem forest_follows (member : forest K b roots T) (short : p.length ≤ 2)
    (hi : i < entriesPerTable) (inside : p = [] → T ≠ kernelTree K b ∧ K i = false) :
    T.link (i :: p) e =
      if present e = true ∧ (p.length = 2 → huge e = false) then some (target e) else none := by
  obtain ⟨slots, leaves, link⟩ := forest_link member
  rcases p with _ | ⟨i₃, _ | ⟨i₄, _ | ⟨i₅, p⟩⟩⟩
  · obtain ⟨notKernel, private_⟩ := inside rfl
    rcases member with rfl | ⟨r, -, rfl⟩
    · exact absurd rfl notKernel
    · simp [spaceTree, treeLink, follows, hi, private_]
  · simp [link, treeLink, follows, hi]
  · simp [link, treeLink, follows, hi]
  · simp at short

theorem forest_kernel (K : Nat → Bool) (b : Word) (roots : List Word) :
    forest K b roots (kernelTree K b) := Or.inl rfl

theorem forest_space (K : Nat → Bool) (b : Word) {roots : List Word} {r : Word} (live : r ∈ roots) :
    forest K b roots (spaceTree K r) := Or.inr ⟨r, live, rfl⟩

namespace Spaces

theorem kernelTable (inv : Spaces K roots st) :
    Aligned st.kernelPml4 ∧ st.usedAt st.kernelPml4 = true :=
  inv.tables _ (forest_kernel K _ roots) [] _ rfl

theorem rootTable (inv : Spaces K roots st) {r : Word} (live : r ∈ roots) :
    Aligned r ∧ st.usedAt r = true :=
  inv.tables _ (forest_space K _ live) [] _ rfl

/-- A frame the allocator has left is no table. -/
theorem unlinked (inv : Spaces K roots st) (free : st.usedAt c = false) :
    Unlinked st.mem (forest K st.kernelPml4 roots) c := by
  intro T member p node
  rw [(inv.tables T member p c node).2] at free
  cases free

/-- Which trees a top-level table belongs to. -/
theorem top_ne_kernel (inv : Spaces K roots st) (member : forest K st.kernelPml4 roots T)
    (node : nodeAt st.mem T p = some b) (inside : p = [] → T ≠ kernelTree K st.kernelPml4) :
    b ≠ st.kernelPml4 := by
  rintro rfl
  obtain ⟨same, top⟩ := inv.separate T member _ (forest_kernel K _ roots) p [] _ node rfl
  exact inside top same

/-- Only the entry at `(b, i)` of the memory in use changes: the parts of the
invariant that are about top-level tables. -/
theorem of_entry (inv : Spaces K roots st) (member : forest K st.kernelPml4 roots T)
    (node : nodeAt st.mem T p = some b)
    (inside : p = [] → T ≠ kernelTree K st.kernelPml4 ∧ K i = false)
    (kernel : st'.kernelPml4 = st.kernelPml4) (grows : Grows st.pmm st'.pmm)
    (frame : ∀ d j, st.usedAt d = true → ¬(d = b ∧ j = i) → st'.mem d j = st.mem d j)
    (separate : Separate st'.mem (forest K st.kernelPml4 roots))
    (tables : ∀ T, forest K st.kernelPml4 roots T → ∀ p b, nodeAt st'.mem T p = some b →
      Aligned b ∧ st'.usedAt b = true)
    (own : ∀ r ∈ roots, ∀ p b, nodeAt st'.mem (spaceTree K r) p = some b → p.length ≤ 2 →
      ∀ i < entriesPerTable, (p = [] → K i = false) → present (st'.mem b i) = true →
        user (st'.mem b i) = true ∧ huge (st'.mem b i) = false)
    (regions : ∀ p b, nodeAt st'.mem (kernelTree K st.kernelPml4) p = some b → p.length = 2 →
      ∀ i < entriesPerTable, present (st'.mem b i) = true → huge (st'.mem b i) = true →
        target (st'.mem b i) = regionBase (st'.mem b i)) :
    Spaces K roots st' := by
  have kernelKept (j : Nat) : st'.mem st.kernelPml4 j = st.mem st.kernelPml4 j :=
    frame _ j inv.kernelTable.2 fun at_entry =>
      inv.top_ne_kernel member node (fun top => (inside top).1) at_entry.1.symm
  refine ⟨grows _ inv.zero, inv.nonzero, kernel ▸ separate, kernel ▸ tables, ?_, ?_, ?_, own,
    kernel ▸ regions⟩
  · intro j hj
    rw [kernel, kernelKept]
    exact inv.kernelSlots j hj
  · intro j hj slot
    rw [kernel, kernelKept]
    exact inv.kernelUser j hj slot
  · intro r live j hj slot
    have kept : st'.mem r j = st.mem r j := by
      refine frame r j (inv.rootTable live).2 ?_
      rintro ⟨rfl, rfl⟩
      obtain ⟨-, top⟩ := inv.separate T member _ (forest_space K _ live) p [] r node rfl
      rw [(inside top).2] at slot
      cases slot
    rw [kernel, kept, kernelKept]
    exact inv.shared r live j hj slot

end Spaces

/-- Entries of the tables above the page tables that are there can be written
through, which is how every one of them is made. -/
def UpperWritable (mem : Tables) (T : Tree Word Word) : Prop :=
  ∀ p b, nodeAt mem T p = some b → p.length ≤ 2 → ∀ i < entriesPerTable,
    present (mem b i) = true → writable (mem b i) = true

/-- Nothing hangs below the user pages of a tree. -/
theorem forest_deep (member : forest K b roots T) (deep : 5 ≤ p.length) : T.link p e = none := by
  obtain ⟨slots, leaves, link⟩ := forest_link member
  rw [link, treeLink_eq_none]
  rcases p with _ | ⟨i₁, _ | ⟨i₂, _ | ⟨i₃, _ | ⟨i₄, _ | ⟨i₅, p⟩⟩⟩⟩⟩
  all_goals first | rfl | simp at deep

/-- Memory is kept in every table of some trees. -/
def TablesKept (K : Nat → Bool) (roots : List Word) (st st' : Vmm) : Prop :=
  ∀ T, forest K st.kernelPml4 roots T → ∀ p b, nodeAt st.mem T p = some b → p.length ≤ 3 →
    st'.mem b = st.mem b

theorem TablesKept.nodes (kept : TablesKept K roots st st')
    (member : forest K st.kernelPml4 roots T) (p : Path) :
    nodeAt st'.mem T p = nodeAt st.mem T p := by
  refine nodeAt_congr_link (fun q d node i => ?_) p
  rcases Nat.lt_or_ge q.length 4 with table | page
  · rw [kept T member q d node (by omega)]
  · rw [forest_deep member (by simpa using page), forest_deep member (by simpa using page)]

/-- The invariant is about the tables of its trees, and that they are taken. -/
theorem Spaces.restrict {roots' : List Word} (inv : Spaces K roots st)
    (fewer : ∀ r ∈ roots', r ∈ roots) (kernel : st'.kernelPml4 = st.kernelPml4)
    (zero : isUsed st'.pmm 0 = true) (kept : TablesKept K roots' st st')
    (taken : ∀ T, forest K st.kernelPml4 roots' T → ∀ p b, nodeAt st.mem T p = some b →
      st'.usedAt b = true) : Spaces K roots' st' := by
  have wider (T : Tree Word Word) (member : forest K st.kernelPml4 roots' T) :
      forest K st.kernelPml4 roots T := by
    rcases member with rfl | ⟨r, live, rfl⟩
    · exact forest_kernel K _ roots
    · exact forest_space K _ (fewer r live)
  have nodes (T : Tree Word Word) (member : forest K st.kernelPml4 roots' T) (p : Path) :
      nodeAt st'.mem T p = nodeAt st.mem T p := kept.nodes member p
  have kernelTable : st'.mem st.kernelPml4 = st.mem st.kernelPml4 :=
    kept _ (forest_kernel K _ roots') [] _ rfl (Nat.zero_le _)
  have rootTable (r : Word) (live : r ∈ roots') : st'.mem r = st.mem r :=
    kept _ (forest_space K _ live) [] r rfl (Nat.zero_le _)
  constructor
  case zero => exact zero
  case nonzero => exact fun r live => inv.nonzero r (fewer r live)
  case separate =>
    have before : Separate st.mem (forest K st.kernelPml4 roots') :=
      fun S hs T ht => inv.separate S (wider S hs) T (wider T ht)
    rw [kernel]
    exact before.of_nodes nodes
  case tables =>
    rw [kernel]
    intro T member p b node
    rw [nodes T member] at node
    exact ⟨(inv.tables T (wider T member) p b node).1, taken T member p b node⟩
  case kernelSlots =>
    rw [kernel, kernelTable]
    exact inv.kernelSlots
  case kernelUser =>
    rw [kernel, kernelTable]
    exact inv.kernelUser
  case shared =>
    intro r live i hi slot
    rw [kernel, kernelTable, rootTable r live]
    exact inv.shared r (fewer r live) i hi slot
  case own =>
    intro r live p b node short i hi private_ there
    have member := forest_space K st.kernelPml4 live
    rw [nodes _ member] at node
    rw [kept _ member p b node (by omega)] at there ⊢
    exact inv.own r (fewer r live) p b node short i hi private_ there
  case regions =>
    rw [kernel]
    intro p b node deep i hi there large
    have member := forest_kernel K st.kernelPml4 roots'
    rw [nodes _ member] at node
    rw [kept _ member p b node (by omega)] at there large ⊢
    exact inv.regions p b node deep i hi there large

/-- The table at `i :: p` of a tree is now `c`, found there or newly hung under
entry `i` of the table `b` at `p`. -/
structure Placed (K : Nat → Bool) (roots : List Word) (T : Tree Word Word) (p : Path) (b : Word)
    (i : Nat) (st st' : Vmm) (c : Word) : Prop where
  inv : Spaces K roots st'
  kernel : st'.kernelPml4 = st.kernelPml4
  node : nodeAt st'.mem T (i :: p) = some c
  elsewhere : ∀ S, forest K st.kernelPml4 roots S → ∀ q, ¬(S = T ∧ q = i :: p) →
    nodeAt st'.mem S q = nodeAt st.mem S q
  frame : ∀ d j, st.usedAt d = true → ¬(d = b ∧ j = i) → st'.mem d j = st.mem d j
  how : (nodeAt st.mem T (i :: p) = some c ∧ st'.pmm = st.pmm ∧
      st'.mem b i = st.mem b i ||| pageUser) ∨
    (nodeAt st.mem T (i :: p) = none ∧
      (∃ st₁, Taken st st₁ c ∧ st'.pmm = st₁.pmm) ∧
      st'.mem b i = c ||| pagePresent ||| pageWritable ||| pageUser ∧
      ∀ j < entriesPerTable, st'.mem c j =
        if present (st.mem b i) then Vmm.splitEntry (st.mem b i) j else 0)

namespace Spaces

/-- Setting the user bit of an entry that is there. -/
theorem mark (inv : Spaces K roots st) (member : forest K st.kernelPml4 roots T)
    (node : nodeAt st.mem T p = some b) (below : nodeAt st.mem T (i :: p) = some c)
    (short : p.length ≤ 2)
    (inside : p = [] → T ≠ kernelTree K st.kernelPml4 ∧ K i = false) :
    Placed K roots T p b i st (st.setEntry b i (st.mem b i ||| pageUser)) c := by
  have hi : i < entriesPerTable :=
    forest_bounded member i p (st.mem b i) c ((nodeAt_step node i).symm.trans below)
  have same : T.link (i :: p) (st.mem b i ||| pageUser) = T.link (i :: p) (st.mem b i) := by
    rw [forest_follows member short hi inside, forest_follows member short hi inside]
    simp [target_or]
  have nodes (S : Tree Word Word) (hs : forest K st.kernelPml4 roots S) (q : Path) :
      nodeAt (put st.mem b i (st.mem b i ||| pageUser)) S q = nodeAt st.mem S q :=
    inv.separate.nodeAt_relabel member node same hs q
  have frame (d : Word) (j : Nat) (other : ¬(d = b ∧ j = i)) :
      put st.mem b i (st.mem b i ||| pageUser) d j = st.mem d j := put_other other
  refine ⟨?_, rfl, (nodes T member _).trans below, fun S hs q _ => nodes S hs q,
    fun d j _ other => frame d j other, Or.inl ⟨below, rfl, put_same⟩⟩
  refine inv.of_entry member node inside rfl (Grows.refl _) (fun d j _ other => frame d j other)
    (inv.separate.of_nodes nodes) ?_ ?_ ?_
  · intro S hs q d at_q
    exact inv.tables S hs q d ((nodes S hs q).symm.trans at_q)
  · intro r live q d at_q shallow j hj private_ there
    rw [Vmm.setEntry_mem, nodes _ (forest_space K _ live)] at at_q
    rw [Vmm.setEntry_mem] at there ⊢
    by_cases here : d = b ∧ j = i
    · obtain ⟨rfl, rfl⟩ := here
      rw [put_same] at there ⊢
      have before := inv.own r live q d at_q shallow j hj private_ (by simpa using there)
      simp [before.2]
    · rw [frame d j here] at there ⊢
      exact inv.own r live q d at_q shallow j hj private_ there
  · intro q d at_q deep j hj there large
    rw [Vmm.setEntry_mem, nodes _ (forest_kernel K _ roots)] at at_q
    rw [Vmm.setEntry_mem] at there large ⊢
    by_cases here : d = b ∧ j = i
    · obtain ⟨rfl, rfl⟩ := here
      rw [put_same] at there large ⊢
      have before := inv.regions q d at_q deep j hj (by simpa using there) (by simpa using large)
      rw [target_or, target_pageUser, regionBase_or_pageUser, ← before]
      simp
    · rw [frame d j here] at there large ⊢
      exact inv.regions q d at_q deep j hj there large

/-- Hanging a new table under an entry that led nowhere. -/
theorem hang (inv : Spaces K roots st) (member : forest K st.kernelPml4 roots T)
    (node : nodeAt st.mem T p = some b) (absent : nodeAt st.mem T (i :: p) = none)
    (short : p.length ≤ 2) (hi : i < entriesPerTable)
    (inside : p = [] → T ≠ kernelTree K st.kernelPml4 ∧ K i = false)
    {st₁ st₂ : Vmm} (taken : Taken st st₁ c) (pmm : st₂.pmm = st₁.pmm)
    (kernel : st₂.kernelPml4 = st.kernelPml4) (others : ∀ d, d ≠ c → st₂.mem d = st.mem d)
    (filled : ∀ j < entriesPerTable,
      st₂.mem c j = if present (st.mem b i) then Vmm.splitEntry (st.mem b i) j else 0)
    (bare : ∀ j < entriesPerTable, T.link (j :: i :: p) (st₂.mem c j) = none)
    (blank : p.length ≤ 1 → present (st.mem b i) = false) :
    Placed K roots T p b i st
      (st₂.setEntry b i (c ||| pagePresent ||| pageWritable ||| pageUser)) c := by
  have fresh := inv.unlinked taken.free
  have other : b ≠ c := by
    rintro rfl
    exact fresh T member p node
  have linked : T.link (i :: p) (c ||| pagePresent ||| pageWritable ||| pageUser) = some c := by
    rw [forest_follows member short hi inside]
    simp [target_or, huge_of_aligned taken.aligned, show target c = c from taken.aligned]
  have nodes₁ (S : Tree Word Word) (hs : forest K st.kernelPml4 roots S) (q : Path) :
      nodeAt st₂.mem S q = nodeAt st.mem S q :=
    nodeAt_unlinked fresh hs others q
  have fresh₁ : Unlinked st₂.mem
      (forest K st.kernelPml4 roots) c := by
    intro S hs q
    rw [nodes₁ S hs]
    exact fresh S hs q
  have sep₁ := inv.separate.of_nodes nodes₁
  have node₁ := (nodes₁ T member p).trans node
  have bare₁ (j : Nat) :
      T.link (j :: i :: p) (st₂.mem c j) = none := by
    rcases Nat.lt_or_ge j entriesPerTable with hj | beyond
    · exact bare j hj
    · cases found : T.link (j :: i :: p) (st₂.mem c j) with
      | none => rfl
      | some d => exact absurd (forest_bounded member _ _ _ _ found) (Nat.not_lt.mpr beyond)
  have sep₂ := sep₁.graft member node₁ linked fresh₁ bare₁
  have here := nodeAt_put_here (sep₁.sole member node₁) (i := i)
    (e := c ||| pagePresent ||| pageWritable ||| pageUser)
  have elsewhere (S : Tree Word Word) (hs : forest K st.kernelPml4 roots S) (q : Path)
      (apart : ¬(S = T ∧ q = i :: p)) :
      nodeAt (put st₂.mem b i
        (c ||| pagePresent ||| pageWritable ||| pageUser)) S q = nodeAt st.mem S q := by
    by_cases same : S = T
    · subst same
      rw [nodeAt_put_graft (sep₁.sole member node₁) linked (Ne.symm other) bare₁,
        if_neg (fun at_q => apart ⟨rfl, at_q⟩), nodes₁ S hs]
      split
      · next below =>
        -- nothing hung below an entry that led nowhere
        obtain ⟨q', rfl⟩ := below
        cases found : nodeAt st.mem S (q' ++ i :: p) with
        | none => rfl
        | some d =>
          obtain ⟨d', above⟩ := nodeAt_above q' found
          rw [absent] at above
          cases above
      · rfl
    · rw [sep₁.nodeAt_elsewhere member node₁ hs same, nodes₁ S hs]
  have frame (d : Word) (j : Nat) (used : st.usedAt d = true) (apart : ¬(d = b ∧ j = i)) :
      put st₂.mem b i
        (c ||| pagePresent ||| pageWritable ||| pageUser) d j = st.mem d j := by
    rw [put_other apart, others]
    rintro rfl
    rw [taken.free] at used
    cases used
  -- a table after the step was there before, or is the new one
  have origin (S : Tree Word Word) (hs : forest K st.kernelPml4 roots S) (q : Path) (d : Word)
      (at_q : nodeAt (put st₂.mem b i
        (c ||| pagePresent ||| pageWritable ||| pageUser)) S q = some d) :
      nodeAt st.mem S q = some d ∨ (S = T ∧ q = i :: p ∧ d = c) := by
    by_cases new : S = T ∧ q = i :: p
    · obtain ⟨rfl, rfl⟩ := new
      rw [here, linked] at at_q
      exact Or.inr ⟨rfl, rfl, (Option.some.inj at_q).symm⟩
    · rw [elsewhere S hs q new] at at_q
      exact Or.inl at_q
  have newEntry (j : Nat) : put st₂.mem b i
      (c ||| pagePresent ||| pageWritable ||| pageUser) c j = st₂.mem c j := by
    rw [put_table (Ne.symm other)]
  have usedAfter (d : Word) :
      (st₂.setEntry b i (c ||| pagePresent ||| pageWritable ||| pageUser)).usedAt d =
        st₁.usedAt d := by
    rw [Vmm.usedAt, Vmm.setEntry_pmm, pmm]
    rfl
  refine ⟨?_, kernel, here.trans linked, elsewhere, frame,
    Or.inr ⟨absent, ⟨st₁, taken, pmm⟩, put_same, fun j hj => ?_⟩⟩
  · refine inv.of_entry member node inside kernel (pmm.symm ▸ taken.grows) frame sep₂ ?_ ?_ ?_
    · intro S hs q d at_q
      rcases origin S hs q d at_q with old | ⟨-, -, rfl⟩
      · obtain ⟨aligned, used⟩ := inv.tables S hs q d old
        exact ⟨aligned, (usedAfter d).trans (taken.grows _ used)⟩
      · refine ⟨taken.aligned, ?_⟩
        rw [usedAfter, taken.usedAt taken.aligned]
        simp
    · intro r live q d at_q shallow j hj private_ there
      rw [Vmm.setEntry_mem] at there ⊢
      rcases origin _ (forest_space K _ live) q d at_q with old | ⟨-, rfl, rfl⟩
      · by_cases at_entry : d = b ∧ j = i
        · obtain ⟨rfl, rfl⟩ := at_entry
          rw [put_same]
          simp [huge_of_aligned taken.aligned]
        · rw [frame d j (inv.tables _ (forest_space K _ live) q d old).2 at_entry] at there ⊢
          exact inv.own r live q d old shallow j hj private_ there
      · rw [newEntry j, filled j hj, blank (by simpa using shallow)] at there
        simp at there
    · intro q d at_q deep j hj there large
      rw [Vmm.setEntry_mem] at there large ⊢
      rcases origin _ (forest_kernel K _ roots) q d at_q with old | ⟨-, rfl, rfl⟩
      · by_cases at_entry : d = b ∧ j = i
        · obtain ⟨rfl, rfl⟩ := at_entry
          rw [put_same] at large
          simp [huge_of_aligned taken.aligned] at large
        · rw [frame d j (inv.tables _ (forest_kernel K _ roots) q d old).2 at_entry] at there large ⊢
          exact inv.regions q d old deep j hj there large
      · rw [newEntry j, filled j hj, blank (by simpa using deep.le)] at there
        simp at there
  · rw [Vmm.setEntry_mem, newEntry j, filled j hj]

end Spaces
end Trees

end MiniKernel.Memory.Paging
