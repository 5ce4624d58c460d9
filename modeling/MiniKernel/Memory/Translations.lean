import MiniKernel.Memory.AddressSpaces

/-!
# What placing a table does to translations

Source: kernel/mm/vmm.c:34-130. A new or split table changes no translation,
the user right of kernel pages apart; with private tables, not even that.
-/
namespace MiniKernel.Memory.Paging
open Lib Lib.Radix

/-- The indices of an address, innermost first. -/
def pathOf (a : Word) : Path := [levelIndex 12 a, levelIndex 21 a, levelIndex 30 a, levelIndex 39 a]

theorem index_lt {a : Word} {i : Nat} {q : Path} (suffix : i :: q <:+ pathOf a) :
    i < entriesPerTable := by
  have inPath := suffix.subset List.mem_cons_self
  simp only [pathOf, List.mem_cons, List.not_mem_nil, or_false] at inPath
  rcases inPath with rfl | rfl | rfl | rfl <;> exact levelIndex_lt _ _

/-- The entries a translation looks at, as table and index. -/
def walkSlots (mem : Tables) (cr3 a : Word) : List (Word × Nat) :=
  let l4 := mem (target cr3) (levelIndex 39 a)
  let l3 := mem (target l4) (levelIndex 30 a)
  let l2 := mem (target l3) (levelIndex 21 a)
  (target cr3, levelIndex 39 a) ::
    if present l4 = false then []
    else (target l4, levelIndex 30 a) ::
      if present l3 = false then []
      else (target l3, levelIndex 21 a) ::
        if present l2 = false ∨ huge l2 = true then [] else [(target l2, levelIndex 12 a)]

/-- A translation, with its user right only where `exact` asks for it. -/
def Translation.view (exact : Bool) (t : Translation) : Word × Bool × Bool :=
  (t.frame, t.writable, exact && t.user)

def looks (exact : Bool) (t : Option Translation) : Option (Word × Bool × Bool) :=
  t.map (Translation.view exact)

theorem looks_true {t u : Option Translation} (same : looks true t = looks true u) : t = u := by
  refine Option.map_injective (fun x y h => ?_) same
  cases x
  cases y
  simp only [Translation.view, Bool.true_and, Prod.mk.injEq] at h
  simp [h]

/-- Entries that lead to the same place with the same rights, the user right
only where `exact` asks for it. -/
structure Alike (exact : Bool) (e e' : Word) : Prop where
  present : present e' = present e
  huge : huge e' = huge e
  writable : writable e' = writable e
  target : target e' = target e
  region : regionBase e' = regionBase e
  user : exact = true → user e' = user e

theorem Alike.refl (exact : Bool) (e : Word) : Alike exact e e := ⟨rfl, rfl, rfl, rfl, rfl, fun _ => rfl⟩

theorem Alike.of_eq {exact : Bool} {e e' : Word} (same : e' = e) : Alike exact e e' :=
  same ▸ Alike.refl exact e

/-- Setting the user bit keeps what matters, all of it where the bit was set. -/
theorem Alike.mark {exact : Bool} {e : Word} (had : exact = true → Paging.user e = true) :
    Alike exact e (e ||| pageUser) :=
  ⟨by simp, by simp, by simp, by simp [target_or], regionBase_or_pageUser e,
    fun asked => by simp [had asked]⟩

section
variable {mem mem' : Tables} {cr3 a b c : Word} {exact : Bool} {i : Nat}

/-- A translation depends on the entries it looks at. -/
theorem translate_alike
    (same : ∀ s ∈ walkSlots mem cr3 a, Alike exact (mem s.1 s.2) (mem' s.1 s.2)) :
    looks exact (translate mem' cr3 a) = looks exact (translate mem cr3 a) := by
  have s4 := same (target cr3, levelIndex 39 a) (by simp [walkSlots])
  simp only [translate]
  rw [s4.present, s4.target, s4.writable]
  generalize h4 : mem (target cr3) (levelIndex 39 a) = l4 at *
  cases p4 : present l4 with
  | false => simp
  | true =>
  have s3 := same (target l4, levelIndex 30 a) (by simp [walkSlots, h4, p4])
  rw [s3.present, s3.target, s3.writable]
  generalize h3 : mem (target l4) (levelIndex 30 a) = l3 at *
  cases p3 : present l3 with
  | false => simp
  | true =>
  have s2 := same (target l3, levelIndex 21 a) (by simp [walkSlots, h4, p4, h3, p3])
  rw [s2.present, s2.target, s2.writable, s2.huge, s2.region]
  generalize h2 : mem (target l3) (levelIndex 21 a) = l2 at *
  cases p2 : present l2 with
  | false => simp
  | true =>
  cases large : huge l2 with
  | true =>
    cases exact with
    | false => simp [looks, Translation.view]
    | true => simp [s4.user rfl, s3.user rfl, s2.user rfl]
  | false =>
  have s1 := same (target l2, levelIndex 12 a) (by simp [walkSlots, h4, p4, h3, p3, h2, p2, large])
  rw [s1.present, s1.target, s1.writable]
  cases exact with
  | false => cases present (mem (target l2) (levelIndex 12 a)) <;> simp [looks, Translation.view]
  | true => simp [s4.user rfl, s3.user rfl, s2.user rfl, s1.user rfl]

theorem translate_absent (on : (b, i) ∈ walkSlots mem cr3 a) (absent : present (mem b i) = false) :
    translate mem cr3 a = none := by
  simp only [translate]
  simp only [walkSlots, List.mem_cons] at on
  generalize h4 : mem (target cr3) (levelIndex 39 a) = l4 at *
  generalize h3 : mem (target l4) (levelIndex 30 a) = l3 at *
  generalize h2 : mem (target l3) (levelIndex 21 a) = l2 at *
  cases p4 : present l4 with
  | false => simp
  | true =>
  cases p3 : present l3 with
  | false => simp
  | true =>
  cases p2 : present l2 with
  | false => simp
  | true =>
  -- the three tables above are present, so the absent entry is the last one
  rcases on with here | on
  · simp only [Prod.mk.injEq] at here
    rw [here.1, here.2, h4, p4] at absent
    cases absent
  rw [if_neg (by simp [p4]), List.mem_cons, if_neg (by simp [p3])] at on
  rcases on with here | on
  · simp only [Prod.mk.injEq] at here
    rw [here.1, here.2, h3, p3] at absent
    cases absent
  rw [List.mem_cons] at on
  rcases on with here | on
  · simp only [Prod.mk.injEq] at here
    rw [here.1, here.2, h2, p2] at absent
    cases absent
  split at on
  · cases on
  · next small =>
    simp only [List.mem_singleton, Prod.mk.injEq] at on
    rw [on.1, on.2] at absent
    simp_all

/-- Where an absent entry gets a table, the walk goes on into that table. -/
theorem walk_next {k : Nat} (at_k : (walkSlots mem cr3 a)[k]? = some (b, i)) (high : k ≤ 2)
    (others : ∀ s ∈ walkSlots mem cr3 a, s ≠ (b, i) → mem' s.1 s.2 = mem s.1 s.2)
    (absent : present (mem b i) = false) (there : present (mem' b i) = true)
    (small : huge (mem' b i) = false) :
    ∃ j < entriesPerTable, (target (mem' b i), j) ∈ walkSlots mem' cr3 a := by
  -- the entries before the absent one are present, so they are kept
  have kept (c : Word) (j : Nat) (on : (c, j) ∈ walkSlots mem cr3 a)
      (held : present (mem c j) = true) : mem' c j = mem c j := by
    refine others (c, j) on ?_
    rintro same
    simp only [Prod.mk.injEq] at same
    rw [same.1, same.2, absent] at held
    cases held
  rcases k with _ | _ | _ | k
  · simp only [walkSlots, List.getElem?_cons_zero, Option.some.injEq, Prod.mk.injEq] at at_k
    obtain ⟨rfl, rfl⟩ := at_k
    refine ⟨levelIndex 30 a, levelIndex_lt 30 a, ?_⟩
    simp [walkSlots, there]
  · simp only [walkSlots, List.getElem?_cons_succ] at at_k
    cases p4 : present (mem (target cr3) (levelIndex 39 a)) with
    | false => simp [p4] at at_k
    | true =>
    have k4 := kept _ _ (by simp [walkSlots]) p4
    simp only [p4, Bool.true_eq_false, if_false, List.getElem?_cons_zero, Option.some.injEq,
      Prod.mk.injEq] at at_k
    obtain ⟨rfl, rfl⟩ := at_k
    refine ⟨levelIndex 21 a, levelIndex_lt 21 a, ?_⟩
    simp [walkSlots, k4, p4, there]
  · simp only [walkSlots, List.getElem?_cons_succ] at at_k
    cases p4 : present (mem (target cr3) (levelIndex 39 a)) with
    | false => simp [p4] at at_k
    | true =>
    have k4 := kept _ _ (by simp [walkSlots]) p4
    simp only [p4, Bool.true_eq_false, if_false, List.getElem?_cons_succ] at at_k
    cases p3 : present (mem (target (mem (target cr3) (levelIndex 39 a))) (levelIndex 30 a)) with
    | false => simp [p3] at at_k
    | true =>
    have k3 := kept _ _ (by simp [walkSlots, p4]) p3
    simp only [p3, Bool.true_eq_false, if_false, List.getElem?_cons_zero, Option.some.injEq,
      Prod.mk.injEq] at at_k
    obtain ⟨rfl, rfl⟩ := at_k
    refine ⟨levelIndex 12 a, levelIndex_lt 12 a, ?_⟩
    simp [walkSlots, k4, p4, k3, p3, there, small]
  · omega

/-- Splitting a 2 MiB page keeps where its addresses lead and whether they may
be written. -/
theorem translate_split (at_2 : (walkSlots mem cr3 a)[2]? = some (b, i))
    (alone : ∀ k, (walkSlots mem cr3 a)[k]? = some (b, i) → k = 2)
    (others : ∀ s ∈ walkSlots mem cr3 a, s ≠ (b, i) → mem' s.1 s.2 = mem s.1 s.2)
    (there : present (mem b i) = true) (large : huge (mem b i) = true)
    (there' : present (mem' b i) = true) (small : huge (mem' b i) = false)
    (rights : writable (mem' b i) = true)
    (region : target (mem b i) = regionBase (mem b i))
    (split : ∀ j < entriesPerTable, mem' (target (mem' b i)) j = Vmm.splitEntry (mem b i) j) :
    looks false (translate mem' cr3 a) = looks false (translate mem cr3 a) := by
  have kept (k : Nat) (c : Word) (j : Nat) (at_k : (walkSlots mem cr3 a)[k]? = some (c, j))
      (early : k ≠ 2) : mem' c j = mem c j := by
    refine others (c, j) (List.mem_of_getElem? at_k) ?_
    rintro same
    exact early (alone k (same ▸ at_k))
  have k4 := kept 0 (target cr3) (levelIndex 39 a) (by simp [walkSlots]) (by decide)
  simp only [walkSlots, List.getElem?_cons_succ] at at_2
  cases p4 : present (mem (target cr3) (levelIndex 39 a)) with
  | false => simp [p4] at at_2
  | true =>
  have k3 := kept 1 (target (mem (target cr3) (levelIndex 39 a))) (levelIndex 30 a)
    (by simp [walkSlots, p4]) (by decide)
  simp only [p4, Bool.true_eq_false, if_false, List.getElem?_cons_succ] at at_2
  cases p3 : present (mem (target (mem (target cr3) (levelIndex 39 a))) (levelIndex 30 a)) with
  | false => simp [p3] at at_2
  | true =>
  simp only [p3, Bool.true_eq_false, if_false, List.getElem?_cons_zero, Option.some.injEq,
    Prod.mk.injEq] at at_2
  obtain ⟨rfl, rfl⟩ := at_2
  have entry := split (levelIndex 12 a) (levelIndex_lt 12 a)
  have there₁ := (present_splitEntry _ (levelIndex 12 a)).trans there
  simp only [translate, k4, p4, k3, p3, there, there', large, small, entry, there₁,
    Bool.true_eq_false, Bool.false_eq_true, if_false, if_true, looks, Option.map_some,
    Translation.view, rights, writable_splitEntry, Bool.and_true,
    target_splitEntry region (levelIndex_lt 12 a), Bool.false_and]

end

/-! ## Walks and trees -/

section
variable {K : Nat → Bool} {roots : List Word} {st st' : Vmm} {T : Tree Word Word} {p : Path}
  {r a b c : Word} {i k : Nat}

/-- The kernel's PML4 or that of a space. -/
def Live (roots : List Word) (st : Vmm) (r : Word) : Prop := r = st.kernelPml4 ∨ r ∈ roots

/-- The tree that holds everything below the top level for an address. -/
def walkTree (K : Nat → Bool) (kernelPml4 r a : Word) : Tree Word Word :=
  if K (levelIndex 39 a) then kernelTree K kernelPml4
  else if r = kernelPml4 then kernelTree K kernelPml4 else spaceTree K r

theorem walkTree_forest (live : Live roots st r) :
    forest K st.kernelPml4 roots (walkTree K st.kernelPml4 r a) := by
  unfold walkTree
  split
  · exact forest_kernel K _ roots
  · split
    · exact forest_kernel K _ roots
    · next other => exact forest_space K _ (live.resolve_left other)

theorem Spaces.live_aligned (inv : Spaces K roots st) (live : Live roots st r) : Aligned r := by
  rcases live with rfl | live
  · exact inv.kernelTable.1
  · exact (inv.rootTable live).1

/-- Below the top level, a walk stays in one tree. -/
theorem Spaces.walkTree_top (inv : Spaces K roots st) (live : Live roots st r)
    (there : present (st.mem r (levelIndex 39 a)) = true) :
    nodeAt st.mem (walkTree K st.kernelPml4 r a) [levelIndex 39 a] =
      some (target (st.mem r (levelIndex 39 a))) := by
  have hi := levelIndex_lt 39 a
  have inside : levelIndex 39 a < entriesPerTable := hi
  unfold walkTree
  split
  · next slot =>
    have same : st.mem r (levelIndex 39 a) = st.mem st.kernelPml4 (levelIndex 39 a) := by
      rcases live with rfl | live
      · rfl
      · exact inv.shared r live _ inside slot
    rw [same] at there ⊢
    simp [nodeAt, kernelTree, treeLink, follows, inside, slot, there]
  · next private_ =>
    split
    · next kernel =>
      rw [kernel, inv.kernelSlots _ inside] at there
      exact absurd there private_
    · simp [nodeAt, spaceTree, treeLink, follows, inside, private_, there]

/-- The tables a walk passes are the trees' own, and each entry lies on the
path of the address. -/
theorem Spaces.walk_node (inv : Spaces K roots st) (live : Live roots st r)
    (at_k : (walkSlots st.mem r a)[k]? = some (b, i)) :
    ∃ S q, forest K st.kernelPml4 roots S ∧ nodeAt st.mem S q = some b ∧ q.length = k ∧
      i :: q <:+ pathOf a ∧ (0 < k → S = walkTree K st.kernelPml4 r a) := by
  have root : target r = r := inv.live_aligned live
  have below (j : Nat) (q : Path) (d : Word) (short : q.length = 1 ∨ q.length = 2)
      (hj : j < entriesPerTable)
      (node : nodeAt st.mem (walkTree K st.kernelPml4 r a) q = some d)
      (there : present (st.mem d j) = true) (small : q.length = 2 → huge (st.mem d j) = false) :
      nodeAt st.mem (walkTree K st.kernelPml4 r a) (j :: q) = some (target (st.mem d j)) := by
    rw [nodeAt_step node, forest_follows (walkTree_forest live) (by omega) hj
      (fun top => by simp [top] at short), if_pos ⟨there, small⟩]
  simp only [walkSlots, root] at at_k
  rcases k with _ | k
  · simp only [List.getElem?_cons_zero, Option.some.injEq, Prod.mk.injEq] at at_k
    obtain ⟨rfl, rfl⟩ := at_k
    have suffix : levelIndex 39 a :: [] <:+ pathOf a := by
      exact ⟨[levelIndex 12 a, levelIndex 21 a, levelIndex 30 a], rfl⟩
    rcases live with rfl | live
    · exact ⟨_, [], forest_kernel K _ roots, rfl, rfl, suffix, fun h => absurd h (by decide)⟩
    · exact ⟨_, [], forest_space K _ live, rfl, rfl, suffix, fun h => absurd h (by decide)⟩
  · rw [List.getElem?_cons_succ] at at_k
    cases p4 : present (st.mem r (levelIndex 39 a)) with
    | false => simp [p4] at at_k
    | true =>
    have top := inv.walkTree_top live p4
    refine ⟨walkTree K st.kernelPml4 r a, ?_⟩
    simp only [p4, Bool.true_eq_false, if_false] at at_k
    rcases k with _ | k
    · simp only [List.getElem?_cons_zero, Option.some.injEq, Prod.mk.injEq] at at_k
      obtain ⟨rfl, rfl⟩ := at_k
      exact ⟨[levelIndex 39 a], walkTree_forest live, top, rfl,
        ⟨[levelIndex 12 a, levelIndex 21 a], rfl⟩, fun _ => rfl⟩
    · rw [List.getElem?_cons_succ] at at_k
      cases p3 : present (st.mem (target (st.mem r (levelIndex 39 a))) (levelIndex 30 a)) with
      | false => simp [p3] at at_k
      | true =>
      have second := below _ _ _ (Or.inl rfl) (levelIndex_lt 30 a) top p3 (by simp)
      simp only [p3, Bool.true_eq_false, if_false] at at_k
      rcases k with _ | k
      · simp only [List.getElem?_cons_zero, Option.some.injEq, Prod.mk.injEq] at at_k
        obtain ⟨rfl, rfl⟩ := at_k
        exact ⟨[levelIndex 30 a, levelIndex 39 a], walkTree_forest live, second, rfl,
          ⟨[levelIndex 12 a], rfl⟩, fun _ => rfl⟩
      · rw [List.getElem?_cons_succ] at at_k
        split at at_k
        · simp at at_k
        · next leads =>
          rw [not_or] at leads
          have third := below _ _ _ (Or.inr rfl) (levelIndex_lt 21 a) second
            (by simpa using leads.1) (fun _ => by simpa using leads.2)
          rcases k with _ | k
          · simp only [List.getElem?_cons_zero, Option.some.injEq, Prod.mk.injEq] at at_k
            obtain ⟨rfl, rfl⟩ := at_k
            exact ⟨[levelIndex 21 a, levelIndex 30 a, levelIndex 39 a], walkTree_forest live,
              third, rfl, ⟨[], rfl⟩, fun _ => rfl⟩
          · simp at at_k

/-- An entry of a tree can only be met on a walk at its own depth. -/
theorem Spaces.walk_place (inv : Spaces K roots st) (live : Live roots st r)
    (member : forest K st.kernelPml4 roots T) (node : nodeAt st.mem T p = some b)
    (at_k : (walkSlots st.mem r a)[k]? = some (b, i)) :
    k = p.length ∧ i :: p <:+ pathOf a := by
  obtain ⟨S, q, hs, at_q, rfl, suffix, -⟩ := inv.walk_node live at_k
  obtain ⟨-, rfl⟩ := inv.separate S hs T member q p b at_q node
  exact ⟨rfl, suffix⟩

theorem Spaces.walk_used (inv : Spaces K roots st) (live : Live roots st r)
    (on : (b, i) ∈ walkSlots st.mem r a) : st.usedAt b = true := by
  obtain ⟨k, at_k⟩ := List.mem_iff_getElem?.mp on
  obtain ⟨S, q, hs, at_q, -⟩ := inv.walk_node live at_k
  exact (inv.tables S hs q b at_q).2

/-- Entries of tables in use that are off a walk may change freely. -/
theorem Spaces.translate_frame (inv : Spaces K roots st) (live : Live roots st r)
    (off : (b, i) ∉ walkSlots st.mem r a)
    (frame : ∀ d j, st.usedAt d = true → ¬(d = b ∧ j = i) → st'.mem d j = st.mem d j) :
    translate st'.mem r a = translate st.mem r a := by
  refine looks_true (translate_alike fun s on => Alike.of_eq ?_)
  refine frame s.1 s.2 (inv.walk_used live on) ?_
  rintro ⟨h₁, h₂⟩
  exact off (by rw [← h₁, ← h₂]; exact on)

/-- Translations are kept where all tables are. -/
theorem Spaces.translate_kept (inv : Spaces K roots st) (live : Live roots st r)
    (kept : TablesKept K roots st st') : translate st'.mem r a = translate st.mem r a := by
  refine looks_true (translate_alike fun s on => Alike.of_eq ?_)
  obtain ⟨k, at_k⟩ := List.mem_iff_getElem?.mp on
  obtain ⟨S, q, hs, at_q, rfl, suffix, -⟩ := inv.walk_node live at_k
  have short := suffix.length_le
  rw [List.length_cons] at short
  rw [kept S hs q _ at_q (Nat.le_of_succ_le_succ short)]

/-- Under the kernel's slots all spaces translate alike. -/
theorem Spaces.translate_shared (inv : Spaces K roots st) (live : Live roots st r)
    (slot : K (levelIndex 39 a) = true) :
    translate st.mem r a = translate st.mem st.kernelPml4 a := by
  have same : st.mem r (levelIndex 39 a) = st.mem st.kernelPml4 (levelIndex 39 a) := by
    rcases live with rfl | live
    · rfl
    · exact inv.shared r live _ (levelIndex_lt 39 a) slot
  have root : target r = r := inv.live_aligned live
  have kernel : target st.kernelPml4 = st.kernelPml4 := inv.kernelTable.1
  rw [translate, translate, root, kernel, same]

/-- Placing a table changes no translation, up to the user right of pages in
the kernel's tree. -/
theorem Placed.looks {exact : Bool} (inv : Spaces K roots st)
    (placed : Placed K roots T p b i st st' c) (member : forest K st.kernelPml4 roots T)
    (node : nodeAt st.mem T p = some b) (short : p.length ≤ 2)
    (inside : p = [] → T ≠ kernelTree K st.kernelPml4 ∧ K i = false)
    (owned : exact = true → T ≠ kernelTree K st.kernelPml4) (live : Live roots st r) :
    looks exact (translate st'.mem r a) = looks exact (translate st.mem r a) := by
  by_cases on : (b, i) ∈ walkSlots st.mem r a
  swap
  · rw [inv.translate_frame live on placed.frame]
  obtain ⟨k, at_k⟩ := List.mem_iff_getElem?.mp on
  obtain ⟨rfl, suffix⟩ := inv.walk_place live member node at_k
  have hi : i < entriesPerTable := index_lt suffix
  have private_ (notKernel : T ≠ kernelTree K st.kernelPml4)
      (there : present (st.mem b i) = true) :
      user (st.mem b i) = true ∧ huge (st.mem b i) = false := by
    rcases member with rfl | ⟨s, hs, rfl⟩
    · exact absurd rfl notKernel
    · exact inv.own s hs p b node short i hi (fun top => (inside top).2) there
  have others (s : Word × Nat) (hs : s ∈ walkSlots st.mem r a) (apart : s ≠ (b, i)) :
      st'.mem s.1 s.2 = st.mem s.1 s.2 :=
    placed.frame s.1 s.2 (inv.walk_used live hs) (fun same => apart (Prod.ext same.1 same.2))
  rcases placed.how with ⟨found, -, marked⟩ | ⟨absent, -, hung, filled⟩
  · refine translate_alike fun s hs => ?_
    by_cases here : s = (b, i)
    · subst here
      rw [marked]
      refine Alike.mark fun asked => (private_ (owned asked) ?_).1
      rw [nodeAt_step node, forest_follows member short hi inside] at found
      split at found
      · next yes => exact yes.1
      · cases found
    · exact Alike.of_eq (others s hs here)
  · have cAligned : Aligned c :=
      (placed.inv.tables T (placed.kernel.symm ▸ member) _ c placed.node).1
    have leads : target (st'.mem b i) = c := by
      rw [hung]
      simp [target_or, show target c = c from cAligned]
    have there' : present (st'.mem b i) = true := by simp [hung]
    have small : huge (st'.mem b i) = false := by simp [hung, huge_of_aligned cAligned]
    cases there : present (st.mem b i) with
    | false =>
      obtain ⟨j, hj, next⟩ := walk_next at_k short others there there' small
      rw [leads] at next
      have blank : present (st'.mem c j) = false := by
        rw [filled j hj, there]
        simp
      rw [translate_absent on there, translate_absent next blank]
    | true =>
      -- present and yet leading nowhere: a 2 MiB page, which only the kernel has
      rw [nodeAt_step node, forest_follows member short hi inside] at absent
      have large : p.length = 2 ∧ huge (st.mem b i) = true := by
        split at absent
        · cases absent
        · next no =>
          simp only [there, true_and] at no
          by_contra other
          exact no fun deep => by simpa [deep] using other
      cases exact with
      | true => simp [(private_ (owned rfl) there).2] at large
      | false =>
      have kernelTree_ : T = kernelTree K st.kernelPml4 := by
        by_contra notKernel
        simp [(private_ notKernel there).2] at large
      refine translate_split (large.1 ▸ at_k)
        (fun k' at_k' => (inv.walk_place live member node at_k').1.trans large.1) others there
        large.2 there' small (by simp [hung])
        (inv.regions p b (kernelTree_ ▸ node) large.1 i hi there large.2) ?_
      intro j hj
      rw [leads, filled j hj, there]
      rfl

end

end MiniKernel.Memory.Paging
