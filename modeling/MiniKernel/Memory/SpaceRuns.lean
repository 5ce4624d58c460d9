import MiniKernel.Memory.FrameOwners

/-!
# Address spaces apart

Source: kernel/mm/vmm.c:34-183, 284-346 and kernel/core/process.c:122-141. Spaces are created,
pages of users are mapped in them, and they are destroyed; a mapping that fails for want of a
table gives its frame back. No such operation changes what another space or the kernel sees,
and the frames come back.
-/
namespace MiniKernel.Memory.Paging
open Lib Lib.Radix

/-- Creating a space, mapping a new page of a user and destroying a space. -/
def MemCall.OnSpaces : MemCall → Prop
  | .create => True
  | .map _ _ _ => True
  | .destroy _ => True
  | _ => False

/-- The space that a call works on. -/
def MemCall.Of (space : Word) : MemCall → Prop
  | .map space' _ _ => space' = space
  | .destroy space' => space' = space
  | _ => False

section Spaces
variable {boot : Pmm} {s t : MemState} {call : MemCall}

/-- What a user's page of a space leads to is a node of the space's tree. -/
theorem user_node {roots : List Word} {st : Vmm} {r a : Word} {u : Translation}
    (inv : Spaces slot0 roots st) (own : r ∈ roots) (mine : slot0 (levelIndex 39 a) = false)
    (found : translate st.mem r a = some u) (allowed : u.user = true) :
    nodeAt st.mem (spaceTree slot0 r) (pathOf a) = some u.frame := by
  have root : target r = r := (inv.rootTable own).1
  have member := forest_space slot0 st.kernelPml4 own
  simp only [Memory.Paging.translate, root] at found
  cases p4 : present (st.mem r (levelIndex 39 a)) with
  | false => simp [p4] at found
  | true =>
  have top : nodeAt st.mem (spaceTree slot0 r) [levelIndex 39 a] =
      some (target (st.mem r (levelIndex 39 a))) := by
    have inside : levelIndex 39 a < entriesPerTable := levelIndex_lt 39 a
    rw [nodeAt_step (show nodeAt st.mem (spaceTree slot0 r) [] = some r from rfl)]
    simp [spaceTree, treeLink, follows, inside, mine, p4]
  simp only [p4, Bool.true_eq_false, if_false] at found
  generalize target (st.mem r (levelIndex 39 a)) = t3 at top found
  cases p3 : present (st.mem t3 (levelIndex 30 a)) with
  | false => simp [p3] at found
  | true =>
  have second : nodeAt st.mem (spaceTree slot0 r) [levelIndex 30 a, levelIndex 39 a] =
      some (target (st.mem t3 (levelIndex 30 a))) := by
    rw [nodeAt_step top, forest_follows member (by simp) (levelIndex_lt 30 a) (by simp)]
    simp [p3]
  simp only [p3, Bool.true_eq_false, if_false] at found
  generalize target (st.mem t3 (levelIndex 30 a)) = t2 at second found
  cases p2 : present (st.mem t2 (levelIndex 21 a)) with
  | false => simp [p2] at found
  | true =>
  have small := (inv.own r own _ t2 second (by simp) _ (levelIndex_lt 21 a) (by simp) p2).2
  have third : nodeAt st.mem (spaceTree slot0 r)
      [levelIndex 21 a, levelIndex 30 a, levelIndex 39 a] =
      some (target (st.mem t2 (levelIndex 21 a))) := by
    rw [nodeAt_step second, forest_follows member (by simp) (levelIndex_lt 21 a) (by simp)]
    simp [p2, small]
  simp only [p2, small, Bool.true_eq_false, Bool.false_eq_true, if_false] at found
  generalize target (st.mem t2 (levelIndex 21 a)) = t1 at third found
  split at found
  · cases found
  next p1 =>
  cases found
  simp only [Bool.and_eq_true] at allowed
  have inside : levelIndex 12 a < entriesPerTable := levelIndex_lt 12 a
  rw [pathOf, nodeAt_step third]
  simp [spaceTree, treeLink, follows, inside, p1, allowed.2]

/-- What an operation on one space leaves alone. -/
structure SpaceStep (s : MemState) (call : MemCall) (t : MemState) : Prop where
  kernel : t.vmm.kernelPml4 = s.vmm.kernelPml4
  guarded : t.guarded = s.guarded
  nodes : ∀ p, nodeAt t.vmm.mem (kernelTree slot0 s.vmm.kernelPml4) p =
    nodeAt s.vmm.mem (kernelTree slot0 s.vmm.kernelPml4) p
  others : ∀ r, s.live r → ¬ call.Of r → ∀ a,
    translate t.vmm.mem r a = translate s.vmm.mem r a
  unowned : s.unowned call = []

theorem SpaceStep.still (call : MemCall) (unowned : s.unowned call = []) : SpaceStep s call s :=
  ⟨rfl, rfl, fun _ => rfl, fun _ _ _ _ => rfl, unowned⟩

theorem memStep_onSpaces (held : Held boot s.spaces s.guarded s.vmm) (only : call.OnSpaces)
    (stepped : memStep s call = some t) : SpaceStep s call t := by
  have kernelTree_member := forest_kernel slot0 s.vmm.kernelPml4 s.spaces
  cases call with
  | create =>
    simp only [memStep] at stepped
    rcases vmmCreateAddressSpace_spec held.spaces.zero with
      ⟨failed, -⟩ | ⟨frame, vmm, made, handed, copied⟩
    · rw [failed, if_pos rfl] at stepped
      cases stepped
      exact SpaceStep.still _ rfl
    · rw [made, if_neg handed.nonzero] at stepped
      cases stepped
      have kept := held.spaces.tablesKept handed
      exact ⟨handed.kernel, rfl, kept.nodes kernelTree_member,
        fun r live _ a => held.spaces.translate_kept live kept, rfl⟩
  | map space va flags =>
    simp only [memStep] at stepped
    split at stepped
    · next enabled =>
      cases stepped
      obtain ⟨page, -⟩ := enabled
      rcases held.page page.1 (slot0_of_user page.2.1) (user_of_flags page.2.2) with
        failed | ⟨c, st₁, alloc, nonzero, handed, mapping⟩
      · simp only [Vmm.mapNewPage, failed, ↓reduceIte]
        exact SpaceStep.still _ rfl
      · have kept := held.spaces.tablesKept handed
        have held₁ := (held.handed handed).1
        have live₁ (r : Word) (live : s.live r) : Live s.spaces st₁ r := by
          rwa [Live, handed.kernel]
        have member₁ := forest_kernel slot0 st₁.kernelPml4 s.spaces
        have same (r : Word) (live : s.live r) (a : Word) :
            translate st₁.mem r a = translate s.vmm.mem r a :=
          held.spaces.translate_kept live kept
        have nodes (p : Path) : nodeAt st₁.mem (kernelTree slot0 s.vmm.kernelPml4) p =
            nodeAt s.vmm.mem (kernelTree slot0 s.vmm.kernelPml4) p :=
          kept.nodes kernelTree_member p
        rw [handed.kernel] at member₁
        simp only [Vmm.mapNewPage, alloc, if_neg nonzero]
        rcases mapping with ⟨st₂, mapped, done⟩ | ⟨st₂, failed, grown⟩
        · rw [mapped]
          refine ⟨done.kernel.trans handed.kernel, rfl, fun p => ?_, fun r live other a => ?_, rfl⟩
          · rw [← nodes, done.elsewhere _ (handed.kernel.symm ▸ member₁) p (kernelTree_apart p)]
          · rw [← same r live, done.translated r a (live₁ r live) fun on => other on.1.symm]
        · rw [failed]
          refine ⟨grown.kernel.trans handed.kernel, rfl, fun p => ?_, fun r live other a => ?_, rfl⟩
          · exact (grown.elsewhere _ (handed.kernel.symm ▸ member₁) p (kernelTree_apart p)).trans
              (nodes p)
          · have looks_ := grown.looks true (fun _ => spaceTree_ne_kernelTree slot0 _ _) r a
              (live₁ r live)
            exact (looks_true looks_).trans (same r live a)
    · cases stepped
  | destroy space =>
    simp only [memStep] at stepped
    split at stepped
    · next own =>
      cases stepped
      obtain ⟨frames, destroyed, -⟩ := destroy_spec held.spaces own
      simp only [destroyed]
      refine ⟨Vmm.freeAll_kernelPml4 .., rfl, fun p => ?_, fun r _ _ a => ?_, rfl⟩
      all_goals rw [Vmm.freeAll_mem]
    · cases stepped
  | spawn tid cur => exact only.elim
  | exit tid => exact only.elim
  | reap tid cur => exact only.elim
  | heapGrow count => exact only.elim
  | load space va flags => exact only.elim

/-- What a run of such operations has done since it began. -/
structure SpaceRun (boot : Pmm) (s₀ s : MemState) : Prop where
  held : Held boot s.spaces s.guarded s.vmm
  kernel : s.vmm.kernelPml4 = s₀.vmm.kernelPml4
  guarded : s.guarded = s₀.guarded
  nodes : ∀ p, nodeAt s.vmm.mem (kernelTree slot0 s₀.vmm.kernelPml4) p =
    nodeAt s₀.vmm.mem (kernelTree slot0 s₀.vmm.kernelPml4) p
  moves : Moves boot s₀.vmm s₀.spaces s₀.guarded [] s.vmm s.spaces s.guarded [] []

theorem SpaceRun.start (held : Held boot s.spaces s.guarded s.vmm) : SpaceRun boot s s :=
  ⟨held, rfl, rfl, fun _ => rfl, Moves.same held InHand.nothing rfl fun _ => Iff.rfl⟩

theorem SpaceRun.step {s₀ : MemState} (run : SpaceRun boot s₀ s) (only : call.OnSpaces)
    (stepped : memStep s call = some t) : SpaceRun boot s₀ t := by
  have one := memStep_onSpaces run.held only stepped
  have moves := memStep_moves run.held stepped
  rw [one.unowned] at moves
  refine ⟨memStep_held run.held stepped, one.kernel.trans run.kernel,
    one.guarded.trans run.guarded, fun p => ?_, run.moves.trans moves⟩
  rw [← run.kernel, one.nodes p, run.kernel, run.nodes p]

theorem SpaceRun.run {s₀ : MemState} {calls : List MemCall} (run : SpaceRun boot s₀ s)
    (only : ∀ call ∈ calls, call.OnSpaces) (reached : Machine.run memStep s calls = some t) :
    SpaceRun boot s₀ t := by
  induction calls generalizing s with
  | nil =>
    cases reached
    exact run
  | cons call calls ih =>
    obtain ⟨u, stepped, rest⟩ := Machine.run_cons.mp reached
    exact ih (run.step (only call List.mem_cons_self) stepped)
      (fun c inside => only c (List.mem_cons_of_mem _ inside)) rest

/-- Once there are no spaces again, just the frames are in use that were so before. -/
theorem SpaceRun.given_back {s₀ : MemState} (run : SpaceRun boot s₀ s)
    (held₀ : Held boot s₀.spaces s₀.guarded s₀.vmm) (none₀ : s₀.spaces = [])
    (none_ : s.spaces = []) (f : Nat) : isUsed s.vmm.pmm f = isUsed s₀.vmm.pmm f := by
  have owners : Owned s.vmm s.spaces s.guarded [] f ↔ Owned s₀.vmm s₀.spaces s₀.guarded [] f := by
    rw [run.guarded, none₀, none_]
    refine or_congr_left ?_
    unfold NodeFrame forest
    simp only [List.not_mem_nil, false_and, exists_false, or_false, exists_eq_left, run.kernel,
      run.nodes]
  rw [Bool.eq_iff_iff]
  constructor
  · intro used
    rcases run.moves.took f used with old | owned | left
    · exact old
    · exact held₀.owned_used InHand.nothing (owners.mp owned)
    · cases left
  · intro used
    by_contra gone
    obtain ⟨owned, -⟩ := run.moves.gave f used gone
    exact gone (run.held.owned_used InHand.nothing (owners.mpr owned))

/-- Address spaces do not touch one another; destroying one gives back its PML4, its tables and
the frames of its pages, once each and nothing else; and when all are gone, the frames that are
free are those that were free before the first was created. -/
theorem spaces_independent {mem : Tables} {map : List E820Entry} (below : Below512Gb map)
    {kernelEnd : Nat} {boot : Vmm} (booted : bootVmm mem map kernelEnd = some boot)
    {before calls : List MemCall} {s₀ s : MemState}
    (started : Machine.run memStep (MemState.start boot) before = some s₀) (none₀ : s₀.spaces = [])
    (only : ∀ call ∈ calls, call.OnSpaces) (reached : Machine.run memStep s₀ calls = some s) :
    (∀ call t, call.OnSpaces → memStep s call = some t → ∀ r, s.live r → ¬ call.Of r → ∀ a,
      translate t.vmm.mem r a = translate s.vmm.mem r a) ∧
    (∀ space ∈ s.spaces, ∃ frames,
      s.vmm.vmmDestroyAddressSpace space = s.vmm.freeAll frames ∧ frames.Nodup ∧
      (∀ d ∈ frames, Aligned d ∧ s.vmm.usedAt d = true) ∧
      (∀ d, d ∈ frames ↔ ∃ p, nodeAt s.vmm.mem (spaceTree slot0 space) p = some d) ∧
      (∀ a u, slot0 (levelIndex 39 a) = false → translate s.vmm.mem space a = some u →
        u.user = true → u.frame ∈ frames) ∧
      ∀ f, isUsed (s.vmm.vmmDestroyAddressSpace space).pmm f = true ↔
        isUsed s.vmm.pmm f = true ∧ ∀ d ∈ frames, frameOf d.toNat ≠ f) ∧
    (s.spaces = [] → ∀ f, isUsed s.vmm.pmm f = isUsed s₀.vmm.pmm f) := by
  rcases (Accounted.start (bootVmm_ready_of below booted)).run started with
    held₀ | ⟨exhausted, -⟩
  · have run := (SpaceRun.start held₀).run only reached
    refine ⟨fun call t onSpaces stepped => (memStep_onSpaces run.held onSpaces stepped).others,
      fun space own => ?_, fun none_ => run.given_back held₀ none₀ none_⟩
    obtain ⟨frames, destroyed, once, found, taken⟩ := destroy_spec run.held.spaces own
    refine ⟨frames, destroyed, once, taken, found, fun a u mine translated allowed => ?_,
      fun f => ?_⟩
    · exact (found _).mpr ⟨_, user_node run.held.spaces own mine translated allowed⟩
    · rw [destroyed, Vmm.isUsed_freeAll, Bool.and_eq_true, Bool.not_eq_true',
        decide_eq_false_iff_not]
      refine and_congr_right fun _ => ⟨fun no d inside same => no ⟨?_, d, inside, same.symm⟩, ?_⟩
      · obtain ⟨p, node⟩ := (found d).mp inside
        rw [← same]
        exact tracked_of_free (run.held.own space own p d node)
      · rintro no ⟨-, d, inside, rfl⟩
        exact no d inside rfl
  · have same : s = s₀ := Machine.run_invariant (I := fun u => u = s₀)
      (fun u call v at_s₀ _ stepped => (at_s₀ ▸ exhausted).step stepped |>.trans at_s₀) rfl
      (Machine.meets_always _ calls) reached
    rw [same]
    refine ⟨fun call t _ stepped r _ _ a => by rw [exhausted.step stepped], fun space own => ?_,
      fun _ _ => rfl⟩
    rw [none₀] at own
    cases own

/-- A space is created after the heap has grown. -/
theorem spaces_independent_boot :
    ∃ boot s₀ s, bootVmm (fun _ _ => 0) [⟨0, 0x200000, true⟩] 0x100000 = some boot ∧
      Machine.run memStep (MemState.start boot) [.heapGrow 1] = some s₀ ∧
      Machine.run memStep s₀ [.create] = some s ∧
      ∀ call t, call.OnSpaces → memStep s call = some t → ∀ r, s.live r → ¬ call.Of r → ∀ a,
        translate t.vmm.mem r a = translate s.vmm.mem r a := by
  have below : Below512Gb [⟨0, 0x200000, true⟩] := by
    intro e inside _
    rw [List.mem_singleton.mp inside]
    decide
  obtain ⟨boot, booted, -⟩ := bootVmm_small (fun _ _ => 0) 0x100000
  obtain ⟨s, reached⟩ : ∃ s, Machine.run memStep
      { MemState.start boot with vmm := (boot.allocContiguous 1).2 } [.create] = some s := by
    simp only [Machine.run, memStep]
    split
    · exact ⟨_, rfl⟩
    · exact ⟨_, rfl⟩
  have started : Machine.run memStep (MemState.start boot) [.heapGrow 1] =
    some { MemState.start boot with vmm := (boot.allocContiguous 1).2 } := rfl
  have only (call : MemCall) (inside : call ∈ [MemCall.create]) : call.OnSpaces := by
    rw [List.mem_singleton.mp inside]
    exact trivial
  exact ⟨boot, _, s, booted, started, reached,
    (spaces_independent below booted started rfl only reached).1⟩

end Spaces

end MiniKernel.Memory.Paging
