import MiniKernel.Storage.MemfsMap

/-!
# Growing a buffer of the filesystem in memory

Source: kernel/core/memfs.c, `ensure_capacity` and `memfs_write_at`. The capacity
doubles as an `unsigned int` until it reaches what is needed, so the loop is
followed here turn by turn: a call that is still in it after the given number of
turns has no result.
-/
namespace MiniKernel.Storage

/-- `while (new_capacity < needed) new_capacity *= 2`, unless it takes more turns. -/
def doublingLoop (needed : Nat) : Nat → Nat → Option Nat
  | 0, _ => none
  | turns + 1, newCapacity =>
    if newCapacity < needed then doublingLoop needed turns (wrap32 (newCapacity * 2))
    else some newCapacity

/-- `ensure_capacity` behind its loop. -/
def moveBuffer (slot newCapacity : Nat) (g : Grant) (s : Memfs) : Option (Bool × Memfs) :=
  let e := s.entries slot
  match kmallocAnswer newCapacity g s.blocks with
  | none => some (false, s)
  | some newBuf => do
    let blocks := s.blocks.acquire newBuf newCapacity g.bytes
    let old ← blocks.load e.data 0 e.size
    let blocks ← blocks.store newBuf 0 e.size fun i => old.getD i 0
    let blocks ← blocks.release e.data
    some (true,
      { s with
        entries := Function.update s.entries slot { e with data := newBuf, capacity := newCapacity }
        blocks := blocks })

def ensureCapacityWithin (turns slot needed : Nat) (g : Grant) (s : Memfs) :
    Option (Option (Bool × Memfs)) :=
  if needed ≤ (s.entries slot).capacity then some (some (true, s))
  else
    (doublingLoop needed turns (wrap32 ((s.entries slot).capacity * 2))).map fun newCapacity =>
      moveBuffer slot newCapacity g s

def writeAtWithin (turns : Nat) (handle : Int) (offset : Nat) (buf : Lib.Buffer) (len : Nat)
    (g : Grant) (s : Memfs) : Option (Option (Int × Memfs)) :=
  if ¬ memfsValid s handle then some (some (-1, s))
  else
    let needed := wrap32 (offset + len)
    if needed < offset then some (some (-1, s))
    else
      (ensureCapacityWithin turns handle.toNat needed g s).map fun ensured => do
        let r ← ensured
        if ¬ r.1 then some (-1, r.2)
        else
          let e := r.2.entries handle.toNat
          let blocks ← r.2.blocks.store e.data offset len buf
          some (toInt32 len,
            { r.2 with
              entries := if needed > e.size then
                  Function.update r.2.entries handle.toNat { e with size := needed }
                else r.2.entries
              blocks := blocks })

/-- Every call but a write returns after no turn of the loop. -/
def memfsCallWithin (turns : Nat) (s : Memfs) : MemfsCall → Option (Option Memfs)
  | .writeAt handle offset buf len g =>
    (writeAtWithin turns handle offset.toNat buf len.toNat g s).map fun r => r.map fun r => r.2
  | c => some (memfsStep s c)

/-- What calls that return leave behind. -/
inductive MemfsReached : Memfs → Prop
  | start : MemfsReached memfsStart
  | call {s t : Memfs} {turns : Nat} (c : MemfsCall) (before : MemfsReached s)
      (returned : memfsCallWithin turns s c = some (some t)) : MemfsReached t

/-- A write leaves the loop, with room for its bytes by the time it stores them. -/
structure GrowsFirst (s : Memfs) (handle : Int) (offset : Nat) (buf : Lib.Buffer) (len : Nat)
    (g : Grant) : Prop where
  ends : ∃ turns, (writeAtWithin turns handle offset buf len g s).isSome = true
  room : ∀ turns t, memfsValid s handle = true → offset + len < 2 ^ 32 →
    ensureCapacityWithin turns handle.toNat (offset + len) g s = some (some (true, t)) →
    offset + len ≤ (t.entries handle.toNat).capacity

section Loop
variable {needed turns newCapacity : Nat}

theorem doublingLoop_ge {c : Nat} (ended : doublingLoop needed turns newCapacity = some c) :
    needed ≤ c := by
  induction turns generalizing newCapacity with
  | zero => exact absurd ended nofun
  | succ turns ih =>
    rw [doublingLoop] at ended
    split at ended
    · exact ih ended
    · next enough =>
      have same : newCapacity = c := Option.some.inj ended
      omega

/-- Nothing is left to double. -/
theorem doublingLoop_zero (positive : 0 < needed) : doublingLoop needed turns 0 = none := by
  induction turns with
  | zero => rfl
  | succ turns ih =>
    rw [doublingLoop, if_pos positive]
    exact ih

/-- A power of two doubles as one until it leaves the range of an `unsigned int`. -/
theorem wrap32_double {k : Nat} (bound : k ≤ 31) :
    wrap32 (2 ^ k * 2) = if k = 31 then 0 else 2 ^ (k + 1) := by
  split
  · next top => rw [top]; rfl
  · have small : 2 ^ (k + 1) ≤ 2 ^ 31 := Nat.pow_le_pow_right (by decide) (by omega)
    rw [← pow_succ]
    exact Nat.mod_eq_of_lt (by omega)

theorem doublingLoop_power {k c : Nat} (positive : 0 < needed) (bound : k ≤ 31)
    (ended : doublingLoop needed turns (2 ^ k) = some c) : ∃ k' ≤ 31, c = 2 ^ k' := by
  induction turns generalizing k with
  | zero => exact absurd ended nofun
  | succ turns ih =>
    rw [doublingLoop, wrap32_double bound] at ended
    split at ended
    · split at ended
      · rw [doublingLoop_zero positive] at ended
        exact absurd ended nofun
      · next below => exact ih (by omega) ended
    · exact ⟨k, bound, (Option.some.inj ended).symm⟩

theorem doublingLoop_ends {k : Nat} (small : needed ≤ 2 ^ 31) (bound : k ≤ 31)
    (enough : 32 - k ≤ turns) : (doublingLoop needed turns (2 ^ k)).isSome = true := by
  induction turns generalizing k with
  | zero => omega
  | succ turns ih =>
    rw [doublingLoop]
    split
    · next more =>
      have below : k ≠ 31 := fun top => by
        rw [top] at more
        omega
      rw [wrap32_double bound, if_neg below]
      exact ih (by omega) (by omega)
    · rfl

/-- Past the largest power of two that an `unsigned int` holds, it doubles to 0. -/
theorem doublingLoop_stuck {k : Nat} (large : 2 ^ 31 < needed) (bound : k ≤ 31) :
    doublingLoop needed turns (2 ^ k) = none := by
  induction turns generalizing k with
  | zero => rfl
  | succ turns ih =>
    have small : 2 ^ k ≤ 2 ^ 31 := Nat.pow_le_pow_right (by decide) bound
    rw [doublingLoop, if_pos (by omega), wrap32_double bound]
    split
    · exact doublingLoop_zero (by omega)
    · exact ih (by omega)

theorem doubleUntil_loop {fuel c : Nat} (enough : turns ≤ fuel)
    (ended : doublingLoop needed turns newCapacity = some c) :
    doubleUntil needed fuel newCapacity = c := by
  induction turns generalizing newCapacity fuel with
  | zero => exact absurd ended nofun
  | succ turns ih =>
    obtain ⟨fuel, rfl⟩ : ∃ n, fuel = n + 1 := ⟨fuel - 1, by omega⟩
    rw [doublingLoop] at ended
    rw [doubleUntil]
    split
    · next more => exact ih (by omega) (by rw [if_pos more] at ended; exact ended)
    · next done =>
      rw [if_neg done] at ended
      exact Option.some.inj ended

end Loop

theorem moveBuffer_doubled (slot needed : Nat) (g : Grant) (s : Memfs) :
    memfsEnsureCapacity slot needed g s =
      if needed ≤ (s.entries slot).capacity then some (true, s)
      else moveBuffer slot (doubledCapacity (s.entries slot).capacity needed) g s := rfl

/-- A loop of at most 32 turns is the doubling of `memfsEnsureCapacity`. -/
theorem ensureCapacityWithin_eq {turns slot needed : Nat} {g : Grant} {s : Memfs}
    {r : Option (Bool × Memfs)} (enough : turns ≤ 32)
    (ended : ensureCapacityWithin turns slot needed g s = some r) :
    memfsEnsureCapacity slot needed g s = r := by
  rw [moveBuffer_doubled]
  unfold ensureCapacityWithin at ended
  split
  · next fits =>
    rw [if_pos fits] at ended
    exact Option.some.inj ended
  · next grows =>
    rw [if_neg grows] at ended
    obtain ⟨c, looped, moved⟩ := Option.map_eq_some_iff.mp ended
    rw [doubledCapacity, doubleUntil_loop enough looped]
    exact moved

theorem writeAtWithin_eq {turns : Nat} {handle : Int} {offset len : Nat} {buf : Lib.Buffer}
    {g : Grant} {s : Memfs} {r : Option (Int × Memfs)} (enough : turns ≤ 32)
    (ended : writeAtWithin turns handle offset buf len g s = some r) :
    memfsWriteAt handle offset buf len g s = r := by
  unfold writeAtWithin at ended
  unfold memfsWriteAt
  split
  · next invalid =>
    rw [if_pos invalid] at ended
    exact Option.some.inj ended
  next valid =>
  rw [if_neg valid] at ended
  simp only at ended ⊢
  split
  · next wraps =>
    rw [if_pos wraps] at ended
    exact Option.some.inj ended
  · next noWrap =>
    rw [if_neg noWrap] at ended
    obtain ⟨ensured, looped, stored⟩ := Option.map_eq_some_iff.mp ended
    rw [ensureCapacityWithin_eq enough looped]
    exact stored

/-! ### Every capacity a run leaves is a power of two -/

def PowerCapacities (s : Memfs) : Prop :=
  ∀ i, s.Used i → ∃ k ≤ 31, (s.entries i).capacity = 2 ^ k

section Capacities
variable {s t : Memfs}

/-- Only the capacity of one slot is new. -/
theorem PowerCapacities.update {slot : Nat} {e : MemfsEntry} (held : PowerCapacities s)
    (table : t.entryCapacity = s.entryCapacity)
    (entries : t.entries = Function.update s.entries slot e)
    (power : slot < s.entryCapacity → e.inUse = true → ∃ k ≤ 31, e.capacity = 2 ^ k) :
    PowerCapacities t := by
  intro i used
  obtain ⟨inside, inUse⟩ := used
  rw [entries] at inUse ⊢
  by_cases own : i = slot
  · rw [own, Function.update_self] at inUse ⊢
    exact power (own ▸ table ▸ inside) inUse
  · rw [Function.update_of_ne own] at inUse ⊢
    exact held i ⟨table ▸ inside, inUse⟩

theorem growTable_powers {g : Grant} {b : Bool} (held : PowerCapacities s)
    (grown : growTable g s = some (b, t)) : PowerCapacities t := by
  unfold growTable at grown
  simp only at grown
  split at grown
  · rw [← (Prod.mk.inj (Option.some.inj grown)).2]
    exact held
  · obtain ⟨blocks, -, made⟩ := Option.map_eq_some_iff.mp grown
    rw [← (Prod.mk.inj made).2]
    intro i used
    obtain ⟨inside, inUse⟩ := used
    simp only at inUse ⊢
    split
    · next old =>
      rw [if_pos old] at inUse
      exact held i ⟨old, inUse⟩
    · next fresh =>
      rw [if_neg fresh] at inUse
      exact absurd inUse (by simp [initEntrySlot_unused])

theorem takeSlot_powers {g : Grant} {slot : Option Nat} (held : PowerCapacities s)
    (taken : takeSlot g s = some (slot, t)) : PowerCapacities t := by
  unfold takeSlot at taken
  split at taken
  · rw [← (Prod.mk.inj (Option.some.inj taken)).2]
    exact held
  · obtain ⟨r, grown, made⟩ := Option.map_eq_some_iff.mp taken
    rw [← (Prod.mk.inj made).2]
    exact growTable_powers held grown

theorem memfsCreate_powers {name : CString} {tableGrant bufferGrant : Grant} {r : Int}
    (held : PowerCapacities s)
    (made : memfsCreate name tableGrant bufferGrant s = some (r, t)) : PowerCapacities t := by
  unfold memfsCreate at made
  split at made
  · rw [← (Prod.mk.inj (Option.some.inj made)).2]
    exact held
  obtain ⟨⟨slot, u⟩, taken, made⟩ := Option.map_eq_some_iff.mp made
  have heldU := takeSlot_powers held taken
  simp only at made
  split at made
  · rw [← (Prod.mk.inj made).2]
    exact heldU
  split at made
  · rw [← (Prod.mk.inj made).2]
    exact heldU
  · rw [← (Prod.mk.inj made).2]
    exact heldU.update rfl rfl fun _ _ => ⟨8, by decide, rfl⟩

theorem memfsDelete_powers {name : CString} {r : Int} (held : PowerCapacities s)
    (deleted : memfsDelete name s = some (r, t)) : PowerCapacities t := by
  unfold memfsDelete at deleted
  split at deleted
  · rw [← (Prod.mk.inj (Option.some.inj deleted)).2]
    exact held
  · obtain ⟨blocks, -, made⟩ := Option.map_eq_some_iff.mp deleted
    rw [← (Prod.mk.inj made).2]
    exact held.update rfl rfl fun _ used => absurd used (by simp [initEntrySlot_unused])

theorem moveBuffer_entries {slot c : Nat} {g : Grant} {b : Bool}
    (moved : moveBuffer slot c g s = some (b, t)) :
    (b = false ∧ t = s) ∨ (b = true ∧ t.entryCapacity = s.entryCapacity ∧ ∃ p, t.entries =
      Function.update s.entries slot { s.entries slot with data := p, capacity := c }) := by
  unfold moveBuffer at moved
  simp only at moved
  split at moved
  · have same := Prod.mk.inj (Option.some.inj moved)
    exact Or.inl ⟨same.1.symm, same.2.symm⟩
  · next p _ =>
    simp only [Option.bind_eq_bind, Option.bind_eq_some_iff, Option.some.injEq, Prod.mk.injEq]
      at moved
    obtain ⟨_, -, _, -, _, -, granted, made⟩ := moved
    rw [← made]
    exact Or.inr ⟨granted.symm, rfl, p, rfl⟩

theorem ensureCapacityWithin_powers {turns slot needed : Nat} {g : Grant} {b : Bool}
    (held : PowerCapacities s) (used : s.Used slot) (bound : needed < 2 ^ 32)
    (ended : ensureCapacityWithin turns slot needed g s = some (some (b, t))) :
    PowerCapacities t := by
  unfold ensureCapacityWithin at ended
  split at ended
  · rw [← (Prod.mk.inj (Option.some.inj (Option.some.inj ended))).2]
    exact held
  next grows =>
  obtain ⟨c, looped, moved⟩ := Option.map_eq_some_iff.mp ended
  obtain ⟨-, same⟩ | ⟨-, table, p, entries⟩ := moveBuffer_entries moved
  · rw [same]
    exact held
  refine held.update table entries fun _ _ => ?_
  obtain ⟨k, small, power⟩ := held slot used
  rw [power, wrap32_double small] at looped
  split at looped
  · rw [doublingLoop_zero (by omega)] at looped
    exact absurd looped nofun
  · exact doublingLoop_power (by omega) (by omega) looped

theorem writeAtWithin_powers {turns : Nat} {handle : Int} {offset len : Nat} {buf : Lib.Buffer}
    {g : Grant} {r : Int} (held : PowerCapacities s)
    (ended : writeAtWithin turns handle offset buf len g s = some (some (r, t))) :
    PowerCapacities t := by
  unfold writeAtWithin at ended
  split at ended
  · rw [← (Prod.mk.inj (Option.some.inj (Option.some.inj ended))).2]
    exact held
  next valid =>
  simp only at ended
  split at ended
  · rw [← (Prod.mk.inj (Option.some.inj (Option.some.inj ended))).2]
    exact held
  obtain ⟨ensured, looped, rest⟩ := Option.map_eq_some_iff.mp ended
  obtain ⟨⟨grown, u⟩, rfl, stored⟩ := Option.bind_eq_some_iff.mp rest
  have used := ((memfsValid_iff s handle).mp (not_not.mp valid)).2
  have heldU := ensureCapacityWithin_powers held used (Nat.mod_lt _ (by decide)) looped
  cases grown with
  | false =>
    rw [← (Prod.mk.inj (Option.some.inj stored)).2]
    exact heldU
  | true =>
    obtain ⟨blocks, -, made⟩ := Option.bind_eq_some_iff.mp stored
    rw [← (Prod.mk.inj (Option.some.inj made)).2]
    by_cases longer : wrap32 (offset + len) > (u.entries handle.toNat).size
    · exact heldU.update rfl (if_pos longer) fun inside inUse => heldU _ ⟨inside, inUse⟩
    · intro i usedI
      obtain ⟨inside, inUse⟩ := usedI
      simp only [if_neg longer] at inUse ⊢
      exact heldU i ⟨inside, inUse⟩

theorem memfsCallWithin_powers {turns : Nat} {c : MemfsCall} (held : PowerCapacities s)
    (returned : memfsCallWithin turns s c = some (some t)) : PowerCapacities t := by
  cases c with
  | writeAt handle offset buf len g =>
    obtain ⟨r, ended, made⟩ := Option.map_eq_some_iff.mp returned
    obtain ⟨⟨result, u⟩, rfl, rfl⟩ := Option.map_eq_some_iff.mp made
    exact writeAtWithin_powers held ended
  | create name tableGrant bufferGrant =>
    obtain ⟨r, called, rfl⟩ := Option.map_eq_some_iff.mp (Option.some.inj returned)
    obtain ⟨⟨result, u⟩, made, rfl⟩ := Option.map_eq_some_iff.mp called
    exact memfsCreate_powers held made
  | delete name =>
    obtain ⟨r, called, rfl⟩ := Option.map_eq_some_iff.mp (Option.some.inj returned)
    obtain ⟨⟨result, u⟩, made, rfl⟩ := Option.map_eq_some_iff.mp called
    exact memfsDelete_powers held made
  | find name =>
    rw [← Option.some.inj (Option.some.inj returned)]
    exact held
  | readAt handle offset len =>
    obtain ⟨r, called, rfl⟩ := Option.map_eq_some_iff.mp (Option.some.inj returned)
    obtain ⟨result, -, rfl⟩ := Option.map_eq_some_iff.mp called
    exact held

theorem MemfsReached.powers (reached : MemfsReached s) : PowerCapacities s := by
  induction reached with
  | start => exact fun i used => absurd used (memfsStart_unused i)
  | call c _ returned ih => exact memfsCallWithin_powers ih returned

end Capacities

/-- A write that ends above 2 GiB doubles its capacity to 0, and never leaves the loop. -/
theorem writeAtWithin_stuck {s : Memfs} (powers : PowerCapacities s) {turns : Nat} {handle : Int}
    {offset len : Nat} {buf : Lib.Buffer} {g : Grant} (valid : memfsValid s handle = true)
    (above : 2 ^ 31 < offset + len) (noWrap : offset + len < 2 ^ 32) :
    writeAtWithin turns handle offset buf len g s = none := by
  obtain ⟨k, small, power⟩ := powers _ ((memfsValid_iff s handle).mp valid).2
  have needed : wrap32 (offset + len) = offset + len := Nat.mod_eq_of_lt noWrap
  have most : 2 ^ k ≤ 2 ^ 31 := Nat.pow_le_pow_right (by decide) small
  have stuck : doublingLoop (offset + len) turns (wrap32 (2 ^ k * 2)) = none := by
    rw [wrap32_double small]
    split
    · exact doublingLoop_zero (by omega)
    · exact doublingLoop_stuck above (by omega)
  rw [writeAtWithin, if_neg (not_not.mpr valid)]
  simp only [needed]
  rw [if_neg (by omega), ensureCapacityWithin, power, if_neg (by omega), stuck]
  rfl

/-- In every state that returning calls reach, a write ends with room for its bytes
unless its end lies above 2 GiB: there the capacity doubles to 0, for ever. -/
theorem memfsWriteAt_grows_iff {s : Memfs} (reached : MemfsReached s) (handle : Int)
    (offset len : BitVec 32) (buf : Lib.Buffer) (g : Grant) :
    GrowsFirst s handle offset.toNat buf len.toNat g ↔
      memfsValid s handle = false ∨ offset.toNat + len.toNat ≤ 2 ^ 31 ∨
        2 ^ 32 ≤ offset.toNat + len.toNat := by
  have powers := reached.powers
  constructor
  · intro grows
    obtain ⟨turns, ended⟩ := grows.ends
    by_contra inside
    simp only [not_or, Bool.not_eq_false, not_le] at inside
    obtain ⟨valid, above, noWrap⟩ := inside
    rw [writeAtWithin_stuck powers valid above noWrap] at ended
    exact absurd ended (by simp)
  · intro inside
    refine ⟨⟨32, ?_⟩, fun turns t valid noWrap ended => ?_⟩
    · unfold writeAtWithin
      split
      · rfl
      next valid =>
      simp only
      split
      · rfl
      next noWrap =>
      rw [Option.isSome_map, ensureCapacityWithin]
      split
      · rfl
      next grows =>
      rw [Option.isSome_map]
      obtain ⟨k, small, power⟩ := powers _ ((memfsValid_iff s handle).mp (not_not.mp valid)).2
      rw [power] at grows ⊢
      have low : wrap32 (offset.toNat + len.toNat) ≤ 2 ^ 31 := by
        obtain invalid | low | high := inside
        · exact absurd (not_not.mp valid) (by rw [invalid]; decide)
        · exact le_trans (Nat.mod_le _ _) low
        · exact absurd (Nat.mod_lt (offset.toNat + len.toNat) (show 0 < 2 ^ 32 by decide)) (by
            unfold wrap32 at noWrap
            omega)
      have below : k ≠ 31 := fun top => by
        rw [top] at grows
        omega
      rw [wrap32_double small, if_neg below]
      exact doublingLoop_ends low (by omega) (by omega)
    · unfold ensureCapacityWithin at ended
      split at ended
      · next fits =>
        rw [← (Prod.mk.inj (Option.some.inj (Option.some.inj ended))).2]
        exact fits
      · obtain ⟨c, looped, moved⟩ := Option.map_eq_some_iff.mp ended
        obtain ⟨same, -⟩ | ⟨-, -, p, entries⟩ := moveBuffer_entries moved
        · exact absurd same nofun
        · rw [entries, Function.update_self]
          exact doublingLoop_ge looped

/-- A store with one empty file, as its first call leaves it. -/
def oneFile : Memfs :=
  (memfsStep memfsStart (.create nameF (grantAt 16) (grantAt 512))).getD memfsStart

theorem oneFile_reached : MemfsReached oneFile ∧ memfsValid oneFile 0 = true :=
  ⟨@MemfsReached.call _ _ 0 (.create nameF (grantAt 16) (grantAt 512)) .start rfl, rfl⟩

theorem memfsWriteAt_grows_kilobyte :
    GrowsFirst oneFile 0 (0 : BitVec 32).toNat (fun _ => 7) (1024 : BitVec 32).toNat
      (grantAt 1024) :=
  (memfsWriteAt_grows_iff oneFile_reached.1 0 0 1024 (fun _ => 7) (grantAt 1024)).mpr
    (Or.inr (Or.inl (by decide)))

/-- One byte at 2 GiB never returns. -/
theorem memfsWriteAt_not_grows : ¬ ∀ s, MemfsReached s → ∀ (handle : Int)
    (offset len : BitVec 32) (buf : Lib.Buffer) (g : Grant),
    GrowsFirst s handle offset.toNat buf len.toNat g := by
  intro all
  obtain ⟨turns, ended⟩ :=
    (all oneFile oneFile_reached.1 0 (2 ^ 31) 1 (fun _ => 7) (grantAt 1024)).ends
  rw [writeAtWithin_stuck oneFile_reached.1.powers oneFile_reached.2 (by decide) (by decide)]
    at ended
  exact absurd ended (by simp)

end MiniKernel.Storage
