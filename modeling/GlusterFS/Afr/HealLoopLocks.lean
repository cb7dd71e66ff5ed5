import GlusterFS.Afr.HealLoopCounts

/-!
# The locks of a data self-heal

A loop works on its block under the lock on that block.  That some lock is held until the
self-heal completes depends on the last blocks: a loop that finds no further block releases
its lock at once, and the loops that still run may all be waiting for theirs.
-/

namespace GlusterFS.Afr

open Transition

variable {cfg : HealConfig} {s s' : HealState} {frame : LoopFrame} {released : Option Nat}

/-- The driver starts no loop though some still run. -/
def HealState.StartsNone (cfg : HealConfig) (s : HealState) (call : DriverCall) : Prop :=
  let running := if call.isFirstCall then s.loopsRunning else s.loopsRunning - 1
  ¬(s.eofReached = false ∧ s.opFailed = false ∧ running < cfg.windowSize ∧
    s.offset < cfg.fileSize) ∧ 0 < running
  deriving Decidable

/-- A loop that has no successor leaves another one at work that has its lock. -/
def LockLeft (cfg : HealConfig) (s : HealState) : HealLabel → Prop
  | .driver index => ∀ call ∈ s.drivers[index]?, s.StartsNone cfg call →
      ∃ frame ∈ s.frames, frame.phase.working = true ∧ frame.dataLockHeld = true
  | _ => True

instance (label : HealLabel) : Decidable (LockLeft cfg s label) :=
  match label with
  | .driver index => inferInstanceAs (Decidable (∀ call ∈ s.drivers[index]?, _))
  | .spawn _ | .lockGrant _ | .lockFail _ | .exec _ _ _ | .reply _ _ | .clientLock _
  | .clientWrite _ | .clientUnlock _ => inferInstanceAs (Decidable True)

/-- Unless something has failed, the self-heal is complete or has a lock. -/
def HealState.Protected (s : HealState) : Prop :=
  s.opFailed = false → (∃ last, HealOutcome.completion last ∈ s.outcomes) ∨
    ∃ frame ∈ s.frames, frame.dataLockHeld = true

/-- A frame at work is not the one that is released. -/
theorem mem_shLoopFinish_of_working (hidle : ∀ old, released = some old → s.Idle old)
    (hframe : frame ∈ s.frames) (hworking : frame.phase.working = true) :
    frame ∈ (s.shLoopFinish released).frames := by
  obtain ⟨i, hget⟩ := List.mem_iff_getElem?.mp hframe
  refine List.mem_of_getElem? (i := i) ?_
  rw [shLoopFinish_get, if_neg, hget]
  intro hold
  obtain ⟨other, hother, hreturned⟩ := hidle i hold
  cases Option.some.inj (hget.symm.trans hother)
  rw [hworking] at hreturned
  cases hreturned

theorem Protected.driver (hinv : LoopsInv cfg s) {index : Nat} {call : DriverCall}
    (hget : s.drivers[index]? = some call) (hleft : LockLeft cfg s (.driver index))
    (hprotected : s.Protected) :
    ({ s with drivers := s.drivers.eraseIdx index }.shLoopDriver cfg call).Protected := by
  have hidle := hinv.driverIdle call (List.mem_of_getElem? hget)
  have hmove := shLoopDriver_move cfg { s with drivers := s.drivers.eraseIdx index } call
  generalize { s with drivers := s.drivers.eraseIdx index }.shLoopDriver cfg call = after at hmove
  intro hfailed
  cases hmove with
  | start => exact hprotected hfailed
  | complete => exact .inl ⟨_, List.mem_cons_self⟩
  | finish outcomes hdone hend =>
    have hrunning := hend.resolve_right fun h => by
      cases call with
      | mk first old => cases old <;> exact absurd (hfailed.symm.trans h.2.1) Bool.false_ne_true
    obtain ⟨frame, hframe, hworking, hheld⟩ := hleft call hget ⟨hdone, hrunning.2⟩
    exact .inr ⟨frame, mem_shLoopFinish_of_working hidle hframe hworking, hheld⟩

/-- A frame gets its lock before the one it follows loses its own. -/
theorem Protected.moved {f : Nat} {frame' : LoopFrame} (hmoved : Moved cfg s s' f frame frame')
    (hprotected : s.Protected) : s'.Protected := by
  intro hfailed
  have hstill : s.opFailed = false :=
    eq_false_of_ne_true fun h => by simp [hmoved.unmoved.opFailed h] at hfailed
  have hmem := List.mem_of_getElem? hmoved.get_self
  rw [hmoved.unmoved.outcomes]
  refine (hprotected hstill).imp_right ?_
  rintro ⟨other, hother, hheld⟩
  obtain ⟨released, hframes, -, hlost | rfl | hheld'⟩ := hmoved.frames
  · simp [hfailed] at hlost
  · obtain ⟨i, hget⟩ := List.mem_iff_getElem?.mp hother
    by_cases hi : f = i
    · subst hi
      cases Option.some.inj (hmoved.get.symm.trans hget)
      exact ⟨frame', hmem, (hmoved.keeps hheld).resolve_left (by simp [hfailed])⟩
    · refine ⟨other, List.mem_of_getElem? (i := i) ?_, hheld⟩
      rw [hframes, List.getElem?_set_ne hi]
      exact hget
  · exact ⟨frame', hmem, hheld'⟩

theorem Protected.step (hinv : LoopsInv cfg s) {label : HealLabel} (hleft : LockLeft cfg s label)
    (h : healStep cfg s label = some s') (hprotected : s.Protected) : s'.Protected := by
  cases healStep_move hinv.wf h with
  | driver index call hlabel hget hs' =>
    subst hlabel hs'
    exact Protected.driver hinv hget hleft hprotected
  | spawn index spawn hget hs' =>
    subst hs'
    have hmove := shLoopStart_move cfg s index spawn
    intro hfailed
    generalize hafter : ({ (s.shLoopStart cfg spawn).2 with
      spawns := if (s.shLoopStart cfg spawn).1.loop = 0 then s.spawns.eraseIdx index
        else s.spawns.set index (s.shLoopStart cfg spawn).1 } : HealState) =
          after at hmove hfailed ⊢
    cases hmove with
    | failed hlost =>
      cases hold : spawn.oldLoopFrame <;> simp [hold, HealState.shLoopFinish, hlost] at hfailed
    | started =>
      refine (hprotected hfailed).imp_right ?_
      rintro ⟨frame, hframe, hheld⟩
      exact ⟨frame, List.mem_append_left _ hframe, hheld⟩
  | client files clients _ hs' =>
    subst hs'
    exact hprotected
  | frame f frame frame' hmoved => exact Protected.moved hmoved hprotected

/-- A child works for a frame only while the frame has the lock on its block. -/
theorem LoopsInv.exec_locked (hinv : LoopsInv cfg s) {f : Nat} {child : HealChild}
    {answer : HealAnswer} (h : healStep cfg s (.exec f child answer) = some s') :
    ∃ frame, s.frames[f]? = some frame ∧ frame.phase ≠ .initial ∧ frame.dataLockHeld = true ∧
      ∀ write ∈ s.clients, ¬write.Overlaps frame.offset cfg.blockSize := by
  obtain ⟨frame, hget, h⟩ := Option.bind_eq_some_iff.mp h
  split at h
  next hcall =>
    have hmem := List.mem_of_getElem? hget
    have hbusy := (hinv.wf frame hmem).busy (List.ne_nil_of_mem hcall)
    have hheld := (hinv.wf frame hmem).held hbusy
    refine ⟨frame, hget, fun hinitial => ?_, hheld, fun write hwrite hoverlaps => ?_⟩
    · rw [hinitial] at hbusy
      cases hbusy
    · exact hinv.apart frame hmem write hwrite ⟨hheld, .inr hoverlaps⟩
  next => cases h

/-- Where no loop ends without a successor or another loop that has its lock, a lock is held
until the self-heal completes or fails.  Children work on a block only under its own lock. -/
theorem heal_keeps_lock (cfg : HealConfig) {s : HealState}
    (hreach : ReachableUnder (healStep cfg) (LockLeft cfg) cfg.start s) :
    (s.opFailed = false → (∃ last, HealOutcome.completion last ∈ s.outcomes) ∨
      ∃ frame ∈ s.frames, frame.dataLockHeld = true) ∧
    ∀ f child answer s', healStep cfg s (.exec f child answer) = some s' →
      ∃ frame, s.frames[f]? = some frame ∧ frame.phase ≠ .initial ∧ frame.dataLockHeld = true ∧
        ∀ write ∈ s.clients, ¬write.Overlaps frame.offset cfg.blockSize := by
  have hboth : LoopsInv cfg s ∧ s.Protected := by
    refine hreach.invariant_along (fun s => LoopsInv cfg s ∧ s.Protected) ?_
      fun _ hguard hstep hbefore => ?_
    · exact ⟨loopsInv_start cfg, fun _ => .inr ⟨_, List.mem_singleton_self _, rfl⟩⟩
    · exact ⟨hbefore.1.step hstep, Protected.step hbefore.1 hguard hstep hbefore.2⟩
  exact ⟨hboth.2, fun f child answer s' h => hboth.1.exec_locked h⟩

/-- Two blocks of one byte, healed by two loops at a time. -/
def twoBlockHeal : HealConfig :=
  { childCount := 2
    sources := fun c => c = 0
    childUp := fun _ => true
    source := 0
    blockSize := 1
    windowSize := 2
    algo := .full
    fileHasHoles := false
    before := fun c => SparseFile.empty.write 0 (if c = 0 then [1, 2] else [3, 4])
    digest := id
    source_mem := @rfl Bool true }

/-- Both loops are at work when the first one ends. -/
theorem heal_keeps_lock_two_blocks : ∃ s,
    ReachableUnder (healStep twoBlockHeal) (LockLeft twoBlockHeal) twoBlockHeal.start s ∧
      s.opFailed = false ∧ s.outcomes.length = 0 ∧
      ((s.opFailed = false → (∃ last, HealOutcome.completion last ∈ s.outcomes) ∨
        ∃ frame ∈ s.frames, frame.dataLockHeld = true) ∧
      ∀ f child answer s', healStep twoBlockHeal s (.exec f child answer) = some s' →
        ∃ frame, s.frames[f]? = some frame ∧ frame.phase ≠ .initial ∧ frame.dataLockHeld = true ∧
          ∀ write ∈ s.clients, ¬write.Overlaps frame.offset twoBlockHeal.blockSize) := by
  obtain ⟨s, hrun, hreach⟩ :=
    ReachableUnder.exists_of_run (healStep twoBlockHeal) (LockLeft twoBlockHeal)
      twoBlockHeal.start
    [.driver 0, .spawn 0, .spawn 0, .lockGrant 1, .lockGrant 2,
        .exec 1 0 (.read (some [[1]])), .reply 1 0, .exec 1 1 (.write (some 1)), .reply 1 1,
        .driver 0] (by decide) rfl
  have hstate : s.opFailed = false ∧ s.outcomes.length = 0 := by
    cases hrun
    decide
  exact ⟨s, hreach, hstate.1, hstate.2, heal_keeps_lock twoBlockHeal hreach⟩

/-- A client has locked the second block before its loop could.  The first loop ends,
finds no further block and releases its lock, and no lock of the self-heal is left. -/
theorem waiting_loop_loses_lock : ¬∀ (cfg : HealConfig) (s : HealState),
    Reachable (healStep cfg) cfg.start s → s.opFailed = false →
      (∃ last, HealOutcome.completion last ∈ s.outcomes) ∨
        ∃ frame ∈ s.frames, frame.dataLockHeld = true := by
  intro hall
  obtain ⟨s, hrun⟩ : ∃ s, run (healStep twoBlockHeal) twoBlockHeal.start
      [.driver 0, .spawn 0, .spawn 0, .lockGrant 1, .clientLock ⟨1, [5]⟩,
        .exec 1 0 (.read (some [[1]])), .reply 1 0, .exec 1 1 (.write (some 1)), .reply 1 1,
        .driver 0] = some s := ⟨_, rfl⟩
  have hstate : s.opFailed = false ∧ s.outcomes.length = 0 ∧
      ¬∃ frame ∈ s.frames, frame.dataLockHeld = true := by
    cases hrun
    decide
  rcases hall twoBlockHeal s (.of_run _ .start hrun) hstate.1 with ⟨last, hlast⟩ | hheld
  · rw [List.length_eq_zero_iff.mp hstate.2.1] at hlast
    exact absurd hlast List.not_mem_nil
  · exact hstate.2.2 hheld

end GlusterFS.Afr
