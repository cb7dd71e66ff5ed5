import GlusterFS.Afr.HealLoopMoves
import GlusterFS.Core.ProcessTable

/-!
# The loops that run

`loops_running` counts the loops that have not returned: the frames at work, the calls of
the driver that are to come and the loops that it is about to start.  A frame whose lock is
still to be released has returned, and is known to one of these.
-/

namespace GlusterFS.Afr

open Transition ProcessTable

variable {cfg : HealConfig} {s s' : HealState} {frame frame' : LoopFrame} {f old : Nat}
  {released : Option Nat}

/-! ## The driver -/

/-- The loops of the driver take the blocks from `offset` on, all of them inside the file. -/
theorem driverLoop_eq (cfg : HealConfig) (s : HealState) (isFirstCall : Bool)
    (fuel offset running : Nat) :
    ∃ loop, s.driverLoop cfg isFirstCall fuel offset running =
        (loop, offset + loop * cfg.blockSize, running + loop) ∧
      ∀ j < loop, offset + j * cfg.blockSize < cfg.fileSize := by
  induction fuel generalizing offset running with
  | zero => exact ⟨0, by simp [HealState.driverLoop], fun _ h => absurd h (Nat.not_lt_zero _)⟩
  | succ fuel ih =>
    rw [HealState.driverLoop]
    split
    next hmore =>
      cases isFirstCall with
      | false =>
        refine ⟨1, by simp, fun j hj => ?_⟩
        obtain rfl : j = 0 := by omega
        simpa using hmore.2.2.2
      | true =>
        obtain ⟨loop, hloop, hinside⟩ := ih (offset + cfg.blockSize) (running + 1)
        refine ⟨loop + 1, ?_, fun j hj => ?_⟩
        · rw [if_pos rfl, hloop, Nat.add_mul]
          exact Prod.ext rfl (Prod.ext (by dsimp only; omega) (by dsimp only; omega))
        · cases j with
          | zero => simpa using hmore.2.2.2
          | succ j =>
            have := hinside j (by omega)
            rw [Nat.add_mul]
            omega
    next => exact ⟨0, by simp, fun _ h => absurd h (Nat.not_lt_zero _)⟩

/-- What `sh_loop_driver` does, by the number of loops it has to start. -/
inductive DriverMove (cfg : HealConfig) (s : HealState) (call : DriverCall) (running : Nat) :
    HealState → Prop
  | start (loop : Nat) (hloop : 0 < loop)
      (hinside : ∀ j < loop, s.offset + j * cfg.blockSize < cfg.fileSize) :
      DriverMove cfg s call running
        { s with
          offset := s.offset + loop * cfg.blockSize
          loopsRunning := running + loop
          spawns := ⟨loop, s.offset, call.oldLoopFrame⟩ :: s.spawns }
  | complete (hrunning : running = 0) (hfailed : s.opFailed = false)
      (hdone : ¬(s.eofReached = false ∧ s.opFailed = false ∧ running < cfg.windowSize ∧
        s.offset < cfg.fileSize)) :
      DriverMove cfg s call running
        { s with
          loopsRunning := running
          outcomes := .completion call.oldLoopFrame :: s.outcomes }
  | finish (outcomes : List HealOutcome)
      (hdone : ¬(s.eofReached = false ∧ s.opFailed = false ∧ running < cfg.windowSize ∧
        s.offset < cfg.fileSize))
      (hend : outcomes = s.outcomes ∧ 0 < running ∨
        outcomes = .abort :: s.outcomes ∧ s.opFailed = true ∧ running = 0) :
      DriverMove cfg s call running
        { { s with loopsRunning := running }.shLoopFinish call.oldLoopFrame with
          outcomes := outcomes }

theorem shLoopDriver_move (cfg : HealConfig) (s : HealState) (call : DriverCall) :
    DriverMove cfg s call (if call.isFirstCall then s.loopsRunning else s.loopsRunning - 1)
      (s.shLoopDriver cfg call) := by
  rw [HealState.shLoopDriver]
  generalize (if call.isFirstCall then s.loopsRunning else s.loopsRunning - 1) = running
  obtain ⟨loop, hloop, hinside⟩ :=
    driverLoop_eq cfg s call.isFirstCall (cfg.windowSize + 1) s.offset running
  have hzero : loop = 0 → ¬(s.eofReached = false ∧ s.opFailed = false ∧
      running < cfg.windowSize ∧ s.offset < cfg.fileSize) := by
    rintro rfl hmore
    rw [HealState.driverLoop, if_pos hmore] at hloop
    cases hfirst : call.isFirstCall <;> rw [hfirst] at hloop <;> cases hloop
  rw [hloop]
  dsimp only
  by_cases hstart : loop = 0
  · subst hstart
    rw [if_pos rfl]
    simp only [Nat.zero_mul, Nat.add_zero]
    split
    next hend => exact .complete hend.1 hend.2 (hzero rfl)
    next hend =>
      split
      next hnone =>
        refine .finish _ (hzero rfl) (.inr ⟨rfl, ?_, hnone⟩)
        simpa using fun hfailed => hend ⟨hnone, hfailed⟩
      next hnone =>
        have hsame : ({ s with loopsRunning := running }.shLoopFinish call.oldLoopFrame) =
            { { s with loopsRunning := running }.shLoopFinish call.oldLoopFrame with
              outcomes := s.outcomes } := by
          cases call.oldLoopFrame <;> rfl
        rw [hsame]
        exact .finish _ (hzero rfl) (.inl ⟨rfl, Nat.pos_of_ne_zero hnone⟩)
  · rw [if_neg hstart]
    exact .start loop (Nat.pos_of_ne_zero hstart) hinside

/-! ## Starting a loop -/

/-- The calls of the driver after a turn of one of them. -/
def spawnsLeft (spawns : List LoopSpawn) (index : Nat) (left : LoopSpawn) : List LoopSpawn :=
  if left.loop = 0 then spawns.eraseIdx index else spawns.set index left

theorem forall_spawnsLeft {spawns : List LoopSpawn} {index : Nat} {left : LoopSpawn}
    {property : LoopSpawn → Prop} (hspawns : ∀ spawn ∈ spawns, property spawn)
    (hleft : 0 < left.loop → property left) :
    ∀ spawn ∈ spawnsLeft spawns index left, property spawn := by
  intro spawn hspawn
  rw [spawnsLeft] at hspawn
  split at hspawn
  next => exact hspawns spawn (List.mem_of_mem_eraseIdx hspawn)
  next hloop =>
    rcases List.mem_or_eq_of_mem_set hspawn with h | rfl
    · exact hspawns spawn h
    · exact hleft (Nat.pos_of_ne_zero hloop)

theorem mem_spawnsLeft_of_mem {spawns : List LoopSpawn} {index : Nat} {spawn other : LoopSpawn}
    (hget : spawns[index]? = some spawn) (hother : other ∈ spawns) (left : LoopSpawn) :
    other = spawn ∨ other ∈ spawnsLeft spawns index left := by
  obtain ⟨i, hi⟩ := List.mem_iff_getElem?.mp hother
  by_cases hindex : i = index
  · subst hindex
    exact .inl (Option.some.inj (hi.symm.trans hget))
  · right
    rw [spawnsLeft]
    split
    · exact List.mem_eraseIdx_iff_getElem?.mpr ⟨i, hindex, hi⟩
    · refine List.mem_of_getElem? (i := i) ?_
      rw [List.getElem?_set_ne (Ne.symm hindex), hi]

theorem total_spawnsLeft {weight : LoopSpawn → Int} {spawns : List LoopSpawn} {index : Nat}
    {spawn left : LoopSpawn} (hget : spawns[index]? = some spawn)
    (hzero : left.loop = 0 → weight left = 0) :
    total weight (spawnsLeft spawns index left) =
      total weight spawns + (weight left - weight spawn) := by
  rw [spawnsLeft]
  split
  next hloop =>
    rw [total_eraseIdx hget, hzero hloop]
    omega
  next => exact total_set hget left

/-- What one turn of the loop that starts frames does. -/
inductive SpawnMove (cfg : HealConfig) (s : HealState) (index : Nat) (spawn : LoopSpawn) :
    HealState → Prop
  | failed (hfailed : s.opFailed = true) : SpawnMove cfg s index spawn
        { s.shLoopFinish spawn.oldLoopFrame with
          drivers := ⟨false, none⟩ :: s.drivers
          spawns := spawnsLeft s.spawns index ⟨spawn.loop - 1, spawn.offset, none⟩ }
  | started (hfailed : s.opFailed = false) : SpawnMove cfg s index spawn
        { s with
          frames := s.frames ++ [HealConfig.newFrame spawn.offset spawn.oldLoopFrame]
          spawns := spawnsLeft s.spawns index
            ⟨spawn.loop - 1, spawn.offset + cfg.blockSize, none⟩ }

theorem shLoopStart_move (cfg : HealConfig) (s : HealState) (index : Nat) (spawn : LoopSpawn) :
    SpawnMove cfg s index spawn { (s.shLoopStart cfg spawn).2 with
      spawns := if (s.shLoopStart cfg spawn).1.loop = 0 then s.spawns.eraseIdx index
        else s.spawns.set index (s.shLoopStart cfg spawn).1 } := by
  rw [HealState.shLoopStart]
  by_cases hfailed : s.opFailed = true
  · simp only [if_pos hfailed]
    exact .failed hfailed
  · simp only [if_neg hfailed]
    exact .started (eq_false_of_ne_true hfailed)

/-! ## The invariant -/

/-- The frame has returned, or is the first one. -/
def HealState.Idle (s : HealState) (f : Nat) : Prop :=
  ∃ frame, s.frames[f]? = some frame ∧ frame.phase.working = false

def workingWeight (frame : LoopFrame) : Int := if frame.phase.working then 1 else 0

theorem workingWeight_of_idle (hidle : frame.phase.working = false) : workingWeight frame = 0 := by
  simp [workingWeight, hidle]

theorem workingWeight_of_working (hworking : frame.phase.working = true) :
    workingWeight frame = 1 := by
  simp [workingWeight, hworking]

def driverWeight (call : DriverCall) : Int := if call.isFirstCall then 0 else 1

theorem workingWeight_nonneg (frame : LoopFrame) : 0 ≤ workingWeight frame := by
  rw [workingWeight]
  split <;> omega

theorem driverWeight_nonneg (call : DriverCall) : 0 ≤ driverWeight call := by
  rw [driverWeight]
  split <;> omega

/-- The loops that run are counted, locks are released of frames that have returned only,
and the locks of frames and clients keep each other out. -/
structure LoopsInv (cfg : HealConfig) (s : HealState) : Prop where
  wf : s.Wf cfg
  running : (s.loopsRunning : Int) = total workingWeight s.frames +
    total driverWeight s.drivers + total (fun spawn => (spawn.loop : Int)) s.spawns
  spawned : ∀ spawn ∈ s.spawns, 0 < spawn.loop
  driverIdle : ∀ call ∈ s.drivers, ∀ old, call.oldLoopFrame = some old → s.Idle old
  spawnIdle : ∀ spawn ∈ s.spawns, ∀ old, spawn.oldLoopFrame = some old → s.Idle old
  frameIdle : ∀ frame ∈ s.frames, ∀ old, frame.oldLoopFrame = some old → s.Idle old
  apart : ∀ frame ∈ s.frames, ∀ write ∈ s.clients, ¬HealState.Excludes cfg frame write

theorem loopsInv_start (cfg : HealConfig) : LoopsInv cfg cfg.start where
  wf frame hframe := by
    cases List.mem_singleton.mp hframe
    exact frameWf_of_idle rfl rfl fun _ => rfl
  running := rfl
  spawned _ h := absurd h List.not_mem_nil
  driverIdle call hcall old hold := by
    cases List.mem_singleton.mp hcall
    cases hold
    exact ⟨_, rfl, rfl⟩
  spawnIdle _ h := absurd h List.not_mem_nil
  frameIdle frame hframe old hold := by
    cases List.mem_singleton.mp hframe
    cases hold
  apart _ _ _ h := absurd h List.not_mem_nil

/-! ## Releasing a lock -/

theorem shLoopFinish_get (s : HealState) (released : Option Nat) (i : Nat) :
    (s.shLoopFinish released).frames[i]? = if released = some i then
        s.frames[i]?.map fun frame => { frame with dataLockHeld := false, phase := .finished }
      else s.frames[i]? := by
  cases released with
  | none => rfl
  | some old =>
    rw [HealState.shLoopFinish, List.getElem?_modify]
    simp only [Option.some.injEq]
    split <;> cases s.frames[i]? <;> rfl

theorem mem_shLoopFinish (hframe : frame ∈ (s.shLoopFinish released).frames) :
    frame ∈ s.frames ∨ ∃ before old, released = some old ∧ s.frames[old]? = some before ∧
      frame = { before with dataLockHeld := false, phase := .finished } := by
  obtain ⟨i, hget⟩ := List.mem_iff_getElem?.mp hframe
  rw [shLoopFinish_get] at hget
  split at hget
  next hold =>
    obtain ⟨before, hbefore, rfl⟩ := Option.map_eq_some_iff.mp hget
    exact .inr ⟨before, i, hold, hbefore, rfl⟩
  next => exact .inl (List.mem_of_getElem? hget)

theorem HealState.Idle.finish (h : s.Idle f) (released : Option Nat) :
    (s.shLoopFinish released).Idle f := by
  obtain ⟨frame, hget, hidle⟩ := h
  rw [Idle, shLoopFinish_get, hget]
  split
  next => exact ⟨_, rfl, rfl⟩
  next => exact ⟨frame, rfl, hidle⟩

theorem total_shLoopFinish (hidle : ∀ old, released = some old → s.Idle old) :
    total workingWeight (s.shLoopFinish released).frames = total workingWeight s.frames := by
  cases released with
  | none => rfl
  | some old =>
    obtain ⟨before, hget, hbefore⟩ := hidle old rfl
    rw [HealState.shLoopFinish, total_modify hget]
    rw [workingWeight_of_idle hbefore, workingWeight_of_idle rfl]
    omega

theorem LoopsInv.finish (hinv : LoopsInv cfg s)
    (hidle : ∀ old, released = some old → s.Idle old) : LoopsInv cfg (s.shLoopFinish released) := by
  obtain ⟨hdrivers, hunmoved⟩ := shLoopFinish_fields s released
  have hbefore : ∀ frame ∈ (s.shLoopFinish released).frames, frame ∈ s.frames ∨
      ∃ before ∈ s.frames, before.phase.working = false ∧
        frame = { before with dataLockHeld := false, phase := .finished } := by
    intro frame hframe
    rcases mem_shLoopFinish hframe with h | ⟨before, old, hold, hget, rfl⟩
    · exact .inl h
    · obtain ⟨other, hother, hworking⟩ := hidle old hold
      cases Option.some.inj (hget.symm.trans hother)
      exact .inr ⟨before, List.mem_of_getElem? hget, hworking, rfl⟩
  refine ⟨fun frame hframe => ?_, ?_, ?_, ?_, ?_, fun frame hframe => ?_, fun frame hframe => ?_⟩
  · rcases hbefore frame hframe with h | ⟨before, hmem, hworking, rfl⟩
    · exact hinv.wf frame h
    · have halone : before.oldLoopFrame = none :=
        (hinv.wf before hmem).alone fun h => by rw [h] at hworking; cases hworking
      refine frameWf_of_idle (by_contra fun hcalls => ?_) rfl fun _ => halone
      have hbusy := LoopPhase.working_of_busy ((hinv.wf before hmem).busy hcalls)
      rw [hworking] at hbusy
      cases hbusy
  · rw [total_shLoopFinish hidle, hdrivers, hunmoved.spawns, hunmoved.loopsRunning]
    exact hinv.running
  · rw [hunmoved.spawns]
    exact hinv.spawned
  · rw [hdrivers]
    exact fun call hcall old hold => (hinv.driverIdle call hcall old hold).finish released
  · rw [hunmoved.spawns]
    exact fun spawn hspawn old hold => (hinv.spawnIdle spawn hspawn old hold).finish released
  · intro old hold
    rcases hbefore frame hframe with h | ⟨before, hmem, -, rfl⟩
    · exact (hinv.frameIdle frame h old hold).finish released
    · exact (hinv.frameIdle before hmem old hold).finish released
  · rw [hunmoved.clients]
    intro write hwrite hexcludes
    rcases hbefore frame hframe with h | ⟨before, -, -, rfl⟩
    · exact hinv.apart frame h write hwrite hexcludes
    · exact (nomatch hexcludes.1)

/-! ## Every action keeps the invariant -/

/-- A call of the driver counts as a loop until it takes the lock. -/
theorem LoopsInv.takeDriver (hinv : LoopsInv cfg s) {index : Nat} {call : DriverCall}
    (hget : s.drivers[index]? = some call) :
    LoopsInv cfg { s with
      drivers := s.drivers.eraseIdx index
      loopsRunning := if call.isFirstCall then s.loopsRunning else s.loopsRunning - 1 } := by
  refine { hinv with running := ?_, driverIdle := ?_ }
  · have htotal : total driverWeight (s.drivers.eraseIdx index) =
        total driverWeight s.drivers - driverWeight call := total_eraseIdx hget
    have hframes : 0 ≤ total workingWeight s.frames :=
      total_nonneg fun frame _ => workingWeight_nonneg frame
    have hspawns : 0 ≤ total (fun spawn => (spawn.loop : Int)) s.spawns :=
      total_nonneg fun spawn _ => Int.natCast_nonneg _
    have hdrivers : driverWeight call ≤ total driverWeight s.drivers :=
      weight_le_total (fun call _ => driverWeight_nonneg call) (List.mem_of_getElem? hget)
    have hrunning := hinv.running
    dsimp only
    rw [htotal]
    rw [driverWeight] at hdrivers ⊢
    split_ifs at hdrivers ⊢ <;> omega
  · exact fun other hother => hinv.driverIdle other (List.mem_of_mem_eraseIdx hother)

/-- Where no loop runs, no frame is at work, no loop is to be started and no loop is about to
return. -/
theorem LoopsInv.idle_of_zero (hinv : LoopsInv cfg s) (hzero : s.loopsRunning = 0) :
    (∀ frame ∈ s.frames, frame.phase.working = false) ∧ s.spawns = [] ∧
      ∀ call ∈ s.drivers, call.isFirstCall = true := by
  have hrunning := hinv.running
  have hframes : ∀ frame ∈ s.frames, 0 ≤ workingWeight frame :=
    fun frame _ => workingWeight_nonneg frame
  have hspawns : ∀ spawn ∈ s.spawns, 0 ≤ (spawn.loop : Int) := fun _ _ => Int.natCast_nonneg _
  have hdrivers : ∀ call ∈ s.drivers, 0 ≤ driverWeight call :=
    fun call _ => driverWeight_nonneg call
  have hworking := total_nonneg hframes
  have hstarting := total_nonneg hspawns
  have hreturning := total_nonneg hdrivers
  refine ⟨fun frame hframe => eq_false_of_ne_true fun h => ?_, ?_, fun call hcall => ?_⟩
  · have hle := weight_le_total hframes hframe
    rw [workingWeight_of_working h] at hle
    omega
  · refine List.eq_nil_iff_forall_not_mem.mpr fun spawn hspawn => ?_
    have hle := weight_le_total hspawns hspawn
    have hpos := hinv.spawned spawn hspawn
    omega
  · have hle := weight_le_total hdrivers hcall
    by_contra hreturn
    rw [driverWeight, if_neg hreturn] at hle
    omega

theorem LoopsInv.driver (hinv : LoopsInv cfg s) {index : Nat} {call : DriverCall}
    (hget : s.drivers[index]? = some call) :
    LoopsInv cfg ({ s with drivers := s.drivers.eraseIdx index }.shLoopDriver cfg call) := by
  have htaken := hinv.takeDriver hget
  have hidle := hinv.driverIdle call (List.mem_of_getElem? hget)
  have hmove := shLoopDriver_move cfg { s with drivers := s.drivers.eraseIdx index } call
  generalize { s with drivers := s.drivers.eraseIdx index }.shLoopDriver cfg call = after at hmove
  cases hmove with
  | start loop hloop hinside =>
    have hrunning := htaken.running
    refine { htaken with
      running := ?_
      spawned := List.forall_mem_cons.mpr ⟨hloop, hinv.spawned⟩
      spawnIdle := List.forall_mem_cons.mpr ⟨hidle, hinv.spawnIdle⟩ }
    dsimp only at hrunning ⊢
    simp only [total_cons, Int.natCast_add]
    omega
  | complete => exact { htaken with }
  | finish outcomes => exact { htaken.finish hidle with }

theorem LoopsInv.spawn (hinv : LoopsInv cfg s) {index : Nat} {spawn : LoopSpawn}
    (hget : s.spawns[index]? = some spawn) (hmove : SpawnMove cfg s index spawn s') :
    LoopsInv cfg s' := by
  have hmem := List.mem_of_getElem? hget
  have hloop := hinv.spawned spawn hmem
  have hidle := hinv.spawnIdle spawn hmem
  have hspawned (offset : Nat) : ∀ other ∈ spawnsLeft s.spawns index ⟨spawn.loop - 1, offset, none⟩,
      0 < other.loop :=
    forall_spawnsLeft hinv.spawned id
  have hspawnIdle (offset : Nat) :
      ∀ other ∈ spawnsLeft s.spawns index ⟨spawn.loop - 1, offset, none⟩,
      ∀ old, other.oldLoopFrame = some old → s.Idle old :=
    forall_spawnsLeft hinv.spawnIdle fun _ _ h => nomatch h
  cases hmove with
  | failed hfailed =>
    have hfinished := hinv.finish hidle
    obtain ⟨hdrivers, hunmoved⟩ := shLoopFinish_fields s spawn.oldLoopFrame
    have hrunning := hfinished.running
    rw [hdrivers, hunmoved.spawns] at hrunning
    refine { hfinished with
      running := ?_, spawned := hspawned _, driverIdle := ?_, spawnIdle := ?_ }
    · dsimp only
      rw [total_cons, total_spawnsLeft hget fun h => by simpa using h, hrunning, driverWeight]
      simp only [Bool.false_eq_true, if_false]
      omega
    · exact List.forall_mem_cons.mpr ⟨fun _ h => (nomatch h),
        fun call hcall old hold => (hinv.driverIdle call hcall old hold).finish _⟩
    · exact fun other hother old hold => (hspawnIdle _ other hother old hold).finish _
  | started hfailed =>
    have hstill : ∀ old, s.Idle old → ({ s with
        frames := s.frames ++ [HealConfig.newFrame spawn.offset spawn.oldLoopFrame] }).Idle
          old := by
      rintro old ⟨frame, hframe, hold⟩
      refine ⟨frame, ?_, hold⟩
      rw [List.getElem?_append_left (List.getElem?_eq_some_iff.mp hframe).1]
      exact hframe
    refine ⟨?_, ?_, hspawned _, ?_, ?_, ?_, ?_⟩
    · exact List.forall_mem_append.mpr ⟨hinv.wf,
        List.forall_mem_singleton.mpr (frameWf_of_idle rfl rfl fun h => absurd rfl h)⟩
    · have hrunning := hinv.running
      dsimp only
      rw [total_append, total_cons, total_nil,
        total_spawnsLeft hget fun h => by simpa using h, hrunning,
        workingWeight_of_working rfl]
      dsimp only
      omega
    · exact fun call hcall old hold => hstill old (hinv.driverIdle call hcall old hold)
    · exact fun other hother old hold => hstill old (hspawnIdle _ other hother old hold)
    · exact List.forall_mem_append.mpr
        ⟨fun frame hframe old hold => hstill old (hinv.frameIdle frame hframe old hold),
          List.forall_mem_singleton.mpr fun old hold => hstill old (hidle old hold)⟩
    · exact List.forall_mem_append.mpr
        ⟨hinv.apart, List.forall_mem_singleton.mpr fun _ _ hexcludes => nomatch hexcludes.1⟩

section Frame

variable (hmoved : Moved cfg s s' f frame frame')

include hmoved

theorem Moved.oldLoopFrame (hold : frame'.oldLoopFrame = some old) :
    frame.oldLoopFrame = some old := by
  obtain ⟨released, -, ⟨-, hnone⟩ | ⟨-, hsame⟩, -⟩ := hmoved.frames
  · rw [hnone] at hold
    cases hold
  · exact hsame ▸ hold

theorem Moved.idle (hidle : s.Idle old) : s'.Idle old := by
  obtain ⟨released, hframes, -⟩ := hmoved.frames
  obtain ⟨before, hbefore, hreturned⟩ := hidle.finish released
  refine ⟨before, ?_, hreturned⟩
  rw [hframes, List.getElem?_set_ne, hbefore]
  rintro rfl
  obtain ⟨other, hother, hworking⟩ := hidle
  cases Option.some.inj (hmoved.get.symm.trans hother)
  rw [hmoved.working] at hworking
  cases hworking

theorem Moved.get_self : s'.frames[f]? = some frame' := by
  obtain ⟨released, hframes, -⟩ := hmoved.frames
  have hlt : f < s.frames.length := (List.getElem?_eq_some_iff.mp hmoved.get).1
  rw [hframes, List.getElem?_set_self]
  cases released with
  | none => exact hlt
  | some old => simpa [HealState.shLoopFinish] using hlt

theorem LoopsInv.released_idle (hinv : LoopsInv cfg s)
    (hreleased : released = frame.oldLoopFrame ∧ frame'.oldLoopFrame = none ∨
      released = none ∧ frame'.oldLoopFrame = frame.oldLoopFrame) :
    ∀ old, released = some old → s.Idle old := by
  intro old hold
  refine hinv.frameIdle frame (List.mem_of_getElem? hmoved.get) old ?_
  rcases hreleased with ⟨rfl, -⟩ | ⟨rfl, -⟩
  · exact hold
  · cases hold

theorem Moved.released_ne (hidle : ∀ old, released = some old → s.Idle old) :
    released ≠ some f := by
  rintro rfl
  obtain ⟨other, hother, hworking⟩ := hidle f rfl
  cases Option.some.inj (hmoved.get.symm.trans hother)
  rw [hmoved.working] at hworking
  cases hworking

theorem LoopsInv.moved (hinv : LoopsInv cfg s) : LoopsInv cfg s' := by
  have hmem := List.mem_of_getElem? hmoved.get
  obtain ⟨released, hframes, hreleased, -⟩ := hmoved.frames
  have hidle := LoopsInv.released_idle hmoved hinv hreleased
  have hfinished := hinv.finish hidle
  have hkept : (s.shLoopFinish released).frames[f]? = some frame := by
    rw [shLoopFinish_get, if_neg (hmoved.released_ne hidle), hmoved.get]
  refine ⟨?_, ?_, ?_, ?_, ?_, ?_, ?_⟩
  · rw [HealState.Wf, hframes]
    exact forall_mem_set hfinished.wf hmoved.wf
  · have hrunning := hinv.running
    rw [hmoved.unmoved.loopsRunning, hmoved.unmoved.spawns, hframes, total_set hkept,
      total_shLoopFinish hidle, workingWeight_of_working hmoved.working, hrunning]
    rcases hmoved.result with ⟨hworking, hdrivers⟩ | ⟨hphase, hdrivers⟩ | ⟨hphase, hdrivers, -⟩
    · rw [workingWeight_of_working hworking, hdrivers]
      omega
    all_goals
      rw [workingWeight_of_idle (by rw [hphase]; rfl), hdrivers, total_cons, driverWeight]
      simp only [Bool.false_eq_true, if_false]
      omega
  · rw [hmoved.unmoved.spawns]
    exact hinv.spawned
  · intro call hcall old hold
    rcases hmoved.result with ⟨-, hdrivers⟩ | ⟨hphase, hdrivers⟩ | ⟨-, hdrivers, -⟩
    · exact hmoved.idle (hinv.driverIdle call (hdrivers ▸ hcall) old hold)
    · rw [hdrivers] at hcall
      rcases List.mem_cons.mp hcall with rfl | hcall
      · cases hold
        exact ⟨frame', hmoved.get_self, by rw [hphase]; rfl⟩
      · exact hmoved.idle (hinv.driverIdle call hcall old hold)
    · rw [hdrivers] at hcall
      rcases List.mem_cons.mp hcall with rfl | hcall
      · cases hold
      · exact hmoved.idle (hinv.driverIdle call hcall old hold)
  · rw [hmoved.unmoved.spawns]
    exact fun spawn hspawn old hold => hmoved.idle (hinv.spawnIdle spawn hspawn old hold)
  · rw [hframes]
    refine forall_mem_set (fun other hother old hold => ?_) fun old hold => ?_
    · rcases mem_shLoopFinish hother with hother | ⟨before, _, -, hget, rfl⟩
      · exact hmoved.idle (hinv.frameIdle other hother old hold)
      · exact hmoved.idle (hinv.frameIdle before (List.mem_of_getElem? hget) old hold)
    · exact hmoved.idle (hinv.frameIdle frame hmem old (hmoved.oldLoopFrame hold))
  · rw [hframes, hmoved.unmoved.clients]
    have hfree := hfinished.apart
    rw [(shLoopFinish_fields s released).2.clients] at hfree
    refine forall_mem_set hfree fun write hwrite hexcludes => ?_
    have hoverlaps : write.Overlaps frame.offset cfg.blockSize := by
      refine hmoved.offset ▸ hexcludes.2.resolve_left fun hinitial => ?_
      rcases hmoved.result with ⟨hphase, -⟩ | ⟨hphase, -⟩ | ⟨hphase, -⟩
      all_goals
        rw [hinitial] at hphase
        cases hphase
    rcases hmoved.lock hexcludes.1 with hheld | hnone
    · exact hinv.apart frame hmem write hwrite ⟨hheld, .inr hoverlaps⟩
    · exact hnone write hwrite hoverlaps

end Frame

theorem LoopsInv.step (hinv : LoopsInv cfg s) {label : HealLabel}
    (h : healStep cfg s label = some s') : LoopsInv cfg s' := by
  cases healStep_move hinv.wf h with
  | driver index call _ hget hs' => exact hs' ▸ hinv.driver hget
  | spawn index spawn hget hs' => exact hs' ▸ hinv.spawn hget (shLoopStart_move cfg s index spawn)
  | client files clients hclients hs' =>
    subst hs'
    refine { hinv with apart := fun frame hframe write hwrite hexcludes => ?_ }
    rcases hclients write hwrite with hold | hfree
    · exact hinv.apart frame hframe write hold hexcludes
    · exact hfree frame hframe hexcludes
  | frame f frame frame' hmoved => exact hinv.moved hmoved

end GlusterFS.Afr
