import GlusterFS.Afr.HealLoop

/-!
# How loop frames move

Every action of the self-heal is one of the driver or of a client, or it moves one loop
frame that has not returned.  A frame has calls out only while it has its lock.
-/

namespace GlusterFS.Afr

variable {cfg : HealConfig}
  {s s' : HealState} {frame : LoopFrame} {f : Nat}

/-! ## Phases -/

/-- The loop has not returned. -/
def LoopPhase.working : LoopPhase → Bool
  | .locking | .checksum | .reading | .writing => true
  | .initial | .returned | .finished => false

/-- Calls to children may be out. -/
def LoopPhase.busy : LoopPhase → Bool
  | .checksum | .reading | .writing => true
  | .initial | .locking | .returned | .finished => false

theorem LoopPhase.working_of_busy {phase : LoopPhase} (hbusy : phase.busy = true) :
    phase.working = true := by
  cases phase <;> first | rfl | exact (nomatch hbusy)

/-- A reply is to a call of the phase. -/
def HealReply.Answers : HealReply → LoopPhase → Prop
  | .checksum _, phase => phase = .checksum
  | .read _, phase => phase = .reading
  | .write _, phase => phase = .writing

/-- The calls of a frame are those of its phase. -/
structure FrameWf (cfg : HealConfig) (frame : LoopFrame) : Prop where
  busy : frame.calls ≠ [] → frame.phase.busy = true
  held : frame.phase.busy = true → frame.dataLockHeld = true
  answers : ∀ child reply, (child, some reply) ∈ frame.calls → reply.Answers frame.phase
  single : frame.phase = .reading → ∀ call ∈ frame.calls, call.1 = cfg.source
  alone : frame.phase ≠ .locking → frame.oldLoopFrame = none

theorem frameWf_of_idle (hcalls : frame.calls = []) (hidle : frame.phase.busy = false)
    (halone : frame.phase ≠ .locking → frame.oldLoopFrame = none) : FrameWf cfg frame :=
  ⟨fun h => absurd hcalls h, fun h => absurd h (by simp [hidle]),
    fun _ _ h => absurd (hcalls ▸ h) List.not_mem_nil,
    fun _ _ h => absurd (hcalls ▸ h) List.not_mem_nil, halone⟩

theorem FrameWf.alone_of_busy (hwf : FrameWf cfg frame) (hbusy : frame.phase.busy = true) :
    frame.oldLoopFrame = none :=
  hwf.alone fun h => by rw [h] at hbusy; cases hbusy

/-! ## Frames that move -/

/-- What an action of a frame leaves as it is. -/
structure Unmoved (s s' : HealState) : Prop where
  offset : s'.offset = s.offset
  loopsRunning : s'.loopsRunning = s.loopsRunning
  spawns : s'.spawns = s.spawns
  outcomes : s'.outcomes = s.outcomes
  clients : s'.clients = s.clients
  opFailed : s.opFailed = true → s'.opFailed = true

/-- One frame moves, and may finish the frame before it: it stays at work, or it returns or
fails and calls the driver. -/
structure Moved (cfg : HealConfig) (s s' : HealState) (f : Nat) (frame frame' : LoopFrame) :
    Prop where
  get : s.frames[f]? = some frame
  working : frame.phase.working = true
  frames : ∃ released, s'.frames = (s.shLoopFinish released).frames.set f frame' ∧
    (released = frame.oldLoopFrame ∧ frame'.oldLoopFrame = none ∨
      released = none ∧ frame'.oldLoopFrame = frame.oldLoopFrame) ∧
    (s'.opFailed = true ∨ released = none ∨ frame'.dataLockHeld = true)
  result : frame'.phase.working = true ∧ s'.drivers = s.drivers ∨
    frame'.phase = .returned ∧ s'.drivers = ⟨false, some f⟩ :: s.drivers ∨
    frame'.phase = .finished ∧ s'.drivers = ⟨false, none⟩ :: s.drivers ∧ s'.opFailed = true
  wf : FrameWf cfg frame'
  offset : frame'.offset = frame.offset
  lock : frame'.dataLockHeld = true → frame.dataLockHeld = true ∨
    ∀ write ∈ s.clients, ¬write.Overlaps frame.offset cfg.blockSize
  keeps : frame.dataLockHeld = true → s'.opFailed = true ∨ frame'.dataLockHeld = true
  unmoved : Unmoved s s'
  returned : frame'.phase = .returned → frame'.dataLockHeld = true

/-- The driver, its start of a loop, a client, or a frame. -/
inductive HealMove (cfg : HealConfig) (s : HealState) (label : HealLabel) (s' : HealState) : Prop
  | driver (index : Nat) (call : DriverCall) (hlabel : label = .driver index)
      (hget : s.drivers[index]? = some call)
      (hs' : s' = { s with drivers := s.drivers.eraseIdx index }.shLoopDriver cfg call)
  | spawn (index : Nat) (spawn : LoopSpawn) (hget : s.spawns[index]? = some spawn)
      (hs' : s' = { (s.shLoopStart cfg spawn).2 with
        spawns := if (s.shLoopStart cfg spawn).1.loop = 0 then s.spawns.eraseIdx index
          else s.spawns.set index (s.shLoopStart cfg spawn).1 })
  | client (files : HealChild → SparseFile UInt8) (clients : List ClientWrite)
      (hclients : ∀ write ∈ clients, write ∈ s.clients ∨
        ∀ frame ∈ s.frames, ¬HealState.Excludes cfg frame write)
      (hs' : s' = { s with files := files, clients := clients })
  | frame (f : Nat) (frame frame' : LoopFrame) (hmoved : Moved cfg s s' f frame frame')

theorem shLoopStart_spawns (s : HealState) (spawn : LoopSpawn) :
    (s.shLoopStart cfg spawn).2.spawns = s.spawns := by
  rw [HealState.shLoopStart]
  split_ifs
  · cases spawn.oldLoopFrame <;> rfl
  · rfl

theorem modify_set (frames : List LoopFrame) (frame : LoopFrame)
    (change : LoopFrame → LoopFrame) (hf : f < frames.length) :
    (frames.set f frame).modify f change = frames.set f (change frame) := by
  rw [List.modify_eq_set_getElem?]
  simp [hf]

section Move

variable {frame' : LoopFrame} {middle : HealState} {released : Option Nat}
  (hget : s.frames[f]? = some frame) (hworking : frame.phase.working = true)
  (hframes : middle.frames = (s.shLoopFinish released).frames.set f frame')
  (hreleased : released = frame.oldLoopFrame ∧ frame'.oldLoopFrame = none ∨
    released = none ∧ frame'.oldLoopFrame = frame.oldLoopFrame)
  (hdrivers : middle.drivers = s.drivers) (hoffset : frame'.offset = frame.offset)
  (hlock : frame'.dataLockHeld = true → frame.dataLockHeld = true ∨
    ∀ write ∈ s.clients, ¬write.Overlaps frame.offset cfg.blockSize)
  (hkeeps : frame.dataLockHeld = true → frame'.dataLockHeld = true)
  (hunmoved : Unmoved s middle)

include hget hworking hframes hreleased hdrivers hoffset hlock hkeeps hunmoved

theorem moved_stay (hheld : released = none ∨ frame'.dataLockHeld = true)
    (hwf : FrameWf cfg frame') (hstay : frame'.phase.working = true) :
    Moved cfg s middle f frame frame' :=
  ⟨hget, hworking, ⟨released, hframes, hreleased, .inr hheld⟩, .inl ⟨hstay, hdrivers⟩, hwf, hoffset,
    hlock, fun h => .inr (hkeeps h), hunmoved, fun h => by rw [h] at hstay; cases hstay⟩

theorem moved_return (opRet : Int)
    (hheld : opRet = -1 ∨ released = none ∧ frame'.dataLockHeld = true) (hcalls : frame'.calls = [])
    (halone : frame'.oldLoopFrame = none) :
    ∃ frame'', frame''.phase.working = false ∧
      Moved cfg s (middle.shLoopReturn f opRet) f frame frame'' := by
  have hlength : f < (s.shLoopFinish released).frames.length := by
    have hlt : f < s.frames.length := (List.getElem?_eq_some_iff.mp hget).1
    cases released with
    | none => exact hlt
    | some old => simpa [HealState.shLoopFinish] using hlt
  rw [HealState.shLoopReturn]
  split_ifs with hopRet
  · refine ⟨{ frame' with dataLockHeld := false, phase := .finished }, rfl, hget, hworking,
      ⟨released, ?_, hreleased, .inl rfl⟩, .inr (.inr ⟨rfl, ?_, rfl⟩),
      frameWf_of_idle hcalls rfl fun _ => halone,
      hoffset, fun h => (nomatch h), fun _ => .inl rfl, { hunmoved with opFailed := fun _ => rfl },
      fun h => (nomatch h)⟩
    · simp only [HealState.shLoopFinish, hframes]
      exact modify_set _ _ _ hlength
    · simp only [hdrivers]
  · refine ⟨{ frame' with phase := .returned }, rfl, hget, hworking,
      ⟨released, ?_, hreleased, .inr (.inl (hheld.resolve_left hopRet).1)⟩,
      .inr (.inl ⟨rfl, ?_⟩), frameWf_of_idle hcalls rfl fun _ => halone, hoffset, hlock,
      fun h => .inr (hkeeps h), { hunmoved with }, fun _ => (hheld.resolve_left hopRet).2⟩
    · simp only [hframes]
      exact modify_set _ _ _ hlength
    · simp only [hdrivers]

end Move

/-! ## Callbacks -/

/-- What a callback does not change in its frame. -/
structure LoopKept (frame frame' : LoopFrame) : Prop where
  oldLoopFrame : frame'.oldLoopFrame = frame.oldLoopFrame
  offset : frame'.offset = frame.offset
  dataLockHeld : frame'.dataLockHeld = frame.dataLockHeld

/-- What a callback does to the frame and to `op_failed`. -/
structure CbkOk (cfg : HealConfig) (opFailed : Bool) (frame : LoopFrame) (result : CbkResult) :
    Prop where
  opFailed : opFailed = true → result.opFailed = true
  waits : ∀ frame', result.loop = .waits frame' →
    frame'.phase.working = true ∧ FrameWf cfg frame' ∧ LoopKept frame frame'
  returns : ∀ frame' opRet, result.loop = .returns frame' opRet →
    frame'.calls = [] ∧ LoopKept frame frame'

section Callback

variable {opFailed eofReached : Bool} {child : HealChild} {frame' : LoopFrame} {failed : Bool}

theorem cbkOk_waits {eof : Bool} (hkept : LoopKept frame frame')
    (hfailed : opFailed = true → failed = true) (hworking : frame'.phase.working = true)
    (hwf : FrameWf cfg frame') : CbkOk cfg opFailed frame ⟨failed, eof, .waits frame'⟩ := by
  refine ⟨hfailed, fun other hother => ?_, fun _ _ hother => (nomatch hother)⟩
  cases hother
  exact ⟨hworking, hwf, hkept⟩

theorem cbkOk_returns {eof : Bool} {opRet : Int} (hkept : LoopKept frame frame')
    (hfailed : opFailed = true → failed = true) (hcalls : frame'.calls = []) :
    CbkOk cfg opFailed frame ⟨failed, eof, .returns frame' opRet⟩ := by
  refine ⟨hfailed, fun _ hother => (nomatch hother), fun other ret hother => ?_⟩
  cases hother
  exact ⟨hcalls, hkept⟩

theorem checksumsDone_ok (hkept : LoopKept frame frame') (hheld : frame.dataLockHeld = true)
    (halone : frame.oldLoopFrame = none) (hfailed : opFailed = true → failed = true)
    (hcalls : frame'.calls = []) (opRet : Int) :
    CbkOk cfg opFailed frame (cfg.checksumsDone failed eofReached frame' opRet) := by
  rw [HealConfig.checksumsDone]
  dsimp only
  split
  · refine cbkOk_waits { hkept with } hfailed rfl
      ⟨fun _ => rfl, fun _ => hkept.dataLockHeld.trans hheld, fun other reply h => ?_,
        fun _ call h => ?_, fun _ => hkept.oldLoopFrame.trans halone⟩
    · cases List.mem_singleton.mp h
    · rw [List.mem_singleton.mp h]
  · exact cbkOk_returns { hkept with } hfailed hcalls

theorem shDiffChecksumCbk_ok (hwf : FrameWf cfg frame) (hphase : frame.phase = .checksum)
    (strong : Option Digest) :
    CbkOk cfg opFailed frame (cfg.shDiffChecksumCbk opFailed eofReached frame child strong) := by
  have hworking : frame.phase.working = true := by rw [hphase]; rfl
  have hheld : frame.dataLockHeld = true := hwf.held (by rw [hphase]; rfl)
  have halone := hwf.alone (by simp [hphase])
  cases strong with
  | none =>
    rw [HealConfig.shDiffChecksumCbk]
    split
    next hcalls => exact checksumsDone_ok ⟨rfl, rfl, rfl⟩ hheld halone (fun _ => rfl) hcalls _
    next => exact cbkOk_waits ⟨rfl, rfl, rfl⟩ (fun _ => rfl) hworking hwf
  | some strong =>
    have hkept : LoopKept frame
        { frame with checksum := Function.update frame.checksum child (some strong) } :=
      ⟨rfl, rfl, rfl⟩
    rw [HealConfig.shDiffChecksumCbk]
    dsimp only
    split
    next hcalls => exact checksumsDone_ok hkept hheld halone id hcalls _
    next => exact cbkOk_waits hkept id hworking { hwf with }

theorem loopWrites_ok (hkept : LoopKept frame frame') (hheld : frame.dataLockHeld = true)
    (halone : frame.oldLoopFrame = none) (hcalls : frame'.calls = []) (vector : List (List UInt8)) :
    CbkOk cfg opFailed frame (cfg.loopWrites opFailed eofReached frame' vector) := by
  rw [HealConfig.loopWrites]
  split
  · exact cbkOk_returns hkept id hcalls
  · refine cbkOk_waits { hkept with } id rfl
      ⟨fun _ => rfl, fun _ => hkept.dataLockHeld.trans hheld, fun other reply h => ?_,
        fun h => (nomatch h), fun _ => hkept.oldLoopFrame.trans halone⟩
    obtain ⟨i, -, heq⟩ := List.mem_map.mp h
    cases heq

theorem shLoopReadCbk_ok (hheld : frame.dataLockHeld = true) (halone : frame.oldLoopFrame = none)
    (hcalls : frame.calls = []) (vector : Option (List (List UInt8))) :
    CbkOk cfg opFailed frame (cfg.shLoopReadCbk opFailed eofReached frame vector) := by
  have hkept : ∀ writeNeeded, LoopKept frame { frame with writeNeeded := writeNeeded } :=
    fun _ => ⟨rfl, rfl, rfl⟩
  cases vector with
  | none => exact cbkOk_returns (hkept frame.writeNeeded) (fun _ => rfl) hcalls
  | some vector =>
    rw [HealConfig.shLoopReadCbk]
    split
    · exact cbkOk_returns (hkept frame.writeNeeded) id hcalls
    · split
      · exact loopWrites_ok (hkept (cfg.shPruneWritesNeeded frame)) hheld halone hcalls vector
      · exact loopWrites_ok (hkept frame.writeNeeded) hheld halone hcalls vector

theorem writeReturned_ok (hkept : LoopKept frame frame')
    (hfailed : opFailed = true → failed = true) (hwf : FrameWf cfg frame')
    (hphase : frame'.phase = .writing) :
    CbkOk cfg opFailed frame (HealConfig.writeReturned failed eofReached frame') := by
  rw [HealConfig.writeReturned]
  split
  next hcalls => exact cbkOk_returns hkept hfailed hcalls
  next => exact cbkOk_waits hkept hfailed (by rw [hphase]; rfl) hwf

theorem shLoopWriteCbk_ok (hwf : FrameWf cfg frame) (hphase : frame.phase = .writing)
    (opRet : Option Nat) :
    CbkOk cfg opFailed frame (HealConfig.shLoopWriteCbk opFailed eofReached frame opRet) := by
  have hkept : ∀ opRet, LoopKept frame { frame with opRet := opRet } := fun _ => ⟨rfl, rfl, rfl⟩
  cases opRet with
  | none => exact writeReturned_ok (hkept (-1)) (fun _ => rfl) { hwf with } hphase
  | some written =>
    rw [HealConfig.shLoopWriteCbk]
    split
    · exact writeReturned_ok (hkept frame.opRet) (fun _ => rfl) hwf hphase
    · exact writeReturned_ok (hkept frame.opRet) id hwf hphase

end Callback

theorem FrameWf.filter (hwf : FrameWf cfg frame) (child : HealChild) :
    FrameWf cfg { frame with calls := frame.calls.filter fun call => call.1 ≠ child } :=
  ⟨fun hcalls => hwf.busy fun h => hcalls (by simp [h]), hwf.held,
    fun other reply h => hwf.answers other reply (List.mem_of_mem_filter h),
    fun hphase call h => hwf.single hphase call (List.mem_of_mem_filter h), hwf.alone⟩

variable {reply : HealReply}

theorem callback_ok (hwf : FrameWf cfg frame) {child : HealChild}
    (hreply : (child, some reply) ∈ frame.calls) (opFailed eofReached : Bool) :
    CbkOk cfg opFailed frame (cfg.callback opFailed eofReached
      { frame with calls := frame.calls.filter fun call => call.1 ≠ child } child reply) := by
  have hok : CbkOk cfg opFailed
      { frame with calls := frame.calls.filter fun call => call.1 ≠ child }
      (cfg.callback opFailed eofReached
        { frame with calls := frame.calls.filter fun call => call.1 ≠ child } child reply) := by
    have hphase := hwf.answers child reply hreply
    cases reply with
    | checksum strong => exact shDiffChecksumCbk_ok (hwf.filter child) hphase strong
    | read vector =>
      have hbusy := hwf.busy (List.ne_nil_of_mem hreply)
      refine shLoopReadCbk_ok ((hwf.filter child).held hbusy) (hwf.alone_of_busy hbusy) ?_ vector
      refine List.filter_eq_nil_iff.mpr fun call hcall => ?_
      have hchild : child = cfg.source := hwf.single hphase _ hreply
      simp [hwf.single hphase call hcall, hchild]
    | write opRet => exact shLoopWriteCbk_ok (hwf.filter child) hphase opRet
  exact ⟨hok.opFailed,
    fun frame' h => (hok.waits frame' h).imp_right (And.imp_right fun hkept => { hkept with }),
    fun frame' opRet h => (hok.returns frame' opRet h).imp_right fun hkept => { hkept with }⟩

/-! ## Every action -/

/-- Every frame has the calls of its phase. -/
def HealState.Wf (cfg : HealConfig) (s : HealState) : Prop := ∀ frame ∈ s.frames, FrameWf cfg frame

theorem shLoopFinish_fields (s : HealState) (released : Option Nat) :
    (s.shLoopFinish released).drivers = s.drivers ∧ Unmoved s (s.shLoopFinish released) := by
  cases released <;> exact ⟨rfl, rfl, rfl, rfl, rfl, rfl, id⟩

theorem lockGrant_moved (hget : s.frames[f]? = some frame) (hphase : frame.phase = .locking)
    (hfree : ∀ write ∈ s.clients, ¬write.Overlaps frame.offset cfg.blockSize) :
    Moved cfg s (s.shLoopLockSuccess cfg f frame) f frame
      (HealState.algoStart cfg { frame with oldLoopFrame := none, dataLockHeld := true }) := by
  obtain ⟨hdrivers, hunmoved⟩ := shLoopFinish_fields s frame.oldLoopFrame
  have hworking : frame.phase.working = true := by rw [hphase]; rfl
  refine moved_stay hget hworking rfl (.inl ⟨rfl, ?_⟩) hdrivers ?_
    (fun _ => .inr hfree) (fun _ => ?_) { hunmoved with } (.inr ?_) ?_ ?_
  iterate 4
    · rw [HealState.algoStart]
      split <;> rfl
  · rw [HealState.algoStart]
    split
    · refine ⟨fun _ => rfl, fun _ => rfl, fun child reply h => ?_, fun h => (nomatch h),
        fun _ => rfl⟩
      rcases List.mem_cons.mp h with heq | hmem
      · cases heq
      · obtain ⟨i, -, heq⟩ := List.mem_map.mp hmem
        cases heq
    · refine ⟨fun _ => rfl, fun _ => rfl, fun child reply h => ?_, fun _ call h => ?_, fun _ => rfl⟩
      · cases List.mem_singleton.mp h
      · rw [List.mem_singleton.mp h]
  · rw [HealState.algoStart]
    split <;> rfl

theorem lockFail_moved (hwf : s.Wf cfg) (hget : s.frames[f]? = some frame)
    (hphase : frame.phase = .locking) :
    ∃ frame', frame'.phase.working = false ∧
      Moved cfg s (s.shLoopLockFailure f frame) f frame frame' := by
  obtain ⟨hdrivers, hunmoved⟩ := shLoopFinish_fields s frame.oldLoopFrame
  have hworking : frame.phase.working = true := by rw [hphase]; rfl
  have hcalls : frame.calls = [] := by
    by_contra hcalls
    have hbusy := (hwf frame (List.mem_of_getElem? hget)).busy hcalls
    rw [hphase] at hbusy
    exact (nomatch hbusy)
  have hframes : ((s.shLoopFinish frame.oldLoopFrame).setFrame f
      { frame with oldLoopFrame := none }).frames =
      (s.shLoopFinish frame.oldLoopFrame).frames.set f { frame with oldLoopFrame := none } := rfl
  exact moved_return hget hworking hframes (.inl ⟨rfl, rfl⟩) hdrivers rfl .inl id { hunmoved with }
    (-1) (.inl rfl) hcalls rfl

theorem afterCbk_fields (s : HealState) (f : Nat) (result : CbkResult) :
    (s.afterCbk f result).files = s.files ∧ (s.afterCbk f result).eofReached = result.eofReached ∧
      (result.opFailed = true → (s.afterCbk f result).opFailed = true) ∧
      ∀ frame', result.loop = .waits frame' → (s.afterCbk f result).opFailed = result.opFailed := by
  rw [HealState.afterCbk]
  cases result.loop with
  | waits frame' => exact ⟨rfl, rfl, id, fun _ _ => rfl⟩
  | returns frame' opRet =>
    dsimp only
    rw [HealState.shLoopReturn]
    split
    · exact ⟨rfl, rfl, fun _ => rfl, fun _ h => by cases h⟩
    · exact ⟨rfl, rfl, id, fun _ h => by cases h⟩

theorem reply_moved (hwf : s.Wf cfg) (hget : s.frames[f]? = some frame) {child : HealChild}
    (hreply : (child, some reply) ∈ frame.calls) :
    ∃ frame', Moved cfg s (s.replyCbk cfg f frame child reply) f frame frame' ∧
      ((cfg.callback s.opFailed s.eofReached
          { frame with calls := frame.calls.filter fun call => call.1 ≠ child } child reply).loop =
            .waits frame' ∨
        frame'.phase.working = false ∧ ∃ last opRet, (cfg.callback s.opFailed s.eofReached
          { frame with calls := frame.calls.filter fun call => call.1 ≠ child } child reply).loop =
            .returns last opRet) := by
  have hframe := hwf frame (List.mem_of_getElem? hget)
  have hbusy := hframe.busy (List.ne_nil_of_mem hreply)
  have hworking : frame.phase.working = true := LoopPhase.working_of_busy hbusy
  obtain ⟨hfailed, hwaits, hreturns⟩ := callback_ok hframe hreply s.opFailed s.eofReached
  rw [HealState.replyCbk, HealState.afterCbk]
  generalize cfg.callback s.opFailed s.eofReached
    { frame with calls := frame.calls.filter fun call => call.1 ≠ child } child reply = result at *
  have hunmoved : ∀ frame', Unmoved s ({ s with
      opFailed := result.opFailed, eofReached := result.eofReached }.setFrame f frame') :=
    fun _ => ⟨rfl, rfl, rfl, rfl, rfl, hfailed⟩
  have hframes : ∀ frame', ({ s with
      opFailed := result.opFailed, eofReached := result.eofReached }.setFrame f frame').frames =
        (s.shLoopFinish none).frames.set f frame' := fun _ => rfl
  cases hloop : result.loop with
  | waits frame' =>
    obtain ⟨hstay, hwf', hkept⟩ := hwaits frame' hloop
    exact ⟨frame', moved_stay hget hworking (hframes frame') (.inr ⟨rfl, hkept.oldLoopFrame⟩) rfl
      hkept.offset (fun h => .inl (hkept.dataLockHeld ▸ h)) (fun h => hkept.dataLockHeld ▸ h)
      (hunmoved frame') (.inl rfl) hwf' hstay, .inl rfl⟩
  | returns frame' opRet =>
    obtain ⟨hcalls, hkept⟩ := hreturns frame' opRet hloop
    obtain ⟨frame'', hidle, hmoved⟩ := moved_return hget hworking (hframes frame')
      (.inr ⟨rfl, hkept.oldLoopFrame⟩) rfl hkept.offset
      (fun h => .inl (hkept.dataLockHeld ▸ h)) (fun h => hkept.dataLockHeld ▸ h)
      (hunmoved frame') opRet (.inr ⟨rfl, hkept.dataLockHeld.trans (hframe.held hbusy)⟩) hcalls
      (hkept.oldLoopFrame.trans (hframe.alone_of_busy hbusy))
    exact ⟨frame'', hmoved, .inr ⟨hidle, frame', opRet, rfl⟩⟩

/-- The frame after a child has done a call of it. -/
def LoopFrame.answered (frame : LoopFrame) (child : HealChild) (reply : HealReply) : LoopFrame :=
  { frame with
    calls := frame.calls.map fun call => if call.1 = child then (child, some reply) else call }

/-- What a child answers to a call, and the files after it. -/
inductive Executed (cfg : HealConfig) (s : HealState) (frame : LoopFrame) (child : HealChild) :
    HealAnswer → HealReply → (HealChild → SparseFile UInt8) → Prop
  | checksum (ok : Bool) (hphase : frame.phase = .checksum) :
      Executed cfg s frame child (.checksum ok) (.checksum
        (if ok then some (cfg.rchecksum (s.files child) frame.offset cfg.blockSize) else none))
        s.files
  | read (vector : Option (List (List UInt8))) (hphase : frame.phase = .reading)
      (hvector : ∀ iovs, vector = some iovs →
        iovs.flatten = (s.files child).read frame.offset cfg.blockSize) :
      Executed cfg s frame child (.read vector) (.read vector) s.files
  | writeFail (hphase : frame.phase = .writing) :
      Executed cfg s frame child (.write none) (.write none) s.files
  | write (written : Nat) (hphase : frame.phase = .writing) :
      Executed cfg s frame child (.write (some written)) (.write (some written))
        (Function.update s.files child
          ((s.files child).write frame.offset (frame.vector.flatten.take written)))

theorem execCall_executed {child : HealChild} {answer : HealAnswer}
    (h : s.execCall cfg f frame child answer = some s') :
    ∃ reply files, Executed cfg s frame child answer reply files ∧
      s' = { s.setFrame f (frame.answered child reply) with files := files } := by
  unfold HealState.execCall at h
  dsimp only at h
  split at h
  next ok hphase =>
    exact ⟨_, _, .checksum ok hphase, (Option.some.inj h).symm⟩
  next hphase =>
    exact ⟨_, _, .read none hphase (fun _ h => (nomatch h)), (Option.some.inj h).symm⟩
  next vector hphase =>
    split at h
    next hvector =>
      refine ⟨_, _, .read (some vector) hphase ?_, (Option.some.inj h).symm⟩
      rintro iovs ⟨⟩
      exact hvector
    next => cases h
  next hphase =>
    exact ⟨_, _, .writeFail hphase, (Option.some.inj h).symm⟩
  next written hphase =>
    split at h
    next => exact ⟨_, _, .write written hphase, (Option.some.inj h).symm⟩
    next => cases h
  next => cases h

theorem Executed.answers {child : HealChild} {answer : HealAnswer}
    {files : HealChild → SparseFile UInt8} (h : Executed cfg s frame child answer reply files) :
    reply.Answers frame.phase := by
  cases h with
  | checksum _ hphase => exact hphase
  | read _ hphase => exact hphase
  | writeFail hphase => exact hphase
  | write _ hphase => exact hphase

theorem mem_answered_calls {child : HealChild} {call : HealChild × Option HealReply}
    (hcall : call ∈ (frame.answered child reply).calls) :
    call ∈ frame.calls ∧ call.1 ≠ child ∨ call = (child, some reply) := by
  obtain ⟨old, hold, rfl⟩ := List.mem_map.mp hcall
  by_cases hchild : old.1 = child
  · exact .inr (if_pos hchild)
  · rw [if_neg hchild]
    exact .inl ⟨hold, hchild⟩

theorem exec_moved (hwf : s.Wf cfg) (hget : s.frames[f]? = some frame) {child : HealChild}
    (hcall : (child, none) ∈ frame.calls) (hanswers : reply.Answers frame.phase)
    (files : HealChild → SparseFile UInt8) :
    Moved cfg s { s.setFrame f (frame.answered child reply) with files := files } f frame
      (frame.answered child reply) := by
  have hframe := hwf frame (List.mem_of_getElem? hget)
  have hbusy := hframe.busy (List.ne_nil_of_mem hcall)
  have hworking : frame.phase.working = true := LoopPhase.working_of_busy hbusy
  have hframes : { s.setFrame f (frame.answered child reply) with files := files }.frames =
      (s.shLoopFinish none).frames.set f (frame.answered child reply) := rfl
  refine moved_stay hget hworking hframes (.inr ⟨rfl, rfl⟩) rfl rfl .inl id
    ⟨rfl, rfl, rfl, rfl, rfl, id⟩ (.inl rfl)
    ⟨fun _ => hbusy, hframe.held, fun other old hmem => ?_, ?_, hframe.alone⟩ hworking
  · rcases mem_answered_calls hmem with ⟨hmem, -⟩ | heq
    · exact hframe.answers other old hmem
    · cases heq
      exact hanswers
  · intro hphase call hmem
    rcases mem_answered_calls hmem with ⟨hmem, -⟩ | rfl
    · exact hframe.single hphase call hmem
    · exact hframe.single hphase (child, none) hcall

theorem mem_of_lookup {calls : List (HealChild × Option HealReply)} {child : HealChild}
    {answer : Option HealReply} (h : calls.lookup child = some answer) :
    (child, answer) ∈ calls := by
  induction calls with
  | nil => cases h
  | cons head tail ih =>
    rw [List.lookup_cons] at h
    split at h
    next heq =>
      cases h
      rw [beq_iff_eq.mp heq]
      exact List.mem_cons_self
    next => exact List.mem_cons_of_mem _ (ih h)

theorem healStep_move (hwf : s.Wf cfg) {label : HealLabel} (h : healStep cfg s label = some s') :
    HealMove cfg s label s' := by
  cases label with
  | driver index =>
    obtain ⟨call, hget, hs'⟩ := Option.map_eq_some_iff.mp h
    exact .driver index call rfl hget hs'.symm
  | spawn index =>
    obtain ⟨spawn, hget, hs'⟩ := Option.map_eq_some_iff.mp h
    refine .spawn index spawn hget (hs'.symm.trans ?_)
    dsimp only
    rw [shLoopStart_spawns]
  | lockGrant f =>
    obtain ⟨frame, hget, h⟩ := Option.bind_eq_some_iff.mp h
    split at h
    next hready =>
      cases h
      exact .frame f frame _ (lockGrant_moved hget hready.1 hready.2)
    next => cases h
  | lockFail f =>
    obtain ⟨frame, hget, h⟩ := Option.bind_eq_some_iff.mp h
    split at h
    next hphase =>
      cases h
      obtain ⟨frame', -, hmoved⟩ := lockFail_moved hwf hget hphase
      exact .frame f frame frame' hmoved
    next => cases h
  | exec f child answer =>
    obtain ⟨frame, hget, h⟩ := Option.bind_eq_some_iff.mp h
    split at h
    next hcall =>
      obtain ⟨reply, files, hexec, rfl⟩ := execCall_executed h
      exact .frame f frame _ (exec_moved hwf hget hcall hexec.answers files)
    next => cases h
  | reply f child =>
    obtain ⟨frame, hget, h⟩ := Option.bind_eq_some_iff.mp h
    obtain ⟨answer, hanswer, h⟩ := Option.bind_eq_some_iff.mp h
    obtain ⟨reply, rfl, hs'⟩ := Option.map_eq_some_iff.mp h
    obtain ⟨frame', hmoved, -⟩ := reply_moved hwf hget (mem_of_lookup hanswer)
    exact .frame f frame frame' (hs' ▸ hmoved)
  | clientLock write =>
    rw [healStep] at h
    split at h
    next hfree =>
      cases h
      refine .client s.files (write :: s.clients) (fun other hother => ?_) rfl
      rcases List.mem_cons.mp hother with rfl | hother
      · exact .inr hfree.1
      · exact .inl hother
    next => cases h
  | clientWrite write =>
    rw [healStep] at h
    split at h
    next =>
      cases h
      exact .client _ s.clients (fun _ hother => .inl hother) rfl
    next => cases h
  | clientUnlock write =>
    rw [healStep] at h
    split at h
    next =>
      cases h
      exact .client s.files _ (fun _ hother => .inl (List.mem_of_mem_erase hother)) rfl
    next => cases h

end GlusterFS.Afr
