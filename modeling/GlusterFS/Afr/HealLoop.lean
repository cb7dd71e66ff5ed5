import GlusterFS.Core.SparseFile
import GlusterFS.Core.Transition

/-!
# The loops of a data self-heal

A file is healed in blocks, several of them at a time.  Every block has a loop frame: it
takes a lock on the range of the block, compares checksums or not, reads the block from
the source and writes it to the sinks that need it.  A loop that is done calls the driver,
which starts the loop for the next block; the lock of the old frame is released when the
new one is granted.

The locked section of `sh_loop_driver`, every turn of the loop after it, the work of a
child and each callback are one action.  Clients write between these actions: they lock
their range and write the same bytes to all children.
-/

namespace GlusterFS.Afr

abbrev HealChild := Nat

/-- A strong checksum. -/
abbrev Digest := List UInt8

inductive HealAlgo
  | full
  | diff
  deriving DecidableEq

/-- What is known when the loops start.  `before` are the files as `fstat` found them, under
the lock on the whole file and before the sinks were truncated. -/
structure HealConfig where
  childCount : Nat
  sources : HealChild → Bool
  childUp : HealChild → Bool
  source : HealChild
  blockSize : Nat
  windowSize : Nat
  algo : HealAlgo
  fileHasHoles : Bool
  before : HealChild → SparseFile UInt8
  digest : List UInt8 → Digest
  source_mem : sources source = true

/-- What a child has answered: a checksum, the bytes that were read or how many were
written; nothing where the call failed. -/
inductive HealReply
  | checksum (strong : Option Digest)
  | read (vector : Option (List (List UInt8)))
  | write (opRet : Option Nat)
  deriving DecidableEq

/-- How far the loop of a frame is. -/
inductive LoopPhase
  /-- The frame that has the lock on the whole file. -/
  | initial
  | locking
  | checksum
  | reading
  | writing
  /-- The frame is with the driver or with the loop that comes after it. -/
  | returned
  | finished
  deriving DecidableEq

/-- A loop frame, with the calls to children that have not come back and what the child has
answered. -/
structure LoopFrame where
  offset : Nat
  oldLoopFrame : Option Nat
  dataLockHeld : Bool
  phase : LoopPhase
  calls : List (HealChild × Option HealReply)
  checksum : HealChild → Option Digest
  writeNeeded : HealChild → Bool
  vector : List (List UInt8)
  opRet : Int

/-- A call of `sh_loop_driver` that is about to take the lock. -/
structure DriverCall where
  isFirstCall : Bool
  oldLoopFrame : Option Nat

/-- A call of `sh_loop_driver` with loops still to start. -/
structure LoopSpawn where
  loop : Nat
  offset : Nat
  oldLoopFrame : Option Nat

inductive HealOutcome
  | completion (lastLoopFrame : Option Nat)
  | abort

/-- A client's write: the bytes and where they go. -/
structure ClientWrite where
  start : Nat
  bytes : List UInt8
  deriving DecidableEq

/-- The self-heal: `sh_priv` and `sh`, the loop frames by number, the calls of the driver,
the callbacks that were called, the files and the clients that have locks. -/
structure HealState where
  offset : Nat
  loopsRunning : Nat
  opFailed : Bool
  eofReached : Bool
  frames : List LoopFrame
  drivers : List DriverCall
  spawns : List LoopSpawn
  outcomes : List HealOutcome
  files : HealChild → SparseFile UInt8
  clients : List ClientWrite

namespace HealConfig

variable (cfg : HealConfig)

def fileSize : Nat := (cfg.before cfg.source).size

/-- The children that the loops skip are the sources and those that are down. -/
def sinks : List HealChild :=
  (List.range cfg.childCount).filter fun i => !(cfg.sources i || !cfg.childUp i)

/-- A `rchecksum` call: `len` bytes, with zeroes after the end of the file. -/
def rchecksum (file : SparseFile UInt8) (offset len : Nat) : Digest :=
  cfg.digest ((List.range len).map fun index => file.data (offset + index))

/-- `sh_loop_frame_create` and what `sh_loop_start` sets. -/
def newFrame (offset : Nat) (oldLoopFrame : Option Nat) : LoopFrame :=
  { offset := offset
    oldLoopFrame := oldLoopFrame
    dataLockHeld := false
    phase := .locking
    calls := []
    checksum := fun _ => none
    writeNeeded := fun _ => false
    vector := []
    opRet := 0 }

/-- The state when `afr_sh_start_loops` calls the driver: the sinks are truncated and the
first frame has the lock on the whole file. -/
def start : HealState :=
  { offset := 0
    loopsRunning := 0
    opFailed := false
    eofReached := false
    frames := [{ newFrame 0 none with dataLockHeld := true, phase := .initial }]
    drivers := [⟨true, some 0⟩]
    spawns := []
    outcomes := []
    files := fun c => if c ∈ cfg.sinks then (cfg.before c).truncate cfg.fileSize else cfg.before c
    clients := [] }

end HealConfig

namespace HealState

variable (cfg : HealConfig) (s : HealState)

def setFrame (f : Nat) (frame : LoopFrame) : HealState :=
  { s with frames := s.frames.set f frame }

/-- `sh_loop_finish` -/
def shLoopFinish : Option Nat → HealState
  | none => s
  | some f =>
    { s with frames := s.frames.modify f fun frame =>
        { frame with dataLockHeld := false, phase := .finished } }

/-! ## The driver -/

/-- The loop in the locked section of `sh_loop_driver`: the number of loops, `offset` and
`loops_running`.  It stops at the window. -/
def driverLoop (isFirstCall : Bool) : Nat → Nat → Nat → Nat × Nat × Nat
  | 0, offset, loopsRunning => (0, offset, loopsRunning)
  | fuel + 1, offset, loopsRunning =>
    if s.eofReached = false ∧ s.opFailed = false ∧ loopsRunning < cfg.windowSize ∧
        offset < cfg.fileSize then
      if isFirstCall then
        let (loop, rest) := driverLoop isFirstCall fuel (offset + cfg.blockSize) (loopsRunning + 1)
        (loop + 1, rest)
      else (1, offset + cfg.blockSize, loopsRunning + 1)
    else (0, offset, loopsRunning)

/-- `sh_loop_driver` up to the loop that starts frames, with `sh_loop_driver_done`. -/
def shLoopDriver (call : DriverCall) : HealState :=
  let running := if call.isFirstCall then s.loopsRunning else s.loopsRunning - 1
  let (loop, offset, loopsRunning) :=
    s.driverLoop cfg call.isFirstCall (cfg.windowSize + 1) s.offset running
  let after := { s with offset := offset, loopsRunning := loopsRunning }
  if loop = 0 then
    if loopsRunning = 0 ∧ s.opFailed = false then
      { after with outcomes := .completion call.oldLoopFrame :: s.outcomes }
    else
      let after := after.shLoopFinish call.oldLoopFrame
      if loopsRunning = 0 then { after with outcomes := .abort :: s.outcomes } else after
  else { after with spawns := ⟨loop, s.offset, call.oldLoopFrame⟩ :: s.spawns }

/-- One turn of the loop that starts frames, with `sh_loop_start`: what is left of the
call and the state. -/
def shLoopStart (spawn : LoopSpawn) : LoopSpawn × HealState :=
  if s.opFailed then
    let after := s.shLoopFinish spawn.oldLoopFrame
    (⟨spawn.loop - 1, spawn.offset, none⟩, { after with drivers := ⟨false, none⟩ :: s.drivers })
  else
    (⟨spawn.loop - 1, spawn.offset + cfg.blockSize, none⟩, { s with
        frames := s.frames ++ [HealConfig.newFrame spawn.offset spawn.oldLoopFrame] })

/-- `sh_loop_return` -/
def shLoopReturn (f : Nat) (opRet : Int) : HealState :=
  if opRet = -1 then
    let after := { s with opFailed := true }.shLoopFinish (some f)
    { after with drivers := ⟨false, none⟩ :: s.drivers }
  else
    { s with
      frames := s.frames.modify f fun frame => { frame with phase := .returned }
      drivers := ⟨false, some f⟩ :: s.drivers }

/-! ## Locks -/

/-- `sh_diff_checksum` or `sh_full_read_write_to_sinks` with `sh_loop_read`. -/
def algoStart (frame : LoopFrame) : LoopFrame :=
  match cfg.algo with
  | .diff =>
    { frame with
      phase := .checksum
      calls := (cfg.source, none) :: cfg.sinks.map fun i => (i, none) }
  | .full =>
    { frame with
      phase := .reading
      writeNeeded := fun i => if i ∈ cfg.sinks then true else frame.writeNeeded i
      calls := [(cfg.source, none)] }

/-- `sh_loop_lock_success` -/
def shLoopLockSuccess (f : Nat) (frame : LoopFrame) : HealState :=
  (s.shLoopFinish frame.oldLoopFrame).setFrame f
    (algoStart cfg { frame with oldLoopFrame := none, dataLockHeld := true })

/-- `sh_loop_lock_failure` -/
def shLoopLockFailure (f : Nat) (frame : LoopFrame) : HealState :=
  ((s.shLoopFinish frame.oldLoopFrame).setFrame f
    { frame with oldLoopFrame := none }).shLoopReturn f (-1)

end HealState

/-! ## Callbacks -/

/-- What a callback leaves of its loop: calls are out, or the loop returns. -/
inductive LoopResult
  | waits (frame : LoopFrame)
  | returns (frame : LoopFrame) (opRet : Int)

/-- `sh->op_failed` and `sh->eof_reached` after a callback, and the loop. -/
structure CbkResult where
  opFailed : Bool
  eofReached : Bool
  loop : LoopResult

namespace HealConfig

variable (cfg : HealConfig) (opFailed eofReached : Bool) (frame : LoopFrame)

/-- `sh_diff_checksum_cbk` once all children have answered. -/
def checksumsDone (opRet : Int) : CbkResult :=
  let differs := fun i => decide (frame.checksum i ≠ frame.checksum cfg.source)
  let frame := { frame with
    writeNeeded := fun i => if i ∈ cfg.sinks ∧ differs i then true else frame.writeNeeded i }
  if cfg.sinks.any differs ∧ opFailed = false then
    ⟨opFailed, eofReached, .waits { frame with phase := .reading, calls := [(cfg.source, none)] }⟩
  else ⟨opFailed, eofReached, .returns frame opRet⟩

/-- `sh_diff_checksum_cbk`; the call that came back is no longer in the frame. -/
def shDiffChecksumCbk (child : HealChild) : Option Digest → CbkResult
  | none =>
    if frame.calls = [] then cfg.checksumsDone true eofReached frame (-1)
    else ⟨true, eofReached, .waits frame⟩
  | some strong =>
    let frame := { frame with checksum := Function.update frame.checksum child (some strong) }
    if frame.calls = [] then cfg.checksumsDone opFailed eofReached frame 0
    else ⟨opFailed, eofReached, .waits frame⟩

/-- `sh_prune_writes_needed` -/
def shPruneWritesNeeded : HealChild → Bool :=
  match cfg.algo with
  | .diff => frame.writeNeeded
  | .full => fun i =>
    if frame.writeNeeded i ∧ frame.offset + 1 > (cfg.before i).size then false
    else frame.writeNeeded i

/-- The part of `sh_loop_read_cbk` that writes. -/
def loopWrites (vector : List (List UInt8)) : CbkResult :=
  let writes := (List.range cfg.childCount).filter frame.writeNeeded
  if writes = [] then ⟨opFailed, eofReached, .returns frame 0⟩
  else
    ⟨opFailed, eofReached, .waits { frame with
      phase := .writing
      vector := vector
      calls := writes.map fun i => (i, none) }⟩

/-- `iov_0filled` found no byte that is not zero. -/
def iov0filled (vector : List (List UInt8)) : Bool :=
  vector.all fun iov => iov.all fun byte => byte = 0

/-- `sh_loop_read_cbk` -/
def shLoopReadCbk : Option (List (List UInt8)) → CbkResult
  | none => ⟨true, eofReached, .returns frame (-1)⟩
  | some vector =>
    if vector.flatten = [] then ⟨opFailed, true, .returns frame 0⟩
    else if cfg.fileHasHoles ∧ iov0filled vector then
      cfg.loopWrites opFailed eofReached
        { frame with writeNeeded := cfg.shPruneWritesNeeded frame } vector
    else cfg.loopWrites opFailed eofReached frame vector

/-- The end of `sh_loop_write_cbk`. -/
def writeReturned : CbkResult :=
  if frame.calls = [] then ⟨opFailed, eofReached, .returns frame frame.opRet⟩
  else ⟨opFailed, eofReached, .waits frame⟩

/-- `sh_loop_write_cbk`, which compares with the first vector only. -/
def shLoopWriteCbk : Option Nat → CbkResult
  | none => writeReturned true eofReached { frame with opRet := -1 }
  | some written =>
    if written < (frame.vector.head?.map List.length).getD 0 then
      writeReturned true eofReached frame
    else writeReturned opFailed eofReached frame

def callback (child : HealChild) : HealReply → CbkResult
  | .checksum strong => cfg.shDiffChecksumCbk opFailed eofReached frame child strong
  | .read vector => cfg.shLoopReadCbk opFailed eofReached frame vector
  | .write opRet => shLoopWriteCbk opFailed eofReached frame opRet

end HealConfig

namespace HealState

variable (s : HealState)

/-- The loop of a frame goes on after a callback. -/
def afterCbk (f : Nat) (result : CbkResult) : HealState :=
  let s := { s with opFailed := result.opFailed, eofReached := result.eofReached }
  match result.loop with
  | .waits frame => s.setFrame f frame
  | .returns frame opRet => (s.setFrame f frame).shLoopReturn f opRet

def replyCbk (cfg : HealConfig) (f : Nat) (frame : LoopFrame) (child : HealChild)
    (reply : HealReply) : HealState :=
  s.afterCbk f (cfg.callback s.opFailed s.eofReached
    { frame with calls := frame.calls.filter fun call => call.1 ≠ child } child reply)

end HealState

/-- What a child makes of a call.  A read returns the bytes in some vectors, a write may be
short. -/
inductive HealAnswer
  | checksum (ok : Bool)
  | read (vector : Option (List (List UInt8)))
  | write (opRet : Option Nat)
  deriving DecidableEq

inductive HealLabel
  | driver (index : Nat)
  | spawn (index : Nat)
  | lockGrant (f : Nat)
  | lockFail (f : Nat)
  | exec (f : Nat) (child : HealChild) (answer : HealAnswer)
  | reply (f : Nat) (child : HealChild)
  | clientLock (write : ClientWrite)
  | clientWrite (write : ClientWrite)
  | clientUnlock (write : ClientWrite)
  deriving DecidableEq

namespace ClientWrite

/-- The ranges of a write and of a block meet. -/
def Overlaps (write : ClientWrite) (offset len : Nat) : Prop :=
  write.start < offset + len ∧ offset < write.start + write.bytes.length
  deriving Decidable

end ClientWrite

namespace HealState

variable (cfg : HealConfig) (s : HealState)

/-- The frame has a lock that keeps the write out: the first one has the whole file. -/
def Excludes (frame : LoopFrame) (write : ClientWrite) : Prop :=
  frame.dataLockHeld = true ∧ (frame.phase = .initial ∨ write.Overlaps frame.offset cfg.blockSize)
  deriving Decidable

/-- A child does what it was asked for. -/
def execCall (f : Nat) (frame : LoopFrame) (child : HealChild) (answer : HealAnswer) :
    Option HealState :=
  let answered (reply : HealReply) : HealState :=
    s.setFrame f { frame with
      calls := frame.calls.map fun call => if call.1 = child then (child, some reply) else call }
  match frame.phase, answer with
  | .checksum, .checksum ok =>
    some (answered (.checksum
      (if ok then some (cfg.rchecksum (s.files child) frame.offset cfg.blockSize) else none)))
  | .reading, .read none => some (answered (.read none))
  | .reading, .read (some vector) =>
    if vector.flatten = (s.files child).read frame.offset cfg.blockSize then
      some (answered (.read (some vector)))
    else none
  | .writing, .write none => some (answered (.write none))
  | .writing, .write (some written) =>
    if written ≤ frame.vector.flatten.length then
      some { answered (.write (some written)) with
        files := Function.update s.files child
          ((s.files child).write frame.offset (frame.vector.flatten.take written)) }
    else none
  | _, _ => none

end HealState

/-- One action.  The loop frames of a self-heal have one lock owner, so that their locks do
not keep each other out. -/
def healStep (cfg : HealConfig) (s : HealState) : HealLabel → Option HealState
  | .driver index =>
    s.drivers[index]?.map fun call =>
      { s with drivers := s.drivers.eraseIdx index }.shLoopDriver cfg call
  | .spawn index =>
    s.spawns[index]?.map fun spawn =>
      let (left, s) := s.shLoopStart cfg spawn
      { s with
        spawns := if left.loop = 0 then s.spawns.eraseIdx index else s.spawns.set index left }
  | .lockGrant f =>
    s.frames[f]?.bind fun frame =>
      if frame.phase = .locking ∧
          ∀ write ∈ s.clients, ¬write.Overlaps frame.offset cfg.blockSize then
        some (s.shLoopLockSuccess cfg f frame)
      else none
  | .lockFail f =>
    s.frames[f]?.bind fun frame =>
      if frame.phase = .locking then some (s.shLoopLockFailure f frame) else none
  | .exec f child answer =>
    s.frames[f]?.bind fun frame =>
      if (child, none) ∈ frame.calls then s.execCall cfg f frame child answer else none
  | .reply f child =>
    s.frames[f]?.bind fun frame =>
      (frame.calls.lookup child).bind fun answer =>
        answer.map fun reply => s.replyCbk cfg f frame child reply
  | .clientLock write =>
    if (∀ frame ∈ s.frames, ¬HealState.Excludes cfg frame write) ∧
        ∀ other ∈ s.clients, ¬write.Overlaps other.start other.bytes.length then
      some { s with clients := write :: s.clients }
    else none
  | .clientWrite write =>
    if write ∈ s.clients then
      some { s with files := fun c => (s.files c).write write.start write.bytes }
    else none
  | .clientUnlock write =>
    if write ∈ s.clients then some { s with clients := s.clients.erase write } else none

end GlusterFS.Afr
