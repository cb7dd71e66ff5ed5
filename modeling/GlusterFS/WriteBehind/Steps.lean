import GlusterFS.WriteBehind.Queue

/-!
# The steps of write-behind on one inode

Any number of threads serve the calls on an inode.  Each step is what one of
them does under the inode's lock, or one call up to the caller or down to the
child, so that the steps of different threads mix freely.  `wb_process_queue`
may run at any time.
-/

namespace GlusterFS.WriteBehind

variable {Byte : Type*} [Zero Byte]

def eio : Nat := 5

def ebadf : Nat := 9

def enomem : Nat := 12

/-- The calls that `wb_fd_err` is asked about before they are queued. -/
def Fop.checksFd : Fop → Bool
  | .write | .fsync | .ftruncate => true
  | _ => false

/-- `wb_disabled` of `wb_writev`. -/
def wbDisabled (conf : WbConf) (stub : CallStub Byte) : Bool :=
  (stub.fdFlags.sync || stub.fdFlags.dsync ||
      (conf.strictODirect && stub.fdFlags.direct)) ||
    (stub.flags.sync || stub.flags.dsync || (conf.strictODirect && stub.flags.direct))

namespace WbState

/-- The error that `wb_fd_err` finds. -/
def fdError (s : WbState Byte) (fd : Option Fd) : Option Nat := fd.bind s.fdErr

def setFdErr (s : WbState Byte) (fd : Option Fd) (errno : Nat) : WbState Byte :=
  match fd with
  | some fd => { s with fdErr := Function.update s.fdErr fd (some errno) }
  | none => s

/-- What `wb_fd_err` leaves behind when it finds an error. -/
def markBad (s : WbState Byte) (fd : Option Fd) : WbState Byte :=
  if (s.fdError fd).isSome then s.setFdErr fd ebadf else s

def record (s : WbState Byte) (event : Event Byte) : WbState Byte :=
  { s with log := event :: s.log }

/-- A call enters; it fails at once when its fd is bad. -/
def arrive (s : WbState Byte) (stub : CallStub Byte) : WbState Byte :=
  if stub.fop.checksFd = true ∧ (s.fdError stub.fd).isSome then s.markBad stub.fd
  else { s with arriving := s.arriving ++ [stub] }

/-- `wb_enqueue_tempted` for the writes that are buffered, `wb_enqueue` for the
rest. -/
def enqueue (conf : WbConf) (s : WbState Byte) (stub : CallStub Byte) : WbState Byte :=
  s.enqueueCommon stub (stub.fop = .write && !wbDisabled conf stub)

/-- One turn of `wb_do_unwinds`. -/
def unwind (s : WbState Byte) (id : ReqId) : WbState Byte :=
  ((s.modify id fun req => { req with unwinds := false }).unref id).record
    (.unwound id (s.req id).opRet (s.req id).opErrno)

/-- A resumed call is over for write-behind: it went to the child or came to an
end here. -/
def leave (s : WbState Byte) (id : ReqId) (stage : Stage) : WbState Byte :=
  (s.modify id fun req => { req with stage := stage }).unref id

/-- `wb_flush_helper`; `frame` tells whether there is memory for the frame of a
flush in the background. -/
def flushHelper (conf : WbConf) (s : WbState Byte) (id : ReqId) (frame : Bool) :
    WbState Byte :=
  let fd := (s.req id).stub.fd
  if (s.fdError fd).isSome then ((s.markBad fd).leave id .done).record (.replied id (-1))
  else if conf.flushBehind = false then (s.leave id .wound).record (.wound id)
  else if frame = false then (s.leave id .done).record (.replied id (-1))
  else ((s.leave id .done).record (.wound id)).record (.replied id 0)

/-- One turn of `wb_do_winds`.  The helpers but that of flush only wind. -/
def resume (conf : WbConf) (s : WbState Byte) (id : ReqId) (frame : Bool) :
    WbState Byte :=
  if (s.req id).stub.fop = .flush then s.flushHelper conf id frame
  else (s.leave id .wound).record (.wound id)

/-- The answer to a resumed call: `wb_writev_cbk` and the default callbacks. -/
def callReply (s : WbState Byte) (id : ReqId) (opRet : Int) : WbState Byte :=
  let s := s.record (.replied id opRet)
  if (s.req id).stub.fop = .write then s.leave id .done
  else s.modify id fun req => { req with stage := .done }

/-- A head with the requests that ride with it. -/
def group (s : WbState Byte) (head : ReqId) : List ReqId := head :: s.winds head

/-- What `wb_fulfill_head` loads into its vector. -/
def loadVector (s : WbState Byte) (head : ReqId) : List (IoVec Byte) :=
  (s.group head).flatMap fun id => (s.req id).vector

def loadSize (s : WbState Byte) (head : ReqId) : Nat :=
  ((s.group head).map fun id => (s.req id).writeSize).sum

/-- `WB_IOV_LOAD` adds up `total_size` of the head. -/
def load (s : WbState Byte) (head : ReqId) : WbState Byte :=
  s.modify head fun req => { req with totalSize := req.totalSize + s.loadSize head }

def childWrite (s : WbState Byte) (head : ReqId) : ChildWrite Byte where
  head := head
  offset := (s.req head).stub.offset
  data := iovUnload (s.loadVector head)
  carries := (s.group head).flatMap fun id => (s.req id).carries

def setStage (s : WbState Byte) (head : ReqId) (stage : Stage) : WbState Byte :=
  { s with
    req := fun id =>
      if id ∈ s.group head then { s.req id with stage := stage } else s.req id }

def wbHeadDone (s : WbState Byte) (head : ReqId) : WbState Byte :=
  (s.winds head ++ [head]).foldl fulfillRequest s

/-- `wb_fulfill_err`: the error is kept for the calls to come, and answered to
those that are queued. -/
def wbFulfillErr (s : WbState Byte) (head : ReqId) (errno : Nat) : WbState Byte :=
  let fd := (s.req head).fd
  { s.setFdErr fd errno with
    req := fun id =>
      if id ∈ s.all ∧ (s.req id).fd = fd then
        { s.req id with opRet := -1, opErrno := errno }
      else s.req id }

/-- `wb_fulfill_head`; `frame` tells whether there is memory for a frame.  More
than `MAX_VECTOR_COUNT` iovecs overrun an array on the stack, and nothing is
said about what follows. -/
def wbFulfillHead (s : WbState Byte) (head : ReqId) (frame : Bool) : Option (WbState Byte) :=
  if maxVectorCount < (s.loadVector head).length then none
  else if (s.fdError (s.req head).fd).isSome then
    some (((s.load head).markBad (s.req head).fd).wbHeadDone head)
  else if frame = false then some (((s.load head).wbFulfillErr head enomem).wbHeadDone head)
  else
    some { (((s.load head).setStage head .wound).record (.sent (s.childWrite head))) with
      transit := s.transit + ((s.load head).req head).totalSize }

/-- What `wb_fulfill_cbk` makes of an answer: a short write is an error too. -/
def noteReply (s : WbState Byte) (head : ReqId) (opRet : Int) (opErrno : Nat) :
    WbState Byte :=
  if opRet = -1 then s.wbFulfillErr head opErrno
  else if opRet < (s.req head).totalSize then s.wbFulfillErr head eio
  else s

/-- `wb_fulfill_cbk` up to `wb_head_done`. -/
def wbFulfillCbk (s : WbState Byte) (head : ReqId) (opRet : Int) (opErrno : Nat) :
    WbState Byte :=
  ((s.noteReply head opRet opErrno).setStage head .replied).record
    (.acked (s.childWrite head) opRet)

end WbState

/-- One step of some thread or of the child. -/
inductive WbLabel (Byte : Type*)
  | arrive (stub : CallStub Byte)
  | enqueue (index : Nat)
  | process (noIobuf : List ReqId)
  | unwind (id : ReqId)
  | resume (id : ReqId) (frame : Bool)
  | callReply (id : ReqId) (opRet : Int)
  | fulfillHead (head : ReqId) (frame : Bool)
  | writeReply (head : ReqId) (opRet : Int) (opErrno : Nat)
  | headDone (head : ReqId)

/-- A head waits at the given stage. -/
def WbState.HeadAt (s : WbState Byte) (head : ReqId) (stage : Stage) : Prop :=
  (s.req head).tempted = true ∧ (s.req head).head = none ∧ (s.req head).stage = stage
  deriving Decidable

/-- The child answers a write with an error or with how much of it was written. -/
def wbStep (conf : WbConf) (s : WbState Byte) : WbLabel Byte → Option (WbState Byte)
  | .arrive stub => some (s.arrive stub)
  | .enqueue index => s.arriving[index]?.map fun stub =>
    { s.enqueue conf stub with arriving := s.arriving.eraseIdx index }
  | .process noIobuf => some (wbProcessQueue conf noIobuf s)
  | .unwind id => if (s.req id).unwinds then some (s.unwind id) else none
  | .resume id frame =>
    if (s.req id).stage = .task then some (s.resume conf id frame) else none
  | .callReply id opRet =>
    if (s.req id).tempted = false ∧ (s.req id).stage = .wound then
      some (s.callReply id opRet)
    else none
  | .fulfillHead head frame =>
    if s.HeadAt head .picked then s.wbFulfillHead head frame else none
  | .writeReply head opRet opErrno =>
    if s.HeadAt head .wound ∧ -1 ≤ opRet ∧ opRet ≤ (s.childWrite head).data.length then
      some (s.wbFulfillCbk head opRet opErrno)
    else none
  | .headDone head => if s.HeadAt head .replied then some (s.wbHeadDone head) else none

theorem zero_lt_bound : 0 < 2 ^ 63 := by decide

/-- The record at an id that was never given out. -/
def WbRequest.blank : WbRequest Byte where
  stub := ⟨.stat, none, ⟨false, false, false, false⟩, ⟨false, false, false, false⟩, 0, 0, 0,
    [], by decide, zero_lt_bound, zero_lt_bound, zero_lt_bound⟩
  vector := []
  fd := none
  writeSize := 0
  origSize := 0
  totalSize := 0
  opRet := 0
  opErrno := 0
  refcount := 0
  gen := 0
  iobref := false
  off := 0
  size := 0
  append := false
  tempted := false
  fulfilled := false
  go := false
  lie := .none
  unwinds := false
  wip := false
  head := none
  stage := .done
  carries := []

/-- `__wb_inode_create`. -/
def WbState.create : WbState Byte where
  windowCurrent := 0
  transit := 0
  all := []
  gen := 0
  req := fun _ => WbRequest.blank
  next := 0
  fdErr := fun _ => none
  arriving := []
  log := []

end GlusterFS.WriteBehind
