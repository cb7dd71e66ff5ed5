import GlusterFS.Core.Transition

/-!
# The saved frames of an RPC client

A request that the transport has taken is kept in `saved_frames` until it is answered.  It
leaves the lists by a reply with its xid, by the bail-out timer or by a disconnect, under
`conn->lock`.  The callbacks run outside the lock, so what a thread has taken is state of that
thread.
-/

namespace GlusterFS.Rpc

/-- A `struct rpc_req`.  `callid` is the 64-bit number of the call. -/
structure RpcReq where
  callid : Nat
  prognum : Nat
  progver : Nat
  procnum : Nat
  deriving DecidableEq

/-- The 32-bit field of the request, which goes over the wire. -/
def RpcReq.xid (req : RpcReq) : Nat := req.callid % 2 ^ 32

def glusterFopProgram : Nat := 1298437

def glusterFopVersion : Nat := 330

/-- `_is_lock_fop`: `GFS3_OP_LK`, `INODELK`, `FINODELK`, `ENTRYLK` and `FENTRYLK`. -/
def isLockFop (req : RpcReq) : Bool :=
  let fop := if req.prognum = glusterFopProgram ∧ req.progver = glusterFopVersion then req.procnum
    else 0
  fop ∈ [26, 29, 30, 31, 32]

structure SavedFrame where
  rpcreq : RpcReq
  savedAt : Nat
  deriving DecidableEq

structure SavedFrames where
  count : Int
  sf : List SavedFrame
  lkSf : List SavedFrame

/-- `saved_frames_new` -/
def savedFramesNew : SavedFrames := ⟨0, [], []⟩

def SavedFrames.entries (frames : SavedFrames) : List SavedFrame := frames.sf ++ frames.lkSf

/-- `__saved_frames_put` -/
def savedFramesPut (frames : SavedFrames) (rpcreq : RpcReq) (now : Nat) : SavedFrames :=
  let frame := ⟨rpcreq, now⟩
  if isLockFop rpcreq then
    { frames with lkSf := frames.lkSf ++ [frame], count := frames.count + 1 }
  else { frames with sf := frames.sf ++ [frame], count := frames.count + 1 }

/-- Take the first frame of a list that has the given xid. -/
def takeFrame (xid : Nat) : List SavedFrame → Option (SavedFrame × List SavedFrame)
  | [] => none
  | frame :: rest =>
    if frame.rpcreq.xid = xid then some (frame, rest)
    else (takeFrame xid rest).map fun (found, others) => (found, frame :: others)

/-- `__saved_frame_get` -/
def savedFrameGet (frames : SavedFrames) (xid : Nat) : Option (SavedFrame × SavedFrames) :=
  match takeFrame xid frames.sf with
  | some (frame, sf) => some (frame, { frames with sf, count := frames.count - 1 })
  | none =>
    (takeFrame xid frames.lkSf).map fun (frame, lkSf) =>
      (frame, { frames with lkSf, count := frames.count - 1 })

/-- `__saved_frames_get_timedout` -/
def savedFramesGetTimedout (timeout current : Nat) (frames : SavedFrames) :
    Option (SavedFrame × SavedFrames) :=
  match frames.sf with
  | [] => none
  | frame :: sf =>
    if frame.savedAt + timeout < current then
      some (frame, { frames with sf, count := frames.count - 1 })
    else none

/-- The loop of `call_bail` in the lock; each turn takes a frame off `sf`, whose length is the
fuel. -/
def bailLoop (timeout current : Nat) : Nat → SavedFrames → List SavedFrame →
    SavedFrames × List SavedFrame
  | 0, frames, list => (frames, list)
  | fuel + 1, frames, list =>
    match savedFramesGetTimedout timeout current frames with
    | some (frame, frames) => bailLoop timeout current fuel frames (frame :: list)
    | none => (frames, list)

/-- What a thread does outside `conn->lock`. -/
inductive Thread
  /-- `rpc_clnt_submit` has its callid. -/
  | submitting (req : RpcReq)
  /-- `rpc_clnt_submit` is at `out` with -1. -/
  | failing (req : RpcReq)
  /-- `rpc_clnt_handle_reply` has the frame for a reply. -/
  | replying (frame : SavedFrame) (xid : Nat)
  /-- `call_bail` goes over its own list, and may be in the callback of the first frame. -/
  | bailing (list : List SavedFrame) (running : Bool)
  /-- `saved_frames_unwind` goes over detached frames. -/
  | unwinding (frames : SavedFrames) (running : Bool)

/-- Why a callback was invoked. -/
inductive Cause
  | failed
  | reply (xid : Nat)
  | bailed
  | unwound
  deriving DecidableEq

structure Answer where
  callid : Nat
  cause : Cause
  deriving DecidableEq

/-- A client, its threads in no order, the callids the transport has taken and the callbacks
invoked so far. -/
structure Client where
  xid : Nat
  connected : Bool
  savedFrames : SavedFrames
  threads : List Thread
  submitted : List Nat
  answers : List Answer

def initialClient : Client := ⟨0, false, savedFramesNew, [], [], []⟩

inductive Label
  /-- `rpc_clnt_submit` up to `rpc_clnt_new_callid`. -/
  | newCallid (prognum progver procnum : Nat)
  /-- `rpc_clnt_record` of a submission fails. -/
  | recordFails (thread : Nat)
  /-- The locked section of a submission, with the result of `rpc_transport_submit_request`. -/
  | transportSubmit (thread : Nat) (ret : Bool) (now : Nat)
  /-- `lookup_frame` for a reply. -/
  | reply (xid : Nat)
  /-- The locked section of `call_bail`. -/
  | callBail (current : Nat)
  /-- The locked section of `rpc_clnt_connection_cleanup`. -/
  | disconnect
  /-- `rpc_clnt_set_connected` -/
  | setConnected
  /-- A thread goes on outside the lock: it enters a callback or comes back from one. -/
  | proceed (thread : Nat)

section Step

variable (client : Client)

/-- A thread ends. -/
def Client.leave (thread : Nat) : Client :=
  { client with threads := client.threads.eraseIdx thread }

def Client.enter (thread : Thread) : Client :=
  { client with threads := thread :: client.threads }

def Client.callback (req : RpcReq) (cause : Cause) : Client :=
  { client with answers := client.answers ++ [⟨req.callid, cause⟩] }

/-- The next action of a thread outside the lock, of which it is the client without the
thread. -/
def Thread.proceed : Thread → Option Client
  | .submitting _ => none
  | .failing req => some (client.callback req .failed)
  | .replying frame xid => some (client.callback frame.rpcreq (.reply xid))
  | .bailing [] _ => some client
  | .bailing (frame :: rest) false =>
    some ((client.callback frame.rpcreq .bailed).enter (.bailing (frame :: rest) true))
  | .bailing (_ :: rest) true => some (client.enter (.bailing rest false))
  | .unwinding frames running =>
    match frames.sf, running with
    | [], _ => some client
    | frame :: _, false =>
      some ((client.callback frame.rpcreq .unwound).enter
        (.unwinding { frames with count := frames.count - 1 } true))
    | _ :: sf, true => some (client.enter (.unwinding { frames with sf } false))

/-- One atomic action; `timeout` is the frame timeout of the connection. -/
def step (timeout : Nat) : Label → Option Client
  | .newCallid prognum progver procnum =>
    let callid := client.xid + 1
    some ({ client with xid := callid }.enter (.submitting ⟨callid, prognum, progver, procnum⟩))
  | .recordFails thread =>
    match client.threads[thread]? with
    | some (.submitting req) => some ((client.leave thread).enter (.failing req))
    | _ => none
  | .transportSubmit thread ret now =>
    match client.threads[thread]? with
    | some (.submitting req) =>
      let client := client.leave thread
      if ret then
        some { client with
          savedFrames := savedFramesPut client.savedFrames req now
          submitted := client.submitted ++ [req.callid] }
      else some (client.enter (.failing req))
    | _ => none
  | .reply xid =>
    match savedFrameGet client.savedFrames xid with
    | some (frame, savedFrames) => some ({ client with savedFrames }.enter (.replying frame xid))
    | none => some client
  | .callBail current =>
    let (savedFrames, list) :=
      bailLoop timeout current client.savedFrames.sf.length client.savedFrames []
    some ({ client with savedFrames }.enter (.bailing list false))
  | .disconnect =>
    let frames := client.savedFrames
    -- the detached lists are spliced before the first callback
    some ({ client with savedFrames := savedFramesNew, connected := false }.enter
      (.unwinding { frames with sf := frames.lkSf ++ frames.sf, lkSf := [] } false))
  | .setConnected => some { client with connected := true }
  | .proceed thread =>
    match client.threads[thread]? with
    | some found => found.proceed (client.leave thread)
    | none => none

end Step

/-! ## Where a request is -/

def callids (frames : List SavedFrame) : List Nat := frames.map fun frame => frame.rpcreq.callid

/-- The frames on the list of a thread, that of a running callback included. -/
def Thread.listed : Thread → List SavedFrame
  | .bailing list _ => list
  | .unwinding frames _ => frames.entries
  | _ => []

/-- The requests in `saved_frames` or on a detached list. -/
def Client.listed (client : Client) : List Nat :=
  callids client.savedFrames.entries ++ client.threads.flatMap fun thread => callids thread.listed

/-- The callback of the request has been invoked, or its reply has come and it is being run. -/
def Client.Called (client : Client) (callid : Nat) : Prop :=
  (∃ answer ∈ client.answers, answer.callid = callid) ∨
    ∃ frame xid, .replying frame xid ∈ client.threads ∧ frame.rpcreq.callid = callid

end GlusterFS.Rpc
