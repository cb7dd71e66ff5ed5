import Mathlib.Data.UInt

/-!
# The request queue of an inode

Write-behind answers buffered writes before the child has seen them.  Requests
are numbered in the order of their arrival and keep their number for good; the
lists of `wb_inode_t` are the requests of `all` with a mark.  An entry joins
such a list at its tail and leaves it, so a list is always in the order of
arrival, but for `liability`, which is only searched.
-/

namespace GlusterFS.WriteBehind

abbrev ReqId := Nat

abbrev Fd := Nat

inductive Fop
  | write | read | truncate | ftruncate | flush | fsync | stat | fstat | setattr | fsetattr
  deriving DecidableEq

/-- The calls that name an open file. -/
def Fop.onFd : Fop → Bool
  | .write | .read | .ftruncate | .flush | .fsync | .fstat | .fsetattr => true
  | .truncate | .stat | .setattr => false

/-- The flags of an open file, or of one write, that matter here. -/
structure OpenFlags where
  append : Bool
  sync : Bool
  dsync : Bool
  direct : Bool

/-- `wb_conf_t`, with the page size of the process. -/
structure WbConf where
  aggregateSize : Nat
  windowSize : Nat
  flushBehind : Bool
  tricklingWrites : Bool
  strictWriteOrdering : Bool
  strictODirect : Bool
  pageSize : Nat
  pageSize_lt : pageSize < 2 ^ 63

/-- The arguments of a call, as its stub keeps them.  Offsets and sizes fit
`off_t` and `ssize_t`. -/
structure CallStub (Byte : Type*) where
  fop : Fop
  fd : Option Fd
  fdFlags : OpenFlags
  flags : OpenFlags
  lkOwner : Nat
  offset : Nat
  size : Nat
  vector : List (List Byte)
  fd_isSome : fop.onFd = true → fd.isSome
  offset_lt : offset < 2 ^ 63
  size_lt : size < 2 ^ 63
  length_lt : vector.flatten.length < 2 ^ 63

/-- An iovec with the memory from `iov_base` on. -/
structure IoVec (Byte : Type*) where
  base : List Byte
  len : Nat

/-- Which list the node `lie` of a request is on. -/
inductive LieList
  | none | temptation | liability
  deriving DecidableEq

/-- How far a request has come on its way to the child.  A `task` is a call
that is about to be resumed, a `picked` one a buffered write that is about to
be sent, alone or with its head. -/
inductive Stage
  | todo | task | picked | wound | replied | done
  deriving DecidableEq

/-- The bytes of one write, wherever they have been copied to. -/
structure Portion (Byte : Type*) where
  id : ReqId
  offset : Nat
  bytes : List Byte
  deriving DecidableEq

/-- `wb_request_t`.  `vector` is `stub->args.vector`, which collapsing changes,
and `head` the head whose list `winds` the request is on.  `carries` is no field
of the source: it names the writes whose bytes the request holds. -/
structure WbRequest (Byte : Type*) where
  stub : CallStub Byte
  vector : List (IoVec Byte)
  fd : Option Fd
  writeSize : Nat
  origSize : Nat
  totalSize : Nat
  opRet : Int
  opErrno : Nat
  refcount : Nat
  gen : Nat
  iobref : Bool
  off : Nat
  size : Nat
  append : Bool
  tempted : Bool
  fulfilled : Bool
  go : Bool
  lie : LieList
  unwinds : Bool
  wip : Bool
  head : Option ReqId
  stage : Stage
  carries : List (Portion Byte)

/-- A background write as the child gets it. -/
structure ChildWrite (Byte : Type*) where
  head : ReqId
  offset : Nat
  data : List Byte
  carries : List (Portion Byte)
  deriving DecidableEq

/-- What the caller and the child can see. -/
inductive Event (Byte : Type*)
  | enqueued (id : ReqId)
  | unwound (id : ReqId) (opRet : Int) (opErrno : Nat)
  | wound (id : ReqId)
  | sent (write : ChildWrite Byte)
  | acked (write : ChildWrite Byte) (opRet : Int)
  | replied (id : ReqId) (opRet : Int)
  deriving DecidableEq

/-- `wb_inode_t` with the requests, the error kept for each fd, the calls that
have been checked but not queued, and the events so far, newest first. -/
structure WbState (Byte : Type*) where
  windowCurrent : Int
  transit : Int
  all : List ReqId
  gen : Nat
  req : ReqId → WbRequest Byte
  next : ReqId
  fdErr : Fd → Option Nat
  arriving : List (CallStub Byte)
  log : List (Event Byte)

variable {Byte : Type*}

/-! ## Vectors -/

section Vectors

variable [Zero Byte]

/-- The bytes of an iovec.  Memory that nothing was copied to counts as zero. -/
def IoVec.bytes (iov : IoVec Byte) : List Byte :=
  (iov.base ++ List.replicate (iov.len - iov.base.length) 0).take iov.len

def iovLength (vector : List (IoVec Byte)) : Nat := (vector.map IoVec.len).sum

def iovUnload (vector : List (IoVec Byte)) : List Byte := vector.flatMap IoVec.bytes

/-- The vector that arrives with a call. -/
def CallStub.iovecs (stub : CallStub Byte) : List (IoVec Byte) :=
  stub.vector.map fun bytes => ⟨bytes, bytes.length⟩

omit [Zero Byte] in
theorem iovLength_iovecs (stub : CallStub Byte) :
    iovLength stub.iovecs = stub.vector.flatten.length := by
  simp [iovLength, CallStub.iovecs, List.length_flatten, Function.comp_def]

theorem IoVec.bytes_full (bytes : List Byte) : IoVec.bytes ⟨bytes, bytes.length⟩ = bytes := by
  simp [IoVec.bytes]

theorem iovUnload_iovecs (stub : CallStub Byte) : iovUnload stub.iovecs = stub.vector.flatten := by
  simp [iovUnload, CallStub.iovecs, List.flatMap_map, IoVec.bytes_full, List.flatMap_id']

end Vectors

def CallStub.bytes (stub : CallStub Byte) : List Byte :=
  if stub.fop = .write then stub.vector.flatten else []

/-! ## Conflicts -/

/-- The last byte of a request; the additions are those of `uint64_t`. -/
def WbRequest.rangeEnd (req : WbRequest Byte) : Nat :=
  if req.size ≠ 0 then (req.off + req.size - 1) % 2 ^ 64 else 2 ^ 64 - 1

def wbRequestsOverlap (req1 req2 : WbRequest Byte) : Prop :=
  req1.rangeEnd ≥ req2.off ∧ req2.rangeEnd ≥ req1.off
  deriving Decidable

namespace WbState

def todo (s : WbState Byte) : List ReqId :=
  s.all.filter fun id => (s.req id).stage = .todo

def temptation (s : WbState Byte) : List ReqId :=
  s.all.filter fun id => (s.req id).lie = .temptation

def liability (s : WbState Byte) : List ReqId :=
  s.all.filter fun id => (s.req id).lie = .liability

def wip (s : WbState Byte) : List ReqId := s.all.filter fun id => (s.req id).wip

/-- The list `winds` of a head. -/
def winds (s : WbState Byte) (head : ReqId) : List ReqId :=
  s.all.filter fun id => (s.req id).head = some head

end WbState

def wbRequestsConflict (conf : WbConf) (s : WbState Byte) (lie id : ReqId) : Prop :=
  lie ≠ id ∧ (s.req lie).gen < (s.req id).gen ∧
    ((s.req lie).append = true ∨ conf.strictWriteOrdering = true ∨
      wbRequestsOverlap (s.req lie) (s.req id))
  deriving Decidable

def wbLiabilityHasConflict (conf : WbConf) (s : WbState Byte) (id : ReqId) : Prop :=
  ∃ each ∈ s.liability, wbRequestsConflict conf s each id
  deriving Decidable

def wbWipHasConflict (s : WbState Byte) (id : ReqId) : Prop :=
  (s.req id).stub.fop = .write ∧
    ∃ each ∈ s.wip, each ≠ id ∧ wbRequestsOverlap (s.req each) (s.req id)
  deriving Decidable

/-! ## Requests -/

def WbRequest.dropRef (req : WbRequest Byte) : WbRequest Byte :=
  { req with refcount := req.refcount - 1 }

namespace WbState

def modify (s : WbState Byte) (id : ReqId) (f : WbRequest Byte → WbRequest Byte) :
    WbState Byte :=
  { s with req := Function.update s.req id (f (s.req id)) }

/-- `__wb_request_unref`: the last reference takes the request off all lists,
and the counters start anew when none is left. -/
def unref (s : WbState Byte) (id : ReqId) : WbState Byte :=
  let rest := s.all.filter (· ≠ id)
  if (s.req id).refcount = 1 then
    { s.modify id WbRequest.dropRef with
      all := rest
      gen := if rest = [] then 0 else s.gen
      windowCurrent := if rest = [] then 0 else s.windowCurrent }
  else s.modify id WbRequest.dropRef

/-- `__wb_fulfill_request`. -/
def fulfillRequest (s : WbState Byte) (id : ReqId) : WbState Byte :=
  let total : Int := (s.req id).totalSize
  unref { s.modify id fun req => { req with fulfilled := true, stage := .done } with
      windowCurrent := s.windowCurrent - total
      transit := s.transit - total } id

end WbState

variable [Zero Byte]

/-- `wb_enqueue_common`, up to the lists. -/
def WbRequest.ofStub (id : ReqId) (stub : CallStub Byte) (tempted : Bool) (gen : Nat) :
    WbRequest Byte where
  stub := stub
  vector := stub.iovecs
  fd := match stub.fop with
    | .write | .read | .ftruncate => stub.fd
    | _ => none
  writeSize := if stub.fop = .write then iovLength stub.iovecs else 0
  origSize := if stub.fop = .write then iovLength stub.iovecs else 0
  totalSize := 0
  opRet := if stub.fop = .write then iovLength stub.iovecs else 0
  opErrno := 0
  refcount := if tempted then 2 else 1
  gen := gen
  iobref := false
  off := match stub.fop with
    | .write | .read | .truncate | .ftruncate => stub.offset
    | _ => 0
  size := match stub.fop with
    | .write => iovLength stub.iovecs
    | .read => stub.size
    | _ => 0
  append := stub.fop = .write && stub.fdFlags.append
  tempted := tempted
  fulfilled := false
  go := false
  lie := if tempted then .temptation else .none
  unwinds := false
  wip := false
  head := none
  stage := .todo
  carries := [⟨id, stub.offset, stub.bytes⟩]

namespace WbState

def enqueueCommon (s : WbState Byte) (stub : CallStub Byte) (tempted : Bool) :
    WbState Byte :=
  { s with
    all := s.all ++ [s.next]
    req := Function.update s.req s.next (WbRequest.ofStub s.next stub tempted s.gen)
    next := s.next + 1
    log := .enqueued s.next :: s.log }

end WbState

/-! ## Collapsing small writes -/

/-- `__wb_collapse_small_writes`.  The first time, the bytes of the holder are
copied to a buffer; `iov_len` of the first iovec is kept. -/
def WbRequest.absorb (holder req : WbRequest Byte) : WbRequest Byte :=
  let first := holder.vector.headD ⟨[], 0⟩
  let base := if holder.iobref then first.base else iovUnload holder.vector
  let buffer := (base ++ List.replicate (holder.writeSize - base.length) 0).take holder.writeSize
  { holder with
    vector := [⟨buffer ++ iovUnload req.vector, first.len + req.writeSize⟩]
    iobref := true
    writeSize := holder.writeSize + req.writeSize
    size := holder.size + req.writeSize
    carries := holder.carries ++ req.carries }

/-- The tests of `__wb_preprocess_winds` for following the holder. -/
def WbRequest.Follows (conf : WbConf) (req holder : WbRequest Byte) : Prop :=
  req.stub.offset = holder.stub.offset + holder.writeSize ∧
    req.stub.lkOwner = holder.stub.lkOwner ∧ req.fd = holder.fd ∧
    (req.writeSize : Int) ≤ conf.pageSize - holder.writeSize
  deriving Decidable

namespace WbState

def setGo (s : WbState Byte) (id : ReqId) : WbState Byte :=
  s.modify id fun req => { req with go := true }

/-- A collapsed request is as good as wound. -/
def collapse (s : WbState Byte) (holder id : ReqId) : WbState Byte :=
  (s.modify holder fun req => req.absorb (s.req id)).fulfillRequest id

end WbState

/-- One turn of the loop of `__wb_preprocess_winds`, with the holder so far.
There is no memory for the requests in `noIobuf` when they need a new buffer. -/
def preprocessTurn (conf : WbConf) (noIobuf : List ReqId)
    (loop : WbState Byte × Option ReqId) (id : ReqId) : WbState Byte × Option ReqId :=
  match loop with
  | (s, none) => if (s.req id).tempted then (s, some id) else (s, none)
  | (s, some holder) =>
    if (s.req id).tempted = false then
      if wbRequestsConflict conf s holder id then (s.setGo holder, some holder)
      else (s, some holder)
    else if ¬(s.req id).Follows conf (s.req holder) then (s.setGo holder, some id)
    else if id ∈ noIobuf ∧ (s.req holder).iobref = false then (s, some holder)
    else (s.collapse holder id, some holder)

def wbPreprocessWinds (conf : WbConf) (noIobuf : List ReqId) (s : WbState Byte) :
    WbState Byte :=
  match s.todo.foldl (preprocessTurn conf noIobuf) (s, none) with
  | (s, some holder) =>
    if conf.tricklingWrites ∧ s.transit = 0 then s.setGo holder else s
  | (s, none) => s

/-! ## Picking -/

/-- A request leaves `todo`; a write enters `wip`, and a synchronous one keeps a
reference for its callback. -/
def WbRequest.pick (req : WbRequest Byte) : WbRequest Byte :=
  { req with
    wip := req.wip || req.stub.fop = .write
    refcount :=
      if req.stub.fop = .write ∧ req.tempted = false then req.refcount + 1
      else req.refcount
    stage := if req.tempted then .picked else .task }

def WbState.pick (s : WbState Byte) (id : ReqId) : WbState Byte :=
  s.modify id WbRequest.pick

/-- One turn of the loop of `__wb_pick_winds`, with the liabilities picked so
far. -/
def pickWindsTurn (conf : WbConf) (loop : WbState Byte × List ReqId) (id : ReqId) :
    WbState Byte × List ReqId :=
  let (s, liabilities) := loop
  if wbLiabilityHasConflict conf s id then (s, liabilities)
  else if (s.req id).tempted = true ∧ (s.req id).go = false then (s, liabilities)
  else if wbWipHasConflict s id then (s, liabilities)
  else
    (s.pick id, if (s.req id).tempted then liabilities ++ [id] else liabilities)

def wbPickWinds (conf : WbConf) (s : WbState Byte) : WbState Byte × List ReqId :=
  s.todo.foldl (pickWindsTurn conf) (s, [])

/-- A request leaves `temptation` to be answered.  Unless it is fulfilled it
becomes a liability. -/
def WbRequest.pickUnwind (req : WbRequest Byte) : WbRequest Byte :=
  { req with
    lie := if req.fulfilled then .none else .liability
    unwinds := true }

def WbState.pickUnwind (s : WbState Byte) (id : ReqId) : WbState Byte :=
  { s.modify id WbRequest.pickUnwind with
    windowCurrent := s.windowCurrent + (s.req id).origSize
    gen := if (s.req id).fulfilled then s.gen else s.gen + 1 }

/-- One turn of the loop of `__wb_pick_unwinds`. -/
def pickUnwindsTurn (conf : WbConf) (s : WbState Byte) (id : ReqId) : WbState Byte :=
  if (s.req id).fulfilled = false ∧ s.windowCurrent > conf.windowSize then s
  else s.pickUnwind id

def wbPickUnwinds (conf : WbConf) (s : WbState Byte) : WbState Byte :=
  s.temptation.foldl (pickUnwindsTurn conf) s

/-! ## Grouping the writes that are sent together -/

def maxVectorCount : Nat := 8

/-- The tests of `wb_fulfill` for riding with the head; `aggregate` and `count`
are what follows the head already. -/
def WbRequest.Joins (conf : WbConf) (req head : WbRequest Byte) (aggregate count : Nat) :
    Prop :=
  req.fd = head.fd ∧ req.stub.lkOwner = head.stub.lkOwner ∧
    head.stub.offset + head.writeSize = req.stub.offset ∧
    aggregate + req.writeSize ≤ conf.aggregateSize ∧
    count + req.vector.length ≤ maxVectorCount
  deriving Decidable

/-- The local variables of `wb_fulfill`. -/
structure FulfillLoop (Byte : Type*) where
  state : WbState Byte
  head : Option ReqId
  currAggregate : Nat
  vectorCount : Nat

namespace WbState

def join (s : WbState Byte) (head id : ReqId) : WbState Byte :=
  s.modify id fun req => { req with head := some head }

end WbState

/-- One turn of the loop of `wb_fulfill`.  The expected offset stays behind the
head when a request is added. -/
def fulfillTurn (conf : WbConf) (loop : FulfillLoop Byte) (id : ReqId) :
    FulfillLoop Byte :=
  let s := loop.state
  match loop.head with
  | none => ⟨s, some id, 0, 0⟩
  | some head =>
    if (s.req id).Joins conf (s.req head) loop.currAggregate loop.vectorCount then
      ⟨s.join head id, some head, loop.currAggregate + (s.req id).writeSize,
        loop.vectorCount + (s.req id).vector.length⟩
    else ⟨s, some id, 0, 0⟩

def wbFulfill (conf : WbConf) (liabilities : List ReqId) (s : WbState Byte) :
    WbState Byte :=
  (liabilities.foldl (fulfillTurn conf) ⟨s, none, 0, 0⟩).state

/-- What `wb_process_queue` does under the lock, and how it then groups what it
picked. -/
def wbProcessQueue (conf : WbConf) (noIobuf : List ReqId) (s : WbState Byte) :
    WbState Byte :=
  let (s, liabilities) := wbPickWinds conf (wbPreprocessWinds conf noIobuf s)
  wbFulfill conf liabilities (wbPickUnwinds conf s)

end GlusterFS.WriteBehind
