import GlusterFS.Locks.Inodelk
import Mathlib.Data.List.Pairwise

/-!
# Entry locks

A domain of a directory keeps the granted locks on names on `entrylk_list` and
the waiting ones on `blocked_entrylks`.  A lock without a name is on the whole
directory.  The log of a run has its last event first.
-/

namespace GlusterFS.Locks

open Transition WaitQueue

def enomem : Int := 12

inductive EntrylkType
  | rdlck | wrlck
  deriving DecidableEq

inductive EntrylkCmd
  | lock | unlock | lockNb
  deriving DecidableEq

/-- `pl_entry_lock_t`.  `none` for a basename is `NULL`, all the names. -/
structure PlEntryLock where
  basename : Option String
  type : EntrylkType
  transport : Nat
  clientPid : Nat
  owner : LkOwner
  frame : Nat
  deriving DecidableEq

/-- The entry locks of a `pl_dom_list_t`: `granted` is `entrylk_list`, `blocked`
is `blocked_entrylks`. -/
abbrev EntrylkDom := Table PlEntryLock

def namesConflict (n1 n2 : Option String) : Prop := n1 = none ∨ n2 = none ∨ n1 = n2
  deriving Decidable

def sameEntrylkOwner (l1 l2 : PlEntryLock) : Prop :=
  l1.owner = l2.owner ∧ l1.transport = l2.transport
  deriving Decidable

/-- `__lock_grantable`: the first granted lock that stands in the way. -/
def lockGrantable (dom : EntrylkDom) (basename : Option String) : Option PlEntryLock :=
  dom.granted.find? fun l => namesConflict l.basename basename

/-- `__blocked_lock_conflict` -/
def blockedLockConflict (dom : EntrylkDom) (basename : Option String) : Option PlEntryLock :=
  dom.blocked.find? fun l => namesConflict l.basename basename

/-- `__owner_has_lock` -/
def ownerHasLock (dom : EntrylkDom) (newlock : PlEntryLock) : Prop :=
  (∃ lock ∈ dom.granted, sameEntrylkOwner lock newlock) ∨
    ∃ lock ∈ dom.blocked, sameEntrylkOwner lock newlock
  deriving Decidable

/-- `__lock_name`.  `GF_CALLOC` of the lock object fails for the frames of
`noMemory`; the `gf_strdup` of its name, whose result `new_entrylk_lock` does
not check, is taken to succeed.  A lock that is free to take is refused unless
it is a write lock. -/
def lockName (noMemory : List Nat) (dom : EntrylkDom) (lock : PlEntryLock)
    (nonblock : Bool) : Int × EntrylkDom :=
  let wait := if nonblock then dom else { dom with blocked := dom.blocked ++ [lock] }
  if lock.frame ∈ noMemory then (-enomem, dom)
  else if (lockGrantable dom lock.basename).isSome then (-eagain, wait)
  else if (blockedLockConflict dom lock.basename).isSome ∧ ¬ownerHasLock dom lock then
    (-eagain, wait)
  else match lock.type with
    | .wrlck => (0, { dom with granted := dom.granted ++ [lock] })
    | .rdlck => (-einval, dom)

/-- One turn of `__find_most_matching_lock`, on `exact` and `all`. -/
def mostMatching (basename : Option String) (found : Option PlEntryLock × Option PlEntryLock)
    (lock : PlEntryLock) : Option PlEntryLock × Option PlEntryLock :=
  if lock.basename = none then (found.1, some lock)
  else if lock.basename = basename then (some lock, found.2)
  else found

/-- `__find_most_matching_lock`.  Nothing asks whose lock it is. -/
def findMostMatchingLock (dom : EntrylkDom) (basename : Option String) : Option PlEntryLock :=
  let (exact, all) := dom.granted.foldl (mostMatching basename) (none, none)
  exact.or all

/-- `__unlock_name`: the lock that is taken off the list, and the rest. -/
def unlockName (dom : EntrylkDom) (basename : Option String) (type : EntrylkType) :
    Option (PlEntryLock × EntrylkDom) :=
  match findMostMatchingLock dom basename with
  | none => none
  | some lock =>
    if (lock.basename = basename ∧ lock.type = type) ∧ type = .wrlck then
      some (lock, { dom with granted := dom.granted.erase lock })
    else none

/-- One turn of `__grant_blocked_entry_locks`.  A lock that is not granted is
freed, whether or not `__lock_name` has put a new one for its frame back on the
queue. -/
def grantEntrylk (noMemory : List Nat) (state : EntrylkDom × List PlEntryLock)
    (bl : PlEntryLock) : EntrylkDom × List PlEntryLock :=
  let (ret, dom) := lockName noMemory state.1 bl false
  (dom, if ret = 0 then bl :: state.2 else state.2)

/-- `__grant_blocked_entry_locks`, with the granted locks last first. -/
def grantBlockedEntryLocks (noMemory : List Nat) (dom : EntrylkDom) :
    EntrylkDom × List PlEntryLock :=
  dom.blocked.foldl (grantEntrylk noMemory) (⟨dom.granted, []⟩, [])

/-! ## Requests -/

/-- The arguments of `pl_common_entrylk`, with what it reads from the frame. -/
structure EntrylkCall where
  basename : Option String
  cmd : EntrylkCmd
  type : EntrylkType
  transport : Nat
  clientPid : Nat
  lkOwner : LkOwner
  deriving DecidableEq

/-- `new_entrylk_lock` for the frame. -/
def EntrylkCall.newLock (call : EntrylkCall) (frame : Nat) : PlEntryLock where
  basename := call.basename
  type := call.type
  transport := call.transport
  clientPid := call.clientPid
  owner := call.lkOwner
  frame := frame

inductive EntrylkEvent
  | request (frame : Nat) (call : EntrylkCall)
  | grant (lock : PlEntryLock)
  | unwind (frame : Nat) (opRet opErrno : Int)
  deriving DecidableEq

/-- A domain with the number of requests so far and the log. -/
structure EntrylkState where
  dom : EntrylkDom
  arrived : Nat
  log : List EntrylkEvent

namespace EntrylkState

def fresh : EntrylkState := ⟨⟨[], []⟩, 0, []⟩

def record (s : EntrylkState) (event : EntrylkEvent) : EntrylkState :=
  { s with log := event :: s.log }

/-- The frames of a list are answered one after the other. -/
def unwindAll (s : EntrylkState) (locks : List PlEntryLock) (opRet opErrno : Int) :
    EntrylkState :=
  { s with log := (locks.map fun l => .unwind l.frame opRet opErrno).reverse ++ s.log }

/-- The critical section of a grant pass, with the locks to be answered. -/
def grantPass (noMemory : List Nat) (s : EntrylkState) : EntrylkState × List PlEntryLock :=
  let (dom, granted) := grantBlockedEntryLocks noMemory s.dom
  ({ s with dom := dom, log := granted.map .grant ++ s.log }, granted)

def grantBlocked (noMemory : List Nat) (s : EntrylkState) : EntrylkState :=
  let (s, granted) := s.grantPass noMemory
  s.unwindAll granted 0 0

/-- `release_entry_locks_for_transport` -/
def releaseForTransport (noMemory : List Nat) (s : EntrylkState) (transport : Nat) :
    EntrylkState :=
  let released := (s.dom.blocked.filter fun l => l.transport = transport).reverse
  let dom : EntrylkDom :=
    ⟨s.dom.granted.filter fun l => l.transport ≠ transport,
      s.dom.blocked.filter fun l => l.transport ≠ transport⟩
  let (s, granted) := grantPass noMemory { s with dom := dom }
  (s.unwindAll released (-1) eagain).unwindAll granted 0 0

/-- `__lock_name` for a request, with its return value. -/
def lock (noMemory : List Nat) (s : EntrylkState) (lock : PlEntryLock) (nonblock : Bool) :
    Int × EntrylkState :=
  let (ret, dom) := lockName noMemory s.dom lock nonblock
  (ret, { s with dom := dom, log := if ret = 0 then .grant lock :: s.log else s.log })

def arrive (s : EntrylkState) (call : EntrylkCall) : EntrylkState :=
  { s with
    arrived := s.arrived + 1
    log := .request s.arrived call :: s.log }

/-- `pl_common_entrylk` once the inode and the domain are there. -/
def plCommonEntrylk (noMemory : List Nat) (s : EntrylkState) (call : EntrylkCall) :
    EntrylkState :=
  let frame := s.arrived
  let s := s.arrive call
  if call.lkOwner.length = 0 then
    (s.releaseForTransport noMemory call.transport).record (.unwind frame 0 0)
  else match call.cmd with
    | .lock =>
      let (ret, s) := s.lock noMemory (call.newLock frame) false
      if ret < 0 then
        if ret = -eagain then s else s.record (.unwind frame (-1) (-ret))
      else s.record (.unwind frame 0 0)
    | .lockNb =>
      let (ret, s) := s.lock noMemory (call.newLock frame) true
      if ret < 0 then s.record (.unwind frame (-1) (-ret))
      else s.record (.unwind frame 0 0)
    | .unlock =>
      match unlockName s.dom call.basename call.type with
      | none => s.record (.unwind frame 0 0)
      | some (_, dom) =>
        (grantBlocked noMemory { s with dom := dom }).record (.unwind frame 0 0)

end EntrylkState

/-- A request with the frames whose lock object cannot be allocated while it runs. -/
structure EntrylkLabel where
  noMemory : List Nat
  call : EntrylkCall

def entrylkStep (s : EntrylkState) (label : EntrylkLabel) : Option EntrylkState :=
  some (s.plCommonEntrylk label.noMemory label.call)

/-! ## Waking as a policy -/

def entrylkPolicy (noMemory : List Nat) : Policy PlEntryLock where
  judge dom lock :=
    if lock.frame ∈ noMemory then .refuse
    else if (lockGrantable dom lock.basename).isSome then .block
    else if (blockedLockConflict dom lock.basename).isSome ∧ ¬ownerHasLock dom lock then .block
    else match lock.type with
      | .wrlck => .grant
      | .rdlck => .refuse
  place granted lock := granted ++ [lock]
  place_perm granted lock := List.perm_append_singleton lock granted

variable {noMemory : List Nat} {dom : EntrylkDom} {lock : PlEntryLock}

variable {basename : Option String}

theorem not_namesConflict_of_grant (hjudge : (entrylkPolicy noMemory).judge dom lock = .grant) :
    ∀ l ∈ dom.granted, ¬namesConflict l.basename lock.basename := by
  simp only [entrylkPolicy] at hjudge
  split_ifs at hjudge with hmemory hgranted hblocked
  intro l hl hconflict
  refine hgranted ?_
  simpa [lockGrantable, List.find?_isSome] using ⟨l, hl, hconflict⟩

theorem entrylk_refuse (hjudge : (entrylkPolicy noMemory).judge dom lock = .refuse) :
    lock.frame ∈ noMemory ∨ lock.type = .rdlck := by
  simp only [entrylkPolicy] at hjudge
  split_ifs at hjudge with hmemory hgranted hblocked
  · exact .inl hmemory
  · cases htype : lock.type with
    | rdlck => exact .inr rfl
    | wrlck =>
      rw [htype] at hjudge
      cases hjudge

/-- `__lock_name` judges, and leaves the domain alone when the lock must not
wait. -/
theorem lockName_eq (noMemory : List Nat) (dom : EntrylkDom) (lock : PlEntryLock)
    (nonblock : Bool) :
    lockName noMemory dom lock nonblock = match (entrylkPolicy noMemory).judge dom lock with
      | .grant => (0, (entrylkPolicy noMemory).offer dom lock)
      | .block => (-eagain, if nonblock then dom else (entrylkPolicy noMemory).offer dom lock)
      | .refuse => (if lock.frame ∈ noMemory then -enomem else -einval, dom) := by
  rw [Policy.offer]
  simp only [lockName, entrylkPolicy]
  split_ifs <;> cases lock.type <;> rfl

theorem grantBlockedEntryLocks_eq (noMemory : List Nat) (dom : EntrylkDom) :
    grantBlockedEntryLocks noMemory dom = (entrylkPolicy noMemory).wake dom := by
  have hturn : grantEntrylk noMemory = (entrylkPolicy noMemory).wakeOne := by
    funext state bl
    simp only [grantEntrylk, lockName_eq, Policy.wakeOne, Policy.offer]
    cases (entrylkPolicy noMemory).judge state.1 bl with
    | grant => rfl
    | block => rfl
    | refuse =>
      by_cases hmemory : bl.frame ∈ noMemory
      · simp [hmemory, enomem]
      · simp [hmemory, einval]
  rw [grantBlockedEntryLocks, hturn]
  rfl

/-- What `__find_most_matching_lock` returns is on the list, and has the name or
is for all the names. -/
theorem mem_of_mostMatching (locks : List PlEntryLock)
    (found : Option PlEntryLock × Option PlEntryLock)
    (hfound : (locks.foldl (mostMatching basename) found).1 = some lock ∨
      (locks.foldl (mostMatching basename) found).2 = some lock) :
    (lock ∈ locks ∧ (lock.basename = none ∨ lock.basename = basename)) ∨
      found.1 = some lock ∨ found.2 = some lock := by
  induction locks generalizing found with
  | nil => exact .inr hfound
  | cons head locks ih =>
    rcases ih (mostMatching basename found head) hfound with ⟨hmem, hname⟩ | hturn
    · exact .inl ⟨List.mem_cons_of_mem _ hmem, hname⟩
    · simp only [mostMatching] at hturn
      split_ifs at hturn with hall hexact
      · rcases hturn with h | h
        · exact .inr (.inl h)
        · obtain rfl := Option.some.inj h
          exact .inl ⟨List.mem_cons_self, .inl hall⟩
      · rcases hturn with h | h
        · obtain rfl := Option.some.inj h
          exact .inl ⟨List.mem_cons_self, .inr hexact⟩
        · exact .inr (.inr h)
      · exact .inr hturn

theorem findMostMatchingLock_spec (hfind : findMostMatchingLock dom basename = some lock) :
    lock ∈ dom.granted ∧ (lock.basename = none ∨ lock.basename = basename) := by
  have hfold := mem_of_mostMatching dom.granted (none, none)
    ((Option.or_eq_some_iff.mp hfind).imp (fun h => h) fun h => h.2)
  simpa using hfold

/-- The lock that an unlock takes away has the name and the type asked for. -/
theorem unlockName_spec {type : EntrylkType} {rest : EntrylkDom}
    (hunlock : unlockName dom basename type = some (lock, rest)) :
    lock ∈ dom.granted ∧ lock.basename = basename ∧ lock.type = type ∧ type = .wrlck ∧
      rest = { dom with granted := dom.granted.erase lock } := by
  rw [unlockName] at hunlock
  cases hfind : findMostMatchingLock dom basename with
  | none =>
    rw [hfind] at hunlock
    cases hunlock
  | some found =>
    simp only [hfind, Option.ite_none_right_eq_some, Option.some.injEq, Prod.mk.injEq] at hunlock
    obtain ⟨⟨⟨hname, htype⟩, hwrlck⟩, rfl, rfl⟩ := hunlock
    exact ⟨(findMostMatchingLock_spec hfind).1, hname, htype, hwrlck, rfl⟩

end GlusterFS.Locks
