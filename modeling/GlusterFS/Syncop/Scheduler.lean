import GlusterFS.Core.Transition

/-!
# Scheduling of synctasks

An environment owns a fixed array of processor threads and two queues of tasks.  A
processor picks the first task of the run queue, switches to it, and queues it again
when the task yields.  A call to wake a task may come at any time: before the task has
yielded, between its yield and the bookkeeping of its processor, or while it is queued.
Each section under the mutex of the environment is one step.  The write of the task
state in `synctask_yield` is outside the mutex and is a step of its own.
-/

namespace GlusterFS.Syncop

open Transition

/-- `SYNCENV_PROC_MAX` -/
def syncenvProcMax : Nat := 16

/-- `SYNCENV_PROC_MIN` -/
def syncenvProcMin : Nat := 2

/-- `synctask_state_t` -/
inductive SynctaskState
  | init
  | run
  | suspend
  | wait
  | done
  deriving DecidableEq

/-- `struct synctask` -/
structure Synctask where
  state : SynctaskState
  woken : Bool
  slept : Bool
  /-- Whether there is a callback; a task without one is destroyed by its creator. -/
  synccbk : Bool
  proc : Option Nat
  done : Bool

/-- Where the thread of an occupied processor slot is. -/
inductive ProcStage
  /-- About to take the mutex in `syncenv_task`. -/
  | looking
  /-- In the timed wait of `syncenv_task`. -/
  | sleeping
  /-- In the code of the task. -/
  | running (task : Nat)
  /-- Back in `synctask_switchto`, before its bookkeeping. -/
  | switched (task : Nat)
  /-- About to call `syncenv_scale`. -/
  | scaling
  deriving DecidableEq

/-- The task that a processor holds. -/
def ProcStage.task : ProcStage → Option Nat
  | .running task | .switched task => some task
  | .looking | .sleeping | .scaling => none

/-- A call of `synctask_new` that has queued its task. -/
structure Creator where
  task : Nat
  cbk : Bool
  scaled : Bool

inductive SyncEvent
  | wake (task : Nat)
  | pick (task : Nat)

/-- Whether the task was woken since it was last picked; the last event comes first. -/
def wokenSincePick : List SyncEvent → Nat → Bool
  | [], _ => false
  | .wake task :: earlier, id => task = id || wokenSincePick earlier id
  | .pick task :: earlier, id => task ≠ id && wokenSincePick earlier id

/-- `struct syncenv`, with the tasks that exist and the calls that create them.  A slot is
occupied when its `processor` is not 0. -/
structure Syncenv where
  tasks : Nat → Option Synctask
  next : Nat
  proc : List (Option ProcStage)
  procs : Int
  runq : List Nat
  runcount : Int
  waitq : List Nat
  waitcount : Int
  creators : List Creator
  log : List SyncEvent

namespace Syncenv

variable (env : Syncenv)

def setTask (id : Nat) (task : Option Synctask) : Syncenv :=
  { env with tasks := Function.update env.tasks id task }

def setProc (slot : Nat) (stage : Option ProcStage) : Syncenv :=
  { env with proc := env.proc.set slot stage }

/-- `list_del_init` on the links of a task -/
def unlink (id : Nat) : Syncenv :=
  { env with runq := env.runq.erase id, waitq := env.waitq.erase id }

/-- The counter of the queue that the state of the task names. -/
def uncount (state : SynctaskState) : Syncenv :=
  match state with
  | .init | .suspend | .done => env
  | .run => { env with runcount := env.runcount - 1 }
  | .wait => { env with waitcount := env.waitcount - 1 }

/-- `__run` -/
def runTask (id : Nat) (task : Synctask) : Syncenv :=
  let env := (env.unlink id).uncount task.state
  let env := { env with runq := env.runq ++ [id], runcount := env.runcount + 1 }
  env.setTask id (some { task with state := .run })

/-- `__wait` -/
def waitTask (id : Nat) (task : Synctask) : Syncenv :=
  let env := (env.unlink id).uncount task.state
  let env := { env with waitq := env.waitq ++ [id], waitcount := env.waitcount + 1 }
  env.setTask id (some { task with state := .wait })

/-- `synctask_wake` -/
def synctaskWake (id : Nat) (task : Synctask) : Syncenv :=
  let task := { task with woken := true }
  let env := { env.setTask id (some task) with log := .wake id :: env.log }
  if task.slept then env.runTask id task else env

/-- The record that `synctask_new` makes -/
def newTask (cbk : Bool) : Synctask where
  state := .init
  woken := false
  slept := true
  synccbk := cbk
  proc := none
  done := false

def addCreator (cbk : Bool) : Syncenv :=
  { env with next := env.next + 1, creators := env.creators ++ [⟨env.next, cbk, false⟩] }

/-- `synctask_new` up to the call of `syncenv_scale` -/
def synctaskNew (cbk : Bool) : Syncenv :=
  (env.addCreator cbk).synctaskWake env.next (newTask cbk)

/-- The end of `syncenv_task`: the first task of the run queue goes to the processor. -/
def takeTask (slot : Nat) : Option Syncenv :=
  match env.runq with
  | [] => none
  | id :: rest =>
    (env.tasks id).map fun task =>
      { env.setTask id (some { task with woken := false, slept := false, proc := some slot }) with
        runq := rest
        runcount := env.runcount - 1
        proc := env.proc.set slot (some (.running id))
        log := .pick id :: env.log }

/-- `syncenv_task` from the call to its first wait -/
def look (slot : Nat) : Option Syncenv :=
  if env.runq.isEmpty then some (env.setProc slot (some .sleeping)) else env.takeTask slot

/-- `syncenv_task` from the return of `pthread_cond_timedwait` -/
def sleepReturn (slot : Nat) (timedOut : Bool) : Option Syncenv :=
  if !env.runq.isEmpty then env.takeTask slot
  else if timedOut && env.procs > syncenvProcMin then
    some { env.setProc slot none with procs := env.procs - 1 }
  else some env

/-- `synctask_yield`: the context of `task->proc` goes on. -/
def synctaskYield (id : Nat) (task : Synctask) : Option Syncenv :=
  let state := if task.state ≠ .done then .suspend else task.state
  task.proc.map fun slot =>
    (env.setTask id (some { task with state := state })).setProc slot (some (.switched id))

/-- The end of `synctask_wrap` -/
def synctaskFinish (id : Nat) (task : Synctask) : Option Syncenv :=
  env.synctaskYield id { task with state := .done }

/-- `synctask_done` -/
def synctaskDone (id : Nat) (task : Synctask) : Syncenv :=
  if task.synccbk then env.setTask id none else env.setTask id (some { task with done := true })

/-- `synctask_switchto` after the switch back -/
def switchBack (slot id : Nat) (task : Synctask) : Syncenv :=
  let env := env.setProc slot (some .scaling)
  if task.state = .done then env.synctaskDone id task
  else if task.woken then env.runTask id task
  else env.waitTask id { task with slept := true }

/-- The search of `syncenv_scale` for a slot without a processor. -/
def freeSlot (proc : List (Option ProcStage)) (i : Nat) : Nat :=
  i + (proc.drop i).findIdx Option.isNone

/-- The loop of `syncenv_scale`; a slot beyond the array has no result. -/
def scaleLoop : Nat → Nat → Syncenv → Option Syncenv
  | 0, _, env => some env
  | diff + 1, i, env =>
    let slot := freeSlot env.proc i
    if slot < env.proc.length then
      scaleLoop diff (slot + 1) { env.setProc slot (some .looking) with procs := env.procs + 1 }
    else none

/-- `syncenv_scale` -/
def syncenvScale : Option Syncenv :=
  if env.procs > env.runcount then some env
  else
    let scale := min env.runcount syncenvProcMax
    scaleLoop (if scale > env.procs then (scale - env.procs).toNat else 0) 0 env

end Syncenv

inductive SyncLabel
  | synctaskNew (cbk : Bool)
  | newScale (creator : Nat)
  | newReturn (creator : Nat)
  | wake (task : Nat)
  | look (slot : Nat)
  | sleepReturn (slot : Nat) (timedOut : Bool)
  | yield (slot : Nat)
  | finish (slot : Nat)
  | switchBack (slot : Nat)
  | procScale (slot : Nat)

namespace Syncenv

variable (env : Syncenv)

/-- The stage of an occupied slot. -/
def stage (slot : Nat) : Option ProcStage := (env.proc[slot]?).join

def runningTask (slot : Nat) : Option (Nat × Synctask) :=
  match env.stage slot with
  | some (.running id) => (env.tasks id).map fun task => (id, task)
  | some .looking | some .sleeping | some (.switched _) | some .scaling | none => none

end Syncenv

open Syncenv in
/-- One step.  `synctask_wake` is called on tasks that exist and are not finished. -/
def syncStep (env : Syncenv) : SyncLabel → Option Syncenv
  | .synctaskNew cbk => some (env.synctaskNew cbk)
  | .newScale index =>
    (env.creators[index]?).bind fun creator =>
      if creator.scaled then none
      else env.syncenvScale.map fun after =>
        { after with
          creators :=
            if creator.cbk then after.creators.eraseIdx index
            else after.creators.set index { creator with scaled := true } }
  | .newReturn index =>
    (env.creators[index]?).bind fun creator =>
      (env.tasks creator.task).bind fun task =>
        if creator.scaled && task.done then
          some { env.setTask creator.task none with creators := env.creators.eraseIdx index }
        else none
  | .wake id =>
    (env.tasks id).bind fun task =>
      if task.state = .done then none else some (env.synctaskWake id task)
  | .look slot => if env.stage slot = some .looking then env.look slot else none
  | .sleepReturn slot timedOut =>
    if env.stage slot = some .sleeping then env.sleepReturn slot timedOut else none
  | .yield slot => (env.runningTask slot).bind fun (id, task) => env.synctaskYield id task
  | .finish slot => (env.runningTask slot).bind fun (id, task) => env.synctaskFinish id task
  | .switchBack slot =>
    match env.stage slot with
    | some (.switched id) => (env.tasks id).map fun task => env.switchBack slot id task
    | some .looking | some .sleeping | some (.running _) | some .scaling | none => none
  | .procScale slot =>
    if env.stage slot = some .scaling then
      env.syncenvScale.map fun after => after.setProc slot (some .looking)
    else none

/-- `syncenv_new` -/
def Syncenv.start : Syncenv where
  tasks := fun _ => none
  next := 0
  proc := List.replicate syncenvProcMin (some .looking) ++
    List.replicate (syncenvProcMax - syncenvProcMin) none
  procs := syncenvProcMin
  runq := []
  runcount := 0
  waitq := []
  waitcount := 0
  creators := []
  log := []

end GlusterFS.Syncop
