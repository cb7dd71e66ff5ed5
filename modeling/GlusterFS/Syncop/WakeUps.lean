import GlusterFS.Syncop.Places

/-!
# No wake-up is lost

In every state of the environment each task is in one place, the counters are the
lengths of the queues and the number of occupied slots, and a task on the wait queue
has not been woken since it was last picked.
-/

namespace GlusterFS.Syncop

open Transition

namespace Syncenv

variable {env after : Syncenv} {id other slot : Nat} {task : Synctask} {place : Place}

/-! ## The queues and their counters -/

structure Counted (env : Syncenv) : Prop where
  runcount : env.runcount = env.runq.length
  waitcount : env.waitcount = env.waitq.length

/-- The state of a task names the queue that it is on. -/
structure Linked (env : Syncenv) (id : Nat) (state : SynctaskState) : Prop where
  runq : env.runq.count id = if state = .run then 1 else 0
  waitq : env.waitq.count id = if state = .wait then 1 else 0

theorem Counted.unlink {state : SynctaskState} (hcounted : env.Counted)
    (hlinked : env.Linked id state) : ((env.unlink id).uncount state).Counted := by
  obtain ⟨hrunq, hwaitq⟩ := hlinked
  have habsent : ∀ queue : List Nat, queue.count id = 0 → queue.erase id = queue :=
    fun queue h => List.erase_of_not_mem (List.count_eq_zero.mp h)
  have hshorter : ∀ queue : List Nat, queue.count id = 1 →
      ((queue.erase id).length : Int) = queue.length - 1 := by
    intro queue h
    have hmem : id ∈ queue := List.one_le_count_iff.mp (Nat.le_of_eq h.symm)
    have hpos := List.length_pos_of_mem hmem
    rw [List.length_erase_of_mem hmem]
    omega
  constructor <;> cases state <;> simp only [reduceCtorEq, if_true, if_false] at hrunq hwaitq <;>
    simp [uncount, Syncenv.unlink, hcounted.runcount, hcounted.waitcount, habsent, hshorter,
      hrunq, hwaitq]

@[simp]
theorem uncount_frame (state : SynctaskState) : (env.uncount state).runq = env.runq ∧
    (env.uncount state).waitq = env.waitq ∧ (env.uncount state).proc = env.proc ∧
    (env.uncount state).procs = env.procs ∧ (env.uncount state).next = env.next ∧
    (env.uncount state).tasks = env.tasks ∧ (env.uncount state).log = env.log := by
  cases state <;> simp [uncount]

theorem Counted.runTask (hcounted : env.Counted) (hlinked : env.Linked id task.state) :
    (env.runTask id task).Counted := by
  obtain ⟨hrun, hwait⟩ := hcounted.unlink hlinked
  constructor
  · simp only [Syncenv.runTask, setTask, List.length_append, List.length_singleton, hrun]
    rfl
  · exact hwait

theorem Counted.waitTask (hcounted : env.Counted) (hlinked : env.Linked id task.state) :
    (env.waitTask id task).Counted := by
  obtain ⟨hrun, hwait⟩ := hcounted.unlink hlinked
  constructor
  · exact hrun
  · simp only [Syncenv.waitTask, setTask, List.length_append, List.length_singleton, hwait]
    rfl

/-! ## Moves of one task -/

@[simp]
theorem queueTask_frame : (env.runTask id task).proc = env.proc ∧
    (env.runTask id task).procs = env.procs ∧ (env.runTask id task).next = env.next ∧
    (env.runTask id task).log = env.log ∧ (env.waitTask id task).proc = env.proc ∧
    (env.waitTask id task).procs = env.procs ∧ (env.waitTask id task).next = env.next ∧
    (env.waitTask id task).log = env.log := by
  simp [runTask, waitTask, setTask, unlink]

theorem same_queueTask (hother : other ≠ id) :
    env.Same (env.runTask id task) other ∧ env.Same (env.waitTask id task) other := by
  constructor <;> constructor <;> intros <;>
    simp [runTask, waitTask, setTask, unlink, holding, stage, hother, Ne.symm hother]

theorem Linked.unlink {state : SynctaskState} (hlinked : env.Linked id state) :
    (env.unlink id).runq.count id = 0 ∧ (env.unlink id).waitq.count id = 0 := by
  rw [Syncenv.unlink, List.count_erase_self, List.count_erase_self, hlinked.runq, hlinked.waitq]
  constructor <;> split <;> rfl

theorem at_runTask (hlinked : env.Linked id task.state) (hheld : ∀ slot, env.holding id slot = none)
    (hdone : task.done = false) (hwoken : task.woken = wokenSincePick env.log id) :
    (env.runTask id task).At id .runq where
  record := ⟨{ task with state := .run }, by simp [runTask, setTask], rfl, hdone⟩
  runq := by simp [runTask, setTask, Place.inRunq, hlinked.unlink]
  waitq := by simp [runTask, setTask, Place.inWaitq, hlinked.unlink]
  held := fun slot => by simpa [holding, stage, Place.stage] using hheld slot
  woken := by simpa [runTask, setTask, unlink] using hwoken

theorem at_waitTask (hlinked : env.Linked id task.state)
    (hheld : ∀ slot, env.holding id slot = none) (hdone : task.done = false)
    (hslept : task.slept = true) (hwoken : task.woken = false)
    (hlog : wokenSincePick env.log id = false) :
    (env.waitTask id task).At id .waitq where
  record := ⟨{ task with state := .wait }, by simp [waitTask, setTask], rfl, hdone, hslept, hwoken⟩
  runq := by simp [waitTask, setTask, Place.inRunq, hlinked.unlink]
  waitq := by simp [waitTask, setTask, Place.inWaitq, hlinked.unlink]
  held := fun slot => by simpa [holding, stage, Place.stage] using hheld slot
  woken := by simpa [waitTask, setTask, unlink, hlog] using hwoken

/-- A task on a queue, or held by a processor that has put it to sleep, is linked as its state
says. -/
theorem At.linked (hat : env.At id place) (htask : env.tasks id = some task)
    (hqueued : place = .runq ∨ place = .waitq ∨ ∃ slot done, place = .switched slot done) :
    env.Linked id task.state := by
  have hrecord := hat.record_of htask
  obtain ⟨-, hrunq, hwaitq, -, -⟩ := hat
  rcases hqueued with rfl | rfl | ⟨slot, done, rfl⟩ <;> obtain ⟨_, ⟨⟩, hstate, -⟩ := hrecord
  · exact ⟨by rw [hrunq, hstate]; rfl, by rw [hwaitq, hstate]; rfl⟩
  · exact ⟨by rw [hrunq, hstate]; rfl, by rw [hwaitq, hstate]; rfl⟩
  · cases done <;> exact ⟨by rw [hrunq, hstate]; rfl, by rw [hwaitq, hstate]; rfl⟩

/-- The first two assignments of a wake-up: the flag of the task, and the event. -/
def flagWoken (env : Syncenv) (id : Nat) (task : Synctask) : Syncenv :=
  { env.setTask id (some { task with woken := true }) with log := .wake id :: env.log }

theorem same_flagWoken (hother : other ≠ id) : env.Same (env.flagWoken id task) other where
  tasks := by simp [flagWoken, setTask, hother]
  runq := rfl
  waitq := rfl
  held := fun _ => rfl
  woken := by simp [flagWoken, wokenSincePick, Ne.symm hother]

theorem synctaskWake_of_slept (hslept : task.slept = true) :
    env.synctaskWake id task = (env.flagWoken id task).runTask id { task with woken := true } := by
  simp [synctaskWake, hslept, flagWoken]

theorem synctaskWake_of_awake (hslept : task.slept = false) :
    env.synctaskWake id task = env.flagWoken id task := by
  simp [synctaskWake, hslept, flagWoken]

theorem same_synctaskWake (hother : other ≠ id) : env.Same (env.synctaskWake id task) other := by
  cases hslept : task.slept with
  | true =>
    rw [synctaskWake_of_slept hslept]
    exact (same_flagWoken hother).trans (same_queueTask hother).1
  | false =>
    rw [synctaskWake_of_awake hslept]
    exact same_flagWoken hother

/-- A task that sleeps is put on the run queue, whichever queue it was on. -/
theorem at_synctaskWake (hlinked : env.Linked id task.state)
    (hheld : ∀ slot, env.holding id slot = none) (hdone : task.done = false)
    (hslept : task.slept = true) : (env.synctaskWake id task).At id .runq := by
  rw [synctaskWake_of_slept hslept]
  refine at_runTask ⟨hlinked.runq, hlinked.waitq⟩ hheld hdone ?_
  simp [flagWoken, wokenSincePick]

/-- A task that has not been put to sleep stays where it is and remembers the call. -/
theorem At.flagWoken (hat : env.At id place) (htask : env.tasks id = some task)
    (hplace : place ≠ .waitq) : (env.flagWoken id task).At id place where
  record := by
    have hrecord := hat.record_of htask
    simp only [Syncenv.flagWoken, setTask, Function.update_self]
    cases place with
    | absent => cases hrecord
    | waitq => exact (hplace rfl).elim
    | runq | running _ | switched _ _ | finished =>
      obtain ⟨_, ⟨⟩, hrest⟩ := hrecord
      exact ⟨_, rfl, hrest⟩
  runq := hat.runq
  waitq := hat.waitq
  held := hat.held
  woken := by simp [Syncenv.flagWoken, setTask, wokenSincePick]

/-! ## Slots -/

theorem setProc_log (stage : Option ProcStage) : (env.setProc slot stage).log = env.log := rfl

theorem same_setProc {old new : Option ProcStage} (hslot : slot < env.proc.length)
    (hstage : env.stage slot = old) (hold : ∀ stage ∈ old, stage.task = none)
    (hnew : ∀ stage ∈ new, stage.task = none) (procs : Int) :
    env.Same { env.setProc slot new with procs := procs } id where
  tasks := rfl
  runq := rfl
  waitq := rfl
  held := holding_setProc_of_ne env hslot hstage
    (fun stage hmem => by rw [hold stage hmem]; exact Option.some_ne_none id |>.symm)
    (fun stage hmem => by rw [hnew stage hmem]; exact Option.some_ne_none id |>.symm)
  woken := rfl

theorem countP_isSome_set {proc : List (Option ProcStage)} {old : Option ProcStage}
    (hold : proc[slot]? = some old) (new : Option ProcStage) :
    (((proc.set slot new).countP Option.isSome : Nat) : Int) =
      proc.countP Option.isSome + (new.toList.length - old.toList.length) := by
  obtain ⟨hslot, hget⟩ := List.getElem?_eq_some_iff.mp hold
  have hpos : old.isSome = true → 0 < proc.countP Option.isSome := by
    intro hsome
    exact List.countP_pos_iff.mpr ⟨old, hget ▸ List.getElem_mem hslot, hsome⟩
  rw [List.countP_set hslot, hget]
  cases old with
  | none => cases new <;> simp
  | some stage =>
    have hone := hpos rfl
    cases new <;> simp <;> omega

/-- What the creation of processors keeps. -/
structure Scaled (env after : Syncenv) : Prop where
  same : ∀ id, env.Same after id
  length : after.proc.length = env.proc.length
  procs : after.procs - after.proc.countP Option.isSome = env.procs - env.proc.countP Option.isSome
  runq : after.runq = env.runq
  runcount : after.runcount = env.runcount
  waitq : after.waitq = env.waitq
  waitcount : after.waitcount = env.waitcount
  next : after.next = env.next
  creators : after.creators = env.creators
  stage : ∀ slot stage, env.stage slot = some stage → after.stage slot = some stage

theorem Scaled.refl (env : Syncenv) : env.Scaled env where
  same := Same.refl env
  length := rfl
  procs := rfl
  runq := rfl
  runcount := rfl
  waitq := rfl
  waitcount := rfl
  next := rfl
  creators := rfl
  stage := fun _ _ h => h

theorem Scaled.trans {middle : Syncenv} (hfirst : env.Scaled middle)
    (hsecond : middle.Scaled after) : env.Scaled after where
  same := fun id => (hfirst.same id).trans (hsecond.same id)
  length := hsecond.length.trans hfirst.length
  procs := hsecond.procs.trans hfirst.procs
  runq := hsecond.runq.trans hfirst.runq
  runcount := hsecond.runcount.trans hfirst.runcount
  waitq := hsecond.waitq.trans hfirst.waitq
  waitcount := hsecond.waitcount.trans hfirst.waitcount
  next := hsecond.next.trans hfirst.next
  creators := hsecond.creators.trans hfirst.creators
  stage := fun slot stage h => hsecond.stage slot stage (hfirst.stage slot stage h)

theorem scaled_create (hfree : env.proc[slot]? = some none) :
    env.Scaled { env.setProc slot (some .looking) with procs := env.procs + 1 } := by
  have hslot := (List.getElem?_eq_some_iff.mp hfree).1
  have hstage : env.stage slot = none := by rw [Syncenv.stage, hfree]; rfl
  constructor
  case same => exact fun id => same_setProc hslot hstage (by simp) (by simp [ProcStage.task]) _
  case length => simp [setProc]
  case procs =>
    simp only [setProc, countP_isSome_set hfree, Option.toList_some, Option.toList_none,
      List.length_singleton, List.length_nil]
    omega
  case stage =>
    intro index stage hindex
    have hne : index ≠ slot := by
      rintro rfl
      rw [hstage] at hindex
      cases hindex
    exact (stage_setProc env hslot _ index).trans (by rw [if_neg hne, hindex])
  all_goals rfl

/-- What is left to find behind the first free slot. -/
theorem countP_isNone_drop (proc : List (Option ProcStage)) (i : Nat)
    (hfree : 0 < (proc.drop i).countP Option.isNone) :
    proc[freeSlot proc i]? = some none ∧
      (proc.drop (freeSlot proc i + 1)).countP Option.isNone + 1 =
        (proc.drop i).countP Option.isNone := by
  have hdrop : ∀ rest : List (Option ProcStage), 0 < rest.countP Option.isNone →
      rest[rest.findIdx Option.isNone]? = some none ∧
        (rest.drop (rest.findIdx Option.isNone + 1)).countP Option.isNone + 1 =
          rest.countP Option.isNone := by
    intro rest hrest
    induction rest with
    | nil => simp at hrest
    | cons head tail ih =>
      cases head with
      | none => simp [List.findIdx_cons]
      | some stage => simpa [List.findIdx_cons] using ih (by simpa using hrest)
  obtain ⟨hget, hcount⟩ := hdrop _ hfree
  rw [List.getElem?_drop] at hget
  rw [List.drop_drop] at hcount
  exact ⟨hget, hcount⟩

/-- The loop finds a slot for every processor that it has to create. -/
theorem scaleLoop_spec (diff i : Nat) (env : Syncenv)
    (hfree : diff ≤ (env.proc.drop i).countP Option.isNone) :
    ∃ after, scaleLoop diff i env = some after ∧ env.Scaled after := by
  induction diff generalizing i env with
  | zero => exact ⟨env, rfl, .refl env⟩
  | succ diff ih =>
    obtain ⟨hget, hcount⟩ := countP_isNone_drop env.proc i (by omega)
    have hslot := (List.getElem?_eq_some_iff.mp hget).1
    have hrest : diff ≤ ((env.proc.set (freeSlot env.proc i) (some .looking)).drop
          (freeSlot env.proc i + 1)).countP Option.isNone := by
      rw [List.drop_set_of_lt (by omega)]
      omega
    obtain ⟨after, hafter, hscaled⟩ := ih (freeSlot env.proc i + 1)
      { env.setProc (freeSlot env.proc i) (some .looking) with procs := env.procs + 1 } hrest
    refine ⟨after, ?_, (scaled_create hget).trans hscaled⟩
    rw [scaleLoop, if_pos hslot]
    exact hafter

/-! ## The invariant -/

structure SchedInv (env : Syncenv) : Prop where
  length : env.proc.length = syncenvProcMax
  procs : env.procs = env.proc.countP Option.isSome
  counted : env.Counted
  fresh : ∀ id, env.next ≤ id → env.tasks id = none
  placed : ∀ id, ∃ place, env.At id place

theorem SchedInv.start : Syncenv.start.SchedInv where
  length := rfl
  procs := rfl
  counted := ⟨rfl, rfl⟩
  fresh := fun _ _ => rfl
  placed := fun id => by
    refine ⟨.absent, rfl, rfl, rfl, fun slot => ?_, fun _ hmem => nomatch hmem⟩
    have hidle : ∀ stage ∈ Syncenv.start.stage slot, stage.task = none := by
      intro stage hmem
      have hjoin := Option.join_eq_some_iff.mp hmem
      have hlooking : ∀ entry ∈ Syncenv.start.proc, ∀ stage ∈ entry, stage.task = none := by decide
      exact hlooking _ (List.mem_of_getElem? hjoin) stage rfl
    exact Option.filter_eq_none_iff.mpr fun stage hmem => by simp [hidle stage hmem]

/-- `syncenv_scale` never leaves the array. -/
theorem SchedInv.syncenvScale (hinv : env.SchedInv) :
    ∃ after, env.syncenvScale = some after ∧ env.Scaled after := by
  rw [Syncenv.syncenvScale]
  split
  · exact ⟨env, rfl, .refl env⟩
  · refine scaleLoop_spec _ 0 env ?_
    have hsum := List.length_eq_countP_add_countP (p := Option.isSome) (l := env.proc)
    have hnone : env.proc.countP Option.isNone =
        env.proc.countP (fun entry => decide ¬entry.isSome = true) :=
      List.countP_congr fun entry _ => by cases entry <;> simp
    have hlength := hinv.length
    have hprocs := hinv.procs
    rw [List.drop_zero, hnone]
    split <;> omega

theorem SchedInv.scaled_of_eq (hinv : env.SchedInv) (hafter : env.syncenvScale = some after) :
    env.Scaled after := by
  obtain ⟨_, hsome, hscaled⟩ := hinv.syncenvScale
  cases hafter.symm.trans hsome
  exact hscaled

theorem SchedInv.scaled (hinv : env.SchedInv) (hscaled : env.Scaled after) : after.SchedInv where
  length := hscaled.length.trans hinv.length
  procs := by
    have hbalance := hscaled.procs
    have hprocs := hinv.procs
    omega
  counted := ⟨by rw [hscaled.runcount, hscaled.runq, hinv.counted.runcount],
    by rw [hscaled.waitcount, hscaled.waitq, hinv.counted.waitcount]⟩
  fresh := fun id hid => by
    rw [(hscaled.same id).tasks]
    exact hinv.fresh id (hscaled.next ▸ hid)
  placed := fun id => (hinv.placed id).imp fun _ hat => hat.same (hscaled.same id)

/-- A step that takes one task to a place. -/
structure Moves (env after : Syncenv) (id : Nat) (place : Place) : Prop where
  length : after.proc.length = env.proc.length
  procs : after.procs - after.proc.countP Option.isSome = env.procs - env.proc.countP Option.isSome
  counted : after.Counted
  next : env.next ≤ after.next
  known : id < after.next
  same : ∀ other, other ≠ id → env.Same after other
  arrives : after.At id place

theorem SchedInv.move (hinv : env.SchedInv) (hmoves : env.Moves after id place) :
    after.SchedInv where
  length := hmoves.length.trans hinv.length
  procs := by
    have hbalance := hmoves.procs
    have hprocs := hinv.procs
    omega
  counted := hmoves.counted
  fresh := fun other hother => by
    have hid := hmoves.known
    have hnext := hmoves.next
    rw [(hmoves.same other (by omega)).tasks]
    exact hinv.fresh other (by omega)
  placed := fun other => by
    by_cases hother : other = id
    · exact ⟨place, hother ▸ hmoves.arrives⟩
    · exact (hinv.placed other).imp fun _ hat => hat.same (hmoves.same other hother)

theorem Moves.setCreators (hmoves : env.Moves after id place) (creators : List Creator) :
    env.Moves { after with creators := creators } id place where
  length := hmoves.length
  procs := hmoves.procs
  counted := ⟨hmoves.counted.runcount, hmoves.counted.waitcount⟩
  next := hmoves.next
  known := hmoves.known
  same := fun other hother =>
    have hsame := hmoves.same other hother
    ⟨hsame.tasks, hsame.runq, hsame.waitq, hsame.held, hsame.woken⟩
  arrives :=
    have hat := hmoves.arrives
    ⟨hat.record, hat.runq, hat.waitq, hat.held, hat.woken⟩

/-- How the place of a task and its wake-up flag change with a step. -/
inductive PlaceStep (next id : Nat) : SyncLabel → Place → Bool → Place → Bool → Prop
  | create (cbk woken : Bool) : id = next →
      PlaceStep next id (.synctaskNew cbk) .absent woken .runq true
  | destroy (index : Nat) (woken : Bool) :
      PlaceStep next id (.newReturn index) .finished woken .absent woken
  | wakeSlept (woken : Bool) : PlaceStep next id (.wake id) .waitq woken .runq true
  | wakeQueued (woken : Bool) : PlaceStep next id (.wake id) .runq woken .runq true
  | wakeRunning (slot : Nat) (woken : Bool) :
      PlaceStep next id (.wake id) (.running slot) woken (.running slot) true
  | wakeSwitched (slot : Nat) (woken : Bool) :
      PlaceStep next id (.wake id) (.switched slot false) woken (.switched slot false) true
  | look (slot : Nat) (woken : Bool) :
      PlaceStep next id (.look slot) .runq woken (.running slot) false
  | sleepReturn (slot : Nat) (timedOut woken : Bool) :
      PlaceStep next id (.sleepReturn slot timedOut) .runq woken (.running slot) false
  | yield (slot : Nat) (woken : Bool) :
      PlaceStep next id (.yield slot) (.running slot) woken (.switched slot false) woken
  | finish (slot : Nat) (woken : Bool) :
      PlaceStep next id (.finish slot) (.running slot) woken (.switched slot true) woken
  | destroyed (slot : Nat) (woken : Bool) :
      PlaceStep next id (.switchBack slot) (.switched slot true) woken .absent woken
  | done (slot : Nat) (woken : Bool) :
      PlaceStep next id (.switchBack slot) (.switched slot true) woken .finished woken
  | rerun (slot : Nat) : PlaceStep next id (.switchBack slot) (.switched slot false) true .runq true
  | sleep (slot : Nat) :
      PlaceStep next id (.switchBack slot) (.switched slot false) false .waitq false

section PlaceStep

variable {next : Nat} {before : Place} {woken woken' : Bool}

theorem PlaceStep.wake_id (hplace : PlaceStep next id (.wake other) before woken place woken') :
    id = other := by
  cases hplace <;> rfl

theorem PlaceStep.yield_running
    (hplace : PlaceStep next id (.yield slot) before woken place woken') :
    before = .running slot := by
  cases hplace
  rfl

theorem PlaceStep.finish_running
    (hplace : PlaceStep next id (.finish slot) before woken place woken') :
    before = .running slot := by
  cases hplace
  rfl

end PlaceStep

/-- The step moves this task, and no other one. -/
def MovesTask (env after : Syncenv) (label : SyncLabel) (id : Nat) : Prop :=
  ∃ before place, env.At id before ∧ env.Moves after id place ∧
    PlaceStep env.next id label before (wokenSincePick env.log id) place
      (wokenSincePick after.log id)

theorem SchedInv.id_lt (hinv : env.SchedInv) (htask : env.tasks id = some task) :
    id < env.next := by
  by_contra hnot
  rw [hinv.fresh id (by omega)] at htask
  cases htask

theorem synctaskWake_frame (env : Syncenv) (id : Nat) (task : Synctask) :
    (env.synctaskWake id task).proc = env.proc ∧
    (env.synctaskWake id task).procs = env.procs ∧ (env.synctaskWake id task).next = env.next ∧
    (env.synctaskWake id task).log = .wake id :: env.log := by
  cases hslept : task.slept with
  | true => simp [synctaskWake_of_slept hslept, flagWoken, setTask]
  | false => simp [synctaskWake_of_awake hslept, flagWoken, setTask]

theorem Counted.synctaskWake (hcounted : env.Counted)
    (hlinked : task.slept = true → env.Linked id task.state) :
    (env.synctaskWake id task).Counted := by
  cases hslept : task.slept with
  | true =>
    have hflag : (env.flagWoken id task).Counted := ⟨hcounted.runcount, hcounted.waitcount⟩
    rw [synctaskWake_of_slept hslept]
    exact hflag.runTask ⟨(hlinked hslept).runq, (hlinked hslept).waitq⟩
  | false =>
    rw [synctaskWake_of_awake hslept]
    exact ⟨hcounted.runcount, hcounted.waitcount⟩

/-- A wake-up of a task that is not finished. -/
theorem SchedInv.synctaskWake (hinv : env.SchedInv) (htask : env.tasks id = some task)
    (hstate : task.state ≠ .done) : env.MovesTask (env.synctaskWake id task) (.wake id) id := by
  obtain ⟨place, hat⟩ := hinv.placed id
  have hrecord := hat.record_of htask
  obtain ⟨hproc, hprocs, hnext, hlog⟩ := synctaskWake_frame env id task
  have hwoken : wokenSincePick (env.synctaskWake id task).log id = true := by
    rw [hlog]
    simp [wokenSincePick]
  have hmove : ∀ new : Place, (env.synctaskWake id task).At id new →
      (task.slept = true → env.Linked id task.state) →
      env.Moves (env.synctaskWake id task) id new :=
    fun new hnew hlinked =>
      ⟨by rw [hproc], by rw [hproc, hprocs], hinv.counted.synctaskWake hlinked,
      Nat.le_of_eq hnext.symm, by rw [hnext]; exact hinv.id_lt htask,
      fun _ hother => same_synctaskWake hother, hnew⟩
  have hawake : task.slept = false → place ≠ .waitq →
      env.Moves (env.synctaskWake id task) id place := by
    intro hslept hplace
    refine hmove place ?_ (by simp [hslept])
    rw [synctaskWake_of_awake hslept]
    exact hat.flagWoken htask hplace
  rw [MovesTask, hwoken]
  cases place with
  | absent => cases hrecord
  | runq =>
    obtain ⟨_, ⟨⟩, -, hdone⟩ := hrecord
    have hlinked := hat.linked htask (.inl rfl)
    refine ⟨_, _, hat, ?_, .wakeQueued _⟩
    cases hslept : task.slept with
    | true => exact hmove _ (at_synctaskWake hlinked hat.held hdone hslept) fun _ => hlinked
    | false => exact hawake hslept nofun
  | waitq =>
    obtain ⟨_, ⟨⟩, -, hdone, hslept, -⟩ := hrecord
    have hlinked := hat.linked htask (.inr (.inl rfl))
    exact ⟨_, _, hat, hmove _ (at_synctaskWake hlinked hat.held hdone hslept) fun _ => hlinked,
      .wakeSlept _⟩
  | running slot =>
    obtain ⟨_, ⟨⟩, -, -, hslept, -⟩ := hrecord
    exact ⟨_, _, hat, hawake hslept nofun, .wakeRunning slot _⟩
  | switched slot done =>
    obtain ⟨_, ⟨⟩, hswitched, -, hslept⟩ := hrecord
    cases done with
    | false => exact ⟨_, _, hat, hawake hslept nofun, .wakeSwitched slot _⟩
    | true => exact (hstate hswitched).elim
  | finished =>
    obtain ⟨_, ⟨⟩, hfinished⟩ := hrecord
    exact (hstate hfinished).elim

theorem SchedInv.synctaskNew (hinv : env.SchedInv) (cbk : Bool) :
    env.MovesTask (env.synctaskNew cbk) (.synctaskNew cbk) env.next := by
  obtain ⟨place, hat⟩ := hinv.placed env.next
  have hrecord := hat.record
  rw [hinv.fresh env.next (Nat.le_refl _)] at hrecord
  obtain ⟨hproc, hprocs, hnext, hlog⟩ :=
    synctaskWake_frame (env.addCreator cbk) env.next (newTask cbk)
  have hwoken : wokenSincePick (env.synctaskNew cbk).log env.next = true := by
    rw [Syncenv.synctaskNew, hlog]
    simp [wokenSincePick]
  rw [MovesTask, hwoken]
  cases place with
  | absent =>
    have hlinked : (env.addCreator cbk).Linked env.next (newTask cbk).state :=
      ⟨hat.runq, hat.waitq⟩
    have hcounted : (env.addCreator cbk).Counted :=
      ⟨hinv.counted.runcount, hinv.counted.waitcount⟩
    have hnext : (env.synctaskNew cbk).next = env.next + 1 := hnext
    refine ⟨.absent, .runq, hat, ⟨?_, ?_, hcounted.synctaskWake fun _ => hlinked,
      by omega, by omega, ?_, at_synctaskWake hlinked hat.held rfl rfl⟩, .create cbk _ rfl⟩
    · rw [Syncenv.synctaskNew, hproc]
      rfl
    · rw [Syncenv.synctaskNew, hproc, hprocs]
      rfl
    · intro other hother
      have hadd : env.Same (env.addCreator cbk) other := ⟨rfl, rfl, rfl, fun _ => rfl, rfl⟩
      exact hadd.trans (same_synctaskWake hother)
  | runq | waitq | running _ | switched _ _ | finished =>
    obtain ⟨_, hsome, -⟩ := hrecord
    cases hsome

/-! ## Processors -/

/-- The first task of the run queue goes to a processor that held none. -/
theorem SchedInv.takeTask {stage : ProcStage} (hinv : env.SchedInv)
    (hstage : env.stage slot = some stage) (hidle : stage.task = none)
    (htake : env.takeTask slot = some after) :
    ∃ id, env.At id .runq ∧ env.Moves after id (.running slot) ∧
      wokenSincePick after.log id = false := by
  rw [Syncenv.takeTask] at htake
  split at htake
  · cases htake
  · rename_i id rest hrunq
    obtain ⟨task, htask, rfl⟩ := Option.map_eq_some_iff.mp htake
    obtain ⟨place, hat⟩ := hinv.placed id
    obtain rfl := hat.one_le_inRunq (by simp [hrunq])
    have hslot := slot_lt_of_stage hstage
    obtain ⟨_, ⟨⟩, hstate, hdone⟩ := hat.record_of htask
    refine ⟨id, hat, ⟨by simp, ?_, ?_, Nat.le_refl _, hinv.id_lt htask, ?_, ?_⟩,
      by simp [wokenSincePick]⟩
    · have hget : env.proc[slot]? = some (some stage) := Option.join_eq_some_iff.mp hstage
      simp only [setTask, countP_isSome_set hget, Option.toList_some, List.length_singleton]
      omega
    · refine ⟨?_, hinv.counted.waitcount⟩
      have hcount := hinv.counted.runcount
      rw [hrunq, List.length_cons] at hcount
      simp only
      omega
    · intro other hother
      refine ⟨by simp [setTask, hother], by simp [hrunq, Ne.symm hother], rfl, fun index => ?_,
        by simp [wokenSincePick, Ne.symm hother]⟩
      refine holding_setProc_of_ne env hslot hstage ?_ ?_ index
      · simp [hidle]
      · simp [ProcStage.task, Ne.symm hother]
    · have hrest := hat.runq
      rw [hrunq, List.count_cons_self] at hrest
      refine ⟨?_, ?_, hat.waitq, fun index => ?_, ?_⟩
      · exact ⟨{ task with woken := false, slept := false, proc := some slot },
          by simp [setTask], hstate, hdone, rfl, rfl⟩
      · simpa [Place.inRunq] using hrest
      · refine (holding_setProc env hslot _ index).trans ?_
        rw [Place.stage, hat.held]
        split <;> simp [ProcStage.task, Place.stage]
      · simp [setTask, wokenSincePick]

variable {old : ProcStage}

theorem countP_setProc {new : ProcStage} (hstage : env.stage slot = some old) :
    (env.setProc slot (some new)).proc.countP Option.isSome = env.proc.countP Option.isSome := by
  have hget : env.proc[slot]? = some (some old) := Option.join_eq_some_iff.mp hstage
  have hcount := countP_isSome_set hget (some new)
  simp only [Option.toList_some, List.length_singleton] at hcount
  simp only [setProc]
  omega

theorem runningTask_eq_some (hrunning : env.runningTask slot = some (id, task)) :
    env.stage slot = some (.running id) ∧ env.tasks id = some task := by
  rw [runningTask] at hrunning
  split at hrunning
  · rename_i running hstage
    obtain ⟨_, htask, hpair⟩ := Option.map_eq_some_iff.mp hrunning
    cases hpair
    exact ⟨hstage, htask⟩
  all_goals cases hrunning

/-- A task runs on the processor that its record names. -/
theorem SchedInv.running_proc (hinv : env.SchedInv) (hstage : env.stage slot = some (.running id))
    (htask : env.tasks id = some task) : task.proc = some slot ∧ task.state = .run := by
  obtain ⟨place, hat⟩ := hinv.placed id
  obtain ⟨rfl, -⟩ | ⟨-, hcontra⟩ := hat.of_stage hstage rfl
  · obtain ⟨_, ⟨⟩, hstate, -, -, hproc⟩ := hat.record_of htask
    exact ⟨hproc, hstate⟩
  · cases hcontra

/-- The task of a processor gives it back, suspended or done. -/
theorem SchedInv.giveBack (state : SynctaskState) (done : Bool) (hinv : env.SchedInv)
    (hstage : env.stage slot = some (.running id)) (htask : env.tasks id = some task)
    (hstate : state = if done then .done else .suspend) :
    env.At id (.running slot) ∧
      env.Moves ((env.setTask id (some { task with state := state })).setProc slot
        (some (.switched id))) id (.switched slot done) := by
  obtain ⟨place, hat⟩ := hinv.placed id
  have hslot := slot_lt_of_stage hstage
  obtain ⟨rfl, -⟩ | ⟨-, hcontra⟩ := hat.of_stage hstage rfl
  · obtain ⟨_, ⟨⟩, -, hdone, hslept, -⟩ := hat.record_of htask
    refine ⟨hat, ⟨by simp [setProc, setTask], ?_,
      ⟨hinv.counted.runcount, hinv.counted.waitcount⟩, Nat.le_refl _, hinv.id_lt htask, ?_, ?_⟩⟩
    · have hcount : (env.setProc slot (some (.switched id))).proc.countP Option.isSome =
          env.proc.countP Option.isSome := countP_setProc hstage
      exact congrArg (fun count : Nat => env.procs - count) hcount
    · intro other hother
      refine ⟨by simp [setProc, setTask, hother], rfl, rfl, fun index => ?_, rfl⟩
      exact holding_setProc_of_ne env hslot hstage
        (by simp [ProcStage.task, Ne.symm hother]) (by simp [ProcStage.task, Ne.symm hother]) index
    · refine ⟨⟨{ task with state := state }, by simp [setProc, setTask], hstate, hdone, hslept⟩,
        hat.runq, hat.waitq, fun index => ?_, ?_⟩
      · refine (holding_setProc env hslot _ index).trans ?_
        rw [Place.stage, hat.held]
        by_cases hindex : index = slot
        · simp [hindex, ProcStage.task]
        · simp [hindex, Place.stage]
      · have hwoken := hat.woken task htask
        simpa [setProc, setTask] using hwoken
  · cases hcontra

theorem SchedInv.switchBack (hinv : env.SchedInv)
    (hstage : env.stage slot = some (.switched id)) (htask : env.tasks id = some task) :
    env.MovesTask (env.switchBack slot id task) (.switchBack slot) id := by
  obtain ⟨place, hat⟩ := hinv.placed id
  have hslot := slot_lt_of_stage hstage
  obtain ⟨-, hcontra⟩ | ⟨⟨done, rfl⟩, -⟩ := hat.of_stage hstage rfl
  · cases hcontra
  · obtain ⟨_, ⟨⟩, hstate, hdone, hslept⟩ := hat.record_of htask
    have hlinked : (env.setProc slot (some .scaling)).Linked id task.state :=
      have hbefore := hat.linked htask (.inr (.inr ⟨slot, done, rfl⟩))
      ⟨hbefore.runq, hbefore.waitq⟩
    have hwoken := hat.woken task htask
    have hcounted : (env.setProc slot (some .scaling)).Counted :=
      ⟨hinv.counted.runcount, hinv.counted.waitcount⟩
    have hfree : ∀ index, (env.setProc slot (some .scaling)).holding id index = none := by
      intro index
      rw [holding_setProc env hslot, hat.held]
      split <;> simp [ProcStage.task, Place.stage, *]
    -- the slot is given up, and then the task goes where its state says
    have hmoves : ∀ {after : Syncenv} {place : Place},
        after.proc = env.proc.set slot (some .scaling) →
        after.procs = env.procs → after.next = env.next → after.Counted →
        (∀ other, other ≠ id → (env.setProc slot (some .scaling)).Same after other) →
        after.At id place → env.Moves after id place := by
      intro after place hproc hprocs hnext hcounted hsame hat
      refine ⟨by simp [hproc], ?_, hcounted, Nat.le_of_eq hnext.symm, hnext ▸ hinv.id_lt htask,
        fun other hother => ?_, hat⟩
      · have hcount : (env.setProc slot (some .scaling)).proc.countP Option.isSome =
          env.proc.countP Option.isSome := countP_setProc hstage
        rw [hproc, hprocs, ← hcount]
        rfl
      · have hbefore : env.Same (env.setProc slot (some .scaling)) other :=
          ⟨rfl, rfl, rfl, holding_setProc_of_ne env hslot hstage
            (by simp [ProcStage.task, Ne.symm hother]) (by simp [ProcStage.task]), rfl⟩
        exact hbefore.trans (hsame other hother)
    rw [Syncenv.switchBack]
    cases done with
    | true =>
      -- `synctask_done`: with a callback the task is destroyed here.
      have hfinished : task.state = .done := hstate
      have hsame : ∀ record other, other ≠ id → (env.setProc slot (some .scaling)).Same
          ((env.setProc slot (some .scaling)).setTask id record) other :=
        fun record other hother => ⟨by simp [setTask, hother], rfl, rfl, fun _ => rfl, rfl⟩
      rw [if_pos hfinished, synctaskDone]
      split
      · exact ⟨_, .absent, hat, hmoves rfl rfl rfl ⟨hcounted.runcount, hcounted.waitcount⟩ (hsame _)
          ⟨by simp [Place.Record, setTask], hat.runq, hat.waitq, hfree, by simp [setTask]⟩,
          .destroyed slot _⟩
      · exact ⟨_, .finished, hat, hmoves rfl rfl rfl ⟨hcounted.runcount, hcounted.waitcount⟩
          (hsame _)
          ⟨⟨{ task with done := true }, by simp [setTask], hstate⟩, hat.runq, hat.waitq, hfree,
            by simpa [setTask, setProc] using hwoken⟩, .done slot _⟩
    | false =>
      have hsuspended : task.state = .suspend := hstate
      rw [if_neg (by simp [hsuspended])]
      split
      · rename_i hawake
        refine ⟨_, .runq, hat, hmoves (by simp [setProc]) (by simp [setProc]) (by simp [setProc])
          (hcounted.runTask hlinked) (fun _ hother => (same_queueTask hother).1)
          (at_runTask hlinked hfree hdone hwoken), ?_⟩
        have hlog : wokenSincePick env.log id = true := hwoken.symm.trans hawake
        simp only [queueTask_frame, setProc_log, hlog]
        exact .rerun slot
      · rename_i hasleep
        have hflag : task.woken = false := by simpa using hasleep
        have hlog : wokenSincePick env.log id = false := hwoken.symm.trans hflag
        refine ⟨_, .waitq, hat, hmoves (by simp [setProc]) (by simp [setProc]) (by simp [setProc])
          (Counted.waitTask hcounted hlinked) (fun _ hother => (same_queueTask hother).2)
          (at_waitTask hlinked hfree hdone rfl hflag hlog), ?_⟩
        simp only [queueTask_frame, setProc_log, hlog]
        exact .sleep slot

/-- A processor without a task changes its stage or leaves. -/
theorem SchedInv.setProc (new : Option ProcStage) (procs : Int) (hinv : env.SchedInv)
    (hstage : env.stage slot = some old) (hold : old.task = none)
    (hnew : ∀ stage ∈ new, stage.task = none)
    (hprocs : procs = env.procs + (new.toList.length - 1)) :
    ({ env.setProc slot new with procs := procs }).SchedInv where
  length := by simp [Syncenv.setProc, hinv.length]
  procs := by
    have hget : env.proc[slot]? = some (some old) := Option.join_eq_some_iff.mp hstage
    simp only [Syncenv.setProc, countP_isSome_set hget, hprocs, hinv.procs, Option.toList_some,
      List.length_singleton]
    omega
  counted := ⟨hinv.counted.runcount, hinv.counted.waitcount⟩
  fresh := hinv.fresh
  placed := fun id => (hinv.placed id).imp fun _ hat =>
    hat.same (same_setProc (slot_lt_of_stage hstage) hstage (by simpa using hold) hnew procs)

theorem SchedInv.setCreators (hinv : env.SchedInv) (creators : List Creator) :
    ({ env with creators := creators }).SchedInv :=
  ⟨hinv.length, hinv.procs, ⟨hinv.counted.runcount, hinv.counted.waitcount⟩, hinv.fresh,
    fun id => (hinv.placed id).imp fun _ hat =>
      ⟨hat.record, hat.runq, hat.waitq, hat.held, hat.woken⟩⟩

theorem SchedInv.destroy (hinv : env.SchedInv) (htask : env.tasks id = some task)
    (hdone : task.done = true) :
    env.At id .finished ∧ env.Moves (env.setTask id none) id .absent := by
  obtain ⟨place, hat⟩ := hinv.placed id
  have hrecord := hat.record_of htask
  cases place with
  | absent => cases hrecord
  | finished =>
    refine ⟨hat, rfl, rfl, ⟨hinv.counted.runcount, hinv.counted.waitcount⟩, Nat.le_refl _,
      hinv.id_lt htask, ?_,
      ⟨by simp [Place.Record, setTask], hat.runq, hat.waitq, hat.held, by simp [setTask]⟩⟩
    intro other hother
    exact ⟨by simp [setTask, hother], rfl, rfl, fun _ => rfl, rfl⟩
  | runq | waitq | running _ | switched _ _ =>
    obtain ⟨_, ⟨⟩, hrest⟩ := hrecord
    simp [hdone] at hrest

/-- The steps that a processor or a creator may take without a task. -/
def idle : SyncLabel → Bool
  | .newScale _ | .look _ | .sleepReturn _ _ | .procScale _ => true
  | .synctaskNew _ | .newReturn _ | .wake _ | .yield _ | .finish _ | .switchBack _ => false

/-- Nothing that concerns a task has changed. -/
structure Quiet (env after : Syncenv) : Prop where
  inv : after.SchedInv
  same : ∀ id, env.Same after id

theorem SchedInv.quiet_setProc (new : Option ProcStage) (procs : Int) (hinv : env.SchedInv)
    (hstage : env.stage slot = some old) (hold : old.task = none)
    (hnew : ∀ stage ∈ new, stage.task = none)
    (hprocs : procs = env.procs + (new.toList.length - 1)) :
    env.Quiet { env.setProc slot new with procs := procs } where
  inv := hinv.setProc new procs hstage hold hnew hprocs
  same := fun id => same_setProc (slot_lt_of_stage hstage) hstage (by simpa using hold) hnew procs

theorem SchedInv.quiet_setStage {new : ProcStage} (hinv : env.SchedInv)
    (hstage : env.stage slot = some old) (hold : old.task = none) (hnew : new.task = none) :
    env.Quiet (env.setProc slot (some new)) :=
  hinv.quiet_setProc (some new) env.procs hstage hold (by simpa using hnew) (by simp)

/-- A step moves one task, as its place allows, or none. -/
theorem SchedInv.step_cases {label : SyncLabel} (hinv : env.SchedInv)
    (hstep : syncStep env label = some after) :
    (idle label = true ∧ env.Quiet after) ∨ ∃ id, env.MovesTask after label id := by
  cases label <;> simp only [syncStep, Option.bind_eq_some_iff, Option.map_eq_some_iff,
    Option.ite_none_right_eq_some, Option.ite_none_left_eq_some, Bool.and_eq_true, Prod.exists,
    Option.some.injEq] at hstep
  case synctaskNew cbk =>
    cases hstep
    exact .inr ⟨env.next, hinv.synctaskNew cbk⟩
  case newScale index =>
    obtain ⟨creator, -, -, scaled, hscaled, rfl⟩ := hstep
    have hkeeps := hinv.scaled_of_eq hscaled
    refine .inl ⟨rfl, (hinv.scaled hkeeps).setCreators _, fun id => ?_⟩
    have hsame := hkeeps.same id
    exact ⟨hsame.tasks, hsame.runq, hsame.waitq, hsame.held, hsame.woken⟩
  case newReturn index =>
    obtain ⟨creator, -, task, htask, ⟨-, hdone⟩, rfl⟩ := hstep
    obtain ⟨hat, hmoves⟩ := hinv.destroy htask hdone
    exact .inr ⟨creator.task, _, _, hat, hmoves.setCreators _, .destroy index _⟩
  case wake id =>
    obtain ⟨task, htask, hstate, rfl⟩ := hstep
    exact .inr ⟨id, hinv.synctaskWake htask hstate⟩
  case look slot =>
    obtain ⟨hstage, hlook⟩ := hstep
    rw [Syncenv.look] at hlook
    split at hlook
    · cases hlook
      exact .inl ⟨rfl, hinv.quiet_setStage hstage rfl rfl⟩
    · obtain ⟨id, hat, hmoves, hwoken⟩ := hinv.takeTask hstage rfl hlook
      exact .inr ⟨id, _, _, hat, hmoves, hwoken ▸ .look slot _⟩
  case sleepReturn slot timedOut =>
    obtain ⟨hstage, hreturn⟩ := hstep
    rw [Syncenv.sleepReturn] at hreturn
    split at hreturn
    · obtain ⟨id, hat, hmoves, hwoken⟩ := hinv.takeTask hstage rfl hreturn
      exact .inr ⟨id, _, _, hat, hmoves, hwoken ▸ .sleepReturn slot timedOut _⟩
    · split at hreturn
      · cases hreturn
        exact .inl ⟨rfl, hinv.quiet_setProc none (env.procs - 1) hstage rfl (by simp)
          (by simp; omega)⟩
      · cases hreturn
        exact .inl ⟨rfl, hinv, .refl env⟩
  case yield slot =>
    obtain ⟨id, task, hrunning, hyield⟩ := hstep
    obtain ⟨hstage, htask⟩ := runningTask_eq_some hrunning
    obtain ⟨hproc, hrun⟩ := hinv.running_proc hstage htask
    obtain ⟨_, hfound, rfl⟩ := Option.map_eq_some_iff.mp hyield
    cases hproc.symm.trans hfound
    have hsuspend : (if task.state ≠ .done then .suspend else task.state) =
        SynctaskState.suspend := if_pos (by simp [hrun])
    obtain ⟨hat, hmoves⟩ := hinv.giveBack _ false hstage htask hsuspend
    exact .inr ⟨id, _, _, hat, hmoves, .yield slot _⟩
  case finish slot =>
    obtain ⟨id, task, hrunning, hyield⟩ := hstep
    obtain ⟨hstage, htask⟩ := runningTask_eq_some hrunning
    obtain ⟨hproc, -⟩ := hinv.running_proc hstage htask
    obtain ⟨_, hfound, rfl⟩ := Option.map_eq_some_iff.mp hyield
    cases hproc.symm.trans hfound
    obtain ⟨hat, hmoves⟩ := hinv.giveBack .done true hstage htask rfl
    exact .inr ⟨id, _, _, hat, hmoves, .finish slot _⟩
  case switchBack slot =>
    split at hstep
    · rename_i id hstage
      obtain ⟨task, htask, rfl⟩ := Option.map_eq_some_iff.mp hstep
      exact .inr ⟨id, hinv.switchBack hstage htask⟩
    all_goals cases hstep
  case procScale slot =>
    obtain ⟨hstage, scaled, hscaled, rfl⟩ := hstep
    have hkeeps := hinv.scaled_of_eq hscaled
    have hquiet : scaled.Quiet (scaled.setProc slot (some .looking)) :=
      (hinv.scaled hkeeps).quiet_setStage (hkeeps.stage slot _ hstage) rfl rfl
    exact .inl ⟨rfl, hquiet.inv, fun id => (hkeeps.same id).trans (hquiet.same id)⟩

/-- One step keeps every task in one place. -/
theorem SchedInv.step {label : SyncLabel} (hinv : env.SchedInv)
    (hstep : syncStep env label = some after) : after.SchedInv := by
  obtain ⟨-, hquiet⟩ | ⟨id, _, _, -, hmoves, -⟩ := hinv.step_cases hstep
  · exact hquiet.inv
  · exact hinv.move hmoves

end Syncenv

/-! ## Every run -/

/-- What holds of the scheduler at every moment. -/
structure Scheduled (env : Syncenv) : Prop where
  /-- A task is executed by one processor at most. -/
  oneProcessor : ∀ id first second firstStage secondStage,
    env.stage first = some firstStage → firstStage.task = some id →
    env.stage second = some secondStage → secondStage.task = some id → first = second
  /-- A task that no processor holds and that is not finished is once on one of the queues. -/
  oneQueue : ∀ id task, env.tasks id = some task → task.state ≠ .done →
    (∀ slot stage, env.stage slot = some stage → stage.task ≠ some id) →
    env.runq.count id + env.waitq.count id = 1
  runcount : env.runcount = env.runq.length
  waitcount : env.waitcount = env.waitq.length
  procs : env.procs = env.proc.countP Option.isSome
  slots : env.proc.length = syncenvProcMax
  /-- `syncenv_scale` finds its slots in the array. -/
  scales : env.syncenvScale.isSome
  /-- A task that was woken since it was last picked is not on the wait queue. -/
  noneLost : ∀ id, wokenSincePick env.log id → id ∉ env.waitq

theorem Syncenv.SchedInv.scheduled {env : Syncenv} (hinv : env.SchedInv) : Scheduled env where
  oneProcessor := by
    intro id first second firstStage secondStage hfirst hfirstTask hsecond hsecondTask
    obtain ⟨place, hat⟩ := hinv.placed id
    obtain ⟨rfl, -⟩ | ⟨⟨_, rfl⟩, -⟩ := hat.of_stage hfirst hfirstTask <;>
      obtain ⟨hsame, -⟩ | ⟨⟨_, hsame⟩, -⟩ := hat.of_stage hsecond hsecondTask <;>
      cases hsame <;> rfl
  oneQueue := by
    intro id task htask hstate hfree
    obtain ⟨place, hat⟩ := hinv.placed id
    have hrecord := hat.record_of htask
    have hheld : ∀ slot stage, place.stage id slot ≠ some stage := by
      intro slot stage hstage
      rw [← hat.held, Syncenv.holding, Option.filter_eq_some_iff] at hstage
      exact hfree slot stage hstage.1 (by simpa using hstage.2)
    rw [hat.runq, hat.waitq]
    cases place with
    | absent => cases hrecord
    | runq | waitq => rfl
    | running slot | switched slot _ => exact (hheld slot _ (if_pos rfl)).elim
    | finished =>
      obtain ⟨_, ⟨⟩, hfinished⟩ := hrecord
      exact (hstate hfinished).elim
  runcount := hinv.counted.runcount
  waitcount := hinv.counted.waitcount
  procs := hinv.procs
  slots := hinv.length
  scales := by
    obtain ⟨after, hafter, -⟩ := hinv.syncenvScale
    rw [hafter]
    rfl
  noneLost := by
    intro id hwoken hmem
    obtain ⟨place, hat⟩ := hinv.placed id
    obtain rfl := hat.one_le_inWaitq hmem
    obtain ⟨task, htask, -, -, -, hasleep⟩ := hat.record
    rw [← hat.woken task htask, hasleep] at hwoken
    cases hwoken

/-- Synctask scheduling loses no wake-up. -/
theorem synctask_scheduling {env : Syncenv} (hreach : Reachable syncStep Syncenv.start env) :
    Scheduled env :=
  (hreach.invariant Syncenv.SchedInv.start fun _ _ _ hbefore _ hstep =>
    hbefore.step hstep).scheduled

/-- A task that is woken after its yield and before the bookkeeping of its processor is queued to
run. -/
theorem synctask_scheduling_early_wake :
    ∃ env, Reachable syncStep Syncenv.start env ∧ env.runq = [0] ∧ env.waitq = [] ∧
      Scheduled env := by
  obtain ⟨env, hrun, hreach⟩ := Reachable.exists_of_run syncStep Syncenv.start
    [.synctaskNew true, .newScale 0, .look 0, .yield 0, .wake 0, .switchBack 0] rfl
  refine ⟨env, hreach, ?_, ?_, synctask_scheduling hreach⟩ <;> cases hrun <;> rfl

end GlusterFS.Syncop
