import GlusterFS.Syncop.WakeUps

/-!
# Waiting under a guard

A lock and a barrier of `syncop.c` keep their waiters in the same way.  A plain thread
waits on a condition variable.  A synctask puts itself on a queue, releases the guard and
yields, and whoever has something for the waiters takes the first task from the queue and
wakes it.  A section under the guard is one step, but for the wake-up at its end: the
scheduler has a mutex of its own, so its processors may take steps before it.

A task also waits for other things.  Whatever it waits for wakes it once, and not when it
does not wait.
-/

namespace GlusterFS.Syncop

/-- Where a task is between asking to be woken and going on. -/
inductive WaitStage
  | outside
  /-- It has asked, on this queue or of something else, and has not yielded. -/
  | queued (here : Bool)
  /-- In the yield, or back from it and not yet looking at what it waited for. -/
  | yielded (here : Bool)
  deriving DecidableEq

/-- Whether a task at this stage waits on the queue, or for something else. -/
def WaitStage.waits (here : Bool) : WaitStage → Bool
  | .outside => false
  | .queued place | .yielded place => place = here

inductive Party
  | task (id : Nat)
  | thread (id : Nat)
  deriving DecidableEq

/-- Who makes a call: a task on its processor, or a thread that is none. -/
inductive Caller
  | task (slot : Nat)
  | thread (id : Nat)

/-- The members `guard`, `cond` and `waitq` of `synclock_t` and `struct syncbarrier`. -/
structure WaitQueue where
  env : Syncenv
  stages : Nat → WaitStage
  waitq : List Nat
  /-- The task that the holder of the guard has taken from the queue and still has to wake. -/
  waking : Option Nat
  /-- The tasks that something else still has to wake. -/
  elsewhere : List Nat
  /-- The threads in `pthread_cond_wait`. -/
  blocked : List Nat
  /-- The threads on their way out of `pthread_cond_wait`. -/
  roused : List Nat

namespace WaitQueue

variable (queue : WaitQueue)

def start : WaitQueue where
  env := .start
  stages := fun _ => .outside
  waitq := []
  waking := none
  elsewhere := []
  blocked := []
  roused := []

def setStage (id : Nat) (stage : WaitStage) : WaitQueue :=
  { queue with stages := Function.update queue.stages id stage }

/-- A step of the scheduler.  A task yields when it has asked to be woken. -/
def sched (label : SyncLabel) : Option WaitQueue :=
  match label with
  | .wake id =>
    if id ∈ queue.elsewhere then
      (syncStep queue.env label).map fun env =>
        { queue with env := env, elsewhere := queue.elsewhere.erase id }
    else none
  | .yield slot =>
    (queue.env.runningTask slot).bind fun (id, _) =>
      match queue.stages id with
      | .queued here =>
        (syncStep queue.env label).map fun env =>
          { queue.setStage id (.yielded here) with env := env }
      | .outside | .yielded _ => none
  | .finish slot =>
    (queue.env.runningTask slot).bind fun (id, _) =>
      if queue.stages id = .outside then
        (syncStep queue.env label).map fun env => { queue with env := env }
      else none
  | .synctaskNew _ | .newScale _ | .newReturn _ | .look _ | .sleepReturn _ _ | .switchBack _
  | .procScale _ => (syncStep queue.env label).map fun env => { queue with env := env }

/-- A task asks something else to wake it. -/
def ask (slot : Nat) : Option WaitQueue :=
  (queue.env.runningTask slot).bind fun (id, _) =>
    if queue.stages id = .outside then
      some { queue.setStage id (.queued false) with elsewhere := id :: queue.elsewhere }
    else none

/-- A task goes on after it has waited for something else. -/
def resume (slot : Nat) : Option WaitQueue :=
  (queue.env.runningTask slot).bind fun (id, _) =>
    if queue.stages id = .yielded false then some (queue.setStage id .outside) else none

/-- A thread returns from `pthread_cond_wait`; it may do so without a signal. -/
def release (index : Nat) : Option WaitQueue :=
  (queue.blocked[index]?).map fun id =>
    { queue with blocked := queue.blocked.eraseIdx index, roused := id :: queue.roused }

/-- `synctask_wake`, and the release of the guard -/
def wakeTask : Option WaitQueue :=
  queue.waking.bind fun id =>
    (syncStep queue.env (.wake id)).map fun env => { queue with env := env, waking := none }

end WaitQueue

inductive QueueLabel
  | sched (label : SyncLabel)
  | ask (slot : Nat)
  | resume (slot : Nat)
  | release (index : Nat)
  | wakeTask

namespace WaitQueue

variable (queue : WaitQueue)

/-- The steps that do not start with taking the guard. -/
def step : QueueLabel → Option WaitQueue
  | .sched label => queue.sched label
  | .ask slot => queue.ask slot
  | .resume slot => queue.resume slot
  | .release index => queue.release index
  | .wakeTask => queue.wakeTask

/-- Who takes the guard, to make a call or to go on with its loop. -/
def caller : Caller → Option Party
  | .task slot =>
    if queue.waking = none then
      (queue.env.runningTask slot).bind fun (id, _) =>
        match queue.stages id with
        | .outside | .yielded true => some (.task id)
        | .queued _ | .yielded false => none
    else none
  | .thread id =>
    if queue.waking = none ∧ id ∉ queue.blocked then some (.thread id) else none

/-- Whether the party is not in the middle of a call. -/
def fresh : Party → Bool
  | .task id => queue.stages id = .outside
  | .thread id => id ∉ queue.roused

/-- A turn of the loop that waits, up to the release of the guard. -/
def park : Party → WaitQueue
  | .task id => { queue.setStage id (.queued true) with waitq := queue.waitq ++ [id] }
  | .thread id =>
    { queue with blocked := queue.blocked ++ [id], roused := queue.roused.erase id }

/-- The end of the loop that waits. -/
def leave : Party → WaitQueue
  | .task id => queue.setStage id .outside
  | .thread id => { queue with roused := queue.roused.erase id }

/-- The first task leaves the queue. -/
def dequeue : WaitQueue :=
  { queue with waking := queue.waitq.head?, waitq := queue.waitq.tail }

/-- `pthread_cond_signal`, and the first task taken from the queue -/
def signal (index : Nat) : Option WaitQueue :=
  if queue.blocked.isEmpty then some queue.dequeue else queue.dequeue.release index

/-- The tasks that nobody has woken yet. -/
def asleep : List Nat := queue.waking.toList ++ queue.waitq ++ queue.elsewhere

def Waiting : Party → Prop
  | .task id => (queue.stages id).waits true = true
  | .thread id => id ∈ queue.blocked ∨ id ∈ queue.roused

/-- Taken from the queue, or released from the condition variable, and not yet going on. -/
def Called : Party → Prop
  | .task id => (queue.stages id).waits true = true ∧ id ∉ queue.waitq
  | .thread id => id ∈ queue.roused

/-- Woken and not yet looking again: the scheduler has the wake-up of the task in its flag, or
runs the task. -/
def Roused : Party → Prop
  | .task id => id ∉ queue.env.waitq ∧
      ((∃ task, queue.env.tasks id = some task ∧ task.woken = true) ∨
        queue.stages id = .yielded true ∧ ∃ slot, queue.env.stage slot = some (.running id))
  | .thread id => id ∈ queue.roused

/-! ## What every step keeps -/

/-- The places that go with a stage of the wait, with whether the task is still to be woken and
with the flag of the scheduler. -/
def Settled : WaitStage → (asleep woken : Bool) → Place → Prop
  | .outside, false, _, .absent | .outside, false, _, .finished | .outside, false, _, .runq
  | .outside, false, _, .switched _ true | .outside, false, false, .running _ => True
  | .queued _, true, false, .running _ | .queued _, false, true, .running _ => True
  | .yielded _, true, false, .switched _ false | .yielded _, true, false, .waitq => True
  | .yielded _, false, true, .switched _ false | .yielded _, false, true, .runq => True
  | .yielded _, false, false, .running _ => True
  | _, _, _, _ => False

variable {stage : WaitStage} {label : SyncLabel} {place : Place} {woken : Bool}

/-- What a step of the scheduler does to a task that it neither wakes nor takes from its
processor. -/
theorem Settled.keep {asleep woken' : Bool} {before : Place} {next id : Nat}
    (hsettled : Settled stage asleep woken before)
    (hplace : Syncenv.PlaceStep next id label before woken place woken')
    (hwake : ∀ id, label ≠ .wake id) (hyield : ∀ slot, label ≠ .yield slot)
    (hfinish : ∀ slot, label = .finish slot → stage = .outside) :
    Settled stage asleep woken' place := by
  cases hplace with
  | wakeSlept | wakeQueued | wakeRunning | wakeSwitched => exact (hwake _ rfl).elim
  | yield => exact (hyield _ rfl).elim
  | finish slot =>
    obtain rfl := hfinish slot rfl
    cases asleep <;> cases woken <;> trivial
  | create | destroy | look | sleepReturn | destroyed | done =>
    cases stage <;> cases asleep <;> cases woken <;> trivial
  | rerun | sleep =>
    cases stage <;> cases asleep <;> trivial

theorem Settled.wake {woken' : Bool} {before : Place} {next id : Nat}
    (hsettled : Settled stage true woken before)
    (hplace : Syncenv.PlaceStep next id (.wake id) before woken place woken') :
    Settled stage false woken' place := by
  cases hplace <;> cases stage <;> cases woken <;> trivial

theorem Settled.yield {here asleep woken' : Bool} {before : Place} {next id slot : Nat}
    (hsettled : Settled (.queued here) asleep woken before)
    (hplace : Syncenv.PlaceStep next id (.yield slot) before woken place woken') :
    Settled (.yielded here) asleep woken' place := by
  cases hplace
  cases asleep <;> cases woken <;> trivial

theorem Settled.awake_cases (hsettled : Settled stage false woken place)
    (hwaits : stage.waits true = true) : place ≠ .absent ∧ place ≠ .waitq ∧
      (woken = true ∨ stage = .yielded true ∧ ∃ slot, place = .running slot) := by
  cases stage with
  | outside => cases hwaits
  | queued here =>
    cases woken <;> cases place <;> simp_all [Settled]
  | yielded here =>
    cases woken <;> cases place <;> simp_all [Settled, WaitStage.waits]

theorem Settled.asleep_cases (hsettled : Settled stage true woken place) :
    (∃ slot, place = .running slot) ∨ (∃ slot, place = .switched slot false) ∨ place = .waitq := by
  cases place with
  | running slot => exact .inl ⟨slot, rfl⟩
  | switched slot done =>
    cases done with
    | false => exact .inr (.inl ⟨slot, rfl⟩)
    | true => cases stage <;> cases woken <;> exact hsettled.elim
  | waitq => exact .inr (.inr rfl)
  | absent | runq | finished => cases stage <;> cases woken <;> exact hsettled.elim

/-- The invariant of one task. -/
def Fits (id : Nat) : Prop :=
  ∃ place, queue.env.At id place ∧
    Settled (queue.stages id) (decide (id ∈ queue.asleep)) (wokenSincePick queue.env.log id) place

structure WaitInv : Prop where
  sched : queue.env.SchedInv
  nodup : queue.asleep.Nodup
  onQueue : ∀ id ∈ queue.waking.toList ++ queue.waitq, (queue.stages id).waits true = true
  away : ∀ id ∈ queue.elsewhere, (queue.stages id).waits false = true
  fits : ∀ id, queue.Fits id

variable {queue} {after : WaitQueue} {id other slot index : Nat} {party : Party}

theorem WaitInv.start : WaitQueue.start.WaitInv where
  sched := .start
  nodup := List.nodup_nil
  onQueue := nofun
  away := nofun
  fits := fun id => by
    obtain ⟨place, hat⟩ := Syncenv.SchedInv.start.placed id
    refine ⟨.absent, ?_, trivial⟩
    cases place with
    | absent => exact hat
    | runq | waitq | running _ | switched _ _ | finished =>
      obtain ⟨_, hsome, -⟩ := hat.record
      cases hsome

/-- A task that no step has touched fits as before. -/
theorem Fits.same (hfits : queue.Fits id) (hsame : queue.env.Same after.env id)
    (hstage : after.stages id = queue.stages id)
    (hasleep : id ∈ after.asleep ↔ id ∈ queue.asleep) : after.Fits id := by
  obtain ⟨place, hat, hsettled⟩ := hfits
  refine ⟨place, hat.same hsame, ?_⟩
  rw [hstage, decide_eq_decide.mpr hasleep, hsame.woken]
  exact hsettled

/-- The task of a processor, between its waits. -/
structure Awake (queue : WaitQueue) (id slot : Nat) : Prop where
  placed : queue.env.At id (.running slot)
  unflagged : wokenSincePick queue.env.log id = false
  awake : id ∉ queue.asleep

variable {task : Synctask}

theorem WaitInv.running (hinv : queue.WaitInv)
    (hrunning : queue.env.runningTask slot = some (id, task)) :
    ∃ asleep, asleep = decide (id ∈ queue.asleep) ∧ queue.env.At id (.running slot) ∧
      Settled (queue.stages id) asleep (wokenSincePick queue.env.log id) (.running slot) := by
  obtain ⟨place, hat, hsettled⟩ := hinv.fits id
  obtain ⟨rfl, -⟩ | ⟨-, hcontra⟩ :=
    hat.of_stage (Syncenv.runningTask_eq_some hrunning).1 rfl
  · exact ⟨_, rfl, hat, hsettled⟩
  · cases hcontra

theorem WaitInv.awake (hinv : queue.WaitInv)
    (hrunning : queue.env.runningTask slot = some (id, task))
    (hstage : ∀ here, queue.stages id ≠ .queued here) : queue.Awake id slot := by
  obtain ⟨asleep, hasleep, hat, hsettled⟩ := hinv.running hrunning
  generalize hwoken : wokenSincePick queue.env.log id = woken at hsettled
  cases hstages : queue.stages id with
  | queued here => exact (hstage here hstages).elim
  | outside | yielded =>
    rw [hstages] at hsettled
    cases asleep <;> cases woken <;> first
      | exact hsettled.elim
      | exact ⟨hat, hwoken, of_decide_eq_false hasleep.symm⟩

variable {env : Syncenv}

/-- The scheduler takes a step that neither wakes a task nor lets one yield. -/
theorem WaitInv.keep (hinv : queue.WaitInv) (hstep : syncStep queue.env label = some env)
    (hwake : ∀ id, label ≠ .wake id) (hyield : ∀ slot, label ≠ .yield slot)
    (hfinish : ∀ slot, label = .finish slot →
      ∀ id, queue.env.stage slot = some (.running id) → queue.stages id = .outside) :
    ({ queue with env := env }).WaitInv where
  sched := hinv.sched.step hstep
  nodup := hinv.nodup
  onQueue := hinv.onQueue
  away := hinv.away
  fits := fun other => by
    obtain ⟨-, hquiet⟩ | ⟨id, before, place, hat, hmoves, hplace⟩ := hinv.sched.step_cases hstep
    · exact (hinv.fits other).same (hquiet.same other) rfl .rfl
    · by_cases hother : other = id
      · subst hother
        obtain ⟨found, hfound, hsettled⟩ := hinv.fits other
        obtain rfl := hfound.unique hat
        refine ⟨place, hmoves.arrives, hsettled.keep hplace hwake hyield ?_⟩
        rintro slot rfl
        obtain rfl := hplace.finish_running
        exact hfinish slot rfl other hat.stage_eq
      · exact (hinv.fits other).same (hmoves.same other hother) rfl .rfl

theorem WaitInv.fits_wake (hinv : queue.WaitInv) (hmem : id ∈ queue.asleep)
    (hstep : syncStep queue.env (.wake id) = some after.env) (hstages : after.stages = queue.stages)
    (hasleep : ∀ other, other ∈ after.asleep ↔ other ≠ id ∧ other ∈ queue.asleep) (other : Nat) :
    after.Fits other := by
  obtain ⟨hidle, -⟩ | ⟨moved, before, place, hat, hmoves, hplace⟩ :=
    hinv.sched.step_cases hstep
  · cases hidle
  · obtain rfl := hplace.wake_id
    by_cases hother : other = moved
    · subst hother
      obtain ⟨found, hfound, hsettled⟩ := hinv.fits other
      obtain rfl := hfound.unique hat
      rw [decide_eq_true hmem] at hsettled
      refine ⟨place, hmoves.arrives, ?_⟩
      rw [hstages, decide_eq_false (by simp [hasleep])]
      exact hsettled.wake hplace
    · exact (hinv.fits other).same (hmoves.same other hother) (by rw [hstages])
        (by simp [hasleep, hother])

theorem waits_update {stages : Nat → WaitStage} {here : Bool}
    (hkeeps : stage.waits here = (stages id).waits here) (other : Nat) :
    (Function.update stages id stage other).waits here = (stages other).waits here := by
  by_cases hother : other = id
  · subst hother
    rw [Function.update_self, hkeeps]
  · rw [Function.update_of_ne hother]

/-- What the steps that do not take the guard leave to the waiters. -/
structure Frame (queue after : WaitQueue) : Prop where
  waitq : after.waitq = queue.waitq
  waits : ∀ id, (after.stages id).waits true = (queue.stages id).waits true
  blocked : after.blocked.Sublist queue.blocked
  roused : queue.roused ⊆ after.roused
  threads : ∀ id, id ∈ after.blocked ∨ id ∈ after.roused ↔ id ∈ queue.blocked ∨ id ∈ queue.roused

theorem Frame.of_eq (hwaitq : after.waitq = queue.waitq)
    (hwaits : ∀ id, (after.stages id).waits true = (queue.stages id).waits true)
    (hblocked : after.blocked = queue.blocked) (hroused : after.roused = queue.roused) :
    queue.Frame after where
  waitq := hwaitq
  waits := hwaits
  blocked := hblocked ▸ .refl _
  roused := hroused ▸ List.Subset.refl _
  threads := by simp [hblocked, hroused]

theorem WaitInv.yield {here : Bool} (hinv : queue.WaitInv)
    (hrunning : queue.env.runningTask slot = some (id, task))
    (hstage : queue.stages id = .queued here)
    (hstep : syncStep queue.env (.yield slot) = some env) :
    ({ queue.setStage id (.yielded here) with env := env }).WaitInv where
  sched := hinv.sched.step hstep
  nodup := hinv.nodup
  onQueue := fun other hother =>
    (waits_update (by rw [hstage]; rfl) other).trans (hinv.onQueue other hother)
  away := fun other hother =>
    (waits_update (by rw [hstage]; rfl) other).trans (hinv.away other hother)
  fits := fun other => by
    obtain ⟨hidle, -⟩ | ⟨moved, before, place, hat, hmoves, hplace⟩ :=
      hinv.sched.step_cases hstep
    · cases hidle
    · obtain rfl := hplace.yield_running
      obtain rfl : moved = id := by
        have hsame := hat.stage_eq.symm.trans (Syncenv.runningTask_eq_some hrunning).1
        cases hsame
        rfl
      by_cases hother : other = moved
      · subst hother
        obtain ⟨found, hfound, hsettled⟩ := hinv.fits other
        obtain rfl := hfound.unique hat
        rw [hstage] at hsettled
        refine ⟨place, hmoves.arrives, ?_⟩
        simp only [setStage, Function.update_self]
        exact hsettled.yield hplace
      · exact (hinv.fits other).same (hmoves.same other hother) (Function.update_of_ne hother _ _)
          .rfl

/-- The task of a processor, between its waits, goes to another stage. -/
theorem WaitInv.setAwake (hinv : queue.WaitInv) (hawake : queue.Awake id slot)
    (henv : after.env = queue.env) (hstages : after.stages = Function.update queue.stages id stage)
    (hnodup : after.asleep.Nodup)
    (hqueue : ∀ other, other ≠ id → (other ∈ after.waking.toList ++ after.waitq ↔
      other ∈ queue.waking.toList ++ queue.waitq))
    (helsewhere : ∀ other, other ≠ id → (other ∈ after.elsewhere ↔ other ∈ queue.elsewhere))
    (honQueue : id ∈ after.waking.toList ++ after.waitq → stage.waits true = true)
    (haway : id ∈ after.elsewhere → stage.waits false = true)
    (hsettled : Settled stage (decide (id ∈ after.asleep)) false (.running slot)) :
    after.WaitInv where
  sched := henv ▸ hinv.sched
  nodup := hnodup
  onQueue := fun other hmem => by
    rw [hstages]
    by_cases hother : other = id
    · subst hother
      rw [Function.update_self]
      exact honQueue hmem
    · rw [Function.update_of_ne hother]
      exact hinv.onQueue other ((hqueue other hother).mp hmem)
  away := fun other hmem => by
    rw [hstages]
    by_cases hother : other = id
    · subst hother
      rw [Function.update_self]
      exact haway hmem
    · rw [Function.update_of_ne hother]
      exact hinv.away other ((helsewhere other hother).mp hmem)
  fits := fun other => by
    by_cases hother : other = id
    · subst hother
      refine ⟨.running slot, henv ▸ hawake.placed, ?_⟩
      rw [hstages, Function.update_self, henv, hawake.unflagged]
      exact hsettled
    · refine (hinv.fits other).same (henv ▸ .refl _ other) (by rw [hstages]; simp [hother]) ?_
      exact List.mem_append.trans
        ((or_congr (hqueue other hother) (helsewhere other hother)).trans List.mem_append.symm)

/-- The thread that returns, and what that means for the others. -/
theorem frame_release (hstep : queue.release index = some after) :
    queue.Frame after ∧ ∃ id ∈ queue.blocked, id ∈ after.roused := by
  obtain ⟨id, hget, rfl⟩ := Option.map_eq_some_iff.mp hstep
  obtain ⟨hindex, hid⟩ := List.getElem?_eq_some_iff.mp hget
  have hmem : id ∈ queue.blocked := List.mem_of_getElem? hget
  refine ⟨⟨rfl, fun _ => rfl, List.eraseIdx_sublist _ _, List.subset_cons_self _ _, ?_⟩, id, hmem,
    List.mem_cons_self⟩
  intro other
  have hperm : (id :: queue.blocked.eraseIdx index).Perm queue.blocked :=
    hid ▸ List.getElem_cons_eraseIdx_perm hindex
  rw [← hperm.mem_iff]
  simp only [List.mem_cons]
  tauto

theorem Awake.not_mem (hawake : queue.Awake id slot) :
    id ∉ queue.waking.toList ++ queue.waitq ∧ id ∉ queue.elsewhere :=
  not_or.mp fun hmem => hawake.awake (List.mem_append.mpr hmem)

section

variable (hinv : queue.WaitInv)

include hinv

theorem WaitInv.outside (hawake : queue.Awake id slot) : (queue.setStage id .outside).WaitInv := by
  obtain ⟨hqueue, helsewhere⟩ := hawake.not_mem
  refine hinv.setAwake hawake rfl rfl hinv.nodup (fun _ _ => .rfl) (fun _ _ => .rfl)
    (fun hmem => (hqueue hmem).elim) (fun hmem => (helsewhere hmem).elim) ?_
  have hnot : id ∉ (queue.setStage id .outside).asleep := hawake.awake
  rw [decide_eq_false hnot]
  trivial

theorem WaitInv.ask (hstep : queue.ask slot = some after) : after.WaitInv ∧ queue.Frame after := by
  simp only [WaitQueue.ask, Option.bind_eq_some_iff, Option.ite_none_right_eq_some, Prod.exists,
    Option.some.injEq] at hstep
  obtain ⟨id, task, hrunning, hstage, rfl⟩ := hstep
  have hawake := hinv.awake hrunning (by simp [hstage])
  refine ⟨hinv.setAwake hawake rfl rfl ?_ (fun _ _ => .rfl) (fun other hother => by simp [hother])
    (fun hmem => (hawake.not_mem.1 hmem).elim) (fun _ => rfl) ?_,
    .of_eq rfl (waits_update (by rw [hstage]; rfl)) rfl rfl⟩
  · exact (List.perm_middle.nodup_iff).mpr (List.nodup_cons.mpr ⟨hawake.awake, hinv.nodup⟩)
  · rw [decide_eq_true (by simp [asleep])]
    trivial

theorem WaitInv.resume (hstep : queue.resume slot = some after) :
    after.WaitInv ∧ queue.Frame after := by
  simp only [WaitQueue.resume, Option.bind_eq_some_iff, Option.ite_none_right_eq_some, Prod.exists,
    Option.some.injEq] at hstep
  obtain ⟨id, task, hrunning, hstage, rfl⟩ := hstep
  exact ⟨hinv.outside (hinv.awake hrunning (by simp [hstage])),
    .of_eq rfl (waits_update (by rw [hstage]; rfl)) rfl rfl⟩

theorem WaitInv.same (henv : after.env = queue.env) (hstages : after.stages = queue.stages)
    (hqueue : after.waking.toList ++ after.waitq = queue.waking.toList ++ queue.waitq)
    (helsewhere : after.elsewhere = queue.elsewhere) : after.WaitInv := by
  have hasleep : after.asleep = queue.asleep := by rw [asleep, asleep, hqueue, helsewhere]
  exact ⟨henv ▸ hinv.sched, hasleep ▸ hinv.nodup, by rw [hqueue, hstages]; exact hinv.onQueue,
    by rw [helsewhere, hstages]; exact hinv.away,
    fun id => (hinv.fits id).same (henv ▸ .refl _ id) (by rw [hstages]) (by rw [hasleep])⟩

theorem WaitInv.release (hstep : queue.release index = some after) : after.WaitInv := by
  obtain ⟨id, -, rfl⟩ := Option.map_eq_some_iff.mp hstep
  exact hinv.same rfl rfl rfl rfl

theorem WaitInv.dequeue (hguard : queue.waking = none) : queue.dequeue.WaitInv := by
  refine hinv.same rfl rfl ?_ rfl
  rw [hguard]
  cases hwaitq : queue.waitq <;> simp [WaitQueue.dequeue, hwaitq]

theorem WaitInv.signal (hguard : queue.waking = none) (hstep : queue.signal index = some after) :
    after.WaitInv := by
  rw [WaitQueue.signal] at hstep
  split at hstep
  · cases hstep
    exact hinv.dequeue hguard
  · exact (hinv.dequeue hguard).release hstep

theorem WaitInv.wakeTask (hstep : queue.wakeTask = some after) :
    after.WaitInv ∧ queue.Frame after := by
  obtain ⟨id, hwaking, hbody⟩ := Option.bind_eq_some_iff.mp hstep
  obtain ⟨env, henv, rfl⟩ := Option.map_eq_some_iff.mp hbody
  have hasleep : queue.asleep = id :: (queue.waitq ++ queue.elsewhere) := by
    simp [asleep, hwaking]
  obtain ⟨hfresh, hnodup⟩ := List.nodup_cons.mp (hasleep ▸ hinv.nodup)
  refine ⟨⟨hinv.sched.step henv, hnodup,
    fun other hmem => hinv.onQueue other (List.mem_append_right _ hmem), hinv.away,
    hinv.fits_wake (by simp [hasleep]) henv rfl fun other => ?_⟩, .of_eq rfl (fun _ => rfl) rfl rfl⟩
  rw [hasleep, List.mem_cons]
  refine ⟨fun hmem => ⟨fun heq => hfresh (heq ▸ hmem), .inr hmem⟩, ?_⟩
  rintro ⟨hother, heq | hmem⟩
  · exact (hother heq).elim
  · exact hmem

theorem WaitInv.wakeElsewhere (hmem : id ∈ queue.elsewhere)
    (hstep : syncStep queue.env (.wake id) = some env) :
    ({ queue with env := env, elsewhere := queue.elsewhere.erase id }).WaitInv := by
  obtain ⟨hqueue, helsewhere, hdisjoint⟩ := List.nodup_append.mp hinv.nodup
  have hnot : id ∉ queue.waking.toList ++ queue.waitq :=
    fun hqueued => hdisjoint id hqueued id hmem rfl
  refine ⟨hinv.sched.step hstep, ?_, hinv.onQueue,
    fun other hother => hinv.away other (List.mem_of_mem_erase hother),
    hinv.fits_wake (List.mem_append_right _ hmem) hstep rfl fun other => ?_⟩
  · exact hinv.nodup.sublist (.append (.refl _) List.erase_sublist)
  · simp only [asleep, List.mem_append, helsewhere.mem_erase_iff] at hnot ⊢
    constructor
    · rintro (hqueued | ⟨hother, hrest⟩)
      · exact ⟨fun heq => hnot (heq ▸ hqueued), .inl hqueued⟩
      · exact ⟨hother, .inr hrest⟩
    · rintro ⟨hother, hqueued | hrest⟩
      · exact .inl hqueued
      · exact .inr ⟨hother, hrest⟩

theorem WaitInv.schedStep (hstep : queue.sched label = some after) :
    after.WaitInv ∧ queue.Frame after := by
  cases label <;> simp only [WaitQueue.sched, Option.bind_eq_some_iff, Option.map_eq_some_iff,
    Option.ite_none_right_eq_some, Prod.exists] at hstep
  case wake id =>
    obtain ⟨hmem, env, henv, rfl⟩ := hstep
    exact ⟨hinv.wakeElsewhere hmem henv, .of_eq rfl (fun _ => rfl) rfl rfl⟩
  case yield slot =>
    obtain ⟨id, task, hrunning, hbody⟩ := hstep
    split at hbody
    · rename_i here hstage
      obtain ⟨env, henv, rfl⟩ := Option.map_eq_some_iff.mp hbody
      exact ⟨hinv.yield hrunning hstage henv,
        .of_eq rfl (waits_update (by rw [hstage]; rfl)) rfl rfl⟩
    all_goals cases hbody
  case finish slot =>
    obtain ⟨id, task, hrunning, hstage, env, henv, rfl⟩ := hstep
    refine ⟨hinv.keep henv nofun nofun ?_, .of_eq rfl (fun _ => rfl) rfl rfl⟩
    intro _ hslot other hother
    cases hslot
    cases (Syncenv.runningTask_eq_some hrunning).1.symm.trans hother
    exact hstage
  all_goals
    obtain ⟨env, henv, rfl⟩ := hstep
    exact ⟨hinv.keep henv nofun nofun nofun, .of_eq rfl (fun _ => rfl) rfl rfl⟩

theorem WaitInv.step {label : QueueLabel} (hstep : queue.step label = some after) :
    after.WaitInv ∧ queue.Frame after := by
  cases label with
  | sched label => exact hinv.schedStep hstep
  | ask slot => exact hinv.ask hstep
  | resume slot => exact hinv.resume hstep
  | release index => exact ⟨hinv.release hstep, (frame_release hstep).1⟩
  | wakeTask => exact hinv.wakeTask hstep

end

/-- Who has the guard: nobody is about to be woken, and a task is awake. -/
inductive Guarded (queue : WaitQueue) : Party → Prop
  | task {id slot : Nat} : queue.waking = none → queue.Awake id slot → Guarded queue (.task id)
  | thread {id : Nat} : queue.waking = none → id ∉ queue.blocked → Guarded queue (.thread id)

theorem Guarded.waking (hguarded : queue.Guarded party) : queue.waking = none := by
  cases hguarded <;> assumption

theorem WaitInv.guarded {caller : Caller} (hinv : queue.WaitInv)
    (hcaller : queue.caller caller = some party) : queue.Guarded party := by
  cases caller with
  | task slot =>
    obtain ⟨hguard, hbody⟩ := Option.ite_none_right_eq_some.mp hcaller
    obtain ⟨⟨id, task⟩, hrunning, hbody⟩ := Option.bind_eq_some_iff.mp hbody
    simp only at hbody
    split at hbody <;> cases hbody <;>
      exact .task hguard (hinv.awake hrunning (by simp [*]))
  | thread id =>
    obtain ⟨⟨hguard, hout⟩, hbody⟩ := Option.ite_none_right_eq_some.mp hcaller
    cases hbody
    exact .thread hguard hout

theorem WaitInv.park (hinv : queue.WaitInv) (hguarded : queue.Guarded party) :
    (queue.park party).WaitInv := by
  cases hguarded with
  | thread => exact hinv.same rfl rfl rfl rfl
  | @task id slot hguard hawake =>
    have hasleep : (queue.park (.task id)).asleep =
        queue.waking.toList ++ queue.waitq ++ id :: queue.elsewhere := by
      simp [WaitQueue.park, setStage, asleep]
    refine hinv.setAwake hawake rfl rfl ?_ (fun other hother => ?_) (fun _ _ => .rfl)
      (fun _ => rfl) (fun hmem => (hawake.not_mem.2 hmem).elim) ?_
    · rw [hasleep]
      exact (List.perm_middle.nodup_iff).mpr (List.nodup_cons.mpr ⟨hawake.awake, hinv.nodup⟩)
    · simp [WaitQueue.park, setStage, hother]
    · rw [decide_eq_true (by simp [hasleep])]
      trivial

theorem WaitInv.leave (hinv : queue.WaitInv) (hguarded : queue.Guarded party) :
    (queue.leave party).WaitInv := by
  cases hguarded with
  | thread => exact hinv.same rfl rfl rfl rfl
  | task _ hawake => exact hinv.outside hawake

/-! ## Waiters -/

theorem Frame.waiting (hframe : queue.Frame after) (party : Party) :
    after.Waiting party ↔ queue.Waiting party := by
  cases party with
  | task id => simp only [Waiting, hframe.waits id]
  | thread id => exact hframe.threads id

theorem Frame.called (hframe : queue.Frame after) (hcalled : queue.Called party) :
    after.Called party := by
  cases party with
  | task id => simpa only [Called, hframe.waits id, hframe.waitq] using hcalled
  | thread id => exact hframe.roused hcalled

theorem Called.waiting (hcalled : queue.Called party) : queue.Waiting party := by
  cases party with
  | task id => exact hcalled.1
  | thread id => exact .inr hcalled

/-- With the guard free, whoever is off the queue has been woken. -/
theorem WaitInv.roused (hinv : queue.WaitInv) (hguard : queue.waking = none)
    (hcalled : queue.Called party) : queue.Roused party := by
  cases party with
  | thread id => exact hcalled
  | task id =>
    obtain ⟨hwaits, hqueue⟩ := hcalled
    have hawake : id ∉ queue.asleep := by
      simp only [asleep, hguard, Option.toList_none, List.nil_append, List.mem_append, not_or]
      refine ⟨hqueue, fun hmem => ?_⟩
      have haway := hinv.away id hmem
      cases hstage : queue.stages id <;> simp_all [WaitStage.waits]
    obtain ⟨place, hat, hsettled⟩ := hinv.fits id
    rw [decide_eq_false hawake] at hsettled
    obtain ⟨hrecord, hwaitq, hwoken⟩ := hsettled.awake_cases hwaits
    refine ⟨fun hmem => hwaitq (hat.one_le_inWaitq hmem), ?_⟩
    obtain hwoken | ⟨hstage, slot, rfl⟩ := hwoken
    · obtain ⟨task, htask⟩ := hat.exists_task hrecord
      exact .inl ⟨task, htask, (hat.woken task htask).trans hwoken⟩
    · exact .inr ⟨hstage, slot, hat.stage_eq⟩

/-- The task that is to be woken exists and is not finished. -/
theorem WaitInv.wakeTask_isSome (hinv : queue.WaitInv) (hsome : queue.waking.isSome) :
    queue.wakeTask.isSome := by
  obtain ⟨id, hwaking⟩ := Option.isSome_iff_exists.mp hsome
  obtain ⟨place, hat, hsettled⟩ := hinv.fits id
  rw [decide_eq_true (by simp [asleep, hwaking])] at hsettled
  have htask : ∃ task, queue.env.tasks id = some task ∧ task.state ≠ .done := by
    obtain ⟨slot, rfl⟩ | ⟨slot, rfl⟩ | rfl := hsettled.asleep_cases <;>
      obtain ⟨task, htask, hstate, -⟩ := hat.record <;>
      exact ⟨task, htask, by simp [hstate]⟩
  obtain ⟨task, htask, hstate⟩ := htask
  simp [WaitQueue.wakeTask, hwaking, syncStep, htask, hstate]

end WaitQueue

end GlusterFS.Syncop
