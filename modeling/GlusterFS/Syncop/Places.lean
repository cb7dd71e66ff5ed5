import GlusterFS.Syncop.Scheduler

/-!
# The place of a task

A task is in one place at a time: on one of the two queues, in the hands of one
processor, finished, or gone.  A place fixes how often the task is on each queue, which
slots hold it, and what its record says, so a step is described by the task that it
moves and leaves every other task where it was.
-/

namespace GlusterFS.Syncop

inductive Place
  | absent
  | runq
  | waitq
  | running (slot : Nat)
  /-- Given back to the scheduler of the processor, for good or to wait. -/
  | switched (slot : Nat) (done : Bool)
  | finished

namespace Place

/-- What the record of a task at a place says. -/
def Record : Place → Option Synctask → Prop
  | .absent, record => record = none
  | .runq, record => ∃ task, record = some task ∧ task.state = .run ∧ task.done = false
  | .waitq, record => ∃ task, record = some task ∧ task.state = .wait ∧ task.done = false ∧
      task.slept = true ∧ task.woken = false
  | .running slot, record => ∃ task, record = some task ∧ task.state = .run ∧
      task.done = false ∧ task.slept = false ∧ task.proc = some slot
  | .switched _ done, record => ∃ task, record = some task ∧
      task.state = (if done then .done else .suspend) ∧ task.done = false ∧ task.slept = false
  | .finished, record => ∃ task, record = some task ∧ task.state = .done

def inRunq : Place → Nat
  | .runq => 1
  | .absent | .waitq | .running _ | .switched _ _ | .finished => 0

def inWaitq : Place → Nat
  | .waitq => 1
  | .absent | .runq | .running _ | .switched _ _ | .finished => 0

/-- What each slot does with the task. -/
def stage (id : Nat) : Place → Nat → Option ProcStage
  | .running slot, index => if index = slot then some (.running id) else none
  | .switched slot _, index => if index = slot then some (.switched id) else none
  | .absent, _ | .runq, _ | .waitq, _ | .finished, _ => none

end Place

namespace Syncenv

variable {env after : Syncenv} {id other slot : Nat} {task : Synctask} {place : Place}

/-- The stage of a slot that holds the task. -/
def holding (env : Syncenv) (id slot : Nat) : Option ProcStage :=
  (env.stage slot).filter fun stage => stage.task = some id

structure At (env : Syncenv) (id : Nat) (place : Place) : Prop where
  record : place.Record (env.tasks id)
  runq : env.runq.count id = place.inRunq
  waitq : env.waitq.count id = place.inWaitq
  held : ∀ slot, env.holding id slot = place.stage id slot
  woken : ∀ task ∈ env.tasks id, task.woken = wokenSincePick env.log id

/-- Nothing that a place speaks about has changed for the task. -/
structure Same (env after : Syncenv) (id : Nat) : Prop where
  tasks : after.tasks id = env.tasks id
  runq : after.runq.count id = env.runq.count id
  waitq : after.waitq.count id = env.waitq.count id
  held : ∀ slot, after.holding id slot = env.holding id slot
  woken : wokenSincePick after.log id = wokenSincePick env.log id

theorem At.record_of (hat : env.At id place) (htask : env.tasks id = some task) :
    place.Record (some task) := htask ▸ hat.record

theorem At.same (hat : env.At id place) (hsame : env.Same after id) : after.At id place where
  record := by rw [hsame.tasks]; exact hat.record
  runq := by rw [hsame.runq, hat.runq]
  waitq := by rw [hsame.waitq, hat.waitq]
  held := fun slot => by rw [hsame.held, hat.held]
  woken := by rw [hsame.tasks, hsame.woken]; exact hat.woken

theorem Same.refl (env : Syncenv) (id : Nat) : env.Same env id := ⟨rfl, rfl, rfl, fun _ => rfl, rfl⟩

theorem Same.trans {middle : Syncenv} (hfirst : env.Same middle id)
    (hsecond : middle.Same after id) : env.Same after id where
  tasks := by rw [hsecond.tasks, hfirst.tasks]
  runq := by rw [hsecond.runq, hfirst.runq]
  waitq := by rw [hsecond.waitq, hfirst.waitq]
  held := fun slot => by rw [hsecond.held, hfirst.held]
  woken := by rw [hsecond.woken, hfirst.woken]

theorem At.one_le_inRunq (hat : env.At id place) (hmem : id ∈ env.runq) : place = .runq := by
  have hcount := hat.runq ▸ List.one_le_count_iff.mpr hmem
  cases place with
  | runq => rfl
  | absent | waitq | running _ | switched _ _ | finished => cases hcount

theorem At.one_le_inWaitq (hat : env.At id place) (hmem : id ∈ env.waitq) : place = .waitq := by
  have hcount := hat.waitq ▸ List.one_le_count_iff.mpr hmem
  cases place with
  | waitq => rfl
  | absent | runq | running _ | switched _ _ | finished => cases hcount

theorem At.of_stage (hat : env.At id place) {stage : ProcStage}
    (hstage : env.stage slot = some stage) (hholds : stage.task = some id) :
    (place = .running slot ∧ stage = .running id) ∨
      ((∃ done, place = .switched slot done) ∧ stage = .switched id) := by
  have hheld : place.stage id slot = some stage := by
    rw [← hat.held, holding, hstage]
    simp [hholds]
  cases place with
  | running index | switched index done =>
    by_cases hslot : slot = index
    · simp_all [Place.stage]
    · simp [Place.stage, hslot] at hheld
  | absent | runq | waitq | finished => cases hheld

theorem At.unique {place' : Place} (hat : env.At id place) (hat' : env.At id place') :
    place = place' := by
  have hrunq := hat.runq.symm.trans hat'.runq
  have hwaitq := hat.waitq.symm.trans hat'.waitq
  have hheld : ∀ slot, place.stage id slot = place'.stage id slot :=
    fun slot => (hat.held slot).symm.trans (hat'.held slot)
  have hrecord := hat.record
  have hrecord' := hat'.record
  cases place with
  | runq => cases place' <;> first | rfl | cases hrunq
  | waitq => cases place' <;> first | rfl | cases hwaitq
  | absent =>
    cases place' with
    | absent => rfl
    | runq | waitq | running _ | switched _ _ | finished =>
      obtain ⟨_, hsome, -⟩ := hrecord'
      cases hsome.symm.trans hrecord
  | finished =>
    cases place' with
    | finished => rfl
    | runq => cases hrunq
    | waitq => cases hwaitq
    | running slot | switched slot _ => cases (hheld slot).trans (if_pos rfl)
    | absent =>
      obtain ⟨_, hsome, -⟩ := hrecord
      cases hsome.symm.trans hrecord'
  | running slot =>
    have hstage : place'.stage id slot = some (.running id) :=
      (hheld slot).symm.trans (if_pos rfl)
    cases place' with
    | running slot' =>
      obtain ⟨rfl, -⟩ := Option.ite_none_right_eq_some.mp hstage
      rfl
    | switched slot' _ => cases (Option.ite_none_right_eq_some.mp hstage).2
    | absent | runq | waitq | finished => cases hstage
  | switched slot done =>
    have hstage : place'.stage id slot = some (.switched id) :=
      (hheld slot).symm.trans (if_pos rfl)
    cases place' with
    | running slot' => cases (Option.ite_none_right_eq_some.mp hstage).2
    | switched slot' done' =>
      obtain ⟨rfl, -⟩ := Option.ite_none_right_eq_some.mp hstage
      obtain ⟨task, hsome, hstate, -⟩ := hrecord
      obtain ⟨_, hsome', hstate', -⟩ := hrecord'
      cases hsome.symm.trans hsome'
      rw [hstate] at hstate'
      cases done <;> cases done' <;> first | rfl | cases hstate'
    | absent | runq | waitq | finished => cases hstage

theorem At.exists_task (hat : env.At id place) (hplace : place ≠ .absent) :
    ∃ task, env.tasks id = some task := by
  have hrecord := hat.record
  cases place with
  | absent => exact (hplace rfl).elim
  | runq | waitq | running _ | switched _ _ | finished =>
    obtain ⟨task, hsome, -⟩ := hrecord
    exact ⟨task, hsome⟩

theorem At.stage_eq (hat : env.At id (.running slot)) : env.stage slot = some (.running id) := by
  have hheld := hat.held slot
  rw [holding, Place.stage, if_pos rfl] at hheld
  exact (Option.filter_eq_some_iff.mp hheld).1

theorem slot_lt_of_stage {stage : ProcStage} (hstage : env.stage slot = some stage) :
    slot < env.proc.length := by
  rw [Syncenv.stage, Option.join_eq_some_iff] at hstage
  exact (List.getElem?_eq_some_iff.mp hstage).1

theorem stage_setProc (env : Syncenv) (hslot : slot < env.proc.length)
    (new : Option ProcStage) (index : Nat) :
    (env.setProc slot new).stage index = if index = slot then new else env.stage index := by
  simp only [stage, setProc]
  by_cases hindex : index = slot
  · subst hindex
    rw [List.getElem?_set_self hslot, if_pos rfl]
    rfl
  · rw [List.getElem?_set_ne (Ne.symm hindex), if_neg hindex]

theorem holding_setProc (env : Syncenv) (hslot : slot < env.proc.length)
    (new : Option ProcStage) (index : Nat) :
    (env.setProc slot new).holding id index =
      if index = slot then new.filter (fun stage => stage.task = some id)
      else env.holding id index := by
  rw [holding, stage_setProc env hslot]
  split <;> rfl

/-- A slot that neither held the task nor gets it is no concern of the task. -/
theorem holding_setProc_of_ne (env : Syncenv) {old new : Option ProcStage}
    (hslot : slot < env.proc.length)
    (hstage : env.stage slot = old) (hold : ∀ stage ∈ old, stage.task ≠ some id)
    (hnew : ∀ stage ∈ new, stage.task ≠ some id) (index : Nat) :
    (env.setProc slot new).holding id index = env.holding id index := by
  rw [holding_setProc env hslot]
  split
  · rename_i hindex
    subst hindex
    rw [holding, hstage, Option.filter_eq_none_iff.mpr, Option.filter_eq_none_iff.mpr]
    · simpa using hold
    · simpa using hnew
  · rfl

end Syncenv

end GlusterFS.Syncop
