import Mathlib.Data.UInt

/-!
# Guarded runs of a labelled transition function

A component is a partial step function on its state, one label per atomic
action.  A run is a list of labels.  A guard restricts the runs under
consideration to those whose every step meets a condition on the state before
the step and on the label, and the trivial guard gives back all the runs.
-/

namespace GlusterFS.Transition

variable {State Label : Type*}

/-- States reached from `initial` by steps that all meet `guard`. -/
inductive ReachableUnder (step : State → Label → Option State)
    (guard : State → Label → Prop) (initial : State) : State → Prop
  | start : ReachableUnder step guard initial initial
  | next {before after : State} {label : Label} :
      ReachableUnder step guard initial before → guard before label →
      step before label = some after →
      ReachableUnder step guard initial after

/-- States reached from `initial` by any steps. -/
abbrev Reachable (step : State → Label → Option State) (initial : State) : State → Prop :=
  ReachableUnder step (fun _ _ => True) initial

variable {step : State → Label → Option State}
variable {guard : State → Label → Prop} {initial state : State}

/-- A property of the initial state that every guarded step keeps holds in every state reached.
The step may use that the state before it was reached. -/
theorem ReachableUnder.invariant_along (property : State → Prop) (hinitial : property initial)
    (hstep : ∀ {before label after}, ReachableUnder step guard initial before →
      guard before label → step before label = some after → property before → property after)
    (hreach : ReachableUnder step guard initial state) : property state := by
  induction hreach with
  | start => exact hinitial
  | next hbefore hguard hafter ih => exact hstep hbefore hguard hafter ih

theorem ReachableUnder.invariant {invariant : State → Prop} (hinitial : invariant initial)
    (hstep : ∀ before label after, invariant before → guard before label →
      step before label = some after → invariant after)
    (hreach : ReachableUnder step guard initial state) : invariant state :=
  hreach.invariant_along invariant hinitial fun _ hguard hafter hbefore =>
    hstep _ _ _ hbefore hguard hafter

/-- What every move of a sequence of moves keeps, the sequence keeps. -/
theorem preserved_of_moves {move : State → State → Prop} (property : State → Prop)
    {before after : State} (hmoves : Relation.ReflTransGen move before after)
    (hkeep : ∀ {left right}, move left right → property left → property right)
    (hbefore : property before) : property after := by
  induction hmoves with
  | refl => exact hbefore
  | tail _ hmove ih => exact hkeep hmove ih

/-- A loop over a list makes a sequence of moves if every turn does and leaves what the turns
to come need. -/
theorem foldl_moves {Loop Item : Type*} {turn : Loop → Item → Loop} {move : State → State → Prop}
    (view : Loop → State) (ready : Loop → List Item → Prop)
    (hturn : ∀ {loop item rest}, ready loop (item :: rest) →
      Relation.ReflTransGen move (view loop) (view (turn loop item)) ∧ ready (turn loop item) rest)
    {items : List Item} {loop : Loop} (hready : ready loop items) :
    Relation.ReflTransGen move (view loop) (view (items.foldl turn loop)) ∧
      ready (items.foldl turn loop) [] := by
  induction items generalizing loop with
  | nil => exact ⟨.refl, hready⟩
  | cons item rest ih =>
    obtain ⟨hmoves, hnext⟩ := hturn hready
    exact ⟨hmoves.trans (ih hnext).1, (ih hnext).2⟩

/-- Execute a list of labels from a state. -/
def run (step : State → Label → Option State) (start : State)
    (labels : List Label) : Option State :=
  labels.foldlM step start

/-- Every step of the run meets the guard. -/
def GuardedRun (step : State → Label → Option State)
    (guard : State → Label → Prop) : State → List Label → Prop
  | _, [] => True
  | state, label :: labels => guard state label ∧ match step state label with
      | some after => GuardedRun step guard after labels
      | none => True

instance GuardedRun.decidable [∀ state label, Decidable (guard state label)] :
    (state : State) → (labels : List Label) → Decidable (GuardedRun step guard state labels)
  | _, [] => inferInstanceAs (Decidable True)
  | state, label :: labels =>
    have : Decidable (match step state label with
        | some after => GuardedRun step guard after labels
        | none => True) :=
      match step state label with
      | some after => GuardedRun.decidable after labels
      | none => inferInstanceAs (Decidable True)
    inferInstanceAs (Decidable (guard state label ∧ _))

theorem ReachableUnder.of_run (labels : List Label) {start : State}
    (hstart : ReachableUnder step guard initial start)
    (hguard : GuardedRun step guard start labels)
    (hrun : run step start labels = some state) :
    ReachableUnder step guard initial state := by
  induction labels generalizing start with
  | nil =>
    simp only [run, List.foldlM_nil, Option.pure_def, Option.some.injEq] at hrun
    exact hrun ▸ hstart
  | cons label labels ih =>
    simp only [run, List.foldlM_cons, Option.bind_eq_bind, Option.bind_eq_some_iff] at hrun
    obtain ⟨middle, hmiddle, hrest⟩ := hrun
    simp only [GuardedRun, hmiddle] at hguard
    exact ih (.next hstart hguard.1 hmiddle) hguard.2 hrest

theorem guardedRun_true (labels : List Label) (start : State) :
    GuardedRun step (fun _ _ => True) start labels := by
  induction labels generalizing start with
  | nil => trivial
  | cons label labels ih =>
    refine ⟨trivial, ?_⟩
    cases step start label with
    | none => trivial
    | some after => exact ih after

theorem Reachable.of_run (labels : List Label) {start : State}
    (hstart : Reachable step initial start)
    (hrun : run step start labels = some state) :
    Reachable step initial state :=
  ReachableUnder.of_run labels hstart (guardedRun_true labels start) hrun

/-- A run is no longer than a bound that every step lowers. -/
theorem length_le_of_lowered {invariant : State → Prop} (bound : State → Int)
    (hbound : ∀ state, invariant state → 0 ≤ bound state)
    (hstep : ∀ before label after, invariant before → guard before label →
      step before label = some after → invariant after ∧ bound after < bound before)
    (labels : List Label) {start : State} (hstart : invariant start)
    (hguard : GuardedRun step guard start labels) (hrun : run step start labels = some state) :
    labels.length ≤ bound start := by
  induction labels generalizing start with
  | nil => exact hbound start hstart
  | cons label labels ih =>
    simp only [run, List.foldlM_cons, Option.bind_eq_bind, Option.bind_eq_some_iff] at hrun
    obtain ⟨middle, hmiddle, hrest⟩ := hrun
    simp only [GuardedRun, hmiddle] at hguard
    obtain ⟨hinvariant, hlt⟩ := hstep start label middle hstart hguard.1 hmiddle
    have hle := ih hinvariant hguard.2 hrest
    rw [List.length_cons]
    omega

section Exists

variable (step guard initial)

theorem ReachableUnder.exists_of_run (labels : List Label)
    (hguard : GuardedRun step guard initial labels) (hrun : (run step initial labels).isSome) :
    ∃ state, run step initial labels = some state ∧ ReachableUnder step guard initial state := by
  obtain ⟨state, hstate⟩ := Option.isSome_iff_exists.mp hrun
  exact ⟨state, hstate, .of_run labels .start hguard hstate⟩

theorem Reachable.exists_of_run (labels : List Label) (hrun : (run step initial labels).isSome) :
    ∃ state, run step initial labels = some state ∧ Reachable step initial state :=
  ReachableUnder.exists_of_run step _ initial labels (guardedRun_true labels initial) hrun

end Exists

end GlusterFS.Transition
