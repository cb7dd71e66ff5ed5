import Mathlib.Data.UInt

/-!
# Independent pending actions

Several actions on one state are under way at the same time and take effect one after the other in
any order.  When they commute pairwise and none takes from another what it needs, each can still
take effect whenever its turn comes, and the state they leave does not depend on the order.
-/

namespace GlusterFS.PendingActions

variable {Action State : Type*} (apply : Action → State → State) (ready : Action → State → Prop)

structure Independent (first second : Action) : Prop where
  comm : ∀ state, apply first (apply second state) = apply second (apply first state)
  left : ∀ state, ready first state → ready first (apply second state)
  right : ∀ state, ready second state → ready second (apply first state)

/-- The state all the actions leave. -/
def settle (pending : List Action) (state : State) : State :=
  pending.foldl (fun state action => apply action state) state

/-- Every pending action can take effect, and together they lead to the target. -/
structure Pending (pending : List Action) (state target : State) : Prop where
  independent : pending.Pairwise (Independent apply ready)
  ready : ∀ action ∈ pending, ready action state
  settles : settle apply pending state = target

variable {apply ready} {pending : List Action} {state target : State} {action : Action}

@[simp]
theorem settle_nil : settle apply [] state = state := rfl

@[simp]
theorem settle_cons :
    settle apply (action :: pending) state = settle apply pending (apply action state) := rfl

theorem settle_append (first second : List Action) :
    settle apply (first ++ second) state = settle apply second (settle apply first state) :=
  List.foldl_append

theorem settle_ite (condition : Prop) [Decidable condition] (first second : List Action) :
    settle apply (if condition then first else second) state =
      if condition then settle apply first state else settle apply second state := by
  split <;> rfl

/-- An action that commutes with those before it can as well take effect first. -/
theorem settle_comm (state : State)
    (hcomm : ∀ other ∈ pending, Independent apply ready other action) :
    apply action (settle apply pending state) = settle apply pending (apply action state) := by
  induction pending generalizing state with
  | nil => rfl
  | cons head tail ih =>
    have hhead := (hcomm head List.mem_cons_self).comm state
    have htail := ih (apply head state)
      fun other hother => hcomm other (List.mem_cons_of_mem _ hother)
    calc apply action (settle apply tail (apply head state))
        = settle apply tail (apply action (apply head state)) := htail
      _ = settle apply tail (apply head (apply action state)) := by rw [hhead]

theorem Pending.perform {index : Nat} (hpending : Pending apply ready pending state target)
    (hget : pending[index]? = some action) :
    Pending apply ready (pending.eraseIdx index) (apply action state) target := by
  obtain ⟨hlt, rfl⟩ := List.getElem?_eq_some_iff.mp hget
  obtain ⟨hpairwise, hready, hsettles⟩ := hpending
  rw [← List.take_append_drop index pending, List.drop_eq_getElem_cons hlt] at hpairwise hsettles
  obtain ⟨hbefore, hafter, hcross⟩ := List.pairwise_append.mp hpairwise
  obtain ⟨hfirst, hlater⟩ := List.pairwise_cons.mp hafter
  have herase := List.eraseIdx_eq_take_drop_succ pending index
  refine ⟨?_, ?_, ?_⟩
  · rw [herase]
    exact List.pairwise_append.mpr ⟨hbefore, hlater,
      fun left hleft right hright => hcross left hleft right (List.mem_cons_of_mem _ hright)⟩
  · intro other hother
    have hstill := hready other (List.mem_of_mem_eraseIdx hother)
    rw [herase] at hother
    rcases List.mem_append.mp hother with hleft | hright
    · exact (hcross other hleft _ List.mem_cons_self).left _ hstill
    · exact (hfirst other hright).right _ hstill
  · rw [herase, ← hsettles]
    have hcomm := settle_comm state fun other hother => hcross other hother _ List.mem_cons_self
    simp only [settle, List.foldl_append, List.foldl_cons] at hcomm ⊢
    rw [hcomm]

theorem Pending.of_nil (hpending : Pending apply ready [] state target) : state = target :=
  hpending.settles

end GlusterFS.PendingActions
