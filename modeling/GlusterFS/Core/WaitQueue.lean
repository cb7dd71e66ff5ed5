import Mathlib.Data.UInt

/-!
# Lock tables with a queue of waiters

A table keeps the locks that are held and, in the order of their arrival, those
that wait.  A policy judges a lock by the table it is offered to.  Waking takes
all the waiters off the queue and offers them again, one after the other.
-/

namespace GlusterFS.WaitQueue

variable {Lock : Type*}

structure Table (Lock : Type*) where
  granted : List Lock
  blocked : List Lock
  deriving DecidableEq

/-- What becomes of a lock that is offered.  A refused one is forgotten. -/
inductive Verdict
  | grant | block | refuse
  deriving DecidableEq

/-- How locks are judged, and where a granted one is put. -/
structure Policy (Lock : Type*) where
  judge : Table Lock → Lock → Verdict
  place : List Lock → Lock → List Lock
  place_perm : ∀ granted lock, (place granted lock).Perm (lock :: granted)

namespace Policy

variable (policy : Policy Lock)

def offer (table : Table Lock) (lock : Lock) : Table Lock :=
  match policy.judge table lock with
  | .grant => { table with granted := policy.place table.granted lock }
  | .block => { table with blocked := table.blocked ++ [lock] }
  | .refuse => table

/-- One waiter is offered again; those granted so far are kept last first. -/
def wakeOne (state : Table Lock × List Lock) (lock : Lock) : Table Lock × List Lock :=
  (policy.offer state.1 lock,
    if policy.judge state.1 lock = .grant then lock :: state.2 else state.2)

def wake (table : Table Lock) : Table Lock × List Lock :=
  table.blocked.foldl policy.wakeOne (⟨table.granted, []⟩, [])

end Policy

/-- What waking does with a list of waiters: some are granted, some wait on in
the same order, some are refused. -/
structure Woken (policy : Policy Lock) (before after : Table Lock)
    (waiting woken stay dropped : List Lock) : Prop where
  blocked : after.blocked = before.blocked ++ stay
  granted : after.granted.Perm (woken ++ before.granted)
  accounts : waiting.Perm (woken ++ (stay ++ dropped))
  order : stay.Sublist waiting
  refused : ∀ lock ∈ dropped, ∃ table, policy.judge table lock = .refuse
  reason : ∀ front lock behind, stay = front ++ lock :: behind →
    ∃ granted, before.granted ⊆ granted ∧ granted ⊆ after.granted ∧
      policy.judge ⟨granted, before.blocked ++ front⟩ lock = .block

section Waking

variable {policy : Policy Lock} {before after : Table Lock}
variable {waiting woken stay dropped : List Lock} {lock : Lock}

theorem Woken.nil (policy : Policy Lock) (table : Table Lock) :
    Woken policy table table [] [] [] [] where
  blocked := by simp
  granted := .refl _
  accounts := .refl _
  order := .refl _
  refused := by simp
  reason front lock behind h := by simp at h

theorem Woken.cons_grant
    (hrest : Woken policy { before with granted := policy.place before.granted lock } after
      waiting woken stay dropped) :
    Woken policy before after (lock :: waiting) (woken ++ [lock]) stay dropped where
  blocked := hrest.blocked
  granted := by
    refine hrest.granted.trans ?_
    rw [List.append_assoc, List.singleton_append]
    exact (policy.place_perm before.granted lock).append_left woken
  accounts := by
    rw [List.append_assoc, List.singleton_append]
    exact (hrest.accounts.cons lock).trans List.perm_middle.symm
  order := hrest.order.cons lock
  refused := hrest.refused
  reason front waiter behind hsplit := by
    obtain ⟨granted, hbefore, hafter, hblock⟩ := hrest.reason front waiter behind hsplit
    refine ⟨granted, fun held hheld => hbefore ?_, hafter, hblock⟩
    exact (policy.place_perm before.granted lock).mem_iff.mpr (List.mem_cons_of_mem _ hheld)

theorem Woken.cons_block (hjudge : policy.judge before lock = .block)
    (hrest : Woken policy { before with blocked := before.blocked ++ [lock] } after
      waiting woken stay dropped) :
    Woken policy before after (lock :: waiting) woken (lock :: stay) dropped where
  blocked := by rw [hrest.blocked, List.append_assoc, List.singleton_append]
  granted := hrest.granted
  accounts := (hrest.accounts.cons lock).trans List.perm_middle.symm
  order := hrest.order.cons_cons lock
  refused := hrest.refused
  reason front waiter behind hsplit := by
    cases front with
    | nil =>
      obtain ⟨rfl, rfl⟩ := List.cons.inj hsplit
      refine ⟨before.granted, List.Subset.refl _, fun held hheld => ?_, by simpa using hjudge⟩
      exact hrest.granted.mem_iff.mpr (List.mem_append_right _ hheld)
    | cons first front =>
      obtain ⟨rfl, rfl⟩ := List.cons.inj hsplit
      obtain ⟨granted, hbefore, hafter, hblock⟩ := hrest.reason front waiter behind rfl
      refine ⟨granted, hbefore, hafter, ?_⟩
      rwa [List.append_assoc, List.singleton_append] at hblock

theorem Woken.cons_refuse (hjudge : policy.judge before lock = .refuse)
    (hrest : Woken policy before after waiting woken stay dropped) :
    Woken policy before after (lock :: waiting) woken stay (lock :: dropped) where
  blocked := hrest.blocked
  granted := hrest.granted
  accounts := by
    refine (hrest.accounts.cons lock).trans ?_
    rw [← List.append_assoc, ← List.append_assoc]
    exact List.perm_middle.symm
  order := hrest.order.cons lock
  refused := List.forall_mem_cons.mpr ⟨⟨before, hjudge⟩, hrest.refused⟩
  reason := hrest.reason

theorem foldl_wakeOne (policy : Policy Lock) (waiting : List Lock) (before : Table Lock)
    (earlier : List Lock) :
    ∃ woken stay dropped, (waiting.foldl policy.wakeOne (before, earlier)).2 = woken ++ earlier ∧
      Woken policy before (waiting.foldl policy.wakeOne (before, earlier)).1 waiting woken stay
        dropped := by
  induction waiting generalizing before earlier with
  | nil => exact ⟨[], [], [], rfl, .nil policy before⟩
  | cons lock waiting ih =>
    rw [List.foldl_cons, Policy.wakeOne, Policy.offer]
    cases hjudge : policy.judge before lock with
    | grant =>
      obtain ⟨woken, stay, dropped, hwoken, hrest⟩ :=
        ih { before with granted := policy.place before.granted lock } (lock :: earlier)
      refine ⟨woken ++ [lock], stay, dropped, ?_, hrest.cons_grant⟩
      simpa using hwoken
    | block =>
      obtain ⟨woken, stay, dropped, hwoken, hrest⟩ :=
        ih { before with blocked := before.blocked ++ [lock] } earlier
      exact ⟨woken, lock :: stay, dropped, hwoken, hrest.cons_block hjudge⟩
    | refuse =>
      obtain ⟨woken, stay, dropped, hwoken, hrest⟩ := ih before earlier
      exact ⟨woken, stay, lock :: dropped, hwoken, hrest.cons_refuse hjudge⟩

theorem Policy.wake_spec (policy : Policy Lock) (table : Table Lock) :
    ∃ dropped, Woken policy ⟨table.granted, []⟩ (policy.wake table).1 table.blocked
      (policy.wake table).2 (policy.wake table).1.blocked dropped := by
  obtain ⟨woken, stay, dropped, hwoken, hspec⟩ :=
    foldl_wakeOne policy table.blocked ⟨table.granted, []⟩ []
  rw [List.append_nil] at hwoken
  have hstay : (policy.wake table).1.blocked = stay := by
    rw [Policy.wake, hspec.blocked, List.nil_append]
  refine ⟨dropped, ?_⟩
  rw [hstay, show (policy.wake table).2 = woken from hwoken]
  exact hspec

/-- What granting one lock keeps of the granted locks and of the list of those
just woken, waking keeps. -/
theorem Policy.wake_rule (property : List Lock → List Lock → Prop) (policy : Policy Lock)
    (hgrant : ∀ table lock woken, property table.granted woken → policy.judge table lock = .grant →
        property (policy.place table.granted lock) (lock :: woken))
    {table : Table Lock} (htable : property table.granted []) :
    property (policy.wake table).1.granted (policy.wake table).2 := by
  suffices h : ∀ (waiting : List Lock) (state : Table Lock × List Lock),
      property state.1.granted state.2 → property (waiting.foldl policy.wakeOne state).1.granted
          (waiting.foldl policy.wakeOne state).2 from
    h table.blocked (⟨table.granted, []⟩, []) htable
  intro waiting
  induction waiting with
  | nil => exact fun _ h => h
  | cons lock waiting ih =>
    intro state hstate
    refine ih _ ?_
    rw [Policy.wakeOne, Policy.offer]
    cases hjudge : policy.judge state.1 lock with
    | grant => exact hgrant state.1 lock state.2 hstate hjudge
    | block => exact hstate
    | refuse => exact hstate

end Waking

end GlusterFS.WaitQueue
