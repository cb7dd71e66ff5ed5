import GlusterFS.Locks.Entrylk

/-!
# One entry lock on a name at a time

The log of a run says when a lock was granted and when it was given up.  Between
two grants of conflicting names the earlier lock is given up by its owner, as
long as nobody sends an unlock for the lock of somebody else.
-/

namespace GlusterFS.Locks

open Transition WaitQueue

/-- The owner of the lock gives it up: by an unlock of its own, or because its
transport is released. -/
def EntrylkEvent.Ends (lock : PlEntryLock) : EntrylkEvent → Prop
  | .request _ call => call.transport = lock.transport ∧
      (call.lkOwner.length = 0 ∨ call.cmd = .unlock ∧ call.lkOwner = lock.owner ∧
        call.basename = lock.basename ∧ call.type = lock.type)
  | .grant _ => False
  | .unwind .. => False

instance (lock : PlEntryLock) : (event : EntrylkEvent) → Decidable (event.Ends lock)
  | .request _ _ => inferInstanceAs (Decidable (_ ∧ _))
  | .grant _ => inferInstanceAs (Decidable False)
  | .unwind .. => inferInstanceAs (Decidable False)

/-- Before a conflicting lock is granted the earlier one is given up. -/
def EntrylkExclusive (log : List EntrylkEvent) : Prop :=
  ∀ newer later middle earlier older,
    log = newer ++ .grant later :: (middle ++ .grant earlier :: older) →
      namesConflict earlier.basename later.basename → ∃ event ∈ middle, event.Ends earlier

/-- An unlock is sent by the owner of the lock that it takes away. -/
def OwnUnlock (s : EntrylkState) (label : EntrylkLabel) : Prop :=
  label.call.lkOwner.length ≠ 0 → label.call.cmd = .unlock →
    ∀ found ∈ unlockName s.dom label.call.basename label.call.type,
      label.call.lkOwner = found.1.owner ∧ label.call.transport = found.1.transport
  deriving Decidable

/-- A granted lock stays on the list until it is given up. -/
structure EntrylkHeld (granted : List PlEntryLock) (log : List EntrylkEvent) : Prop where
  listed : ∀ newer lock older, log = newer ++ .grant lock :: older →
    lock ∈ granted ∨ ∃ event ∈ newer, event.Ends lock
  exclusive : EntrylkExclusive log

variable {noMemory : List Nat} {granted rest : List PlEntryLock} {log : List EntrylkEvent}
variable {s : EntrylkState}

theorem EntrylkHeld.nil : EntrylkHeld [] [] :=
  ⟨fun newer lock older h => by simp at h, fun newer later middle earlier older h => by simp at h⟩

/-- An event that grants nothing may take away the locks that it ends. -/
theorem EntrylkHeld.cons (hheld : EntrylkHeld granted log) {event : EntrylkEvent}
    (hevent : ∀ lock, event ≠ .grant lock)
    (hrest : ∀ lock ∈ granted, lock ∈ rest ∨ event.Ends lock) :
    EntrylkHeld rest (event :: log) where
  listed newer lock older hsplit := by
    cases newer with
    | nil => exact absurd (List.cons.inj hsplit).1 (hevent lock)
    | cons first newer =>
      obtain ⟨rfl, rfl⟩ := List.cons.inj hsplit
      rcases hheld.listed newer lock older rfl with hmem | ⟨found, hfound, hends⟩
      · refine (hrest lock hmem).imp (fun h => h) fun h => ?_
        exact ⟨event, List.mem_cons_self, h⟩
      · exact .inr ⟨found, List.mem_cons_of_mem _ hfound, hends⟩
  exclusive newer later middle earlier older hsplit hconflict := by
    cases newer with
    | nil => exact absurd (List.cons.inj hsplit).1 (hevent later)
    | cons first newer =>
      exact hheld.exclusive newer later middle earlier older (List.cons.inj hsplit).2 hconflict

theorem EntrylkHeld.append (hheld : EntrylkHeld granted log) (events : List EntrylkEvent)
    (hevents : ∀ event ∈ events, ∀ lock, event ≠ .grant lock) :
    EntrylkHeld granted (events ++ log) := by
  induction events with
  | nil => exact hheld
  | cons event events ih =>
    obtain ⟨hevent, hrest⟩ := List.forall_mem_cons.mp hevents
    exact (ih hrest).cons hevent fun lock hmem => .inl hmem

theorem EntrylkHeld.grant (hheld : EntrylkHeld granted log) {lock : PlEntryLock}
    (hfree : ∀ l ∈ granted, ¬namesConflict l.basename lock.basename) :
    EntrylkHeld (granted ++ [lock]) (.grant lock :: log) where
  listed newer held older hsplit := by
    cases newer with
    | nil =>
      obtain ⟨hlock, -⟩ := List.cons.inj hsplit
      rw [EntrylkEvent.grant.inj hlock]
      exact .inl (List.mem_append_right _ List.mem_cons_self)
    | cons first newer =>
      obtain ⟨-, rfl⟩ := List.cons.inj hsplit
      refine (hheld.listed newer held older rfl).imp (List.mem_append_left _) ?_
      rintro ⟨event, hevent, hends⟩
      exact ⟨event, List.mem_cons_of_mem _ hevent, hends⟩
  exclusive newer later middle earlier older hsplit hconflict := by
    cases newer with
    | nil =>
      obtain ⟨hlock, rfl⟩ := List.cons.inj hsplit
      rw [← EntrylkEvent.grant.inj hlock] at hconflict
      rcases hheld.listed middle earlier older rfl with hmem | hended
      · exact absurd hconflict (hfree earlier hmem)
      · exact hended
    | cons first newer =>
      exact hheld.exclusive newer later middle earlier older (List.cons.inj hsplit).2 hconflict

/-- What holds between requests. -/
abbrev EntrylkState.Held (s : EntrylkState) : Prop := EntrylkHeld s.dom.granted s.log

theorem EntrylkState.Held.unwindAll (hheld : s.Held) (locks : List PlEntryLock)
    (opRet opErrno : Int) : (s.unwindAll locks opRet opErrno).Held := by
  refine hheld.append _ fun event hevent lock => ?_
  obtain ⟨l, -, rfl⟩ := List.mem_map.mp (List.mem_reverse.mp hevent)
  exact fun h => nomatch h

theorem EntrylkState.Held.unwind (hheld : s.Held) (frame : Nat) (opRet opErrno : Int) :
    (s.record (.unwind frame opRet opErrno)).Held :=
  hheld.cons (fun _ h => nomatch h) fun _ hmem => .inl hmem

/-- The request is logged, and with it go the locks that it ends. -/
theorem EntrylkState.Held.arrive (hheld : s.Held) {call : EntrylkCall} {dom : EntrylkDom}
    (hrest : ∀ lock ∈ s.dom.granted, lock ∈ dom.granted ∨
      (EntrylkEvent.request s.arrived call).Ends lock) :
    EntrylkState.Held { s.arrive call with dom := dom } :=
  hheld.cons (fun _ h => nomatch h) hrest

theorem EntrylkState.Held.grantPass (hheld : s.Held) (noMemory : List Nat) :
    (s.grantPass noMemory).1.Held := by
  have hpass := (entrylkPolicy noMemory).wake_rule
    (fun granted woken => EntrylkHeld granted (woken.map EntrylkEvent.grant ++ s.log))
    (fun _ _ _ h hjudge => h.grant (not_namesConflict_of_grant hjudge)) hheld
  simp only [EntrylkState.grantPass, grantBlockedEntryLocks_eq]
  exact hpass

theorem EntrylkState.Held.lock (hheld : s.Held) (noMemory : List Nat) (lock : PlEntryLock)
    (nonblock : Bool) : (s.lock noMemory lock nonblock).2.Held := by
  simp only [EntrylkState.lock, lockName_eq, Policy.offer]
  cases hjudge : (entrylkPolicy noMemory).judge s.dom lock with
  | grant => exact hheld.grant (not_namesConflict_of_grant hjudge)
  | block => cases nonblock <;> exact hheld
  | refuse =>
    by_cases hmemory : lock.frame ∈ noMemory
    · simp only [hmemory, if_true]
      exact hheld
    · simp only [hmemory, if_false]
      exact hheld

theorem EntrylkState.Held.release (hheld : s.Held) (noMemory : List Nat) {call : EntrylkCall}
    (howner : call.lkOwner.length = 0) :
    ((s.arrive call).releaseForTransport noMemory call.transport).Held := by
  have hfilter (lock : PlEntryLock) (hmem : lock ∈ s.dom.granted) :
      lock ∈ s.dom.granted.filter (fun l => l.transport ≠ call.transport) ∨
        (EntrylkEvent.request s.arrived call).Ends lock := by
    by_cases hmine : lock.transport = call.transport
    · exact .inr ⟨hmine.symm, .inl howner⟩
    · exact .inl (List.mem_filter.mpr ⟨hmem, decide_eq_true hmine⟩)
  exact (((hheld.arrive hfilter).grantPass noMemory).unwindAll _ (-1) eagain).unwindAll _ 0 0

theorem EntrylkState.Held.step (hheld : s.Held) {label : EntrylkLabel}
    (hown : OwnUnlock s label) : (s.plCommonEntrylk label.noMemory label.call).Held := by
  have hkept : (s.arrive label.call).Held := hheld.arrive fun _ hmem => .inl hmem
  rw [EntrylkState.plCommonEntrylk]
  by_cases howner : label.call.lkOwner.length = 0
  · simp only [howner, if_true]
    exact (hheld.release label.noMemory howner).unwind s.arrived 0 0
  · simp only [howner, if_false]
    cases hcmd : label.call.cmd with
    | lock =>
      have hlock := hkept.lock label.noMemory (label.call.newLock s.arrived) false
      simp only
      split_ifs
      · exact hlock
      · exact hlock.unwind ..
      · exact hlock.unwind ..
    | lockNb =>
      have hlock := hkept.lock label.noMemory (label.call.newLock s.arrived) true
      simp only
      split_ifs <;> exact hlock.unwind ..
    | unlock =>
      simp only
      cases hfind : unlockName (s.arrive label.call).dom label.call.basename label.call.type with
      | none => exact hkept.unwind ..
      | some found =>
        obtain ⟨unlocked, dom⟩ := found
        obtain ⟨-, hname, htype, -, rfl⟩ := unlockName_spec hfind
        obtain ⟨hlkOwner, htransport⟩ := hown howner hcmd _ hfind
        refine EntrylkState.Held.unwind ?_ s.arrived 0 0
        refine EntrylkState.Held.unwindAll ?_ _ 0 0
        refine EntrylkState.Held.grantPass (hheld.arrive fun lock hmem => ?_) label.noMemory
        by_cases hlock : lock = unlocked
        · subst hlock
          exact .inr ⟨htransport, .inr ⟨hcmd, hlkOwner, hname.symm, htype.symm⟩⟩
        · exact .inl ((List.mem_erase_of_ne hlock).mpr hmem)

theorem entrylk_exclusive (hreach : ReachableUnder entrylkStep OwnUnlock .fresh s) :
    EntrylkExclusive s.log := by
  have hheld : s.Held :=
    hreach.invariant_along EntrylkState.Held .nil fun _ hown hstep hheld =>
      Option.some.inj hstep ▸ hheld.step hown
  exact hheld.exclusive

/-- A request with the write type, by an owner of one byte. -/
def entrylkCall (basename : Option String) (cmd : EntrylkCmd) (owner : UInt8) : EntrylkLabel :=
  ⟨[], ⟨basename, cmd, .wrlck, 1, 0, [owner]⟩⟩

/-- A second owner gets the whole directory when the first has unlocked. -/
def handedOver : List EntrylkLabel :=
  [entrylkCall (some "a") .lock 1, entrylkCall none .lock 2, entrylkCall (some "a") .unlock 1]

theorem entrylk_exclusive_handedOver : ∃ s, run entrylkStep .fresh handedOver = some s ∧
      s.dom.granted.map PlEntryLock.frame = [1] ∧ EntrylkExclusive s.log := by
  obtain ⟨s, hrun⟩ : ∃ s, run entrylkStep .fresh handedOver = some s := ⟨_, rfl⟩
  have hgranted : s.dom.granted.map PlEntryLock.frame = [1] := by
    cases hrun
    decide
  have hguard : GuardedRun entrylkStep OwnUnlock .fresh handedOver := by decide
  exact ⟨s, hrun, hgranted, entrylk_exclusive (.of_run handedOver .start hguard hrun)⟩

/-- Another owner unlocks the name, and a third one gets it. -/
def takenAway : List EntrylkLabel :=
  [entrylkCall (some "a") .lock 1, entrylkCall (some "a") .unlock 2, entrylkCall (some "a") .lock 3]

theorem takenAway_not_exclusive :
    ∃ s, run entrylkStep .fresh takenAway = some s ∧ ¬EntrylkExclusive s.log := by
  obtain ⟨s, hrun⟩ : ∃ s, run entrylkStep .fresh takenAway = some s := ⟨_, rfl⟩
  refine ⟨s, hrun, fun hexclusive => ?_⟩
  cases hrun
  let locked := (entrylkCall (some "a") .lock 1).call
  let unlocked := (entrylkCall (some "a") .unlock 2).call
  let again := (entrylkCall (some "a") .lock 3).call
  obtain ⟨event, hmem, hends⟩ := hexclusive [.unwind 2 0 0] (again.newLock 2)
    [.request 2 again, .unwind 1 0 0, .request 1 unlocked, .unwind 0 0 0] (locked.newLock 0)
    [.request 0 locked] rfl (by decide)
  revert event
  decide

/-! ## The domain between requests -/

def NamesApart (granted : List PlEntryLock) : Prop :=
  granted.Pairwise fun l1 l2 => ¬namesConflict l1.basename l2.basename

def NameTaken (locks : List PlEntryLock) (lock : PlEntryLock) : Prop :=
  ∃ l ∈ locks, namesConflict l.basename lock.basename

/-- A lock that waits conflicts with a granted one or with one that waits before it. -/
structure EntrylkInv (dom : EntrylkDom) : Prop where
  apart : NamesApart dom.granted
  waits : ∀ front lock behind, dom.blocked = front ++ lock :: behind →
    NameTaken dom.granted lock ∨ NameTaken front lock

section Domain

variable {dom : EntrylkDom} {lock : PlEntryLock}

theorem NameTaken.mono {few many : List PlEntryLock} (hsub : few ⊆ many)
    (htaken : NameTaken few lock) : NameTaken many lock := by
  obtain ⟨l, hl, hconflict⟩ := htaken
  exact ⟨l, hsub hl, hconflict⟩

theorem NamesApart.grant (hapart : NamesApart dom.granted)
    (hjudge : (entrylkPolicy noMemory).judge dom lock = .grant) :
    NamesApart (dom.granted ++ [lock]) :=
  List.pairwise_append.mpr ⟨hapart, List.pairwise_singleton .., fun l hl _ hlock =>
    List.mem_singleton.mp hlock ▸ not_namesConflict_of_grant hjudge l hl⟩

theorem nameTaken_of_block (hjudge : (entrylkPolicy noMemory).judge dom lock = .block) :
    NameTaken dom.granted lock ∨ NameTaken dom.blocked lock := by
  simp only [entrylkPolicy] at hjudge
  split_ifs at hjudge with hmemory hgranted hblocked
  · simp [lockGrantable, List.find?_isSome] at hgranted
    exact .inl hgranted
  · simp [blockedLockConflict, List.find?_isSome] at hblocked
    exact .inr hblocked.1
  · cases htype : lock.type <;> simp [htype] at hjudge

theorem entrylkInv_wake (noMemory : List Nat) (hapart : NamesApart dom.granted) :
    EntrylkInv (grantBlockedEntryLocks noMemory dom).1 := by
  rw [grantBlockedEntryLocks_eq]
  refine ⟨(entrylkPolicy noMemory).wake_rule (fun granted _ => NamesApart granted)
    (fun _ _ _ h hjudge => h.grant hjudge) hapart, fun front lock behind hsplit => ?_⟩
  obtain ⟨dropped, hwoken⟩ := (entrylkPolicy noMemory).wake_spec dom
  obtain ⟨granted, -, hsubset, hblock⟩ := hwoken.reason front lock behind hsplit
  exact (nameTaken_of_block hblock).imp_left (.mono hsubset)

theorem EntrylkInv.lockName (hdom : EntrylkInv dom) (noMemory : List Nat) (lock : PlEntryLock)
    (nonblock : Bool) : EntrylkInv (lockName noMemory dom lock nonblock).2 := by
  rw [lockName_eq, Policy.offer]
  cases hjudge : (entrylkPolicy noMemory).judge dom lock with
  | grant =>
    refine ⟨hdom.apart.grant hjudge, fun front l behind hsplit => ?_⟩
    exact (hdom.waits front l behind hsplit).imp_left (.mono (List.subset_append_left ..))
  | block =>
    cases nonblock with
    | true => exact hdom
    | false =>
      refine ⟨hdom.apart, fun front l behind hsplit => ?_⟩
      rcases List.eq_nil_or_concat behind with rfl | ⟨behind, last, rfl⟩
      · obtain ⟨rfl, hl⟩ := List.append_inj' hsplit rfl
        exact List.singleton_inj.mp hl ▸ nameTaken_of_block hjudge
      · rw [List.concat_eq_append, ← List.cons_append, ← List.append_assoc] at hsplit
        exact hdom.waits front l behind (List.append_inj' hsplit rfl).1
  | refuse => exact hdom

end Domain

theorem EntrylkInv.step (hs : EntrylkInv s.dom) (noMemory : List Nat) (call : EntrylkCall) :
    EntrylkInv (s.plCommonEntrylk noMemory call).dom := by
  rw [EntrylkState.plCommonEntrylk]
  by_cases howner : call.lkOwner.length = 0
  · simp only [howner, if_true]
    exact entrylkInv_wake noMemory (hs.apart.sublist List.filter_sublist)
  · have hlock := hs.lockName noMemory (call.newLock s.arrived)
    simp only [howner, if_false]
    cases call.cmd with
    | lock | lockNb =>
      simp only
      split_ifs <;> exact hlock _
    | unlock =>
      simp only
      cases hfind : unlockName (s.arrive call).dom call.basename call.type with
      | none => exact hs
      | some found =>
        obtain ⟨lock, dom⟩ := found
        obtain ⟨-, -, -, -, rfl⟩ := unlockName_spec hfind
        exact entrylkInv_wake noMemory (hs.apart.sublist List.erase_sublist)

/-- Whoever unlocks and whichever lock object cannot be allocated, granted entry locks do not
conflict and every waiting one has something to wait for, so that a domain with waiting locks
has a granted one. -/
theorem entrylk_domain_consistent (hreach : Reachable entrylkStep .fresh s) :
    EntrylkInv s.dom ∧ (s.dom.blocked ≠ [] → s.dom.granted ≠ []) := by
  have hinv : EntrylkInv s.dom := hreach.invariant_along (fun s => EntrylkInv s.dom)
    ⟨show NamesApart [] from .nil, fun _ _ _ h => by simp [EntrylkState.fresh] at h⟩
    fun _ _ hstep hs => Option.some.inj hstep ▸ hs.step _ _
  refine ⟨hinv, fun hblocked hgranted => ?_⟩
  obtain ⟨first, rest, hfirst⟩ := List.exists_cons_of_ne_nil hblocked
  have hwaits := hinv.waits [] first rest hfirst
  simp [NameTaken, hgranted] at hwaits

theorem entrylk_domain_consistent_taken : ∃ s,
    run entrylkStep .fresh (takenAway ++ handedOver) = some s ∧ s.dom.granted ≠ [] :=
  ⟨_, rfl, (entrylk_domain_consistent (.of_run (takenAway ++ handedOver) .start rfl)).2 (by decide)⟩

end GlusterFS.Locks
