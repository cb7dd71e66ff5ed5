import GlusterFS.Quota.Enforcement

/-!
# Every checked write is answered

The stub of a write is taken where the counters of the shared `quota_local` say that no link and
no validation is left.  In a run that validates one directory at a time the counters are right: the
stub is resumed once, after all the walks, and no run goes on for ever.
-/

namespace GlusterFS.Quota

open Transition ProcessTable

/-- Every inode is deeper than the one above it. -/
def WriteEnv.Tree (env : WriteEnv) (depth : Nat → Nat) : Prop :=
  ∀ link inode name parent, (name = true → inode = env.file) →
    env.above link inode name = some parent → depth parent < depth inode

/-! ## Work that is left -/

/-- A bound on what a walk has yet to do. -/
def Walk.left (depth : Nat → Nat) (loc : Option Nat) (walk : Walk) : Int :=
  match walk.phase with
  | .entering inode _ => 20 * depth inode + if walk.resumed then 18 else 25
  | .visiting inode _ justValidated => 20 * depth inode + if justValidated then 3 else 17
  | .validating inode _ => 20 * depth inode + 16
  | .winding => 20 * depth (loc.getD 0) + 15
  | .waiting _ => 20 * depth (loc.getD 0) + 14
  | .crediting _ inode _ => 20 * depth inode + 20
  | .restarting => 20 * depth (loc.getD 0) + 19
  | .finishing | .failing _ => 1
  | .ended => 0

/-- A bound on the steps that a run may still take.  The walk that takes the flag need not
validate its directory again. -/
def CheckState.work (env : WriteEnv) (depth : Nat → Nat) (s : CheckState) : Int :=
  total (Walk.left depth s.validateLoc) s.walks - (if s.justValidated then 7 else 0) +
    (env.links.length - s.walks.length) * (20 * depth env.file + 26) +
    (if s.leaving then 0 else 1) + (if s.stub then 2 else 0) + s.resuming

/-- The answers given and to come. -/
def CheckState.answers (s : CheckState) : Nat :=
  s.resumed.length + s.resuming + if s.stub then 1 else 0

/-- Behind the loop of `quota_writev` the stub is kept for a walk. -/
def CheckState.Open (s : CheckState) : Prop :=
  s.stub = true → s.leaving = true → ∃ walk ∈ s.walks, walk.active = true

/-- What a step does to the bound and to the stub. -/
def Moves (env : WriteEnv) (depth : Nat → Nat) (s after : CheckState) : Prop :=
  ∃ before, before.work env depth < s.work env depth ∧ before.answers = s.answers ∧
    (after = before ∧ before.Open ∨ after = before.takeIfDone)

variable {env : WriteEnv} {s after : CheckState} {walk : Nat} {found new : Walk} {depth : Nat → Nat}

theorem Walk.left_congr {loc loc' : Option Nat} (h : found.outstanding = false) :
    found.left depth loc = found.left depth loc' := by
  obtain ⟨phase, resumed⟩ := found
  cases phase <;> first | rfl | cases h

theorem left_climb (hdepth : env.Tree depth) {link inode : Nat} {name resumed : Bool}
    {loc : Option Nat} (hname : name = true → inode = env.file) :
    (Walk.mk (climb env link inode name) resumed).left depth loc < 20 * depth inode + 3 := by
  rw [climb]
  cases habove : env.above link inode name with
  | none =>
    simp only [Walk.left]
    omega
  | some parent =>
    have hlt := hdepth link inode name parent hname habove
    simp only [Walk.left, Bool.false_eq_true, if_false]
    omega

section Moves

variable {ctx : Nat → Option QuotaCtx} {validateCount : Int} {loc opErrno : Option Nat}
  {justValidated : Bool} {events : List Event} (hget : s.walks[walk]? = some found)
  (hafter : after = { s with
    ctx, validateCount, opErrno, justValidated, events
    validateLoc := loc, walks := s.walks.set walk new })
  (hloc : loc = s.validateLoc ∨ ∀ other ∈ s.walks, other.outstanding = false)
  (hlt : new.left depth loc - (if justValidated then 7 else 0) <
    found.left depth loc - (if s.justValidated then 7 else 0))

include hget hafter hloc hlt

theorem work_set : after.work env depth < s.work env depth := by
  have hsame : total (Walk.left depth loc) s.walks =
      total (Walk.left depth s.validateLoc) s.walks := by
    rcases hloc with rfl | hnone
    · rfl
    · exact congrArg List.sum (List.map_congr_left fun other hmem =>
        Walk.left_congr (hnone other hmem))
  subst hafter
  simp only [CheckState.work, List.length_set, total_set hget]
  omega

/-- A walk goes on. -/
theorem moves (hactive : new.active = true) : Moves env depth s after := by
  refine ⟨after, work_set hget hafter hloc hlt, by rw [hafter]; rfl, .inl ⟨rfl, fun _ _ => ?_⟩⟩
  rw [hafter]
  exact ⟨new, List.mem_set (List.getElem?_eq_some_iff.mp hget).1 new, hactive⟩

/-- A walk ends. -/
theorem moves_takeIfDone : Moves env depth s after.takeIfDone :=
  ⟨after, work_set hget hafter hloc hlt, by rw [hafter]; rfl, .inr rfl⟩

end Moves

/-- One turn of the loop goes up, ends the walk, or asks for a validation. -/
theorem visit_cases (env : WriteEnv) (s : CheckState) (walk inode : Nat)
    (resumed name justValidated : Bool) (now : Int) : ∃ opErrno events phase,
    visit env s walk resumed inode name justValidated now =
      { s with opErrno, events }.setPhase walk resumed phase ∧
    (phase = climb env walk inode name ∨ phase = .finishing ∨
      justValidated = false ∧ phase = .validating inode justValidated) := by
  rw [visit]
  cases s.ctx inode with
  | none => exact ⟨_, _, _, rfl, .inl rfl⟩
  | some ctx =>
    dsimp only
    split
    · exact ⟨_, _, _, rfl, .inl rfl⟩
    · split
      · next htimeout =>
        rw [Bool.and_eq_true, Bool.not_eq_true'] at htimeout
        exact ⟨_, _, _, rfl, .inr (.inr ⟨htimeout.1, rfl⟩)⟩
      · cases justValidated <;> simp only [Bool.false_eq_true, if_false, if_true] <;> split
        all_goals first
          | exact ⟨_, _, _, rfl, .inl rfl⟩
          | exact ⟨_, _, _, rfl, .inr (.inl rfl)⟩

theorem moves_walk {label : Label} (hdepth : env.Tree depth) (hinv : CheckInv env s)
    (hget : s.walks[label.walk]? = some found) (hguard : OneAtATime s label)
    (hstep : walkStep env s label.walk found label = some after) : Moves env depth s after := by
  obtain ⟨phase, resumed⟩ := found
  cases label <;> cases phase <;>
    simp only [walkStep, reduceCtorEq, Option.some.injEq] at hstep
  case enter.entering walk inode name =>
    rw [if_pos (hinv.stub hget rfl)] at hstep
    cases hstep
    refine moves hget rfl (.inl rfl) ?_ rfl
    cases s.justValidated <;> cases resumed <;> simp [Walk.left] <;> omega
  case visit.visiting walk now inode name justValidated =>
    obtain ⟨opErrno, events, phase, hvisit, hphase⟩ :=
      visit_cases env s walk inode resumed name justValidated now
    rw [← hstep, Label.walk, hvisit]
    rcases hphase with rfl | rfl | ⟨rfl, rfl⟩
    · refine moves hget rfl (.inl rfl) ?_ ?_
      · obtain ⟨⟨height, hpath, hheight, -⟩, -⟩ := hinv.phases _ _ hget
        have hname : name = true → inode = env.file := by
          intro h
          rw [hheight.mp h] at hpath
          exact (Option.some.inj hpath).symm
        have hclimb : (Walk.mk (climb env walk inode name) resumed).left depth s.validateLoc < _ :=
          left_climb hdepth hname
        cases justValidated <;> simp only [Walk.left, Bool.false_eq_true, if_false,
          if_true] at * <;> omega
      · rw [climb]
        cases env.above walk inode name <;> rfl
    · refine moves hget rfl (.inl rfl) ?_ rfl
      cases justValidated <;> simp [Walk.left] <;> omega
    · exact moves hget rfl (.inl rfl) (by simp [Walk.left]) rfl
  case finish.finishing =>
    exact hstep ▸ moves_takeIfDone hget rfl (.inl rfl) (by simp [Walk.left])
  case validate.validating walk filled inode justValidated =>
    obtain ⟨rfl, hnone⟩ := hguard
    exact hstep ▸ moves hget rfl (.inr hnone) (by simp [Walk.left]) rfl
  case wind.winding => exact hstep ▸ moves hget rfl (.inl rfl) (by simp [Walk.left]) rfl
  case reply.waiting walk reply target =>
    have hflag := hinv.flag_false hget rfl
    obtain ⟨inode, hinode, -⟩ := hinv.phases _ _ hget
    have hfailing : ∀ errno events, Moves env depth s
        ({ s with events }.setPhase walk true (.failing errno)) := by
      intro errno events
      refine moves hget rfl (.inl rfl) ?_ rfl
      simp only [Walk.left]
      omega
    cases reply <;> simp only [validateCbk, Option.map_eq_some_iff, Option.some.injEq] at hstep
    case error errno => exact hstep ▸ hfailing errno s.events
    case noSize =>
      obtain ⟨_, -, rfl⟩ := hstep
      exact hfailing einval s.events
    case size size =>
      obtain ⟨_, hloc, rfl⟩ := hstep
      cases hinode.symm.trans hloc
      split
      · exact hfailing einval _
      · refine moves hget rfl (.inl rfl) ?_ rfl
        simp only [Walk.left, hflag, hinode, Option.getD_some, if_true, Bool.false_eq_true,
          if_false]
        omega
  case credit.crediting walk now target inode size =>
    obtain ⟨hinode, -⟩ := hinv.phases _ _ hget
    exact hstep ▸ moves hget rfl (.inl rfl) (by simp [Walk.left, hinode]) rfl
  case restart.restarting =>
    obtain ⟨inode, hinode, -⟩ := hinv.phases _ _ hget
    rw [hinode] at hstep
    cases hstep
    exact moves hget rfl (.inl rfl) (by simp [Walk.left, hinode]) rfl
  case fail.failing =>
    exact hstep ▸ moves_takeIfDone hget rfl (.inl rfl) (by simp [Walk.left])

theorem moves_step {label : Label} (hdepth : env.Tree depth) (hinv : CheckInv env s)
    (hguard : OneAtATime s label) (hstep : checkStep env s label = some after) :
    Moves env depth s after := by
  unfold checkStep at hstep
  split at hstep
  · split at hstep
    · next hcond =>
      simp only [Bool.and_eq_true, Bool.not_eq_true'] at hcond
      cases hstep
      refine ⟨_, ?_, ?_, .inl ⟨rfl, fun _ h => absurd (hcond.1.1.1.symm.trans h) (by decide)⟩⟩
      · simp only [CheckState.work, total_append, total_cons, total_nil, List.length_append,
        List.length_cons, List.length_nil, Walk.left]
        push_cast
        rw [← sub_sub, sub_mul]
        simp
        omega
      · rfl
    · cases hstep
  · split at hstep
    · next hcond =>
      simp only [Bool.and_eq_true, Bool.not_eq_true'] at hcond
      cases hstep
      refine ⟨{ s with leaving := true, linkCount := 0 }, ?_, rfl, .inr ?_⟩
      · simp [CheckState.work, hcond.1.1]
      · simp [CheckState.takeIfDone]
    · cases hstep
  · split at hstep
    · cases hstep
    · next resuming hresuming =>
      cases hstep
      refine ⟨_, ?_, ?_, .inl ⟨rfl, fun hstub => ?_⟩⟩
      · simp only [CheckState.work, hresuming]
        omega
      · simp only [CheckState.answers, hresuming, List.length_append, List.length_singleton]
        omega
      · have := (hinv.held hstub).1
        omega
  · split at hstep
    · next found hget => exact moves_walk hdepth hinv hget hguard hstep
    · cases hstep

/-! ## The stub -/

theorem takeIfDone_moves (env : WriteEnv) (depth : Nat → Nat) (s : CheckState) :
    s.takeIfDone.work env depth ≤ s.work env depth ∧ s.takeIfDone.answers = s.answers := by
  rw [CheckState.takeIfDone, CheckState.takeStub]
  split_ifs with hdone hstub
  · simp only [CheckState.work, CheckState.answers, hstub, Bool.false_eq_true, if_false, if_true]
    omega
  all_goals exact ⟨le_refl _, rfl⟩

theorem CheckInv.idle (hinv : CheckInv env s) (hended : ∀ walk ∈ s.walks, walk.active = false) :
    s.validateCount = 0 := by
  have hzero : total Walk.pending s.walks = 0 := by
    refine total_eq_zero fun walk hmem => ?_
    rw [Walk.pending, Walk.phase_of_inactive (hended walk hmem)]
  have hflag : s.justValidated = false := by
    by_contra h
    obtain ⟨_, found, hget, hreplied⟩ := hinv.flag (eq_true_of_ne_false h)
    have hphase := Walk.phase_of_inactive (hended found (List.mem_of_getElem? hget))
    simp [Walk.replied, hphase] at hreplied
  rw [hinv.count, hzero, hflag]
  rfl

/-- The counters are right: the stub stays only if a walk is left. -/
theorem CheckInv.open_takeIfDone (hinv : CheckInv env s.takeIfDone) : s.takeIfDone.Open := by
  intro hstub hleaving
  by_contra hnone
  have hcount := hinv.idle (by simpa using hnone)
  obtain ⟨hlink, -⟩ := hinv.behind hleaving
  rw [CheckState.takeIfDone] at hstub hcount hlink
  split_ifs at hstub hcount hlink with hdone
  · rw [CheckState.takeStub] at hstub
    split_ifs at hstub
    contradiction
  · exact hdone ⟨hcount, hlink⟩

structure AnswerInv (env : WriteEnv) (s : CheckState) : Prop where
  check : CheckInv env s
  once : s.answers = 1
  opened : s.Open

theorem AnswerInv.step {label : Label} (hdepth : env.Tree depth) (hinv : AnswerInv env s)
    (hguard : OneAtATime s label) (hstep : checkStep env s label = some after) :
    AnswerInv env after ∧ after.work env depth < s.work env depth := by
  have hcheck := hinv.check.step hguard hstep
  obtain ⟨before, hwork, honce, ⟨rfl, hopen⟩ | rfl⟩ := moves_step hdepth hinv.check hguard hstep
  · exact ⟨⟨hcheck, honce.trans hinv.once, hopen⟩, hwork⟩
  · obtain ⟨hle, hsame⟩ := takeIfDone_moves env depth before
    exact ⟨⟨hcheck, hsame.trans (honce.trans hinv.once), hcheck.open_takeIfDone⟩,
      hle.trans_lt hwork⟩

theorem CheckInv.work_nonneg (hinv : CheckInv env s) : 0 ≤ s.work env depth := by
  have hlength : s.walks.length ≤ env.links.length := by
    cases hleaving : s.leaving with
    | false => exact (hinv.before hleaving).2.1
    | true => exact (hinv.behind hleaving).2.1.le
  have hlinks : (0 : Int) ≤ (env.links.length - s.walks.length) * (20 * depth env.file + 26) :=
    Int.mul_nonneg (by omega) (by omega)
  have hnonneg : ∀ walk ∈ s.walks, 0 ≤ walk.left depth s.validateLoc := by
    intro walk _
    rw [Walk.left]
    split <;> try split
    all_goals omega
  have hflag : (if s.justValidated then 7 else 0) ≤
      total (Walk.left depth s.validateLoc) s.walks := by
    split_ifs with h
    · obtain ⟨_, found, hget, hreplied⟩ := hinv.flag h
      refine le_trans ?_ (weight_le_total hnonneg (List.mem_of_getElem? hget))
      obtain ⟨phase, resumed⟩ := found
      cases phase <;> simp_all [Walk.replied, Walk.left] <;> omega
    · exact total_nonneg hnonneg
  rw [CheckState.work]
  omega

/-- A walk that is under way can go on, unless another one is being validated. -/
theorem enabled_walk (hstub : s.stub = true) (hget : s.walks[walk]? = some found)
    (hactive : found.active = true)
    (hfirst : found.outstanding = false → ∀ other ∈ s.walks, other.outstanding = false) :
    ∃ label, OneAtATime s label ∧ (checkStep env s label).isSome := by
  obtain ⟨phase, resumed⟩ := found
  cases phase with
  | entering => exact ⟨.enter walk, trivial, by simp [checkStep, Label.walk, hget, walkStep, hstub]⟩
  | visiting => exact ⟨.visit walk 0, trivial, by simp [checkStep, Label.walk, hget, walkStep]⟩
  | finishing => exact ⟨.finish walk, trivial, by simp [checkStep, Label.walk, hget, walkStep]⟩
  | validating =>
    exact ⟨.validate walk true, ⟨rfl, hfirst rfl⟩, by simp [checkStep, Label.walk, hget, walkStep]⟩
  | winding => exact ⟨.wind walk, trivial, by simp [checkStep, Label.walk, hget, walkStep]⟩
  | waiting =>
    exact ⟨.reply walk (.error 0), trivial,
      by simp [checkStep, Label.walk, hget, walkStep, validateCbk]⟩
  | crediting => exact ⟨.credit walk 0, trivial, by simp [checkStep, Label.walk, hget, walkStep]⟩
  | restarting =>
    refine ⟨.restart walk, trivial, ?_⟩
    cases h : s.validateLoc <;> simp [checkStep, Label.walk, hget, walkStep, h]
  | failing => exact ⟨.fail walk, trivial, by simp [checkStep, Label.walk, hget, walkStep]⟩
  | ended => cases hactive

/-- While the write is not answered, something can be done. -/
theorem AnswerInv.enabled (hinv : AnswerInv env s) (hresumed : s.resumed = []) :
    ∃ label, OneAtATime s label ∧ (checkStep env s label).isSome := by
  have honce := hinv.once
  rw [CheckState.answers, hresumed] at honce
  by_cases hstub : s.stub = true
  · by_cases hout : ∃ walk ∈ s.walks, walk.active = true
    · by_cases hfirst : ∃ walk ∈ s.walks, walk.outstanding = true
      · obtain ⟨found, hmem, hfound⟩ := hfirst
        obtain ⟨walk, hget⟩ := List.getElem?_of_mem hmem
        refine enabled_walk hstub hget ?_ fun h => absurd (hfound.symm.trans h) (by decide)
        obtain ⟨phase, resumed⟩ := found
        cases phase <;> first | rfl | cases hfound
      · obtain ⟨found, hmem, hactive⟩ := hout
        obtain ⟨walk, hget⟩ := List.getElem?_of_mem hmem
        exact enabled_walk hstub hget hactive fun _ => by simpa using hfirst
    · have hended : ∀ walk ∈ s.walks, walk.phase = .ended := fun walk hmem =>
        Walk.phase_of_inactive (by simpa using fun h => hout ⟨walk, hmem, h⟩)
      have hleaving : s.leaving = false := by
        by_contra h
        exact hout (hinv.opened hstub (eq_true_of_ne_false h))
      have hfree : s.mainFree = true := by
        rw [CheckState.mainFree, List.all_eq_true]
        intro walk hmem
        rw [hended walk hmem, Bool.or_true]
      obtain ⟨-, hlength, -⟩ := hinv.check.before hleaving
      rcases hlength.lt_or_eq with hlt | heq
      · exact ⟨.start, trivial, by simp [checkStep, hleaving, hinv.check.unbroken, hfree, hlt]⟩
      · refine ⟨.last, fun walk hmem => ?_, by simp [checkStep, hleaving, hfree, heq]⟩
        rw [Walk.atRest, hended walk hmem]
  · refine ⟨.resume, trivial, ?_⟩
    rw [if_neg hstub] at honce
    rw [checkStep]
    cases hresuming : s.resuming with
    | zero => simp [hresuming] at honce
    | succ resuming => rfl

/-- The write has one answer, given when every walk has ended; before that something can be
done. -/
structure Answered (env : WriteEnv) (s : CheckState) : Prop where
  once : s.resumed.length ≤ 1
  behind : s.resumed ≠ [] → s.walks.length = env.links.length ∧
    (∀ walk ∈ s.walks, walk.active = false) ∧ s.validateCount = 0
  enabled : s.resumed = [] → ∃ label, OneAtATime s label ∧ (checkStep env s label).isSome

theorem AnswerInv.answered (hinv : AnswerInv env s) : Answered env s := by
  have honce := hinv.once
  rw [CheckState.answers] at honce
  refine ⟨by omega, fun hresumed => ?_, hinv.enabled⟩
  have hstub : s.stub = false := by
    by_contra h
    exact hresumed (hinv.check.held (eq_true_of_ne_false h)).2
  obtain ⟨hleaving, hended⟩ := hinv.check.taken hstub
  exact ⟨(hinv.check.behind hleaving).2.1, hended, hinv.check.idle hended⟩

/-- A write whose file has no limit of its own is answered once in every run that validates one
directory at a time, and every such run ends. -/
theorem quota_write_answered {ctx : Nat → Option QuotaCtx}
    (hfile : ∀ found, ctx env.file = some found → found.limit < 0) (hdepth : env.Tree depth) :
    (∀ s, ReachableUnder (checkStep env) OneAtATime (env.initial ctx) s → Answered env s) ∧
    ∃ bound : Nat, ∀ labels s, GuardedRun (checkStep env) OneAtATime (env.initial ctx) labels →
      run (checkStep env) (env.initial ctx) labels = some s → labels.length ≤ bound := by
  have hinitial : AnswerInv env (env.initial ctx) := ⟨.initial hfile, rfl, fun _ h => nomatch h⟩
  refine ⟨fun s hreach => ?_, ((env.initial ctx).work env depth).toNat,
    fun labels s hguard hrun => ?_⟩
  · have hinv : AnswerInv env s := hreach.invariant hinitial
      fun _ _ _ hbefore hguard hstep => (hbefore.step hdepth hguard hstep).1
    exact hinv.answered
  · have hle := length_le_of_lowered (CheckState.work env depth)
      (fun _ hinv => AnswerInv.check hinv |>.work_nonneg)
      (fun _ _ _ hbefore hguard hstep => hbefore.step hdepth hguard hstep) labels hinitial
      hguard hrun
    omega

/-- One name, in directory 1 below the root 3; both have a limit and their recorded sizes have
timed out. -/
def oneLink : WriteEnv := { twoLinks with links := [some 1] }

def treeLimits (inode : Nat) : Option QuotaCtx := some ⟨0, if inode = 0 then -1 else 100, 0⟩

theorem oneLink_tree :
    oneLink.Tree fun inode => if inode = 0 then 2 else if inode = 1 ∨ inode = 2 then 1 else 0 := by
  intro link inode name parent hname habove
  rw [WriteEnv.above] at habove
  cases name with
  | false =>
    simp only [oneLink, twoLinks, Bool.false_eq_true, if_false, Option.ite_none_left_eq_some,
      Option.ite_none_right_eq_some, Option.some.injEq] at habove
    obtain ⟨-, rfl | rfl, rfl⟩ := habove <;> decide
  | true =>
    obtain rfl := hname rfl
    cases link with
    | zero =>
      cases habove
      decide
    | succ link => cases habove

theorem quota_write_answered_one_link : ∃ s,
    ReachableUnder (checkStep oneLink) OneAtATime (oneLink.initial treeLimits) s ∧
      s.resumed = [some einval] ∧ Answered oneLink s := by
  obtain ⟨s, hrun, hreach⟩ := ReachableUnder.exists_of_run (checkStep oneLink) OneAtATime
    (oneLink.initial treeLimits) [.start, .enter 0, .visit 0 10, .visit 0 10, .validate 0 true,
      .wind 0, .last, .reply 0 .noSize, .fail 0, .resume] (by decide) rfl
  have hresumed : s.resumed = [some einval] := by
    cases hrun
    decide
  refine ⟨s, hreach, hresumed, (quota_write_answered ?_ oneLink_tree).1 s hreach⟩
  rintro _ ⟨⟩
  decide

/-- When the walks have ended and no stub was taken, nothing more happens. -/
theorem checkStep_eq_none (hleaving : s.leaving = true) (hresuming : s.resuming = 0)
    (hended : ∀ walk ∈ s.walks, walk.active = false) (label : Label) :
    checkStep env s label = none := by
  have hwalk : ∀ found, s.walks[label.walk]? = some found → found.phase = .ended :=
    fun found hget => Walk.phase_of_inactive (hended found (List.mem_of_getElem? hget))
  unfold checkStep
  split
  · simp [hleaving]
  · simp [hleaving]
  · rw [hresuming]
  · split
    · next found hget =>
      unfold walkStep
      split <;> first | rfl | rw [hwalk found hget]
    · rfl

/-- The location of the root is not filled when the walk goes on in the callback; and the last
section of `quota_writev` comes while the walk goes on. -/
theorem quota_write_not_answered :
    (∃ s, Reachable (checkStep oneLink) (oneLink.initial treeLimits) s ∧ s.resumed = [] ∧
      ∀ label, checkStep oneLink s label = none) ∧
    ∃ s, Reachable (checkStep oneLink) (oneLink.initial treeLimits) s ∧ s.resumed = [none] ∧
      ∃ walk ∈ s.walks, walk.active = true := by
  constructor
  · obtain ⟨s, hrun, hreach⟩ := Reachable.exists_of_run (checkStep oneLink)
      (oneLink.initial treeLimits) [.start, .enter 0, .visit 0 10, .visit 0 10, .validate 0 true,
        .wind 0, .last, .reply 0 (.size 50), .credit 0 10, .restart 0, .enter 0, .visit 0 10,
        .visit 0 10, .validate 0 false] rfl
    refine ⟨s, hreach, ?_⟩
    cases hrun
    exact ⟨rfl, checkStep_eq_none rfl rfl (by decide)⟩
  · obtain ⟨s, hrun, hreach⟩ := Reachable.exists_of_run (checkStep oneLink)
      (oneLink.initial treeLimits) [.start, .enter 0, .visit 0 10, .visit 0 10, .validate 0 true,
        .wind 0, .reply 0 (.size 50), .credit 0 10, .restart 0, .enter 0, .last, .resume] rfl
    refine ⟨s, hreach, ?_⟩
    cases hrun
    decide

end GlusterFS.Quota
