import GlusterFS.Core.ProcessTable
import GlusterFS.Quota.CheckLimit

/-!
# Quota enforcement of a write

The shared `quota_local` serves one walk at a time.  While no validation is started before
another one is over, and `quota_writev` does not end while a reply is being handled, a write is
passed on only below every limit.  Otherwise a reply can be credited to another directory.
-/

namespace GlusterFS.Quota

open Transition ProcessTable

variable {env : WriteEnv} {s after : CheckState} {link walk inode : Nat} {phase : Phase}

/-! ## What a walk has checked -/

/-- The write is below the limit of an inode, by a size obtained for it. -/
def Clear (env : WriteEnv) (s : CheckState) (inode : Nat) : Prop :=
  ∀ ctx, s.ctx inode = some ctx → 0 ≤ ctx.limit →
    ∃ size, s.Obtained inode size ∧ size + env.delta < ctx.limit

/-- The recorded size is one that the validation of the inode returned. -/
def Fresh (s : CheckState) (inode : Nat) : Prop :=
  ∀ ctx, s.ctx inode = some ctx → 0 ≤ ctx.limit → .returned (some inode) ctx.size ∈ s.events

/-- The walk of a link has come to an inode and has cleared what is below. -/
def At (env : WriteEnv) (s : CheckState) (link inode : Nat) (name : Bool) : Prop :=
  ∃ height, env.path link height = some inode ∧ (name = true ↔ height = 0) ∧
    ∀ below < height, ∀ lower, env.path link below = some lower → Clear env s lower

def Done (env : WriteEnv) (s : CheckState) (link : Nat) : Prop :=
  ∀ height inode, env.path link height = some inode → Clear env s inode

/-- What is known of a walk in each of its phases. -/
def PhaseOk (env : WriteEnv) (s : CheckState) (link : Nat) : Phase → Prop
  | .entering inode name => At env s link inode name ∧ Fresh s inode
  | .visiting inode name justValidated =>
    At env s link inode name ∧ (justValidated = true → Fresh s inode)
  | .finishing | .ended => Done env s link ∨ s.opErrno ≠ none
  | .validating inode justValidated => At env s link inode false ∧ justValidated = false
  | .winding => ∃ inode, s.validateLoc = some inode ∧ At env s link inode false
  | .waiting target => ∃ inode, s.validateLoc = some inode ∧ target = some inode ∧
      At env s link inode false
  | .crediting target inode size => s.validateLoc = some inode ∧ target = some inode ∧
      At env s link inode false ∧ .returned (some inode) size ∈ s.events
  | .restarting => ∃ inode, s.validateLoc = some inode ∧ At env s link inode false ∧ Fresh s inode
  | .failing _ => True

/-- A later state: what was seen is kept, and a size changes only to one returned for its
inode. -/
structure Later (s after : CheckState) : Prop where
  events : s.events ⊆ after.events
  failed : s.opErrno ≠ none → after.opErrno ≠ none
  ctx : ∀ inode new, after.ctx inode = some new → ∃ old, s.ctx inode = some old ∧
    old.limit = new.limit ∧ (old.size = new.size ∨ .returned (some inode) new.size ∈ after.events)

variable {name : Bool}

namespace Later

theorem same (hctx : after.ctx = s.ctx) (hevents : s.events ⊆ after.events)
    (hfailed : s.opErrno ≠ none → after.opErrno ≠ none) : Later s after :=
  ⟨hevents, hfailed, fun _ new hnew => ⟨new, hctx ▸ hnew, rfl, .inl rfl⟩⟩

theorem clear (hlater : Later s after) (hclear : Clear env s inode) : Clear env after inode := by
  intro new hnew hlimit
  obtain ⟨old, hold, hsame, -⟩ := hlater.ctx inode new hnew
  obtain ⟨size, hobtained, hlt⟩ := hclear old hold (hsame ▸ hlimit)
  refine ⟨size, ?_, hsame ▸ hlt⟩
  exact hobtained.imp (fun h => hlater.events h) (fun h => hlater.events h)

theorem fresh (hlater : Later s after) (hfresh : Fresh s inode) : Fresh after inode := by
  intro new hnew hlimit
  obtain ⟨old, hold, hsame, hsize | hsize⟩ := hlater.ctx inode new hnew
  · exact hsize ▸ hlater.events (hfresh old hold (hsame ▸ hlimit))
  · exact hsize

theorem reached (hlater : Later s after) (hat : At env s link inode name) :
    At env after link inode name := by
  obtain ⟨height, hpath, hname, hbelow⟩ := hat
  exact ⟨height, hpath, hname, fun below hlt lower h => hlater.clear (hbelow below hlt lower h)⟩

theorem done (hlater : Later s after) (hdone : Done env s link) : Done env after link :=
  fun height inode hpath => hlater.clear (hdone height inode hpath)

end Later

/-- A walk whose use of the shared location and flag is not over. -/
def Walk.outstanding (walk : Walk) : Bool :=
  match walk.phase with
  | .winding | .waiting _ | .crediting _ _ _ | .restarting => true
  | .entering _ _ => walk.resumed
  | _ => false

/-- A walk whose validation has returned and whose flag may be set. -/
def Walk.replied (walk : Walk) : Bool :=
  match walk.phase with
  | .crediting _ _ _ | .restarting => true
  | .entering _ _ => walk.resumed
  | _ => false

def Walk.atRest (walk : Walk) : Bool :=
  match walk.phase with
  | .waiting _ | .ended => true
  | _ => false

def Walk.active (walk : Walk) : Bool :=
  match walk.phase with
  | .ended => false
  | _ => true

theorem Walk.phase_of_inactive {walk : Walk} (h : walk.active = false) : walk.phase = .ended := by
  rw [Walk.active] at h
  split at h
  · assumption
  · cases h

/-- The share of a walk in `validate_count`. -/
def Walk.pending (walk : Walk) : Int :=
  match walk.phase with
  | .winding | .waiting _ | .failing _ => 1
  | _ => 0

theorem Walk.outstanding_of_replied {walk : Walk} (h : walk.replied = true) :
    walk.outstanding = true := by
  rw [Walk.replied] at h
  rw [Walk.outstanding]
  split at h <;> simp_all

/-- What a phase knows is kept, if the location is its own. -/
theorem PhaseOk.later {found : Walk} (hok : PhaseOk env s link found.phase) (hlater : Later s after)
    (hloc : after.validateLoc = s.validateLoc ∨ found.outstanding = false) :
    PhaseOk env after link found.phase := by
  obtain ⟨phase, resumed⟩ := found
  cases phase with
  | entering inode name => exact ⟨hlater.reached hok.1, hlater.fresh hok.2⟩
  | visiting inode name justValidated =>
    exact ⟨hlater.reached hok.1, fun h => hlater.fresh (hok.2 h)⟩
  | finishing | ended => exact hok.imp hlater.done hlater.failed
  | validating inode justValidated => exact ⟨hlater.reached hok.1, hok.2⟩
  | failing errno => trivial
  | winding =>
    obtain ⟨inode, hinode, hat⟩ := hok
    exact ⟨inode, hloc.resolve_right (by simp [Walk.outstanding]) ▸ hinode, hlater.reached hat⟩
  | waiting target =>
    obtain ⟨inode, hinode, htarget, hat⟩ := hok
    exact ⟨inode, hloc.resolve_right (by simp [Walk.outstanding]) ▸ hinode, htarget,
      hlater.reached hat⟩
  | crediting target inode size =>
    obtain ⟨hinode, htarget, hat, hsize⟩ := hok
    exact ⟨hloc.resolve_right (by simp [Walk.outstanding]) ▸ hinode, htarget, hlater.reached hat,
      hlater.events hsize⟩
  | restarting =>
    obtain ⟨inode, hinode, hat, hfresh⟩ := hok
    exact ⟨inode, hloc.resolve_right (by simp [Walk.outstanding]) ▸ hinode, hlater.reached hat,
      hlater.fresh hfresh⟩

/-- Above the top of a path there is nothing. -/
theorem path_eq_none {low high : Nat} (hnone : env.path link low = none) (hle : low ≤ high) :
    env.path link high = none := by
  induction hle with
  | refl => exact hnone
  | step _ ih => rw [WriteEnv.path, ih, Option.bind_none]

/-- A walk that leaves a cleared inode knows what it needs. -/
theorem PhaseOk.climb (hat : At env s link inode name) (hclear : Clear env s inode) :
    PhaseOk env s link (climb env link inode name) := by
  obtain ⟨height, hpath, hname, hbelow⟩ := hat
  have hbelow : ∀ below < height + 1, ∀ lower, env.path link below = some lower →
      Clear env s lower := by
    intro below hlt lower hlower
    rcases Nat.lt_succ_iff_lt_or_eq.mp hlt with h | rfl
    · exact hbelow below h lower hlower
    · exact Option.some.inj (hpath.symm.trans hlower) ▸ hclear
  have habove : env.path link (height + 1) = env.above link inode name := by
    have hflag : decide (height = 0) = name := by
      cases name <;> simp_all
    rw [WriteEnv.path, hpath, Option.bind_some, hflag]
  rw [Quota.climb]
  cases hparent : env.above link inode name with
  | some parent =>
    exact ⟨⟨height + 1, habove.trans hparent, by simp, hbelow⟩, fun h => nomatch h⟩
  | none =>
    refine .inl fun high upper hupper => ?_
    by_cases hlt : high < height + 1
    · exact hbelow high hlt upper hupper
    · rw [path_eq_none (habove.trans hparent) (Nat.le_of_not_lt hlt)] at hupper
      exact nomatch hupper

/-! ## One validation at a time -/

/-- The location is filled, no validation is started before another one is over, and
`quota_writev` does not end while a reply is being handled. -/
def OneAtATime (s : CheckState) : Label → Prop
  | .validate _ filled => filled = true ∧ ∀ found ∈ s.walks, found.outstanding = false
  | .last => ∀ found ∈ s.walks, found.atRest = true
  | _ => True

instance (s : CheckState) (label : Label) : Decidable (OneAtATime s label) :=
  match label with
  | .validate _ _ => inferInstanceAs (Decidable (_ ∧ _))
  | .last => inferInstanceAs (Decidable (∀ found ∈ s.walks, found.atRest = true))
  | .start | .enter _ | .visit _ _ | .finish _ | .wind _ | .reply _ _ | .credit _ _ | .restart _
  | .fail _ | .resume => inferInstanceAs (Decidable True)

structure CheckInv (env : WriteEnv) (s : CheckState) : Prop where
  phases : ∀ (walk : Nat) (found : Walk), s.walks[walk]? = some found →
    PhaseOk env s walk found.phase
  sole : Sole Walk.outstanding s.walks
  flag : s.justValidated = true → ∃ (walk : Nat) (found : Walk),
    s.walks[walk]? = some found ∧ found.replied = true
  count : s.validateCount = total Walk.pending s.walks + if s.justValidated then 1 else 0
  file : ∀ ctx, s.ctx env.file = some ctx → ctx.limit < 0
  unbroken : s.broken = false
  before : s.leaving = false → s.linkCount = env.links.length ∧
    s.walks.length ≤ env.links.length ∧ s.stub = true
  behind : s.leaving = true → s.linkCount = 0 ∧ s.walks.length = env.links.length ∧
    Sole Walk.active s.walks
  taken : s.stub = false → s.leaving = true ∧ ∀ found ∈ s.walks, found.active = false
  held : s.stub = true → s.resuming = 0 ∧ s.resumed = []
  passed : none ∈ s.resumed → ∀ link < env.links.length, Done env s link
  credits : ∀ (target : Option Nat) (inode : Nat), .credited target inode ∈ s.events →
    target = some inode

theorem CheckInv.initial {ctx : Nat → Option QuotaCtx}
    (hfile : ∀ found, ctx env.file = some found → found.limit < 0) :
    CheckInv env (env.initial ctx) where
  phases := fun _ _ h => nomatch h
  sole := Nat.zero_le _
  flag := fun h => nomatch h
  count := rfl
  file := hfile
  unbroken := rfl
  before := fun _ => ⟨rfl, Nat.zero_le _, rfl⟩
  behind := fun h => nomatch h
  taken := fun h => nomatch h
  held := fun _ => ⟨rfl, rfl⟩
  passed := fun h => absurd h List.not_mem_nil
  credits := fun _ _ h => absurd h List.not_mem_nil

namespace CheckInv

variable {found new : Walk}

theorem stub (hinv : CheckInv env s) (hget : s.walks[walk]? = some found)
    (hactive : found.active = true) : s.stub = true := by
  by_contra hstub
  have hended := (hinv.taken (eq_false_of_ne_true hstub)).2 found (List.mem_of_getElem? hget)
  exact absurd (hactive.symm.trans hended) (by decide)

theorem passed_of_stub (hinv : CheckInv env s) (hstub : s.stub = true) (h : none ∈ s.resumed) :
    False := by
  rw [(hinv.held hstub).2] at h
  exact List.not_mem_nil h

variable {justValidated : Bool}

theorem moved {ctx : Nat → Option QuotaCtx} {validateCount : Int} {validateLoc opErrno : Option Nat}
    {events : List Event} (hinv : CheckInv env s) (hget : s.walks[walk]? = some found)
    (hactive : found.active = true) (hafter : after = { s with
      ctx, validateCount, validateLoc, opErrno, justValidated, events
      walks := s.walks.set walk new }) (hlater : Later s after)
    (hok : Later s after → PhaseOk env after walk new.phase)
    (hloc : validateLoc = s.validateLoc ∨ ∀ other ∈ s.walks, other.outstanding = false)
    (hnew : new.outstanding = true → found.outstanding = true ∨
      ∀ other ∈ s.walks, other.outstanding = false) (hflag : justValidated = true →
      new.replied = true ∨ s.justValidated = true ∧ found.replied = false)
    (hcount : validateCount - (if justValidated then 1 else 0) =
      s.validateCount - (if s.justValidated then 1 else 0) + (new.pending - found.pending))
    (hcredits : ∀ target inode, .credited target inode ∈ events → target = some inode) :
    CheckInv env after := by
  have hstub := hinv.stub hget hactive
  have hlt := (List.getElem?_eq_some_iff.mp hget).1
  subst hafter
  refine ⟨?_, hinv.sole.set hget hnew, ?_, ?_, ?_, hinv.unbroken, ?_, ?_, ?_, hinv.held,
    fun h => (hinv.passed_of_stub hstub h).elim, hcredits⟩
  · intro index entry hentry
    by_cases hindex : walk = index
    · subst hindex
      rw [List.getElem?_set_self hlt] at hentry
      exact Option.some.inj hentry ▸ hok hlater
    · rw [List.getElem?_set_ne hindex] at hentry
      refine (hinv.phases index entry hentry).later hlater ?_
      exact hloc.imp_right fun h => h entry (List.mem_of_getElem? hentry)
  · intro h
    rcases hflag h with hreplied | ⟨hbefore, hfound⟩
    · exact ⟨walk, new, List.getElem?_set_self hlt, hreplied⟩
    · obtain ⟨index, entry, hentry, hreplied⟩ := hinv.flag hbefore
      refine ⟨index, entry, ?_, hreplied⟩
      have hne : walk ≠ index := by
        rintro rfl
        cases Option.some.inj (hget.symm.trans hentry)
        rw [hfound] at hreplied
        exact nomatch hreplied
      exact (List.getElem?_set_ne hne).trans hentry
  · rw [total_set hget]
    have := hinv.count
    dsimp only at this ⊢
    omega
  · intro ctx hctx
    obtain ⟨old, hold, hlimit, -⟩ := hlater.ctx env.file ctx hctx
    exact hlimit ▸ hinv.file old hold
  · intro h
    rw [List.length_set]
    exact hinv.before h
  · intro h
    obtain ⟨hlink, hlength, hlone⟩ := hinv.behind h
    exact ⟨hlink, (List.length_set ..).trans hlength, hlone.set hget fun _ => .inl hactive⟩
  · exact fun h => absurd (hstub.symm.trans h) (by decide)

theorem takeStub (hinv : CheckInv env s) (hleaving : s.leaving = true)
    (hended : ∀ found ∈ s.walks, found.active = false) : CheckInv env s.takeStub := by
  rw [CheckState.takeStub]
  split
  · exact { hinv with
      before := fun h => absurd (hleaving.symm.trans h) (by decide)
      taken := fun _ => ⟨hleaving, hended⟩
      held := fun h => nomatch h }
  · exact hinv

/-- The last walk that ends takes the stub. -/
theorem takeIfDone (hinv : CheckInv env s) (hsome : s.walks ≠ [])
    (hended : s.leaving = true → ∀ found ∈ s.walks, found.active = false) :
    CheckInv env s.takeIfDone := by
  rw [CheckState.takeIfDone]
  split
  · next hdone =>
    have hleaving : s.leaving = true := by
      by_contra h
      obtain ⟨hlink, hle, -⟩ := hinv.before (eq_false_of_ne_true h)
      have := List.length_pos_iff.mpr hsome
      omega
    exact hinv.takeStub hleaving (hended hleaving)
  · exact hinv

/-- When one of the walks ends after `quota_writev` has, all have ended. -/
theorem all_ended (hinv : CheckInv env s) (hget : s.walks[walk]? = some found)
    (hactive : found.active = true) (hleaving : s.leaving = true) (resumed : Bool) :
    ∀ other ∈ s.walks.set walk ⟨.ended, resumed⟩, other.active = false := by
  obtain ⟨hlt, hfound⟩ := List.getElem?_eq_some_iff.mp hget
  have hlone : s.walks.countP Walk.active ≤ 1 := (hinv.behind hleaving).2.2
  have hzero : (s.walks.set walk ⟨.ended, resumed⟩).countP Walk.active = 0 := by
    rw [List.countP_set hlt, hfound, if_pos hactive, if_neg (by simp [Walk.active])]
    omega
  simpa using List.countP_eq_zero.mp hzero

theorem set_ne_nil (hget : s.walks[walk]? = some found) : s.walks.set walk new ≠ [] := by
  intro hnil
  rw [List.set_eq_nil_iff] at hnil
  exact absurd (List.mem_of_getElem? hget) (hnil ▸ List.not_mem_nil)

/-- While a validation is waited for, the flag is not set. -/
theorem flag_false {target : Option Nat} (hinv : CheckInv env s)
    (hget : s.walks[walk]? = some found) (hphase : found.phase = .waiting target) :
    s.justValidated = false := by
  by_contra h
  obtain ⟨index, other, hother, hreplied⟩ := hinv.flag (eq_true_of_ne_false h)
  have hout : found.outstanding = true := by simp [Walk.outstanding, hphase]
  cases hinv.sole.eq hget hother hout (Walk.outstanding_of_replied hreplied)
  cases Option.some.inj (hget.symm.trans hother)
  simp [Walk.replied, hphase] at hreplied

theorem visited {resumed : Bool} {events : List Event} {opErrno : Option Nat}
    (hinv : CheckInv env s)
    (hget : s.walks[walk]? = some ⟨.visiting inode name justValidated, resumed⟩)
    (hevents : ∃ sizes, events = s.events ++ sizes ∧ ∀ target inode, .credited target inode ∉ sizes)
    (hfailed : s.opErrno ≠ none → opErrno ≠ none)
    (hquiet : ∀ resumed, (Walk.mk phase resumed).pending = 0 ∧
      (Walk.mk phase resumed).outstanding = false)
    (hok : PhaseOk env ({ s with events, opErrno }.setPhase walk resumed phase) walk phase) :
    CheckInv env ({ s with events, opErrno }.setPhase walk resumed phase) := by
  obtain ⟨sizes, rfl, hsizes⟩ := hevents
  refine hinv.moved hget rfl rfl (.same rfl (List.subset_append_left _ _) hfailed) (fun _ => hok)
    (.inl rfl) ?_ (fun h => .inr ⟨h, rfl⟩) ?_ ?_
  · exact fun h => absurd ((hquiet resumed).2.symm.trans h) (by decide)
  · rw [(hquiet resumed).1]
    simp [Walk.pending]
  · intro target inode hmem
    rcases List.mem_append.mp hmem with h | h
    · exact hinv.credits target inode h
    · exact absurd h (hsizes target inode)

theorem climb_quiet (env : WriteEnv) (link inode : Nat) (name resumed : Bool) :
    (Walk.mk (climb env link inode name) resumed).pending = 0 ∧
      (Walk.mk (climb env link inode name) resumed).outstanding = false := by
  rw [climb]
  cases env.above link inode name <;> exact ⟨rfl, rfl⟩

theorem compared {resumed : Bool} {ctx : QuotaCtx} {sizes : List Event} (hinv : CheckInv env s)
    (hget : s.walks[walk]? = some ⟨.visiting inode name justValidated, resumed⟩)
    (hctx : s.ctx inode = some ctx) (hsizes : ∀ target inode, .credited target inode ∉ sizes)
    (hobtained : { s with events := s.events ++ sizes }.Obtained inode ctx.size) :
    CheckInv env (if ctx.limit ≤ ctx.size + env.delta then
        { s with events := s.events ++ sizes, opErrno := some edquot }.setPhase walk resumed
          .finishing
      else { s with events := s.events ++ sizes }.setPhase walk resumed
        (Quota.climb env walk inode name)) := by
  obtain ⟨hat, -⟩ := hinv.phases walk _ hget
  split
  · exact hinv.visited hget ⟨sizes, rfl, hsizes⟩ (fun _ h => nomatch h) (fun _ => ⟨rfl, rfl⟩)
      (.inr fun h => nomatch h)
  · next hbelow =>
    refine hinv.visited hget ⟨sizes, rfl, hsizes⟩ id (climb_quiet env walk inode name) ?_
    have hlater : Later s ({ s with events := s.events ++ sizes }.setPhase walk resumed
        (Quota.climb env walk inode name)) := .same rfl (List.subset_append_left _ _) id
    refine PhaseOk.climb (hlater.reached hat) fun other hother _ => ?_
    cases Option.some.inj (hctx.symm.trans hother)
    exact ⟨ctx.size, hobtained, by omega⟩

theorem failed {target : Option Nat} {resumed : Bool} {sizes : List Event}
    (hinv : CheckInv env s) (errno : Nat) (hget : s.walks[walk]? = some ⟨.waiting target, resumed⟩)
    (hsizes : ∀ target inode, .credited target inode ∉ sizes) :
    CheckInv env ({ s with events := s.events ++ sizes }.setPhase walk true (.failing errno)) := by
  refine hinv.moved hget rfl rfl (.same rfl (List.subset_append_left _ _) id) (fun _ => trivial)
    (.inl rfl) (fun h => nomatch h) (fun h => .inr ⟨h, rfl⟩) (by simp [Walk.pending]) ?_
  intro target inode hmem
  rcases List.mem_append.mp hmem with h | h
  · exact hinv.credits target inode h
  · exact absurd h (hsizes target inode)

/-! ## One step of a walk -/

section Steps

variable {justValidated resumed : Bool} (hinv : CheckInv env s)

include hinv

theorem enter (hget : s.walks[walk]? = some ⟨.entering inode name, resumed⟩) :
    CheckInv env ({ s with
      justValidated := false
      validateCount := if s.justValidated then s.validateCount - 1 else s.validateCount
      }.setPhase walk resumed (.visiting inode name s.justValidated)) := by
  obtain ⟨hat, hfresh⟩ := hinv.phases walk _ hget
  refine hinv.moved hget rfl rfl (.same rfl (List.Subset.refl _) id)
    (fun hlater => ⟨hlater.reached hat, fun _ => hlater.fresh hfresh⟩) (.inl rfl)
    (fun h => nomatch h) (fun h => nomatch h) ?_ hinv.credits
  simp only [Walk.pending]
  split <;> simp

theorem visit (hget : s.walks[walk]? = some ⟨.visiting inode name justValidated, resumed⟩)
    (now : Int) : CheckInv env (visit env s walk resumed inode name justValidated now) := by
  obtain ⟨hat, hfresh⟩ := hinv.phases walk _ hget
  have hsame : ∃ sizes, s.events = s.events ++ sizes ∧
      ∀ target inode, .credited target inode ∉ sizes :=
    ⟨[], (List.append_nil _).symm, fun _ _ => List.not_mem_nil⟩
  have hclimb : Clear env s inode →
      CheckInv env (s.setPhase walk resumed (Quota.climb env walk inode name)) := by
    intro hclear
    refine hinv.visited hget hsame id (climb_quiet env walk inode name) ?_
    exact PhaseOk.climb hat hclear
  rw [Quota.visit]
  cases hctx : s.ctx inode with
  | none =>
    refine hclimb fun ctx h => ?_
    exact nomatch hctx.symm.trans h
  | some ctx =>
    dsimp only
    split
    · next hlimit =>
      refine hclimb fun other h hother => ?_
      cases Option.some.inj (hctx.symm.trans h)
      omega
    · next hlimit =>
      split
      · next htimeout =>
        have hname : name = false := by
          by_contra h
          obtain ⟨height, hpath, hheight, -⟩ := hat
          rw [hheight.mp (eq_true_of_ne_false h)] at hpath
          cases hpath
          exact hlimit (hinv.file ctx hctx)
        rw [Bool.and_eq_true, Bool.not_eq_true'] at htimeout
        exact hinv.visited hget hsame id (fun _ => ⟨rfl, rfl⟩) ⟨hname ▸ hat, htimeout.1⟩
      · cases justValidated with
        | true =>
          have hcompared := hinv.compared hget hctx (fun _ _ => List.not_mem_nil)
            (.inr (List.mem_append_left [] (hfresh rfl ctx hctx (by omega))))
          rw [List.append_nil] at hcompared
          exact hcompared
        | false =>
          refine hinv.compared hget hctx ?_ (.inl ?_)
          · simp
          · simp

theorem finish (hget : s.walks[walk]? = some ⟨.finishing, resumed⟩) :
    CheckInv env (s.setPhase walk resumed .ended).takeIfDone := by
  have hmoved : CheckInv env (s.setPhase walk resumed .ended) :=
    hinv.moved hget rfl rfl (.same rfl (List.Subset.refl _) id)
      (fun hlater => (hinv.phases walk _ hget).imp hlater.done hlater.failed) (.inl rfl)
      (fun h => nomatch h) (fun h => .inr ⟨h, rfl⟩) (by simp [Walk.pending]) hinv.credits
  exact hmoved.takeIfDone (set_ne_nil hget) fun hleaving => hinv.all_ended hget rfl hleaving resumed

theorem validate (hget : s.walks[walk]? = some ⟨.validating inode justValidated, resumed⟩)
    (hnone : ∀ other ∈ s.walks, other.outstanding = false) :
    CheckInv env (validate s walk resumed inode justValidated true) := by
  obtain ⟨hat, rfl⟩ := hinv.phases walk _ hget
  refine hinv.moved hget rfl rfl (.same rfl (List.Subset.refl _) id)
    (fun hlater => ⟨inode, rfl, hlater.reached hat⟩) (.inr hnone) (fun _ => .inr hnone)
    (fun h => .inr ⟨h, rfl⟩) ?_ hinv.credits
  simp only [Walk.pending, Bool.false_eq_true, if_false]
  omega

theorem wind (hget : s.walks[walk]? = some ⟨.winding, resumed⟩) :
    CheckInv env (s.setPhase walk true (.waiting s.validateLoc)) := by
  obtain ⟨inode, hinode, hat⟩ := hinv.phases walk _ hget
  exact hinv.moved hget rfl rfl (.same rfl (List.Subset.refl _) id)
    (fun hlater => ⟨inode, hinode, hinode, hlater.reached hat⟩) (.inl rfl) (fun _ => .inl rfl)
    (fun h => .inr ⟨h, rfl⟩) (by simp [Walk.pending]) hinv.credits

theorem reply {target : Option Nat} {reply : ValidateReply}
    (hget : s.walks[walk]? = some ⟨.waiting target, resumed⟩)
    (hafter : validateCbk s walk target reply = some after) : CheckInv env after := by
  have hflag := hinv.flag_false hget rfl
  obtain ⟨inode, hinode, rfl, hat⟩ := hinv.phases walk _ hget
  have herror : ∀ errno, CheckInv env (s.setPhase walk true (.failing errno)) := by
    intro errno
    have h := hinv.failed errno hget (fun _ _ => List.not_mem_nil)
    rwa [List.append_nil] at h
  cases reply <;>
    simp only [validateCbk, Option.map_eq_some_iff, Option.some.injEq] at hafter
  case error errno => exact hafter ▸ herror errno
  case noSize =>
    obtain ⟨_, -, rfl⟩ := hafter
    exact herror einval
  case size size =>
    obtain ⟨_, hloc, hafter⟩ := hafter
    cases hinode.symm.trans hloc
    cases hctx : s.ctx inode with
    | none =>
      rw [hctx] at hafter
      subst hafter
      exact hinv.failed einval hget (by simp)
    | some ctx =>
      rw [hctx] at hafter
      subst hafter
      refine hinv.moved hget rfl rfl (.same rfl (List.subset_append_left _ _) id)
        (fun hlater => ⟨hinode, rfl, hlater.reached hat, ?_⟩) (.inl rfl) (fun _ => .inl rfl)
        (fun _ => .inl rfl) ?_ ?_
      · exact List.mem_append_right _ (List.mem_singleton_self _)
      · simp only [Walk.pending, hflag, if_true, Bool.false_eq_true, if_false]
        omega
      · intro target inode hmem
        rcases List.mem_append.mp hmem with h | h
        · exact hinv.credits target inode h
        · simp at h

theorem credit {target : Option Nat} {size : Int}
    (hget : s.walks[walk]? = some ⟨.crediting target inode size, resumed⟩) (now : Int) :
    CheckInv env ({ s with
      ctx := recordSize s inode size now
      events := s.events ++ [Event.credited target inode] }.setPhase walk true .restarting) := by
  obtain ⟨hinode, rfl, hat, hsize⟩ := hinv.phases walk _ hget
  have hsize : Event.returned (some inode) size ∈ s.events ++ [.credited (some inode) inode] :=
    List.mem_append_left _ hsize
  refine hinv.moved hget rfl rfl ⟨List.subset_append_left _ _, id, fun other new hnew => ?_⟩
    (fun hlater => ⟨inode, hinode, hlater.reached hat, fun new hnew _ => ?_⟩) (.inl rfl)
    (fun _ => .inl rfl) (fun _ => .inl rfl) (by simp [Walk.pending]) ?_
  · change recordSize s inode size now other = some new at hnew
    rw [recordSize] at hnew
    split at hnew
    · next hsame =>
      subst hsame
      obtain ⟨old, hold, rfl⟩ := Option.map_eq_some_iff.mp hnew
      exact ⟨old, hold, rfl, .inr hsize⟩
    · exact ⟨new, hnew, rfl, .inl rfl⟩
  · change recordSize s inode size now inode = some new at hnew
    rw [recordSize, if_pos rfl] at hnew
    obtain ⟨old, hold, rfl⟩ := Option.map_eq_some_iff.mp hnew
    exact hsize
  · intro target other hmem
    rcases List.mem_append.mp hmem with h | h
    · exact hinv.credits target other h
    · cases List.mem_singleton.mp h
      rfl

theorem restart (hget : s.walks[walk]? = some ⟨.restarting, resumed⟩)
    (hinode : s.validateLoc = some inode) :
    CheckInv env (s.setPhase walk true (.entering inode false)) := by
  obtain ⟨_, hloc, hat, hfresh⟩ := hinv.phases walk _ hget
  cases hinode.symm.trans hloc
  exact hinv.moved hget rfl rfl (.same rfl (List.Subset.refl _) id)
    (fun hlater => ⟨hlater.reached hat, hlater.fresh hfresh⟩) (.inl rfl) (fun _ => .inl rfl)
    (fun _ => .inl rfl) (by simp [Walk.pending]) hinv.credits

theorem fail {errno : Nat} (hget : s.walks[walk]? = some ⟨.failing errno, resumed⟩) :
    CheckInv env ({ s with opErrno := some errno, validateCount := s.validateCount - 1 }.setPhase
      walk true .ended).takeIfDone := by
  have hmoved : CheckInv env ({ s with
      opErrno := some errno, validateCount := s.validateCount - 1 }.setPhase walk true .ended) :=
    hinv.moved hget rfl rfl (.same rfl (List.Subset.refl _) fun _ h => nomatch h)
      (fun _ => .inr fun h => nomatch h) (.inl rfl) (fun h => nomatch h) (fun h => .inr ⟨h, rfl⟩)
      (by simp only [Walk.pending]; omega) hinv.credits
  exact hmoved.takeIfDone (set_ne_nil hget) fun hleaving => hinv.all_ended hget rfl hleaving true

end Steps

theorem start (hinv : CheckInv env s) (hleaving : s.leaving = false)
    (hlength : s.walks.length < env.links.length) :
    CheckInv env { s with walks := s.walks ++ [⟨.entering env.file true, false⟩] } := by
  obtain ⟨hlink, -, hstub⟩ := hinv.before hleaving
  refine ⟨?_, ?_, ?_, ?_, hinv.file, hinv.unbroken, fun _ => ⟨hlink, ?_, hstub⟩, ?_, ?_, hinv.held,
    fun h => (hinv.passed_of_stub hstub h).elim, hinv.credits⟩
  · intro index entry hentry
    rw [List.getElem?_append] at hentry
    split at hentry
    · exact (hinv.phases index entry hentry).later (.same rfl (List.Subset.refl _) id) (.inl rfl)
    · obtain rfl := List.mem_singleton.mp (List.mem_of_getElem? hentry)
      refine ⟨⟨0, rfl, by simp, fun below h => absurd h (Nat.not_lt_zero _)⟩,
        fun ctx hctx hlimit => ?_⟩
      have := hinv.file ctx hctx
      omega
  · simpa [Sole, Walk.outstanding] using hinv.sole
  · intro h
    obtain ⟨index, entry, hentry, hreplied⟩ := hinv.flag h
    refine ⟨index, entry, ?_, hreplied⟩
    exact (List.getElem?_append_left (List.getElem?_eq_some_iff.mp hentry).1).trans hentry
  · rw [total_append]
    exact hinv.count.trans (by simp [Walk.pending])
  · rw [List.length_append]
    exact hlength
  · exact fun h => absurd (hleaving.symm.trans h) (by decide)
  · exact fun h => absurd (hstub.symm.trans h) (by decide)

theorem last (hinv : CheckInv env s) (hguard : OneAtATime s .last)
    (hstep : checkStep env s .last = some after) : CheckInv env after := by
  rw [checkStep] at hstep
  split at hstep
  · next hcond =>
    simp only [hinv.unbroken, Bool.and_eq_true, Bool.not_eq_true', Bool.false_or,
      decide_eq_true_eq] at hcond
    obtain ⟨⟨hleaving, -⟩, hlength⟩ := hcond
    obtain ⟨-, -, hstub⟩ := hinv.before hleaving
    have hwaiting : ∀ found ∈ s.walks, found.active = true →
        found.outstanding = true ∧ found.pending = 1 := by
      intro found hmem hactive
      have hrest := hguard found hmem
      obtain ⟨phase, resumed⟩ := found
      cases phase with
      | waiting target => exact ⟨rfl, rfl⟩
      | ended => exact nomatch hactive
      | _ => exact nomatch hrest
    have hlone : Sole Walk.active s.walks := Nat.le_trans
      (List.countP_mono_left fun found hmem hactive => (hwaiting found hmem hactive).1) hinv.sole
    have hleft : CheckInv env { s with leaving := true, linkCount := 0 } :=
      { hinv with
        before := fun h => nomatch h
        behind := fun _ => ⟨rfl, hlength, hlone⟩
        taken := fun h => absurd (hstub.symm.trans h) (by decide) }
    cases hstep
    dsimp only
    split
    · next hzero =>
      refine hleft.takeStub rfl fun found hmem => ?_
      by_contra hactive
      have hle : found.pending ≤ total Walk.pending s.walks :=
        weight_le_total (fun walk _ => by rw [Walk.pending]; split <;> decide) hmem
      have hcount := hinv.count
      rw [(hwaiting found hmem (eq_true_of_ne_false hactive)).2] at hle
      split at hcount <;> omega
    · exact hleft
  · exact nomatch hstep

theorem resume (hinv : CheckInv env s) (hstep : checkStep env s .resume = some after) :
    CheckInv env after := by
  rw [checkStep] at hstep
  split at hstep
  · exact nomatch hstep
  · next resuming hresuming =>
    cases hstep
    have hstub : s.stub = false := by
      by_contra h
      have := (hinv.held (eq_true_of_ne_false h)).1
      omega
    obtain ⟨hleaving, hended⟩ := hinv.taken hstub
    refine { hinv with
      held := fun h => absurd (hstub.symm.trans h) (by decide)
      passed := fun hmem link hlink => ?_ }
    rcases List.mem_append.mp hmem with h | h
    · exact hinv.passed h link hlink
    · have hlt : link < s.walks.length := by rwa [(hinv.behind hleaving).2.1]
      have hok := hinv.phases link _ (List.getElem?_eq_getElem hlt)
      rw [Walk.phase_of_inactive (hended _ (List.getElem_mem hlt))] at hok
      exact hok.resolve_right (not_not.mpr (List.mem_singleton.mp h).symm)

/-- What one walk does next keeps the invariant. -/
theorem walked {label : Label} (hinv : CheckInv env s) (hget : s.walks[label.walk]? = some found)
    (hguard : OneAtATime s label) (hstep : walkStep env s label.walk found label = some after) :
    CheckInv env after := by
  obtain ⟨phase, resumed⟩ := found
  cases label <;> cases phase <;>
    simp only [walkStep, reduceCtorEq, Option.some.injEq] at hstep
  case enter.entering walk inode name =>
    rw [if_pos (hinv.stub hget rfl)] at hstep
    cases hstep
    exact hinv.enter hget
  case visit.visiting => exact hstep ▸ hinv.visit hget _
  case finish.finishing => exact hstep ▸ hinv.finish hget
  case validate.validating =>
    obtain ⟨rfl, hnone⟩ := hguard
    exact hstep ▸ hinv.validate hget hnone
  case wind.winding => exact hstep ▸ hinv.wind hget
  case reply.waiting => exact hinv.reply hget hstep
  case credit.crediting => exact hstep ▸ hinv.credit hget _
  case restart.restarting =>
    obtain ⟨inode, hinode, -⟩ := hinv.phases _ _ hget
    rw [hinode] at hstep
    cases hstep
    exact hinv.restart hget hinode
  case fail.failing => exact hstep ▸ hinv.fail hget

theorem step {label : Label} (hinv : CheckInv env s) (hguard : OneAtATime s label)
    (hstep : checkStep env s label = some after) : CheckInv env after := by
  unfold checkStep at hstep
  split at hstep
  · split at hstep
    · next hcond =>
      simp only [Bool.and_eq_true, Bool.not_eq_true', decide_eq_true_eq] at hcond
      cases hstep
      exact hinv.start hcond.1.1.1 hcond.2
    · cases hstep
  · exact hinv.last hguard hstep
  · exact hinv.resume hstep
  · split at hstep
    · next found hget => exact hinv.walked hget hguard hstep
    · cases hstep

end CheckInv

/-- A write whose file has no limit of its own is passed on only below every limit, in every run
that validates one directory at a time. -/
theorem quota_enforced {ctx : Nat → Option QuotaCtx}
    (hfile : ∀ found, ctx env.file = some found → found.limit < 0)
    (hreach : ReachableUnder (checkStep env) OneAtATime (env.initial ctx) s) : Enforced env s := by
  have hinv : CheckInv env s := hreach.invariant (.initial hfile)
    fun _ _ _ hbefore hguard hstep => hbefore.step hguard hstep
  refine ⟨fun hpassed link hlink height directory found hpath => ?_, hinv.credits⟩
  exact hinv.passed hpassed link hlink (height + 1) directory hpath found

/-- A file with two names, in directories 1 and 2 below the root 3. -/
def twoLinks : WriteEnv where
  file := 0
  links := [some 1, some 2]
  parent := fun inode => if inode = 1 ∨ inode = 2 then some 3 else none
  isRoot := fun inode => inode = 3
  delta := 1
  timeout := 5

/-- Both directories have a limit, and their recorded sizes have timed out. -/
def twoLimits : Nat → Option QuotaCtx
  | 0 => some ⟨0, -1, 0⟩
  | 1 => some ⟨0, 100, 0⟩
  | 2 => some ⟨0, 5000, 0⟩
  | _ => none

theorem quota_enforced_two_links : ∃ s,
    ReachableUnder (checkStep twoLinks) OneAtATime (twoLinks.initial twoLimits) s ∧
      none ∈ s.resumed ∧ Enforced twoLinks s := by
  obtain ⟨s, hrun⟩ : ∃ s, run (checkStep twoLinks) (twoLinks.initial twoLimits)
      [.start, .enter 0, .visit 0 10, .visit 0 10, .validate 0 true, .wind 0, .reply 0 (.size 50),
        .credit 0 10, .restart 0, .enter 0, .visit 0 10, .visit 0 10, .finish 0, .start, .enter 1,
        .visit 1 10, .visit 1 10, .validate 1 true, .wind 1, .last, .reply 1 (.size 70),
        .credit 1 10, .restart 1, .enter 1, .visit 1 10, .visit 1 10, .finish 1, .resume] =
      some s := ⟨_, rfl⟩
  have hreach : ReachableUnder (checkStep twoLinks) OneAtATime (twoLinks.initial twoLimits) s :=
    .of_run _ .start (by decide) hrun
  have hpassed : none ∈ s.resumed := by
    cases hrun
    decide
  refine ⟨s, hreach, hpassed, quota_enforced ?_ hreach⟩
  intro found hfound
  cases hfound
  decide

/-- Both validations are on their way when the first reply comes.  It is for directory 1, which
is over its limit, and is credited to directory 2. -/
theorem reply_credited_to_other_directory : ¬∀ (env : WriteEnv) (ctx : Nat → Option QuotaCtx) s,
    Reachable (checkStep env) (env.initial ctx) s → Enforced env s := by
  intro h
  obtain ⟨s, hrun⟩ : ∃ s, run (checkStep twoLinks) (twoLinks.initial twoLimits)
      [.start, .enter 0, .visit 0 10, .visit 0 10, .validate 0 true, .wind 0,
        .start, .enter 1, .visit 1 10, .visit 1 10, .validate 1 true, .wind 1, .last,
        .reply 0 (.size 1000), .credit 0 10, .restart 0, .enter 0, .visit 0 10, .visit 0 10,
        .finish 0, .reply 1 (.size 70), .credit 1 10, .restart 1, .enter 1, .visit 1 10,
        .visit 1 10, .finish 1, .resume] = some s := ⟨_, rfl⟩
  have hstate : none ∈ s.resumed ∧ s.ctx 1 = some ⟨0, 100, 0⟩ ∧
      s.events = [.returned (some 1) 1000, .credited (some 1) 2, .returned (some 2) 70,
        .credited (some 2) 2] := by
    cases hrun
    exact ⟨by decide, rfl, by decide⟩
  obtain ⟨hpassed, hctx, hevents⟩ := hstate
  obtain ⟨size, hobtained, hlt⟩ :=
    (h twoLinks twoLimits s (.of_run _ .start hrun)).checked hpassed 0
    (by decide) 0 1 _ rfl hctx (by decide)
  rw [CheckState.Obtained, hevents] at hobtained
  simp at hobtained
  subst hobtained
  exact absurd hlt (by decide)

end GlusterFS.Quota
