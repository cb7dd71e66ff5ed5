import GlusterFS.Core.PendingActions
import GlusterFS.Dht.Rename

/-!
# A rename is a rename

The calls of one phase touch different cells of the subvolumes, so the order in which the children
execute them does not matter and none stops another.  What is left after the three phases is
computed once, from the phases' calls, for every coincidence of the four subvolumes.
-/

namespace GlusterFS.Dht

open PendingActions Transition

variable {Subvol Name : Type} [DecidableEq Subvol] [DecidableEq Name]

/-! ## Calls on different cells -/

/-- The cells a call reads or writes. -/
def ChildOp.cells : ChildOp Subvol Name → List (Subvol × Name)
  | .mknod subvol name _ => [(subvol, name)]
  | .link subvol old new => [(subvol, old), (subvol, new)]
  | .unlink subvol name => [(subvol, name)]
  | .rename subvol old new => [(subvol, old), (subvol, new)]

variable {op : ChildOp Subvol Name}

theorem ChildOp.apply_of_notMem_cells {subvol : Subvol} {name : Name}
    (hcell : (subvol, name) ∉ op.cells) (bricks : Bricks Subvol Name) :
    op.apply bricks subvol name = bricks subvol name := by
  cases op <;> simp only [cells, apply, Bricks.set_apply] at hcell ⊢ <;> grind

theorem ChildOp.apply_congr {left right : Bricks Subvol Name}
    (hsame : ∀ cell ∈ op.cells, left cell.1 cell.2 = right cell.1 cell.2) {subvol : Subvol}
    {name : Name} (hcell : (subvol, name) ∈ op.cells) :
    op.apply left subvol name = op.apply right subvol name := by
  have hat := hsame (subvol, name) hcell
  cases op <;> simp_all [cells, apply, Bricks.set]

omit [DecidableEq Subvol] [DecidableEq Name] in
theorem ChildOp.ready_congr {left right : Bricks Subvol Name}
    (hsame : ∀ cell ∈ op.cells, left cell.1 cell.2 = right cell.1 cell.2) (hready : op.Ready left) :
    op.Ready right := by
  cases op <;> simp_all [cells, Ready]

def RenameCall.apply (call : RenameCall Subvol Name) (bricks : Bricks Subvol Name) :
    Bricks Subvol Name :=
  call.op.apply bricks

def RenameCall.Ready (call : RenameCall Subvol Name) (bricks : Bricks Subvol Name) : Prop :=
  call.op.Ready bricks

theorem RenameCall.independent {first second : RenameCall Subvol Name}
    (hcells : first.op.cells.Disjoint second.op.cells) :
    Independent RenameCall.apply RenameCall.Ready first second where
  comm bricks := by
    funext subvol name
    by_cases hfirst : (subvol, name) ∈ first.op.cells
    · have hsecond := hcells hfirst
      rw [apply, apply, apply, apply, ChildOp.apply_of_notMem_cells hsecond]
      exact ChildOp.apply_congr
        (fun cell hcell => ChildOp.apply_of_notMem_cells (hcells hcell) bricks) hfirst
    · rw [apply, apply, apply, apply, ChildOp.apply_of_notMem_cells hfirst]
      by_cases hsecond : (subvol, name) ∈ second.op.cells
      · exact ChildOp.apply_congr (fun cell hcell =>
          (ChildOp.apply_of_notMem_cells (fun hmem => hcells hmem hcell) bricks).symm) hsecond
      · rw [ChildOp.apply_of_notMem_cells hsecond, ChildOp.apply_of_notMem_cells hsecond,
          ChildOp.apply_of_notMem_cells hfirst]
  left bricks := ChildOp.ready_congr fun cell hcell =>
    (ChildOp.apply_of_notMem_cells (hcells hcell) bricks).symm
  right bricks := ChildOp.ready_congr fun cell hcell =>
    (ChildOp.apply_of_notMem_cells (fun hmem => hcells hmem hcell) bricks).symm

/-! ## The volumes between the phases -/

section Phases

variable (args : RenameArgs Subvol Name) (before : Bricks Subvol Name)

def RenameArgs.prepareCalls : List (RenameCall Subvol Name) :=
  if some args.srcCached = args.dstCached then
    if some args.dstHashed = args.dstCached then []
    else [⟨.unlink args.dstHashed args.new, .unlinkLinks⟩]
  else args.linkCalls

def RenameArgs.renameCall : RenameCall Subvol Name :=
  ⟨.rename args.renameSubvol args.old args.new, .rename⟩

def RenameArgs.finishCalls : List (RenameCall Subvol Name) := args.linkfileCalls ++ args.unlinkCalls

def prepared : Bricks Subvol Name := settle RenameCall.apply args.prepareCalls before

def moved : Bricks Subvol Name := args.renameCall.apply (prepared args before)

/-- What a rename of `file` leaves. -/
def renamedBricks (file : Nat) : Bricks Subvol Name := fun subvol name =>
  if name = args.old then none
  else if name = args.new then
    if subvol = args.srcCached then some (.data file)
    else if subvol = args.dstHashed then some (.linkfile args.srcCached) else none
  else before subvol name

variable {args before} {file : Nat} {replaced : Option Nat}

theorem prepare_independent :
    args.prepareCalls.Pairwise (Independent RenameCall.apply RenameCall.Ready) := by
  have hne := args.old_ne_new
  refine List.Pairwise.imp RenameCall.independent ?_
  unfold RenameArgs.prepareCalls RenameArgs.linkCalls RenameArgs.makesLinkfile RenameArgs.makesLink
  split_ifs <;> simp_all [ChildOp.cells]

/-- The cells that the first phase changes. -/
theorem prepared_apply (subvol : Subvol) (name : Name) : prepared args before subvol name =
    if some args.srcCached = args.dstCached then
      if some args.dstHashed ≠ args.dstCached ∧ subvol = args.dstHashed ∧ name = args.new then none
      else before subvol name
    else if args.makesLink ∧ subvol = args.srcCached ∧ name = args.new then
      before args.srcCached args.old
    else if args.makesLinkfile ∧ subvol = args.dstHashed ∧ name = args.old then
      some (.linkfile args.srcCached)
    else before subvol name := by
  unfold prepared RenameArgs.prepareCalls RenameArgs.linkCalls RenameArgs.makesLinkfile
  simp only [settle_append, settle_ite, settle_nil, settle_cons, ite_apply, RenameCall.apply,
    ChildOp.apply, Bricks.set_apply]
  grind

theorem moved_apply (subvol : Subvol) (name : Name) : moved args before subvol name =
    if subvol = args.renameSubvol ∧ name = args.old then none
    else if subvol = args.renameSubvol ∧ name = args.new then
      prepared args before args.renameSubvol args.old
    else prepared args before subvol name :=
  rfl

theorem moved_other (subvol : Subvol) {name : Name} (hold : name ≠ args.old)
    (hnew : name ≠ args.new) : moved args before subvol name = before subvol name := by
  rw [moved_apply, if_neg fun h => hold h.2, if_neg fun h => hnew h.2, prepared_apply]
  simp [hold, hnew]

omit [DecidableEq Name] in
theorem mem_finishCalls {call : RenameCall Subvol Name} (hcall : call ∈ args.finishCalls) :
    (call.op = .mknod args.dstHashed args.new args.srcCached ∧ call.cbk = .linksCreate ∧
      some args.srcCached = args.dstCached ∧ args.dstHashed ≠ args.srcCached) ∨
    (call.op = .unlink args.srcCached args.old ∧ call.cbk = .unlink ∧
      args.srcCached ≠ args.renameSubvol) ∨
    (call.op = .unlink args.srcHashed args.old ∧ call.cbk = .unlink ∧
      args.srcHashed ≠ args.renameSubvol ∧ args.srcHashed ≠ args.srcCached) ∨
    ∃ dstCached, call.op = .unlink dstCached args.new ∧ call.cbk = .unlink ∧
      args.dstCached = some dstCached ∧ dstCached ≠ args.dstHashed ∧
      dstCached ≠ args.srcCached := by
  unfold RenameArgs.finishCalls RenameArgs.linkfileCalls RenameArgs.unlinkCalls at hcall
  unfold RenameArgs.renameSubvol at *
  cases hdst : args.dstCached with
  | none => grind
  | some dstCached =>
    simp only [hdst, List.mem_append, List.mem_ite_nil_right, List.mem_singleton] at hcall
    grind

omit [DecidableEq Name] in
theorem cbk_of_mem_finishCalls {call : RenameCall Subvol Name} (hcall : call ∈ args.finishCalls) :
    call.cbk = .unlink ∨ call.cbk = .linksCreate := by
  rcases mem_finishCalls hcall with ⟨-, h, -⟩ | ⟨-, h, -⟩ | ⟨-, h, -⟩ | ⟨-, -, h, -⟩ <;> simp [h]

theorem finish_independent :
    args.finishCalls.Pairwise (Independent RenameCall.apply RenameCall.Ready) := by
  have hne := args.old_ne_new
  refine List.Pairwise.imp RenameCall.independent ?_
  unfold RenameArgs.finishCalls RenameArgs.linkfileCalls RenameArgs.unlinkCalls
    RenameArgs.renameSubvol
  cases hdst : args.dstCached <;> split_ifs <;> simp_all [ChildOp.cells] <;> grind

theorem finish_apply (bricks : Bricks Subvol Name) (subvol : Subvol) (name : Name) :
    settle RenameCall.apply args.finishCalls bricks subvol name =
      if name = args.old ∧ (subvol = args.srcCached ∨ subvol = args.srcHashed) ∧
          subvol ≠ args.renameSubvol then none
      else if name = args.new ∧ some subvol = args.dstCached ∧ subvol ≠ args.dstHashed ∧
          subvol ≠ args.srcCached then none
      else if name = args.new ∧ subvol = args.dstHashed ∧ some args.srcCached = args.dstCached ∧
          args.dstHashed ≠ args.srcCached then some (.linkfile args.srcCached)
      else bricks subvol name := by
  have hne := args.old_ne_new
  unfold RenameArgs.finishCalls RenameArgs.linkfileCalls RenameArgs.unlinkCalls
    RenameArgs.renameSubvol
  cases hdst : args.dstCached <;>
    simp only [settle_append, settle_ite, settle_nil, settle_cons, ite_apply, RenameCall.apply,
      ChildOp.apply, Bricks.set_apply] <;>
    grind

section

variable (hplaced : Placed args before file replaced)

include hplaced

omit [DecidableEq Name] in
theorem prepare_ready : ∀ call ∈ args.prepareCalls, call.Ready before := by
  obtain ⟨hsource, habsent, hdestination⟩ := hplaced
  unfold RenameArgs.prepareCalls RenameArgs.linkCalls RenameArgs.makesLinkfile
    RenameArgs.makesLink RenameCall.Ready
  cases hdst : args.dstCached with
  | none =>
    have hcells := (habsent hdst).2
    grind [ChildOp.Ready]
  | some dstCached =>
    obtain ⟨other, -, -, hcells⟩ := hdestination dstCached hdst
    grind [ChildOp.Ready]

theorem prepare_pending :
    Pending RenameCall.apply RenameCall.Ready args.prepareCalls before (prepared args before) :=
  ⟨prepare_independent, prepare_ready hplaced, rfl⟩

theorem moved_old (subvol : Subvol) : moved args before subvol args.old =
      if subvol = args.renameSubvol then none
      else if subvol = args.srcCached then some (.data file)
      else if subvol = args.srcHashed then some (.linkfile args.srcCached) else none := by
  have hne := args.old_ne_new
  simp only [moved_apply, prepared_apply, hplaced.source]
  unfold RenameArgs.renameSubvol RenameArgs.makesLinkfile RenameArgs.makesLink
  grind

theorem moved_new (subvol : Subvol) : moved args before subvol args.new =
      if subvol = args.srcCached then some (.data file)
      else if subvol = args.renameSubvol then some (.linkfile args.srcCached)
      else if some args.srcCached = args.dstCached then none else before subvol args.new := by
  obtain ⟨hsource, -, hdestination⟩ := hplaced
  have hne := args.old_ne_new
  simp only [moved_apply, prepared_apply, hsource]
  unfold RenameArgs.renameSubvol RenameArgs.makesLinkfile RenameArgs.makesLink
  grind

theorem rename_ready : args.renameCall.Ready (prepared args before) := by
  change prepared args before args.renameSubvol args.old ≠ none
  simp only [prepared_apply, hplaced.source]
  unfold RenameArgs.renameSubvol RenameArgs.makesLinkfile RenameArgs.makesLink
  grind

theorem finish_ready : ∀ call ∈ args.finishCalls, call.Ready (moved args before) := by
  intro call hcall
  have hdestination := hplaced.destination
  unfold RenameCall.Ready
  rcases mem_finishCalls hcall with ⟨hop, -, hsame, hhashed⟩ | ⟨hop, -, hsubvol⟩ |
    ⟨hop, -, hsubvol, hcached⟩ | ⟨dstCached, hop, -, hdst, hhashed, hcached⟩
  · rw [hop, ChildOp.Ready, moved_new hplaced, RenameArgs.renameSubvol]
    simp [hsame, hhashed]
  · rw [hop, ChildOp.Ready, moved_old hplaced]
    simp [hsubvol]
  · rw [hop, ChildOp.Ready, moved_old hplaced]
    simp [hsubvol, hcached]
  · obtain ⟨other, -, -, hcells⟩ := hdestination dstCached hdst
    rw [hop, ChildOp.Ready, moved_new hplaced, RenameArgs.renameSubvol, hcells]
    simp [hdst, hhashed, hcached, Ne.symm hcached]

theorem finish_settles : settle RenameCall.apply args.finishCalls (moved args before) =
      renamedBricks args before file := by
  have hne := args.old_ne_new
  funext subvol name
  rw [finish_apply, renamedBricks]
  by_cases hold : name = args.old
  · subst hold
    rw [moved_old hplaced]
    grind
  · by_cases hnew : name = args.new
    · subst hnew
      rw [moved_new hplaced]
      unfold RenameArgs.renameSubvol
      cases hdst : args.dstCached with
      | none =>
        have hcell := (hplaced.absent hdst).2 subvol
        grind
      | some dstCached =>
        obtain ⟨other, -, -, hcell⟩ := hplaced.destination dstCached hdst
        rw [hcell]
        grind
    · simp [hold, hnew, moved_other]

end

end Phases

/-! ## The run -/

/-- The callbacks still to come. -/
def RenameState.cbks (s : RenameState Subvol Name) : List RenameCbk :=
  s.wound.map (·.cbk) ++ s.replies.map (·.1)

/-- Nothing has failed. -/
structure RenameState.Sound (s : RenameState Subvol Name) : Prop where
  opRet : s.opRet = 0
  opErrno : s.opErrno = renameEuclean
  replies : ∀ reply ∈ s.replies, reply.2 = none

/-- The calls under way lead to the volume their phase ends with. -/
abbrev RenameState.Leads (s : RenameState Subvol Name) (target : Bricks Subvol Name) : Prop :=
  Pending RenameCall.apply RenameCall.Ready s.wound s.bricks target

inductive RenamePhase (args : RenameArgs Subvol Name) (before : Bricks Subvol Name)
    (s : RenameState Subvol Name) : Prop
  | linking (count : Nat) (hleads : s.Leads (prepared args before))
      (hcbks : s.cbks = List.replicate (count + 1) .links) (hcallCnt : s.callCnt = count + 1)
      (hanswers : s.answers = [])
  | clearing (hleads : s.Leads (prepared args before)) (hcbks : s.cbks = [.unlinkLinks])
      (hcallCnt : s.callCnt = 0) (hanswers : s.answers = [])
  | moving (hleads : s.Leads (moved args before)) (hcbks : s.cbks = [.rename])
      (hcallCnt : s.callCnt = 0) (hanswers : s.answers = [])
  | finishing (hleads : s.Leads (settle RenameCall.apply args.finishCalls (moved args before)))
      (hcbks : ∀ cbk ∈ s.cbks, cbk = .unlink ∨ cbk = .linksCreate)
      (hcallCnt : s.callCnt = s.cbks.count .unlink)
      (hanswers : s.answers = if s.callCnt = 0 then [(0, renameEuclean)] else [])

structure RenameInv (args : RenameArgs Subvol Name) (before : Bricks Subvol Name)
    (s : RenameState Subvol Name) : Prop where
  sound : s.Sound
  phase : RenamePhase args before s

section Run

variable {args : RenameArgs Subvol Name} {before : Bricks Subvol Name} {file : Nat}
  {replaced : Option Nat} {s : RenameState Subvol Name}

omit [DecidableEq Subvol] [DecidableEq Name] in
theorem RenameState.complete_of_cbks (hcbks : s.cbks = []) : s.Complete := by
  obtain ⟨hwound, hreplies⟩ := List.append_eq_nil_iff.mp hcbks
  exact ⟨List.map_eq_nil_iff.mp hwound, List.map_eq_nil_iff.mp hreplies⟩

omit [DecidableEq Name] in
theorem count_unlink_finishCalls :
    (args.finishCalls.map (·.cbk)).count .unlink = args.unlinkCalls.length := by
  unfold RenameArgs.finishCalls RenameArgs.linkfileCalls RenameArgs.unlinkCalls
  cases args.dstCached with
  | none => split_ifs <;> rfl
  | some dstCached => split_ifs <;> simp <;> split_ifs <;> rfl

omit [DecidableEq Name] in
theorem dhtRenameCbk_eq (hcallCnt : s.callCnt = 0) : dhtRenameCbk args s none = { s with
      wound := s.wound ++ args.finishCalls
      callCnt := args.unlinkCalls.length
      answers := if (args.unlinkCalls.length : Int) = 0 then s.answers ++ [(s.opRet, s.opErrno)]
        else s.answers } := by
  simp only [dhtRenameCbk, RenameState.wind, hcallCnt, Int.zero_add, List.append_assoc]
  by_cases hnone : (args.unlinkCalls.length : Int) = 0
  · have hunlink : args.unlinkCalls = [] := List.length_eq_zero_iff.mp (by omega)
    rw [if_pos hnone, if_pos hnone, RenameArgs.finishCalls, hunlink, List.append_nil]
    rfl
  · rw [if_neg hnone, if_neg hnone]
    rfl

omit [DecidableEq Subvol] [DecidableEq Name] in
theorem cbks_reply {reply : Nat} {cbk : RenameCbk} {error : Option Nat}
    (hreply : s.replies[reply]? = some (cbk, error)) :
    (cbk :: { s with replies := s.replies.eraseIdx reply }.cbks).Perm s.cbks := by
  obtain ⟨hlt, hget⟩ := List.getElem?_eq_some_iff.mp hreply
  have hperm := (List.getElem_cons_eraseIdx_perm hlt).map Prod.fst
  rw [hget, List.map_cons] at hperm
  exact List.perm_middle.symm.trans (hperm.append_left _)

omit [DecidableEq Subvol] [DecidableEq Name] in
theorem cbks_exec {call : Nat} {found : RenameCall Subvol Name} (bricks : Bricks Subvol Name)
    (error : Option Nat) (hcall : s.wound[call]? = some found) :
    { s with
      bricks := bricks
      wound := s.wound.eraseIdx call
      replies := s.replies ++ [(found.cbk, error)] }.cbks.Perm s.cbks := by
  obtain ⟨hlt, hget⟩ := List.getElem?_eq_some_iff.mp hcall
  have hperm := (List.getElem_cons_eraseIdx_perm hlt).map (·.cbk)
  rw [hget, List.map_cons] at hperm
  simp only [RenameState.cbks, List.map_append, List.map_cons, List.map_nil]
  rw [← List.append_assoc]
  refine List.Perm.trans (List.perm_append_singleton _ _) ?_
  exact hperm.append_right _

/-- A child executes a call: the phase goes on. -/
theorem RenameInv.exec {call : Nat} {found : RenameCall Subvol Name}
    (hinv : RenameInv args before s) (hcall : s.wound[call]? = some found) :
    RenameInv args before { s with
      bricks := found.op.apply s.bricks
      wound := s.wound.eraseIdx call
      replies := s.replies ++ [(found.cbk, none)] } := by
  obtain ⟨hsound, hphase⟩ := hinv
  have hperm := cbks_exec (found.op.apply s.bricks) none hcall
  refine ⟨⟨hsound.opRet, hsound.opErrno, ?_⟩, ?_⟩
  · intro reply hreply
    rcases List.mem_append.mp hreply with hold | hnew
    · exact hsound.replies reply hold
    · rw [List.mem_singleton.mp hnew]
  · cases hphase with
    | linking count hleads hcbks hcallCnt hanswers =>
      rw [hcbks] at hperm
      exact .linking count (hleads.perform hcall) (List.perm_replicate.mp hperm) hcallCnt hanswers
    | clearing hleads hcbks hcallCnt hanswers =>
      rw [hcbks] at hperm
      exact .clearing (hleads.perform hcall) (List.perm_singleton.mp hperm) hcallCnt hanswers
    | moving hleads hcbks hcallCnt hanswers =>
      rw [hcbks] at hperm
      exact .moving (hleads.perform hcall) (List.perm_singleton.mp hperm) hcallCnt hanswers
    | finishing hleads hcbks hcallCnt hanswers =>
      exact .finishing (hleads.perform hcall) (fun cbk hcbk => hcbks cbk (hperm.mem_iff.mp hcbk))
        (hcallCnt.trans (congrArg _ (hperm.count_eq _).symm)) hanswers

/-- With no callback to come the phase has reached its end. -/
theorem bricks_of_cbks {target : Bricks Subvol Name} (hleads : s.Leads target)
    (hcbks : s.cbks = []) : s.bricks = target := by
  rw [RenameState.Leads, (RenameState.complete_of_cbks hcbks).1] at hleads
  exact hleads.of_nil

theorem unlinkCbk_inv (hsound : s.Sound)
    (hleads : s.Leads (settle RenameCall.apply args.finishCalls (moved args before)))
    (hcbks : ∀ cbk ∈ s.cbks, cbk = .unlink ∨ cbk = .linksCreate)
    (hcallCnt : s.callCnt = s.cbks.count .unlink + 1) (hanswers : s.answers = []) :
    RenameInv args before (dhtRenameUnlinkCbk s) := by
  have hcount : s.callCnt - 1 = s.cbks.count .unlink := by omega
  unfold dhtRenameUnlinkCbk
  dsimp only
  by_cases hlast : s.callCnt - 1 = 0
  · rw [if_pos hlast]
    refine ⟨⟨hsound.opRet, hsound.opErrno, hsound.replies⟩, .finishing hleads hcbks hcount ?_⟩
    change s.answers ++ [(s.opRet, s.opErrno)] = if s.callCnt - 1 = 0 then _ else _
    rw [if_pos hlast, hanswers, hsound.opRet, hsound.opErrno, List.nil_append]
  · rw [if_neg hlast]
    refine ⟨⟨hsound.opRet, hsound.opErrno, hsound.replies⟩, .finishing hleads hcbks hcount ?_⟩
    exact hanswers.trans (if_neg hlast).symm

omit [DecidableEq Name] in
theorem cbk_of_mem_linkCalls : ∀ cbk ∈ args.linkCalls.map (·.cbk), cbk = .links := by
  unfold RenameArgs.linkCalls
  split_ifs <;> simp

theorem resolve_renamedBricks :
    resolve (renamedBricks args before file) args.dstHashed args.new = some file := by
  have hne := args.old_ne_new.symm
  unfold resolve renamedBricks
  by_cases hhashed : args.dstHashed = args.srcCached
  · simp [hne, hhashed]
  · simp [hne, hhashed]

theorem RenameInv.ready (hinv : RenameInv args before s) :
    ∀ call ∈ s.wound, call.op.Ready s.bricks := by
  cases hinv.phase with
  | linking count hleads => exact hleads.ready
  | clearing hleads => exact hleads.ready
  | moving hleads => exact hleads.ready
  | finishing hleads => exact hleads.ready

section

variable (hplaced : Placed args before file replaced)

include hplaced

/-- The last reply of the first phase starts the rename. -/
theorem dhtDoRename_inv (hsound : s.Sound)
    (hcomplete : s.Complete) (hbricks : s.bricks = prepared args before) (hcallCnt : s.callCnt = 0)
    (hanswers : s.answers = []) : RenameInv args before (dhtDoRename args s) := by
  have hwound : (dhtDoRename args s).wound = [args.renameCall] := by
    rw [dhtDoRename, RenameState.wind, hcomplete.1]
    rfl
  refine ⟨⟨hsound.opRet, hsound.opErrno, hsound.replies⟩, .moving ?_ ?_ hcallCnt hanswers⟩
  · rw [RenameState.Leads, hwound]
    change Pending _ _ [args.renameCall] s.bricks _
    rw [hbricks]
    refine ⟨List.pairwise_singleton _ _, ?_, rfl⟩
    intro call hcall
    rw [List.mem_singleton.mp hcall]
    exact rename_ready hplaced
  · rw [RenameState.cbks, hwound]
    change _ ++ s.replies.map _ = _
    rw [hcomplete.2]
    rfl

/-- The rename that succeeded winds the calls of the last phase. -/
theorem dhtRenameCbk_inv (hsound : s.Sound)
    (hcomplete : s.Complete) (hbricks : s.bricks = moved args before) (hcallCnt : s.callCnt = 0)
    (hanswers : s.answers = []) : RenameInv args before (dhtRenameCbk args s none) := by
  rw [dhtRenameCbk_eq hcallCnt, hcomplete.1, List.nil_append]
  refine ⟨⟨hsound.opRet, hsound.opErrno, hsound.replies⟩, .finishing ?_ ?_ ?_ ?_⟩
  · rw [RenameState.Leads, hbricks]
    exact ⟨finish_independent, finish_ready hplaced, rfl⟩
  · intro cbk hcbk
    rw [RenameState.cbks, hcomplete.2, List.map_nil, List.append_nil] at hcbk
    obtain ⟨call, hcall, rfl⟩ := List.mem_map.mp hcbk
    exact cbk_of_mem_finishCalls hcall
  · rw [RenameState.cbks, hcomplete.2, List.map_nil, List.append_nil, count_unlink_finishCalls]
  · simp only [hanswers, hsound.opRet, hsound.opErrno, List.nil_append]

theorem linksCbk_inv {count : Nat} (hsound : s.Sound)
    (hleads : s.Leads (prepared args before)) (hcbks : s.cbks = List.replicate count .links)
    (hcallCnt : s.callCnt = count + 1) (hanswers : s.answers = []) :
    RenameInv args before (dhtRenameLinksCbk args s none) := by
  have hnext : RenameState.Sound { s with callCnt := s.callCnt - 1 } :=
    ⟨hsound.opRet, hsound.opErrno, hsound.replies⟩
  unfold dhtRenameLinksCbk
  dsimp only
  cases count with
  | zero =>
    rw [if_pos (by omega), if_neg (by rw [hsound.opRet]; decide)]
    exact dhtDoRename_inv hplaced hnext (RenameState.complete_of_cbks hcbks)
      (bricks_of_cbks hleads hcbks) (by dsimp only; omega) hanswers
  | succ count =>
    rw [if_neg (by omega)]
    exact ⟨hnext, .linking count hleads hcbks (by dsimp only; omega) hanswers⟩

theorem unlinkLinksCbk_inv (hsound : s.Sound)
    (hleads : s.Leads (prepared args before)) (hcbks : s.cbks = []) (hcallCnt : s.callCnt = 0)
    (hanswers : s.answers = []) : RenameInv args before (dhtRenameUnlinkLinksCbk args s none) := by
  unfold dhtRenameUnlinkLinksCbk
  dsimp only
  rw [if_neg (by rw [hsound.opRet]; decide)]
  exact dhtDoRename_inv hplaced hsound (RenameState.complete_of_cbks hcbks)
    (bricks_of_cbks hleads hcbks) hcallCnt hanswers

theorem RenameInv.reply {reply : Nat}
    {cbk : RenameCbk} {error : Option Nat} (hinv : RenameInv args before s)
    (hreply : s.replies[reply]? = some (cbk, error)) :
    RenameInv args before
      (renameCallback args { s with replies := s.replies.eraseIdx reply } error cbk) := by
  obtain ⟨hsound, hphase⟩ := hinv
  have herror : error = none := hsound.replies _ (List.mem_of_getElem? hreply)
  subst herror
  have hperm := cbks_reply hreply
  have hrest : RenameState.Sound { s with replies := s.replies.eraseIdx reply } :=
    ⟨hsound.opRet, hsound.opErrno, fun other hother =>
      hsound.replies other (List.mem_of_mem_eraseIdx hother)⟩
  cases hphase with
  | linking count hleads hcbks hcallCnt hanswers =>
    rw [hcbks] at hperm
    obtain ⟨rfl, hleft⟩ := List.cons.inj ((List.perm_replicate.mp hperm).trans List.replicate_succ)
    exact linksCbk_inv hplaced hrest hleads hleft hcallCnt hanswers
  | clearing hleads hcbks hcallCnt hanswers =>
    rw [hcbks] at hperm
    obtain ⟨rfl, hleft⟩ := List.cons.inj (List.perm_singleton.mp hperm)
    exact unlinkLinksCbk_inv hplaced hrest hleads hleft hcallCnt hanswers
  | moving hleads hcbks hcallCnt hanswers =>
    rw [hcbks] at hperm
    obtain ⟨rfl, hleft⟩ := List.cons.inj (List.perm_singleton.mp hperm)
    exact dhtRenameCbk_inv hplaced hrest (RenameState.complete_of_cbks hleft)
      (bricks_of_cbks hleads hleft) hcallCnt hanswers
  | finishing hleads hcbks hcallCnt hanswers =>
    have hleft : ∀ other ∈ RenameState.cbks { s with replies := s.replies.eraseIdx reply },
        other = .unlink ∨ other = .linksCreate := fun other hother =>
      hcbks other (hperm.mem_iff.mp (List.mem_cons_of_mem _ hother))
    rw [← hperm.count_eq] at hcallCnt
    rcases hcbks cbk (hperm.mem_iff.mp List.mem_cons_self) with rfl | rfl
    · rw [List.count_cons_self] at hcallCnt
      refine unlinkCbk_inv hrest hleads hleft hcallCnt ?_
      exact hanswers.trans (if_neg (by omega))
    · rw [List.count_cons_of_ne (by decide)] at hcallCnt
      exact ⟨hrest, .finishing hleads hleft hcallCnt hanswers⟩

theorem RenameInv.step {label : RenameLabel}
    {after : RenameState Subvol Name} (hinv : RenameInv args before s) (hlabel : label.Succeeds)
    (hstep : renameStep args s label = some after) : RenameInv args before after := by
  cases label with
  | exec call =>
    obtain ⟨found, hcall, hexec⟩ := Option.bind_eq_some_iff.mp hstep
    split at hexec
    · cases hexec
      exact hinv.exec hcall
    · cases hexec
  | fail call errno => exact hlabel.elim
  | reply reply =>
    obtain ⟨⟨cbk, error⟩, hreply, rfl⟩ := Option.map_eq_some_iff.mp hstep
    exact hinv.reply hplaced hreply

theorem RenameInv.initial : RenameInv args before (dhtRename args before) := by
  have hprepare := prepare_pending hplaced
  have hsound : RenameState.Sound (⟨before, [], [], 0, 0, renameEuclean, []⟩ :
      RenameState Subvol Name) :=
    ⟨rfl, rfl, fun reply hreply => absurd hreply List.not_mem_nil⟩
  unfold RenameArgs.prepareCalls at hprepare
  unfold dhtRename dhtRenameCreateLinks
  by_cases hcached : some args.srcCached = args.dstCached
  · rw [if_pos hcached] at hprepare ⊢
    by_cases hhashed : some args.dstHashed = args.dstCached
    · rw [if_pos hhashed] at hprepare ⊢
      exact dhtDoRename_inv hplaced hsound ⟨rfl, rfl⟩ hprepare.of_nil rfl rfl
    · rw [if_neg hhashed] at hprepare ⊢
      exact ⟨⟨rfl, rfl, hsound.replies⟩, .clearing hprepare rfl rfl rfl⟩
  · rw [if_neg hcached] at hprepare ⊢
    by_cases hlinks : args.linkCalls = []
    · rw [if_pos hlinks]
      rw [hlinks] at hprepare
      exact dhtDoRename_inv hplaced hsound ⟨rfl, rfl⟩ hprepare.of_nil rfl rfl
    · rw [if_neg hlinks]
      obtain ⟨count, hlength⟩ : ∃ count, args.linkCalls.length = count + 1 :=
        Nat.exists_eq_succ_of_ne_zero fun hzero => hlinks (List.length_eq_zero_iff.mp hzero)
      refine ⟨⟨rfl, rfl, hsound.replies⟩, .linking count hprepare ?_ ?_ rfl⟩
      · exact (List.append_nil _).trans (List.eq_replicate_iff.mpr
          ⟨(List.length_map _).trans hlength, cbk_of_mem_linkCalls⟩)
      · exact congrArg Nat.cast hlength

omit [DecidableEq Name] in
theorem Placed.replaced_ne {other : Nat} (hother : replaced = some other) : other ≠ file := by
  cases hdst : args.dstCached with
  | none => exact absurd (hother.symm.trans (hplaced.absent hdst).1) (Option.some_ne_none other)
  | some dstCached =>
    obtain ⟨found, hfound, hne, -⟩ := hplaced.destination dstCached hdst
    exact Option.some.inj (hother.symm.trans hfound) ▸ hne

theorem renamedBricks_data {other : Nat}
    (hother : replaced = some other) {subvol : Subvol} {name : Name}
    (hdata : renamedBricks args before file subvol name = some (.data other)) :
    name ≠ args.old ∧ name ≠ args.new ∧ before subvol name = some (.data other) := by
  have hne := hplaced.replaced_ne hother
  unfold renamedBricks at hdata
  grind

theorem RenameInv.renamed (hinv : RenameInv args before s) (hcomplete : s.Complete) :
    Renamed args before file replaced s := by
  have hnil : s.cbks = [] := by
    rw [RenameState.cbks, hcomplete.1, hcomplete.2]
    rfl
  cases hinv.phase with
  | linking count hleads hcbks hcallCnt hanswers => simp [hnil] at hcbks
  | clearing hleads hcbks hcallCnt hanswers => simp [hnil] at hcbks
  | moving hleads hcbks hcallCnt hanswers => simp [hnil] at hcbks
  | finishing hleads hcbks hcallCnt hanswers =>
    have hbricks : s.bricks = renamedBricks args before file :=
      (bricks_of_cbks hleads hnil).trans (finish_settles hplaced)
    have hlast : s.callCnt = 0 := by rw [hcallCnt, hnil]; rfl
    exact {
      answered := hanswers.trans (if_pos hlast)
      resolves := hbricks ▸ resolve_renamedBricks
      old_gone := fun subvol => hbricks ▸ if_pos rfl
      data_gone := fun other hother subvol name hdata =>
        renamedBricks_data hplaced hother (hbricks ▸ hdata)
      same := fun subvol name hold hnew =>
        hbricks ▸ (if_neg hold).trans (if_neg hnew) }

end

end Run

/-- A rename of a file, with every child operation a success and the calls and replies in any
order: no call is ever stuck, and once none is left the rename has taken place. -/
theorem dht_rename_renames (args : RenameArgs Subvol Name) (before : Bricks Subvol Name)
    (file : Nat) (replaced : Option Nat) (hplaced : Placed args before file replaced)
    (s : RenameState Subvol Name)
    (hreach : ReachableUnder (renameStep args) (fun _ label => label.Succeeds)
      (dhtRename args before) s) :
    (∀ call ∈ s.wound, call.op.Ready s.bricks) ∧
      (s.Complete → Renamed args before file replaced s) := by
  have hinv : RenameInv args before s :=
    hreach.invariant (.initial hplaced) fun _ _ _ hbefore hlabel hstep =>
      hbefore.step hplaced hlabel hstep
  exact ⟨hinv.ready, hinv.renamed hplaced⟩

/-- The four subvolumes are different: names 0 and 1, files 7 and 9. -/
def spreadArgs : RenameArgs Nat Nat := ⟨1, 0, 2, some 3, 0, 1, Nat.zero_ne_one⟩

def spreadBricks : Bricks Nat Nat := fun subvol name =>
  if name = 0 then
    if subvol = 0 then some (.data 7) else if subvol = 1 then some (.linkfile 0) else none
  else if name = 1 then
    if subvol = 3 then some (.data 9) else if subvol = 2 then some (.linkfile 3) else none
  else none

theorem spread_placed : Placed spreadArgs spreadBricks 7 (some 9) where
  source := fun _ => rfl
  absent := fun h => nomatch h
  destination := by
    intro dstCached hdst
    cases hdst
    exact ⟨9, rfl, by decide, fun _ => rfl⟩

theorem dht_rename_renames_spread :
    ∃ s, ReachableUnder (renameStep spreadArgs) (fun _ label => label.Succeeds)
      (dhtRename spreadArgs spreadBricks) s ∧ s.Complete ∧
      Renamed spreadArgs spreadBricks 7 (some 9) s := by
  obtain ⟨s, hrun, hreach⟩ :=
    ReachableUnder.exists_of_run (renameStep spreadArgs)
      (fun _ label => label.Succeeds) (dhtRename spreadArgs spreadBricks)
    [.exec 1, .reply 0, .exec 0, .reply 0, .exec 0, .reply 0, .exec 2, .exec 0, .reply 1, .exec 0,
        .reply 1, .reply 0] (by decide) rfl
  have hcomplete : s.Complete := by
    cases hrun
    exact ⟨rfl, rfl⟩
  exact ⟨s, hreach, hcomplete,
    (dht_rename_renames spreadArgs spreadBricks 7 (some 9) spread_placed s hreach).2 hcomplete⟩

end GlusterFS.Dht
