import GlusterFS.Marker.QuotaAccounting

/-!
# Removals and the size of the parent

When a file has been unlinked, its contribution is subtracted from the size of its parent.  The
amount is the record of the contribution in memory when the callback of `unlink` runs; it is
subtracted later, under the lock of the parent.  An update transaction of the same file adds to
the contribution on disk first, to the record in memory in the callback, and to the size of the
parent last.  No call fails: a step that would call the child on a file that has been removed is
not taken.
-/

namespace GlusterFS.Marker

open Transition ProcessTable

variable {Node : Type} [DecidableEq Node]

inductive RemovalPhase
  /-- The child has removed the file; `marker_unlink_cbk` is yet to run. -/
  | unlinked
  /-- `mq_reduce_parent_size` has wound `inodelk`. -/
  | locking
  /-- `mq_reduce_parent_size_xattr` has wound `xattrop`. -/
  | reducing
  /-- At `mq_inode_remove_done`. -/
  | reduced
  /-- `mq_inode_remove_done` has wound `inodelk`. -/
  | unlocking
  /-- At `_mq_inode_remove_done`. -/
  | unlocked
  deriving DecidableEq

structure Removal (Node : Type) where
  node : Node
  /-- `local->size` -/
  size : Int
  phase : RemovalPhase

structure RemovalState (Node : Type) extends QuotaState Node where
  removed : Node → Bool
  removals : List (Removal Node)

inductive RemovalLabel (Node : Type)
  | quota (label : QuotaLabel Node)
  /-- The child removes the last link of a file. -/
  | unlink (file : Node)
  /-- The next step of a removal. -/
  | proceed (removal : Nat)

section Step

variable (tree : Tree Node) (s : RemovalState Node)

/-- The node that the next call of a transaction goes to, apart from its parent. -/
def Txn.calls (txn : Txn Node) : Option Node :=
  match txn.phase with
  | .lookingUp | .addingContri _ => some txn.node
  | _ => none

/-- The file that a step calls the child on. -/
def callee : QuotaLabel Node → Option Node
  | .change file _ => some file
  | .initiate _ => none
  | .proceed txn => (s.txns[txn]?).bind Txn.calls

def RemovalState.setRemoval (index : Nat) (removal : Removal Node) : RemovalState Node :=
  { s with removals := s.removals.set index removal }

/-- `mq_reduce_parent_size`, called by `marker_unlink_cbk` -/
def reduceParentSize (index : Nat) (node : Node) : RemovalState Node :=
  let size := s.contribution node
  if size = 0 then { s with removals := s.removals.eraseIdx index }
  else s.setRemoval index ⟨node, size, .locking⟩

/-- `mq_inode_remove_done` -/
def inodeRemoveDone (index : Nat) (node : Node) (size : Int) : RemovalState Node :=
  { s.setRemoval index ⟨node, size, .unlocking⟩ with
    contribution :=
      if s.contribution node = size then Function.update s.contribution node 0
      else s.contribution }

/-- `_mq_inode_remove_done`: the transaction of the parent is started without a look at its
status. -/
def inodeRemoveUnlocked (index : Nat) (parent : Node) : RemovalState Node :=
  { s with
    removals := s.removals.eraseIdx index
    txns := if (tree.parent parent).isNone then s.txns else s.txns ++ [⟨parent, .locking⟩] }

/-- The next step of a removal. -/
def removalProceed (index : Nat) (parent : Node) : Removal Node → Option (RemovalState Node)
  | ⟨node, _, .unlinked⟩ => some (reduceParentSize s index node)
  | ⟨node, size, .locking⟩ =>
    if s.locked parent then none
    else some { s.setRemoval index ⟨node, size, .reducing⟩ with
      locked := Function.update s.locked parent true }
  | ⟨node, size, .reducing⟩ =>
    some { s.setRemoval index ⟨node, size, .reduced⟩ with
      size := Function.update s.size parent (s.size parent - size) }
  | ⟨node, size, .reduced⟩ => some (inodeRemoveDone s index node size)
  | ⟨node, size, .unlocking⟩ =>
    some { s.setRemoval index ⟨node, size, .unlocked⟩ with
      locked := Function.update s.locked parent false }
  | ⟨_, _, .unlocked⟩ => some (inodeRemoveUnlocked tree s index parent)

def removalStep : RemovalLabel Node → Option (RemovalState Node)
  | .quota label =>
    if (callee s label).any s.removed then none
    else (quotaStep tree s.toQuotaState label).map fun quota =>
      { s with toQuotaState := quota }
  | .unlink file =>
    if tree.isDir file ∨ s.removed file = true ∨ (tree.parent file).isNone then none
    else some { s with
      removed := Function.update s.removed file true
      removals := s.removals ++ [⟨file, 0, .unlinked⟩] }
  | .proceed index =>
    (s.removals[index]?).bind fun removal =>
      (tree.parent removal.node).bind fun parent => removalProceed tree s index parent removal

/-- The addition to the contribution of the file has been made and its callback is yet to run. -/
def TxnPhase.recording : TxnPhase → Bool
  | .addedContri _ => true
  | _ => false

/-- The callback of `unlink` does not run between the addition to the contribution of the file
and the callback of that addition. -/
def RecordSettled : RemovalLabel Node → Prop
  | .quota _ | .unlink _ => True
  | .proceed index => ∀ removal ∈ s.removals[index]?, removal.phase = .unlinked →
      ∀ txn ∈ s.txns, txn.node = removal.node → txn.phase.recording = false

instance (label : RemovalLabel Node) : Decidable (RecordSettled s label) :=
  match label with
  | .quota _ | .unlink _ => inferInstanceAs (Decidable True)
  | .proceed index => inferInstanceAs (Decidable (∀ removal ∈ s.removals[index]?, _))

end Step

variable {tree : Tree Node} {s after : RemovalState Node} {quota : QuotaState Node}
variable {node directory parent : Node} {index : Nat} {phase next : TxnPhase}

/-! ## What is under way -/

/-- What the record in memory lacks. -/
def Txn.unrecorded (node : Node) (txn : Txn Node) : Int :=
  if txn.node = node then
    match txn.phase with
    | .addedContri delta => delta
    | _ => 0
  else 0

def RemovalPhase.locked : RemovalPhase → Bool
  | .reducing | .reduced | .unlocking => true
  | .unlinked | .locking | .unlocked => false

def Removal.holds (tree : Tree Node) (directory : Node) (removal : Removal Node) : Int :=
  if tree.parent removal.node = some directory ∧ removal.phase.locked = true then 1 else 0

/-- What a removal will subtract from the size of the directory. -/
def Removal.owes (tree : Tree Node) (contri : Node → Int) (directory : Node)
    (removal : Removal Node) : Int :=
  if tree.parent removal.node = some directory then
    match removal.phase with
    | .unlinked => contri removal.node
    | .locking | .reducing => removal.size
    | .reduced | .unlocking | .unlocked => 0
  else 0

/-- The record in memory is still going to be read for a removal. -/
def Recorded (s : RemovalState Node) (node : Node) : Prop :=
  s.removed node = false ∨ ∃ removal ∈ s.removals, removal.node = node ∧ removal.phase = .unlinked

variable [Fintype Node]

/-- The contributions of the children that still exist. -/
def liveSum (tree : Tree Node) (s : RemovalState Node) (directory : Node) : Int :=
  ∑ child with tree.parent child = some directory ∧ s.removed child = false, s.contri child

structure RemovalInv (tree : Tree Node) (s : RemovalState Node) : Prop where
  lock : ∀ directory, total (Txn.holds tree directory) s.txns +
    total (Removal.holds tree directory) s.removals = if s.locked directory then 1 else 0
  sums : ∀ directory, tree.isDir directory = true →
    liveSum tree s directory + total (Removal.owes tree s.contri directory) s.removals =
      s.size directory + total (Txn.moving tree directory) s.txns
  record : ∀ node, Recorded s node →
    s.contribution node + total (Txn.unrecorded node) s.txns = s.contri node
  looked : ∀ txn ∈ s.txns, ∀ size contri, txn.phase = .lookedUp size contri →
    contri = s.contri txn.node
  gone : ∀ removal ∈ s.removals, s.removed removal.node = true
  once : (s.removals.map Removal.node).Nodup

/-! ## Steps of transactions -/

theorem RemovalInv.moved (hinv : RemovalInv tree s) (hget : s.txns[index]? = some ⟨node, phase⟩)
    (htxns : quota.txns = s.txns.set index ⟨node, next⟩)
    (hlock : LocksFollow tree s.locked quota.locked node phase next)
    (hcontri : ∀ other, other ≠ node ∨ s.removed other = true → quota.contri other = s.contri other)
    (hsums : ∀ directory, tree.isDir directory = true →
      liveSum tree { s with toQuotaState := quota } directory - quota.size directory =
        liveSum tree s directory - s.size directory +
          (Txn.moving tree directory ⟨node, next⟩ - Txn.moving tree directory ⟨node, phase⟩))
    (hrecord : ∀ other, Recorded s other →
      quota.contribution other - quota.contri other + Txn.unrecorded other ⟨node, next⟩ =
        s.contribution other - s.contri other + Txn.unrecorded other ⟨node, phase⟩)
    (hlooked : ∀ size contri, next = .lookedUp size contri → contri = quota.contri node)
    (hothers : ∀ txn ∈ s.txns, txn.node = node → ∀ size contri, txn.phase = .lookedUp size contri →
      quota.contri node = s.contri node) :
    RemovalInv tree { s with toQuotaState := quota } where
  lock := fun directory => by
    have hbefore := hinv.lock directory
    rw [hlock, ← hbefore]
    simp only [htxns, total_set hget]
    omega
  sums := fun directory hdir => by
    have hbefore := hinv.sums directory hdir
    have hmove := hsums directory hdir
    have howes : total (Removal.owes tree quota.contri directory) s.removals =
        total (Removal.owes tree s.contri directory) s.removals := by
      refine congrArg List.sum (List.map_congr_left fun removal hmem => ?_)
      simp only [Removal.owes, hcontri removal.node (.inr (hinv.gone removal hmem))]
    simp only [htxns, total_set hget, howes]
    omega
  record := fun other hother => by
    have hbefore := hinv.record other hother
    have hmove := hrecord other hother
    simp only [htxns, total_set hget]
    omega
  looked := by
    intro txn hmem size contri hphase
    simp only [htxns] at hmem
    rcases List.mem_or_eq_of_mem_set hmem with hmem | rfl
    · have hbefore := hinv.looked txn hmem size contri hphase
      by_cases hsame : txn.node = node
      · rw [hbefore, hsame]
        exact (hothers txn hmem hsame size contri hphase).symm
      · rw [hbefore]
        exact (hcontri txn.node (.inl hsame)).symm
    · exact hlooked size contri hphase
  gone := hinv.gone
  once := hinv.once

/-- A step that leaves sizes, contributions and the records that matter alone. -/
theorem RemovalInv.passes (hinv : RemovalInv tree s) (hget : s.txns[index]? = some ⟨node, phase⟩)
    (htxns : quota.txns = s.txns.set index ⟨node, next⟩) (hsize : quota.size = s.size)
    (hcontri : quota.contri = s.contri)
    (hcontribution : ∀ other, Recorded s other → quota.contribution other = s.contribution other)
    (hlock : LocksFollow tree s.locked quota.locked node phase next)
    (hmoving : next.moving = phase.moving)
    (hunrecorded : ∀ other, Txn.unrecorded other ⟨node, next⟩ = Txn.unrecorded other ⟨node, phase⟩)
    (hlooked : ∀ size contri, next = .lookedUp size contri → contri = s.contri node) :
    RemovalInv tree { s with toQuotaState := quota } := by
  refine hinv.moved hget htxns hlock (fun _ _ => by rw [hcontri]) (fun directory _ => ?_)
    (fun other hother => by rw [hcontribution other hother, hcontri, hunrecorded])
    (fun size contri h => by rw [hcontri]; exact hlooked size contri h)
    (fun _ _ _ _ _ _ => by rw [hcontri])
  have hmove : Txn.moving tree directory ⟨node, next⟩ =
      Txn.moving tree directory ⟨node, phase⟩ := by
    simp only [Txn.moving, hmoving]
  rw [hmove, hsize]
  simp only [liveSum, hcontri]
  omega

omit [Fintype Node] in
theorem Removal.holds_nonneg (tree : Tree Node) (directory : Node) (removal : Removal Node) :
    0 ≤ Removal.holds tree directory removal := by
  rw [Removal.holds]
  split <;> decide

omit [Fintype Node] in
theorem holders_nonneg (tree : Tree Node) (s : RemovalState Node) (directory : Node) :
    0 ≤ total (Txn.holds tree directory) s.txns ∧
      0 ≤ total (Removal.holds tree directory) s.removals :=
  ⟨total_nonneg fun txn _ => Txn.holds_nonneg tree directory txn,
    total_nonneg fun removal _ => Removal.holds_nonneg tree directory removal⟩

/-- What someone holds is locked. -/
theorem RemovalInv.locked_of_holder (hinv : RemovalInv tree s)
    (hholder : 1 ≤ total (Txn.holds tree directory) s.txns ∨
      1 ≤ total (Removal.holds tree directory) s.removals) : s.locked directory = true := by
  have hnonneg := holders_nonneg tree s directory
  have hlock := hinv.lock directory
  by_contra hfree
  rw [if_neg hfree] at hlock
  omega

/-- One transaction on a node is under the lock of its parent. -/
theorem RemovalInv.sole (hinv : RemovalInv tree s) (hget : s.txns[index]? = some ⟨node, phase⟩)
    (hparent : tree.parent node = some directory) (hlocked : phase.locked = true)
    {found : Txn Node} (hmem : found ∈ s.txns) (hnode : found.node = node)
    (hfound : found.phase.locked = true) : found = ⟨node, phase⟩ := by
  obtain ⟨other, hother⟩ := List.getElem?_of_mem hmem
  have htotal : total (Txn.holds tree directory) s.txns ≤ 1 := by
    have hlock := hinv.lock directory
    have hnonneg := (holders_nonneg tree s directory).2
    split at hlock <;> omega
  have hsame : index = other :=
    eq_of_total_le_one (fun txn _ => Txn.holds_nonneg tree directory txn) htotal hget hother
      (if_pos ⟨hparent, hlocked⟩) (if_pos ⟨hnode ▸ hparent, hfound⟩)
  subst hsame
  exact Option.some.inj (hother.symm.trans hget)

omit [Fintype Node] in
theorem total_unrecorded {txns : List (Txn Node)}
    (hsettled : ∀ txn ∈ txns, txn.node = node → txn.phase.recording = false) :
    total (Txn.unrecorded node) txns = 0 := by
  refine total_eq_zero fun txn hmem => ?_
  rw [Txn.unrecorded]
  split
  · have hnot := hsettled txn hmem ‹_›
    split
    · rename_i hadded
      rw [hadded] at hnot
      cases hnot
    · rfl
  · rfl

/-- The holder of the lock knows whether the record lacks something. -/
theorem RemovalInv.record_of_holder (hinv : RemovalInv tree s)
    (hget : s.txns[index]? = some ⟨node, phase⟩) (hparent : tree.parent node = some directory)
    (hlocked : phase.locked = true) (hphase : phase.recording = false) (hnode : Recorded s node) :
    s.contribution node = s.contri node := by
  have hrecord := hinv.record node hnode
  have hzero : total (Txn.unrecorded node) s.txns = 0 := by
    refine total_unrecorded fun found hmem hsame => ?_
    by_contra hrecording
    have hfound := hinv.sole hget hparent hlocked hmem hsame (by
      revert hrecording
      cases found.phase <;> simp [TxnPhase.recording, TxnPhase.locked])
    rw [hfound, hphase] at hrecording
    exact hrecording rfl
  omega

variable {delta : Int}

/-- `xattrop` on the file -/
theorem RemovalInv.addsContri (hinv : RemovalInv tree s)
    (hget : s.txns[index]? = some ⟨node, .addingContri delta⟩)
    (hparent : tree.parent node = some directory) (hlive : s.removed node = false) :
    RemovalInv tree { s with
      toQuotaState := { s.toQuotaState with
        contri := Function.update s.contri node (s.contri node + delta) }.setPhase index node
          (.addedContri delta) } := by
  refine hinv.moved hget rfl (lock_same rfl) ?_ ?_ ?_ nofun ?_
  · intro other hother
    refine Function.update_of_ne (hother.elim id fun hremoved => ?_) _ _
    rintro rfl
    rw [hlive] at hremoved
    cases hremoved
  · intro upper _
    simp only [liveSum, QuotaState.setPhase, Txn.moving, TxnPhase.moving, sum_update_add, hlive,
      and_true]
    split_ifs <;> omega
  · intro other _
    simp only [QuotaState.setPhase, Txn.unrecorded, Function.update_apply, eq_comm (a := node)]
    split_ifs with hsame
    · rw [hsame]
      omega
    · rfl
  · intro txn hmem hnode size contri hphase
    have hfound := hinv.sole hget hparent rfl hmem hnode (by rw [hphase]; rfl)
    rw [hfound] at hphase
    cases hphase

variable {size : Int}

section

variable (hinv : RemovalInv tree s)

include hinv

/-- `mq_update_inode_contribution`: what the lookup has returned is what the record says. -/
theorem RemovalInv.updatesContribution {contri : Int}
    (hget : s.txns[index]? = some ⟨node, .lookedUp size contri⟩)
    (hparent : tree.parent node = some directory) : RemovalInv tree { s with
      toQuotaState := updateInodeContribution s.toQuotaState index node size contri } := by
  have hcontribution : ∀ other, Recorded s other →
      Function.update s.contribution node contri other = s.contribution other := by
    intro other hother
    by_cases hsame : other = node
    · subst hsame
      rw [Function.update_self, hinv.record_of_holder hget hparent rfl rfl hother]
      exact hinv.looked _ (List.mem_of_getElem? hget) size contri rfl
    · exact Function.update_of_ne hsame _ _
  rw [updateInodeContribution]
  split <;> exact hinv.passes hget rfl rfl rfl hcontribution (lock_same rfl) rfl
    (fun _ => rfl) (fun _ _ h => by cases h)

/-- `mq_update_parent_size` -/
theorem RemovalInv.records (hget : s.txns[index]? = some ⟨node, .addedContri delta⟩) :
    RemovalInv tree { s with
      toQuotaState := { s.toQuotaState with
        contribution := Function.update s.contribution node (s.contribution node + delta)
        }.setPhase index node (.addingSize delta) } := by
  refine hinv.moved hget rfl (lock_same rfl) (fun _ _ => rfl) ?_ ?_ nofun (fun _ _ _ _ _ _ => rfl)
  · intro upper _
    simp only [liveSum, QuotaState.setPhase, Txn.moving, TxnPhase.moving]
    omega
  · intro other _
    simp only [QuotaState.setPhase, Txn.unrecorded, Function.update_apply, eq_comm (a := node)]
    split_ifs with hsame
    · rw [hsame]
      omega
    · rfl

/-- `xattrop` on the parent -/
theorem RemovalInv.addsSize (hget : s.txns[index]? = some ⟨node, .addingSize delta⟩)
    (hparent : tree.parent node = some directory) : RemovalInv tree { s with
      toQuotaState := { s.toQuotaState with
        size := Function.update s.size directory (s.size directory + delta) }.setPhase index node
          (.undirtying delta) } := by
  refine hinv.moved hget rfl (lock_same rfl) (fun _ _ => rfl) ?_ (fun _ _ => rfl) nofun
    (fun _ _ _ _ _ _ => rfl)
  intro upper _
  simp only [liveSum, QuotaState.setPhase, Txn.moving, TxnPhase.moving, hparent, Option.some.injEq,
    Function.update_apply, eq_comm (a := upper)]
  split_ifs with hsame
  · subst hsame
    omega
  · omega

theorem RemovalInv.addTxn (node : Node) :
    RemovalInv tree { s with txns := s.txns ++ [⟨node, .locking⟩] } where
  lock := fun directory => by
    rw [← hinv.lock, total_append]
    simp [Txn.holds, TxnPhase.locked]
  sums := fun directory hdir => by
    have hbefore := hinv.sums directory hdir
    simp only [total_append, total_cons, total_nil, Txn.moving, TxnPhase.moving, ite_self, add_zero]
    exact hbefore
  record := fun other hother => by
    rw [← hinv.record other hother, total_append]
    simp [Txn.unrecorded]
  looked := by
    intro txn hmem size contri hphase
    rcases List.mem_append.mp hmem with hmem | hmem
    · exact hinv.looked txn hmem size contri hphase
    · rw [List.mem_singleton.mp hmem] at hphase
      cases hphase
  gone := hinv.gone
  once := hinv.once

/-- The dirty flags, the statuses and the list of changes do not matter here. -/
theorem RemovalInv.irrelevant (dirty updationStatus : Node → Bool) (changed : List Node) :
    RemovalInv tree { s with
      dirty := dirty, updationStatus := updationStatus, changed := changed } :=
  ⟨hinv.lock, hinv.sums, hinv.record, hinv.looked, hinv.gone, hinv.once⟩

theorem RemovalInv.startTxn (node : Node) :
    RemovalInv tree { s with toQuotaState := startTxn s.toQuotaState node } := by
  rw [Marker.startTxn]
  split
  · exact hinv
  · exact (hinv.addTxn node).irrelevant s.dirty _ s.changed

theorem RemovalInv.dropTxn (hget : s.txns[index]? = some ⟨node, .unlocked delta⟩) :
    RemovalInv tree { s with txns := s.txns.eraseIdx index } where
  lock := fun directory => by
    rw [← hinv.lock, total_eraseIdx hget]
    simp [Txn.holds, TxnPhase.locked]
  sums := fun directory hdir => by
    have hbefore := hinv.sums directory hdir
    simp only [total_eraseIdx hget, Txn.moving, TxnPhase.moving, ite_self, sub_zero]
    exact hbefore
  record := fun other hother => by
    rw [← hinv.record other hother, total_eraseIdx hget]
    simp [Txn.unrecorded]
  looked := fun txn hmem => hinv.looked txn (List.mem_of_mem_eraseIdx hmem)
  gone := hinv.gone
  once := hinv.once

theorem RemovalInv.proceedTxn (hget : s.txns[index]? = some ⟨node, phase⟩)
    (hparent : tree.parent node = some directory)
    (hcalls : ∀ other ∈ Txn.calls ⟨node, phase⟩, s.removed other = false)
    (hstep : txnStep tree s.toQuotaState index node directory phase = some quota) :
    RemovalInv tree { s with toQuotaState := quota } := by
  cases phase with
  | locking =>
    rw [txnStep] at hstep
    split at hstep
    · cases hstep
    · rename_i hfree
      cases hstep
      exact hinv.passes hget rfl rfl rfl (fun _ _ => rfl)
        (lock_update hparent rfl rfl (eq_false_of_ne_true hfree)) rfl
          (fun _ => rfl) (fun _ _ h => by cases h)
  | markingDirty | markedDirty | undirtying delta =>
    cases hstep
    exact hinv.passes hget rfl rfl rfl (fun _ _ => rfl) (lock_same rfl) rfl
      (fun _ => rfl) (fun _ _ h => by cases h)
  | lookingUp =>
    cases hstep
    refine hinv.passes hget rfl rfl rfl (fun _ _ => rfl) (lock_same rfl) rfl (fun _ => rfl) ?_
    intro size contri hnext
    cases hnext
    rfl
  | lookedUp size contri =>
    cases hstep
    exact hinv.updatesContribution hget hparent
  | addingContri delta =>
    cases hstep
    exact hinv.addsContri hget hparent (hcalls node rfl)
  | addedContri delta =>
    cases hstep
    exact hinv.records hget
  | addingSize delta =>
    cases hstep
    exact hinv.addsSize hget hparent
  | unlocking delta =>
    cases hstep
    exact hinv.passes hget rfl rfl rfl (fun _ _ => rfl) (lock_update hparent rfl rfl
      (hinv.locked_of_holder (.inl (one_le_holds hget hparent rfl)))) rfl
        (fun _ => rfl) (fun _ _ h => by cases h)
  | unlocked delta =>
    cases hstep
    rw [inodelkCbk]
    split
    · exact hinv.dropTxn hget
    · exact (hinv.dropTxn hget).startTxn directory

theorem RemovalInv.quotaStep {label : QuotaLabel Node}
    (hcalls : ∀ other ∈ callee s label, s.removed other = false)
    (hstep : quotaStep tree s.toQuotaState label = some quota) :
    RemovalInv tree { s with toQuotaState := quota } := by
  cases label with
  | change file size =>
    rw [Marker.quotaStep] at hstep
    split at hstep
    · cases hstep
    · rename_i hfile
      cases hstep
      refine ⟨hinv.lock, fun directory hdir => ?_, hinv.record, hinv.looked, hinv.gone, hinv.once⟩
      have hne : directory ≠ file := by
        rintro rfl
        exact hfile hdir
      have hbefore := hinv.sums directory hdir
      simp only [Function.update_of_ne hne]
      exact hbefore
  | initiate file =>
    rw [Marker.quotaStep] at hstep
    split at hstep
    · cases hstep
      have hrest := hinv.irrelevant s.dirty s.updationStatus (s.changed.erase file)
      split
      · exact hrest.startTxn file
      · exact hrest
    · cases hstep
  | proceed txn =>
    rw [Marker.quotaStep] at hstep
    split at hstep
    · rename_i node phase hget
      obtain ⟨directory, hparent, hmove⟩ := Option.bind_eq_some_iff.mp hstep
      refine hinv.proceedTxn hget hparent (fun other hother => hcalls other ?_) hmove
      simp only [callee, hget, Option.bind_some]
      exact hother
    · cases hstep

end

/-! ## Steps of removals -/

section Proceed

variable {old new : Removal Node}

theorem RemovalInv.sole_removal (hinv : RemovalInv tree s) (hget : s.removals[index]? = some old)
    {other : Nat} {found : Removal Node} (hother : s.removals[other]? = some found)
    (hnode : found.node = old.node) : index = other := by
  have hlt : index < (s.removals.map Removal.node).length := by
    rw [List.length_map]
    exact (List.getElem?_eq_some_iff.mp hget).1
  refine (List.getElem?_inj hlt hinv.once).mp ?_
  rw [List.getElem?_map, List.getElem?_map, hget, hother]
  exact congrArg some hnode.symm

/-- A removal whose amount has been read is no reason to keep the record. -/
theorem RemovalInv.recorded_of_set (hinv : RemovalInv tree s)
    (hget : s.removals[index]? = some old) (hphase : new.phase ≠ .unlinked)
    (hremoved : after.removed = s.removed)
    (hremovals : after.removals = s.removals.set index new) {other : Node}
    (hother : Recorded after other) : Recorded s other ∧ other ≠ old.node := by
  have hgone := hinv.gone old (List.mem_of_getElem? hget)
  rcases hother with hlive | ⟨removal, hmem, hsame, hunlinked⟩
  · rw [hremoved] at hlive
    refine ⟨.inl hlive, ?_⟩
    rintro rfl
    rw [hgone] at hlive
    cases hlive
  · rw [hremovals] at hmem
    obtain ⟨place, hplace⟩ := List.getElem?_of_mem hmem
    by_cases hindex : index = place
    · subst hindex
      rw [List.getElem?_set_self (List.getElem?_eq_some_iff.mp hget).1] at hplace
      cases hplace
      exact (hphase hunlinked).elim
    · rw [List.getElem?_set_ne hindex] at hplace
      refine ⟨.inr ⟨removal, List.mem_of_getElem? hplace, hsame, hunlinked⟩, ?_⟩
      rintro rfl
      exact hindex (hinv.sole_removal hget hplace hsame)

/-- A removal whose amount is known moves. -/
theorem RemovalInv.removalMoved (new : Removal Node) (hinv : RemovalInv tree s)
    (hget : s.removals[index]? = some old) (hnode : new.node = old.node)
    (hphase : new.phase ≠ .unlinked)
    (hremovals : after.removals = s.removals.set index new) (htxns : after.txns = s.txns)
    (hremoved : after.removed = s.removed) (hcontri : after.contri = s.contri)
    (hcontribution : ∀ other, other ≠ old.node → after.contribution other = s.contribution other)
    (hlock : ∀ directory, (if after.locked directory then (1 : Int) else 0) =
      (if s.locked directory then 1 else 0) +
        (Removal.holds tree directory new - Removal.holds tree directory old))
    (hsize : ∀ directory, after.size directory = s.size directory +
      (Removal.owes tree s.contri directory new - Removal.owes tree s.contri directory old)) :
    RemovalInv tree after where
  lock := fun directory => by
    have hbefore := hinv.lock directory
    rw [hlock, ← hbefore, htxns, hremovals, total_set hget]
    omega
  sums := fun directory hdir => by
    have hbefore := hinv.sums directory hdir
    have hlive : liveSum tree after directory = liveSum tree s directory := by
      simp only [liveSum, hcontri, hremoved]
    rw [hlive, hcontri, htxns, hremovals, total_set hget, hsize]
    omega
  record := fun other hother => by
    obtain ⟨hbefore, hne⟩ := hinv.recorded_of_set hget hphase hremoved hremovals hother
    rw [htxns, hcontri, hcontribution other hne]
    exact hinv.record other hbefore
  looked := by
    rw [htxns, hcontri]
    exact hinv.looked
  gone := by
    rw [hremovals, hremoved]
    refine forall_mem_set hinv.gone ?_
    rw [hnode]
    exact hinv.gone old (List.mem_of_getElem? hget)
  once := by
    have hsame : (s.removals.set index new).map Removal.node = s.removals.map Removal.node := by
      refine List.ext_getElem? fun place => ?_
      rw [List.getElem?_map, List.getElem?_map]
      by_cases hplace : index = place
      · subst hplace
        rw [List.getElem?_set_self (List.getElem?_eq_some_iff.mp hget).1, hget]
        exact congrArg some hnode
      · rw [List.getElem?_set_ne hplace]
    rw [hremovals, hsame]
    exact hinv.once

theorem RemovalInv.dropRemoval (hinv : RemovalInv tree s) (hget : s.removals[index]? = some old)
    (hholds : old.phase.locked = false)
    (howes : ∀ directory, Removal.owes tree s.contri directory old = 0) :
    RemovalInv tree { s with removals := s.removals.eraseIdx index } where
  lock := fun directory => by
    rw [← hinv.lock, total_eraseIdx hget]
    simp [Removal.holds, hholds]
  sums := fun directory hdir => by
    have hbefore := hinv.sums directory hdir
    simp only [total_eraseIdx hget, howes, sub_zero]
    exact hbefore
  record := fun other hother => by
    refine hinv.record other (hother.imp_right ?_)
    rintro ⟨removal, hmem, hrest⟩
    exact ⟨removal, List.mem_of_mem_eraseIdx hmem, hrest⟩
  looked := hinv.looked
  gone := fun removal hmem => hinv.gone removal (List.mem_of_mem_eraseIdx hmem)
  once := hinv.once.sublist ((List.eraseIdx_sublist _ _).map _)

/-- `mq_reduce_parent_size` reads what the file has contributed. -/
theorem RemovalInv.reduceParentSize (hinv : RemovalInv tree s)
    (hget : s.removals[index]? = some ⟨node, size, .unlinked⟩)
    (hsettled : ∀ txn ∈ s.txns, txn.node = node → txn.phase.recording = false) :
    RemovalInv tree (reduceParentSize s index node) := by
  have hzero := total_unrecorded hsettled
  have hrecord : s.contribution node = s.contri node := by
    have hbefore := hinv.record node (.inr ⟨_, List.mem_of_getElem? hget, rfl, rfl⟩)
    omega
  rw [Marker.reduceParentSize]
  split
  · rename_i hnothing
    refine hinv.dropRemoval hget rfl fun directory => ?_
    simp [Removal.owes, ← hrecord, hnothing]
  · refine hinv.removalMoved ⟨node, s.contribution node, .locking⟩ hget rfl nofun rfl rfl rfl rfl
      (fun _ _ => rfl) (lock_same rfl) fun directory => ?_
    simp [RemovalState.setRemoval, Removal.owes, hrecord]

theorem RemovalInv.proceedRemoval {phase : RemovalPhase} (hinv : RemovalInv tree s)
    (hget : s.removals[index]? = some ⟨node, size, phase⟩)
    (hparent : tree.parent node = some directory) (hguard : RecordSettled s (.proceed index))
    (hstep : removalProceed tree s index directory ⟨node, size, phase⟩ = some after) :
    RemovalInv tree after := by
  cases phase with
  | unlinked =>
    cases hstep
    exact hinv.reduceParentSize hget (hguard _ hget rfl)
  | locking =>
    rw [removalProceed] at hstep
    split at hstep
    · cases hstep
    · rename_i hfree
      cases hstep
      refine hinv.removalMoved ⟨node, size, .reducing⟩ hget rfl nofun rfl rfl rfl rfl
        (fun _ _ => rfl) (lock_update hparent rfl rfl (eq_false_of_ne_true hfree))
        fun upper => ?_
      simp [RemovalState.setRemoval, Removal.owes]
  | reducing =>
    cases hstep
    refine hinv.removalMoved ⟨node, size, .reduced⟩ hget rfl nofun rfl rfl rfl rfl
      (fun _ _ => rfl) (lock_same rfl) fun upper => ?_
    simp only [Removal.owes, hparent, Option.some.injEq, Function.update_apply,
      eq_comm (a := upper)]
    split_ifs with hsame
    · subst hsame
      omega
    · omega
  | reduced =>
    cases hstep
    refine hinv.removalMoved ⟨node, size, .unlocking⟩ hget rfl nofun rfl rfl rfl rfl ?_
      (lock_same rfl) fun upper => ?_
    · intro other hother
      rw [inodeRemoveDone]
      split
      · exact Function.update_of_ne hother _ _
      · rfl
    · simp [inodeRemoveDone, RemovalState.setRemoval, Removal.owes]
  | unlocking =>
    cases hstep
    have hle := weight_le_total (fun removal _ => Removal.holds_nonneg tree directory removal)
      (List.mem_of_getElem? hget)
    rw [Removal.holds, if_pos ⟨hparent, rfl⟩] at hle
    have hlocked := hinv.locked_of_holder (.inr hle)
    refine hinv.removalMoved ⟨node, size, .unlocked⟩ hget rfl nofun rfl rfl rfl rfl
      (fun _ _ => rfl) (lock_update hparent rfl rfl hlocked) fun upper => ?_
    simp [RemovalState.setRemoval, Removal.owes]
  | unlocked =>
    cases hstep
    have hdrop := hinv.dropRemoval hget rfl fun upper => by simp [Removal.owes]
    rw [inodeRemoveUnlocked]
    split
    · exact hdrop
    · exact hdrop.addTxn directory

end Proceed

/-! ## Runs -/

/-- A file that is removed leaves the sum over the children of its parent. -/
theorem liveSum_unlink (tree : Tree Node) {file : Node} (hlive : s.removed file = false)
    (directory : Node) (removals : List (Removal Node)) :
    liveSum tree { s with removed := Function.update s.removed file true, removals } directory +
        (if tree.parent file = some directory then s.contri file else 0) =
      liveSum tree s directory := by
  have hset : ({child | tree.parent child = some directory ∧
      Function.update s.removed file true child = false} : Finset Node) =
      ({child | tree.parent child = some directory ∧ s.removed child = false} :
        Finset Node).erase file := by
    ext child
    by_cases hchild : child = file <;> simp [hchild, Function.update_of_ne]
  rw [liveSum, liveSum, hset]
  split
  · rename_i hparent
    rw [add_comm]
    exact Finset.add_sum_erase _ _ (by simpa using ⟨hparent, hlive⟩)
  · rename_i hparent
    rw [Finset.erase_eq_of_notMem (by simp [hparent]), add_zero]

/-- The child removes a file: its contribution is no longer one of a child, and is owed. -/
theorem RemovalInv.unlink {file : Node} (hinv : RemovalInv tree s)
    (hlive : s.removed file = false) :
    RemovalInv tree { s with
      removed := Function.update s.removed file true
      removals := s.removals ++ [⟨file, 0, .unlinked⟩] } where
  lock := fun directory => by
    rw [← hinv.lock, total_append]
    simp [Removal.holds, RemovalPhase.locked]
  sums := fun directory hdir => by
    have hbefore := hinv.sums directory hdir
    have howes : Removal.owes tree s.contri directory ⟨file, 0, .unlinked⟩ =
        if tree.parent file = some directory then s.contri file else 0 := rfl
    have hsum := liveSum_unlink tree hlive directory (s.removals ++ [⟨file, 0, .unlinked⟩])
    change _ + total (Removal.owes tree s.contri directory) (s.removals ++ _) =
      s.size directory + total (Txn.moving tree directory) s.txns
    rw [total_append, total_cons, total_nil, howes]
    omega
  record := fun other hother => by
    refine hinv.record other ?_
    rcases hother with hother | ⟨removal, hmem, hsame, hunlinked⟩
    · by_cases hfile : other = file
      · exact .inl (hfile ▸ hlive)
      · exact .inl (by simpa [Function.update_of_ne hfile] using hother)
    · rcases List.mem_append.mp hmem with hmem | hmem
      · exact .inr ⟨removal, hmem, hsame, hunlinked⟩
      · cases List.mem_singleton.mp hmem
        exact .inl (hsame ▸ hlive)
  looked := hinv.looked
  gone := by
    intro removal hmem
    rcases List.mem_append.mp hmem with hmem | hmem
    · by_cases hfile : removal.node = file
      · simp [hfile]
      · simpa [Function.update_of_ne hfile] using hinv.gone removal hmem
    · cases List.mem_singleton.mp hmem
      exact Function.update_self _ _ _
  once := by
    rw [List.map_append]
    refine hinv.once.append (List.nodup_singleton _) ?_
    intro found hmem hfile
    obtain ⟨removal, hremoval, rfl⟩ := List.mem_map.mp hmem
    have hgone := hinv.gone removal hremoval
    rw [List.mem_singleton.mp hfile] at hgone
    exact absurd (hgone.symm.trans hlive) (by decide)

theorem RemovalInv.step {label : RemovalLabel Node} (hinv : RemovalInv tree s)
    (hguard : RecordSettled s label) (hstep : removalStep tree s label = some after) :
    RemovalInv tree after := by
  cases label with
  | quota label =>
    rw [removalStep] at hstep
    split at hstep
    · cases hstep
    · rename_i hcalls
      obtain ⟨quota, hquota, rfl⟩ := Option.map_eq_some_iff.mp hstep
      refine hinv.quotaStep (fun other hother => ?_) hquota
      by_contra hremoved
      refine hcalls ?_
      rw [Option.mem_def.mp hother]
      exact eq_true_of_ne_false hremoved
  | unlink file =>
    rw [removalStep] at hstep
    split at hstep
    · cases hstep
    · rename_i hok
      cases hstep
      refine hinv.unlink (eq_false_of_ne_true fun hremoved => hok (.inr (.inl hremoved)))
  | proceed index =>
    obtain ⟨⟨node, size, phase⟩, hget, hbody⟩ := Option.bind_eq_some_iff.mp hstep
    obtain ⟨directory, hparent, hmove⟩ := Option.bind_eq_some_iff.mp hbody
    exact hinv.proceedRemoval hget hparent hguard hmove

/-- A state at rest before any removal; the records in memory are those on disk. -/
structure SettledRecords (tree : Tree Node) (s : RemovalState Node) : Prop where
  settled : Settled tree s.toQuotaState
  records : s.contribution = s.contri
  none_removed : ∀ node, s.removed node = false
  none_pending : s.removals = []

theorem SettledRecords.removalInv (hstart : SettledRecords tree s) : RemovalInv tree s := by
  have htxns : s.txns = [] := hstart.settled.quiet.1
  refine ⟨fun directory => ?_, fun directory hdir => ?_, fun node _ => ?_, ?_, ?_, ?_⟩
  · rw [htxns, hstart.none_pending, hstart.settled.unlocked]
    rfl
  · have hsum := hstart.settled.accounted.sum directory hdir
    have hlive : liveSum tree s directory = s.size directory := by
      rw [hsum, liveSum]
      exact Finset.sum_congr (by ext child; simp [hstart.none_removed]) fun _ _ => rfl
    rw [hlive, htxns, hstart.none_pending]
    rfl
  · rw [htxns, hstart.records]
    exact add_zero _
  · rw [htxns]
    exact fun _ hmem => absurd hmem List.not_mem_nil
  · rw [hstart.none_pending]
    exact fun _ hmem => absurd hmem List.not_mem_nil
  · rw [hstart.none_pending]
    exact List.nodup_nil

/-- The size of every directory is the sum of what its children that still exist contribute. -/
def RemovalsAccounted (tree : Tree Node) (s : RemovalState Node) : Prop :=
  ∀ directory, tree.isDir directory = true → s.size directory = liveSum tree s directory

/-- Over every interleaving of size changes, transactions and removals in which the callback of
`unlink` finds the record of the contribution up to date. -/
theorem removals_keep_accounting {start : RemovalState Node} (hstart : SettledRecords tree start)
    (hreach : ReachableUnder (removalStep tree) RecordSettled start s)
    (htxns : s.txns = []) (hremovals : s.removals = []) : RemovalsAccounted tree s := by
  have hinv : RemovalInv tree s :=
    hreach.invariant hstart.removalInv fun _ _ _ hbefore hguard hstep => hbefore.step hguard hstep
  intro directory hdir
  have hsum := hinv.sums directory hdir
  rw [htxns, hremovals, total_nil, total_nil, add_zero, add_zero] at hsum
  exact hsum.symm

def emptyRemovals : RemovalState (Fin 3) where
  toQuotaState := emptyVolume
  removed := fun _ => false
  removals := []

theorem emptyRemovals_settled : SettledRecords oneFile emptyRemovals :=
  ⟨emptyVolume_settled, rfl, fun _ => rfl, rfl⟩

/-- A file is written and removed, and the sizes are zero again. -/
theorem removals_keep_accounting_one_file : ∃ s,
    ReachableUnder (removalStep oneFile) RecordSettled emptyRemovals s ∧ s.removed 2 = true ∧
      s.size 1 = 0 ∧ RemovalsAccounted oneFile s := by
  obtain ⟨s, hrun, hreach⟩ :=
    ReachableUnder.exists_of_run (removalStep oneFile) RecordSettled emptyRemovals
    ([.quota (.change 2 512), .quota (.initiate 2)] ++
        List.replicate 22 (.quota (.proceed 0)) ++ [.unlink 2] ++ List.replicate 6 (.proceed 0) ++
        List.replicate 11 (.quota (.proceed 0))) (by decide) rfl
  have hquiet : s.txns = [] ∧ s.removals = [] ∧ s.removed 2 = true ∧ s.size 1 = 0 := by
    cases hrun
    exact ⟨rfl, rfl, rfl, rfl⟩
  exact ⟨s, hreach, hquiet.2.2.1, hquiet.2.2.2,
    removals_keep_accounting emptyRemovals_settled hreach hquiet.1 hquiet.2.1⟩

/-- The callback of `unlink` runs after the addition to the contribution of the file and before
the callback of that addition: nothing is subtracted, and the addition to the parent is made. -/
theorem removal_reads_stale_record :
    ¬∀ (tree : Tree (Fin 3)) (start s : RemovalState (Fin 3)), SettledRecords tree start →
      Reachable (removalStep tree) start s → s.txns = [] → s.removals = [] →
      RemovalsAccounted tree s := by
  intro hclaim
  obtain ⟨s, hrun, hreach⟩ := Reachable.exists_of_run (removalStep oneFile) emptyRemovals
    ([.quota (.change 2 512), .quota (.initiate 2)] ++
        List.replicate 6 (.quota (.proceed 0)) ++ [.unlink 2, .proceed 0] ++
        List.replicate 16 (.quota (.proceed 0))) rfl
  have hquiet : s.txns = [] ∧ s.removals = [] ∧ s.size 1 = 512 := by
    cases hrun
    exact ⟨rfl, rfl, rfl⟩
  have hsize := hclaim oneFile emptyRemovals s emptyRemovals_settled hreach hquiet.1 hquiet.2.1 1
    (by decide)
  rw [hquiet.2.2] at hsize
  have hnone : liveSum oneFile s 1 = 0 := by
    refine Finset.sum_eq_zero fun child hchild => ?_
    cases hrun
    revert hchild
    revert child
    decide
  rw [hnone] at hsize
  cases hsize

end GlusterFS.Marker
