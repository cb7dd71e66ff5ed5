import GlusterFS.Afr.NodeCharacters
import Mathlib.Algebra.BigOperators.Group.List.Basic

/-!
# Soundness of the source selection

A history is any interleaving of the steps of data transactions on one file.
The pending matrix it leaves counts, for two children `i` and `j`, the
transactions that were pre-op'ed on `i` and either failed on `j` or did not
get their post-op to `i`.  From these counts `afr_mark_sources` only chooses
children that took part successfully in every transaction.
-/

namespace GlusterFS.Afr

variable {n : Nat}

/-! ## Histories -/

/-- A data transaction: the children it was pre-op'ed on, those on which the
operation succeeded and those that its post-op reached.  `newSize` is what the
operation does to the size of a copy, and `spoiled` what is left where it
fails or does not arrive. -/
structure DataTxn (n : Nat) where
  preOp : Finset (Fin n)
  succeeded : Finset (Fin n)
  postOp : Finset (Fin n)
  newSize : Nat → Nat
  spoiled : Fin n → Nat → Nat
  preOp_nonempty : preOp.Nonempty
  succeeded_subset : succeeded ⊆ preOp
  postOp_subset : postOp ⊆ preOp

/-- `local->pending` when the post-op is sent. -/
def DataTxn.postOpPending (txn : DataTxn n) : Counters n :=
  markNonParticipantChildren (markChildrenDead markAllSuccess
      ((List.finRange n).filter fun i => i ∈ txn.preOp ∧ i ∉ txn.succeeded))
    fun i => i ∈ txn.preOp

theorem DataTxn.postOpPending_apply (txn : DataTxn n) (j : Fin n) :
    txn.postOpPending j = if j ∈ txn.succeeded then -1 else 0 := by
  have hsub : j ∈ txn.succeeded → j ∈ txn.preOp := fun h => txn.succeeded_subset h
  simp only [postOpPending, markNonParticipantChildren, markChildrenDead_apply,
    markAllSuccess, decide_eq_true_eq, List.mem_filter, List.mem_finRange,
    true_and]
  split_ifs <;> tauto

inductive HistoryStep (n : Nat)
  | preOp (txn : DataTxn n) (child : Fin n)
  | fop (txn : DataTxn n)
  | postOp (txn : DataTxn n) (child : Fin n)

/-- The copies of the file: their changelogs and their sizes. -/
structure Replica (n : Nat) where
  disk : PendingMatrix n
  size : Fin n → Nat

/-- All the copies start with the same content and a clean changelog. -/
def Replica.clean (size : Nat) : Replica n := ⟨fun _ _ => 0, fun _ => size⟩

def Replica.apply (replica : Replica n) : HistoryStep n → Replica n
  | .preOp _ child =>
    { replica with disk := xattropAddArray replica.disk child markAllPending }
  | .fop txn =>
    { replica with
      size := fun i =>
        if i ∈ txn.succeeded then txn.newSize (replica.size i)
        else txn.spoiled i (replica.size i) }
  | .postOp txn child =>
    { replica with
      disk := xattropAddArray replica.disk child txn.postOpPending }

def DataTxn.steps (txn : DataTxn n) : List (HistoryStep n) :=
  ((List.finRange n).filter (· ∈ txn.preOp)).map (.preOp txn) ++
    .fop txn :: ((List.finRange n).filter (· ∈ txn.postOp)).map (.postOp txn)

/-- An interleaving of the steps of the transactions. -/
def IsHistory (txns : List (DataTxn n)) (steps : List (HistoryStep n)) : Prop :=
  steps.Perm (txns.flatMap DataTxn.steps)

def Replica.run (replica : Replica n) (steps : List (HistoryStep n)) :
    Replica n :=
  steps.foldl Replica.apply replica

/-! ## What the counters count -/

/-- What a step adds to the counter of child `i` for child `j`. -/
def HistoryStep.added (i j : Fin n) : HistoryStep n → Int
  | .preOp _ child => if child = i then 1 else 0
  | .fop _ => 0
  | .postOp txn child => if child = i then txn.postOpPending j else 0

theorem Replica.apply_disk (replica : Replica n) (step : HistoryStep n) (i j : Fin n) :
    (replica.apply step).disk i j = replica.disk i j + step.added i j := by
  cases step <;>
    simp [Replica.apply, HistoryStep.added, xattropAddArray_apply, markAllPending]

theorem Replica.run_disk (replica : Replica n) (steps : List (HistoryStep n)) (i j : Fin n) :
    (replica.run steps).disk i j = replica.disk i j + (steps.map (HistoryStep.added i j)).sum := by
  induction steps generalizing replica with
  | nil => simp [run]
  | cons step steps ih =>
    rw [run, List.foldl_cons, ← run, ih, apply_disk]
    simp only [List.map_cons, List.sum_cons]
    omega

/-- Child `i` keeps the transaction on record against child `j`. -/
def DataTxn.Accuses (txn : DataTxn n) (i j : Fin n) : Prop :=
  i ∈ txn.preOp ∧ (j ∉ txn.succeeded ∨ i ∉ txn.postOp)
  deriving Decidable

theorem sum_map_ite_eq_of_nodup {children : List (Fin n)}
    (hnodup : children.Nodup) (i : Fin n) (value : Int) :
    (children.map fun child => if child = i then value else 0).sum =
      if i ∈ children then value else 0 := by
  induction children with
  | nil => rfl
  | cons child children ih =>
    obtain ⟨hnot, hrest⟩ := List.nodup_cons.mp hnodup
    rw [List.map_cons, List.sum_cons, ih hrest]
    by_cases h : child = i
    · subst h
      simp [hnot]
    · simp [h, Ne.symm h]

/-- A transaction leaves one count where it is kept on record. -/
theorem DataTxn.steps_added (txn : DataTxn n) (i j : Fin n) :
    (txn.steps.map (HistoryStep.added i j)).sum = if txn.Accuses i j then 1 else 0 := by
  have hnodup : ∀ keep : Fin n → Bool, ((List.finRange n).filter keep).Nodup :=
    fun keep => (List.nodup_finRange n).filter keep
  have hsub : i ∈ txn.postOp → i ∈ txn.preOp := fun h => txn.postOp_subset h
  have hpre : (HistoryStep.added i j ∘ HistoryStep.preOp txn) =
      fun child => if child = i then 1 else 0 := rfl
  have hpost : (HistoryStep.added i j ∘ HistoryStep.postOp txn) =
      fun child => if child = i then txn.postOpPending j else 0 := rfl
  simp only [steps, List.map_append, List.map_cons, List.map_map,
    List.sum_append, List.sum_cons, hpre, hpost,
    sum_map_ite_eq_of_nodup (hnodup _), List.mem_filter, List.mem_finRange,
    decide_eq_true_eq, true_and, HistoryStep.added, postOpPending_apply]
  by_cases haccuses : txn.Accuses i j
  · rw [if_pos haccuses]
    obtain ⟨hin, hmissed⟩ := haccuses
    rcases hmissed with h | h <;> simp [hin, h]
  · rw [if_neg haccuses]
    by_cases hin : i ∈ txn.preOp
    · have h : j ∈ txn.succeeded ∧ i ∈ txn.postOp := by
        by_contra h
        exact haccuses ⟨hin, by tauto⟩
      simp [hin, h]
    · have h : i ∉ txn.postOp := fun h => hin (hsub h)
      simp [hin, h]

variable {steps : List (HistoryStep n)}

/-- The counter of `i` for `j` after a history that started clean. -/
theorem history_disk {txns : List (DataTxn n)} (hhistory : IsHistory txns steps) (size : Nat)
    (i j : Fin n) : ((Replica.clean size).run steps).disk i j =
      txns.countP fun txn => txn.Accuses i j := by
  have hsum : ((txns.flatMap DataTxn.steps).map (HistoryStep.added i j)).sum =
      txns.countP fun txn => txn.Accuses i j := by
    clear hhistory
    induction txns with
    | nil => rfl
    | cons txn txns ih =>
      rw [List.flatMap_cons, List.map_append, List.sum_append, ih,
        txn.steps_added, List.countP_cons]
      by_cases h : txn.Accuses i j
      · simp only [h, if_true, decide_true]
        omega
      · simp [h]
  rw [Replica.run_disk, (hhistory.map _).sum_eq, hsum]
  simp [Replica.clean]

theorem history_disk_eq_zero {txns : List (DataTxn n)} (hhistory : IsHistory txns steps)
    (size : Nat) {i j : Fin n} : ((Replica.clean size).run steps).disk i j = 0 ↔
      ∀ txn ∈ txns, i ∈ txn.preOp → j ∈ txn.succeeded ∧ i ∈ txn.postOp := by
  rw [history_disk hhistory, Int.natCast_eq_zero, List.countP_eq_zero]
  refine forall₂_congr fun txn _ => ?_
  rw [decide_eq_true_eq, DataTxn.Accuses]
  tauto

/-- Copies on which every operation succeeded have the same size. -/
theorem history_size_eq {i j : Fin n}
    (hboth : ∀ txn, .fop txn ∈ steps → i ∈ txn.succeeded ∧ j ∈ txn.succeeded) {replica : Replica n}
    (hstart : replica.size i = replica.size j) :
    (replica.run steps).size i = (replica.run steps).size j := by
  induction steps generalizing replica with
  | nil => exact hstart
  | cons step steps ih =>
    rw [Replica.run, List.foldl_cons, ← Replica.run]
    refine ih (fun txn htxn => hboth txn (by simp [htxn])) ?_
    cases step with
    | preOp _ _ => exact hstart
    | fop txn =>
      obtain ⟨hi, hj⟩ := hboth txn (by simp)
      simp [Replica.apply, hi, hj, hstart]
    | postOp _ _ => exact hstart

/-! ## The sources -/

section Sources

variable {pendingMatrix : PendingMatrix n} {bufs : Fin n → Iatt}
variable {successChildren : List (Fin n)} {subvolStatus : Option Nat}

/-- The characters when all the children answered. -/
def rowCharacters (pendingMatrix : PendingMatrix n) : Fin n → AfrNodeCharacter :=
  fun i => ⟨afrFindChildCharacterType (pendingMatrix i) i, 0⟩

theorem rowCharacters_wisdom (pendingMatrix : PendingMatrix n) (i : Fin n) :
    (afrShComputeWisdom pendingMatrix (rowCharacters pendingMatrix) i).wisdom = 1 ↔
      afrFindChildCharacterType (pendingMatrix i) i = .wise ∧
        ∀ j, afrFindChildCharacterType (pendingMatrix j) j = .wise → pendingMatrix j i = 0 :=
  afrShComputeWisdom_eq_one rfl

variable {u : Fin n}

/-- With a wise child, the sources are those of wisdom 1 or there is a split
brain. -/
theorem afrMarkSourcesBody_of_wise (hall : ∀ i, i ∈ successChildren) (bufs : Fin n → Iatt)
    (type : AfrSelfHealType) (subvolStatus : Option Nat)
    (hwise : afrFindChildCharacterType (pendingMatrix u) u = .wise) :
    afrMarkSourcesBody pendingMatrix bufs type successChildren subvolStatus =
      let characters := afrShComputeWisdom pendingMatrix (rowCharacters pendingMatrix)
      if afrShWiseNodesConflict characters then
        ⟨-1, fun _ => false, subvolStatus.map (· ||| splitBrain)⟩
      else
        ⟨(afrShMarkWisestAsSources (fun _ => false) characters).1,
          (afrShMarkWisestAsSources (fun _ => false) characters).2, subvolStatus⟩ := by
  have hchars : afrFindCharacterTypes (fun _ => .zeroed) pendingMatrix successChildren =
      rowCharacters pendingMatrix := afrFindCharacterTypes_eq pendingMatrix hall
  have hinnocent : afrShAllNodesInnocent (rowCharacters pendingMatrix) = false := by
    simp only [afrShAllNodesInnocent, List.all_eq_false, rowCharacters]
    exact ⟨u, List.mem_finRange u, by simp [hwise]⟩
  have hexist : afrShWiseNodesExist (rowCharacters pendingMatrix) = true := by
    simp only [afrShWiseNodesExist, List.any_eq_true, rowCharacters]
    exact ⟨u, List.mem_finRange u, by simp [hwise]⟩
  simp [afrMarkSourcesBody, hchars, hinnocent, hexist]

/-- With a wise child that no wise child accuses, the sources are the wise
children that no wise child accuses. -/
theorem afrMarkSources_of_wisest (hall : ∀ i, i ∈ successChildren) (bufs : Fin n → Iatt)
    (type : AfrSelfHealType) (subvolStatus : Option Nat)
    (hwise : afrFindChildCharacterType (pendingMatrix u) u = .wise)
    (hwisest : ∀ j, afrFindChildCharacterType (pendingMatrix j) j = .wise →
      pendingMatrix j u = 0) (i : Fin n) : (afrMarkSources pendingMatrix bufs type successChildren
        subvolStatus).sources i = true ↔
      afrFindChildCharacterType (pendingMatrix i) i = .wise ∧
        ∀ j, afrFindChildCharacterType (pendingMatrix j) j = .wise → pendingMatrix j i = 0 := by
  have hone := (rowCharacters_wisdom pendingMatrix u).mpr ⟨hwise, hwisest⟩
  have hkeeps : (afrShComputeWisdom pendingMatrix (rowCharacters pendingMatrix) u).type =
      .wise := by
    simp [afrShComputeWisdom, rowCharacters, hwise]
  have hconflict : afrShWiseNodesConflict
      (afrShComputeWisdom pendingMatrix (rowCharacters pendingMatrix)) = false := by
    simp only [afrShWiseNodesConflict, List.all_eq_false]
    exact ⟨u, List.mem_finRange u, by simp [hkeeps, hone]⟩
  have hbody := afrMarkSourcesBody_of_wise hall bufs type subvolStatus hwise
  simp only [hconflict, Bool.false_eq_true, if_false] at hbody
  have hcount : (afrShMarkWisestAsSources (fun _ => false)
      (afrShComputeWisdom pendingMatrix (rowCharacters pendingMatrix))).1 ≠ 0 := by
    rw [afrShMarkWisestAsSources, markSourcesWhere_count]
    have hpos : 0 < (List.finRange n).countP fun i => decide
        ((afrShComputeWisdom pendingMatrix (rowCharacters pendingMatrix) i).wisdom = 1) :=
      List.countP_pos_iff.mpr ⟨u, List.mem_finRange u, by simp [hone]⟩
    omega
  rw [afrMarkSources, hbody, if_neg hcount, afrShMarkWisestAsSources, markSourcesWhere_apply]
  simp [rowCharacters_wisdom]

/-- With wise children that all are accused by wise children there is no source. -/
theorem afrMarkSources_of_conflict (hall : ∀ i, i ∈ successChildren) (bufs : Fin n → Iatt)
    (type : AfrSelfHealType) (subvolStatus : Option Nat)
    (hwise : afrFindChildCharacterType (pendingMatrix u) u = .wise)
    (haccused : ∀ v, afrFindChildCharacterType (pendingMatrix v) v = .wise →
      ∃ j, afrFindChildCharacterType (pendingMatrix j) j = .wise ∧ pendingMatrix j v ≠ 0)
    (i : Fin n) : (afrMarkSources pendingMatrix bufs type successChildren
        subvolStatus).sources i = false := by
  have hconflict : afrShWiseNodesConflict
      (afrShComputeWisdom pendingMatrix (rowCharacters pendingMatrix)) = true := by
    simp only [afrShWiseNodesConflict, List.all_eq_true, decide_eq_true_eq]
    rintro v - ⟨-, hone⟩
    obtain ⟨hv, hnone⟩ := (rowCharacters_wisdom pendingMatrix v).mp hone
    obtain ⟨j, hj, haccuses⟩ := haccused v hv
    exact haccuses (hnone j hj)
  have hbody := afrMarkSourcesBody_of_wise hall bufs type subvolStatus hwise
  simp only [hconflict, if_true] at hbody
  rw [afrMarkSources, hbody]
  rfl

/-- A child with the lowest uid is found when any child answered. -/
theorem afrGetChildWithLowestUid_mem (bufs : Fin n → Iatt) (hu : u ∈ successChildren) :
    ∃ smallest ∈ successChildren,
      afrGetChildWithLowestUid bufs successChildren = some smallest := by
  -- a turn of the loop keeps the child it has or takes the one at hand
  have hfold : ∀ (turn : Option (Fin n) → Fin n → Option (Fin n)),
      (∀ best child, turn (some best) child = some child ∨ turn (some best) child = some best) →
      ∀ (children : List (Fin n)) (start : Fin n),
        ∃ smallest, (smallest = start ∨ smallest ∈ children) ∧
          children.foldl turn (some start) = some smallest := by
    intro turn hturn children
    induction children with
    | nil => exact fun start => ⟨start, .inl rfl, rfl⟩
    | cons child children ih =>
      intro start
      rw [List.foldl_cons]
      rcases hturn start child with htaken | hkept
      · obtain ⟨smallest, hmem, h⟩ := ih child
        exact ⟨smallest, .inr (by simpa using hmem), htaken.symm ▸ h⟩
      · obtain ⟨smallest, hmem, h⟩ := ih start
        exact ⟨smallest, hmem.imp_right (by simp +contextual), hkept.symm ▸ h⟩
  cases successChildren with
  | nil => simp at hu
  | cons child children =>
    have hlowest : ∃ smallest, (smallest = child ∨ smallest ∈ children) ∧
        afrGetChildWithLowestUid bufs (child :: children) = some smallest :=
      hfold _ (fun best other => ite_eq_or_eq _ _ _) children child
    obtain ⟨smallest, hmem, h⟩ := hlowest
    exact ⟨smallest, by simpa using hmem, h⟩

/-- Copies of one size are neither split nor partly empty. -/
theorem zeroSizeScan_of_same_size (hsame : ∀ i j, (bufs i).iaSize = (bufs j).iaSize)
    (hu : u ∈ successChildren) (sources : Sources n) :
    afrShMarkZeroSizeFileAsSink bufs successChildren sources = (0, sources) := by
  have hempty : ∀ (children : List (Fin n)) (sink : Bool), (bufs u).iaSize = 0 →
      zeroSizeScan bufs children sink none = some (sink || !children.isEmpty, none) := by
    intro children
    induction children with
    | nil => intro sink _; simp [zeroSizeScan]
    | cons child children ih =>
      intro sink hzero
      simp [zeroSizeScan, hsame child u, hzero, ih]
  have hfull : ∀ (children : List (Fin n)) (source : Option (Fin n)), (bufs u).iaSize ≠ 0 →
      zeroSizeScan bufs children false source = some (false, source.or children.head?) := by
    intro children
    induction children with
    | nil => intro source _; simp [zeroSizeScan]
    | cons child children ih =>
      intro source hfull
      cases source with
      | none => simp [zeroSizeScan, hsame child u, hfull, ih]
      | some first =>
        simp [zeroSizeScan, hsame child u, hsame first u, hfull, ih]
  obtain ⟨child, children, rfl⟩ := List.exists_cons_of_ne_nil (List.ne_nil_of_mem hu)
  unfold afrShMarkZeroSizeFileAsSink
  by_cases hzero : (bufs u).iaSize = 0
  · rw [hempty _ _ hzero]
    rfl
  · rw [hfull _ _ hzero]
    rfl

/-- Marking and counting leaves a source: if nothing was marked, all the
children that answered are. -/
theorem afrMarkSources_nonempty_of_marked {type : AfrSelfHealType} (keep : Fin n → Bool)
    (children : List (Fin n)) (hu : u ∈ successChildren)
    (hcount : (afrMarkSourcesBody pendingMatrix bufs type successChildren
      subvolStatus).nsources = (markSourcesWhere keep children fun _ => false).1)
    (hsources : (afrMarkSourcesBody pendingMatrix bufs type successChildren
      subvolStatus).sources = (markSourcesWhere keep children fun _ => false).2) :
    ∃ i, (afrMarkSources pendingMatrix bufs type successChildren
      subvolStatus).sources i = true := by
  unfold afrMarkSources
  simp only
  split_ifs with hnone
  · refine ⟨u, ?_⟩
    rw [afrMarkSuccessChildrenSources, markSourcesWhere_apply]
    exact .inr ⟨hu, rfl⟩
  · rw [hcount, markSourcesWhere_count] at hnone
    have hpos : 0 < children.countP keep := by omega
    obtain ⟨i, hi, hkeep⟩ := List.countP_pos_iff.mp hpos
    refine ⟨i, ?_⟩
    rw [hsources, markSourcesWhere_apply]
    exact .inr ⟨hi, hkeep⟩

/-- Without wise children and with copies of one size there is a source. -/
theorem afrMarkSources_nonempty_of_no_wise (hall : ∀ i, i ∈ successChildren)
    (type : AfrSelfHealType) (u : Fin n)
    (hnowise : ∀ i, afrFindChildCharacterType (pendingMatrix i) i ≠ .wise)
    (hsame : ∀ i j, (bufs i).iaSize = (bufs j).iaSize) :
    ∃ i, (afrMarkSources pendingMatrix bufs type successChildren
      subvolStatus).sources i = true := by
  have hchars := afrFindCharacterTypes_eq pendingMatrix hall
  generalize hcharacters : (fun i => (⟨afrFindChildCharacterType (pendingMatrix i) i,
    0⟩ : AfrNodeCharacter)) = characters at hchars
  have hexist : afrShWiseNodesExist characters = false := by
    simpa [afrShWiseNodesExist, ← hcharacters] using hnowise
  by_cases hinnocent : afrShAllNodesInnocent characters = true
  · cases type with
    | metadata =>
      obtain ⟨smallest, -, hsmallest⟩ :=
        afrGetChildWithLowestUid_mem bufs (hall u)
      refine afrMarkSources_nonempty_of_marked
        (fun child => (bufs smallest).iaUid = (bufs child).iaUid)
        successChildren (hall u) ?_ ?_ <;>
      simp [afrMarkSourcesBody, hchars, hinnocent, afrShMarkLowestUidAsSource,
        hsmallest, afrMarkChildAsSourceByUid]
    | data =>
      have hsink := zeroSizeScan_of_same_size hsame (hall u) fun _ => false
      refine afrMarkSources_nonempty_of_marked (fun _ => true) [] (hall u) ?_ ?_ <;>
      simp [afrMarkSourcesBody, hchars, hinnocent, hsink, markSourcesWhere]
    | entry =>
      refine afrMarkSources_nonempty_of_marked (fun _ => true) [] (hall u) ?_ ?_ <;>
      simp [afrMarkSourcesBody, hchars, hinnocent, markSourcesWhere]
  · let witnesses := afrComputeWitnessOfFools pendingMatrix characters
    let keep : Fin n → Bool := fun i => (characters i).type = .fool ∧
      afrFindBiggestWitnessAmongFools witnesses characters = witnesses i
    refine afrMarkSources_nonempty_of_marked keep (List.finRange n) (hall u) ?_ ?_ <;>
    simp [afrMarkSourcesBody, hchars, hinnocent, hexist, keep, witnesses,
      afrMarkBiggestOfFoolsAsSource, afrMarkFoolAsSourceByWitness]

end Sources

/-- After any history in which one child took part successfully in every
transaction and got every post-op, there are sources, and every source took
part successfully in every transaction. -/
theorem afrMarkSources_sound {txns : List (DataTxn n)}
    {steps : List (HistoryStep n)} (hhistory : IsHistory txns steps)
    {u : Fin n} (hu : ∀ txn ∈ txns, u ∈ txn.succeeded ∧ u ∈ txn.postOp)
    (size : Nat) (uid : Fin n → Nat) (type : AfrSelfHealType)
    {successChildren : List (Fin n)} (hall : ∀ i, i ∈ successChildren)
    (subvolStatus : Option Nat) :
    let replica := (Replica.clean size).run steps
    let marked := afrMarkSources replica.disk (fun i => ⟨replica.size i, uid i⟩)
      type successChildren subvolStatus
    (∃ i, marked.sources i = true) ∧
      ∀ i, marked.sources i = true → ∀ txn ∈ txns, i ∈ txn.succeeded := by
  intro replica marked
  have hzero : ∀ i j, replica.disk i j = 0 ↔
      ∀ txn ∈ txns, i ∈ txn.preOp → j ∈ txn.succeeded ∧ i ∈ txn.postOp :=
    fun i j => history_disk_eq_zero hhistory size
  -- the row of `u` is a faithful record
  have hrow : ∀ j, replica.disk u j = 0 ↔ ∀ txn ∈ txns, j ∈ txn.succeeded := by
    intro j
    rw [hzero]
    refine forall₂_congr fun txn htxn => ?_
    obtain ⟨hus, hup⟩ := hu txn htxn
    exact ⟨fun h => (h (txn.succeeded_subset hus)).1, fun h _ => ⟨h, hup⟩⟩
  have huu : replica.disk u u = 0 := (hrow u).mpr fun txn htxn => (hu txn htxn).1
  -- a child that accuses `u` missed a post-op and accuses itself
  have hfool : ∀ j, replica.disk j j = 0 → replica.disk j u = 0 := by
    intro j hjj
    rw [hzero] at hjj ⊢
    exact fun txn htxn hin => ⟨(hu txn htxn).1, (hjj txn htxn hin).2⟩
  by_cases hinnocent : ∀ j, replica.disk u j = 0
  · have heveryone : ∀ j, ∀ txn ∈ txns, j ∈ txn.succeeded :=
      fun j => (hrow j).mp (hinnocent j)
    refine ⟨?_, fun i _ => heveryone i⟩
    refine afrMarkSources_nonempty_of_no_wise hall type u ?_ ?_
    · intro i hwise
      obtain ⟨hii, j, hij⟩ := afrFindChildCharacterType_eq_wise.mp hwise
      refine hij ((hzero i j).mpr fun txn htxn hin => ?_)
      exact ⟨heveryone j txn htxn, ((hzero i i).mp hii txn htxn hin).2⟩
    · intro i j
      refine history_size_eq (fun txn htxn => ?_) rfl
      have hmem : txn ∈ txns := by
        have h := hhistory.mem_iff.mp htxn
        obtain ⟨other, hother, h⟩ := List.mem_flatMap.mp h
        simp only [DataTxn.steps, List.mem_append, List.mem_map, List.mem_cons,
          HistoryStep.fop.injEq] at h
        rcases h with ⟨_, _, h⟩ | rfl | ⟨_, _, h⟩
        · cases h
        · exact hother
        · cases h
      exact ⟨heveryone i txn hmem, heveryone j txn hmem⟩
  · push Not at hinnocent
    have hwise : afrFindChildCharacterType (replica.disk u) u = .wise :=
      afrFindChildCharacterType_eq_wise.mpr ⟨huu, hinnocent⟩
    have hwisest : ∀ j, afrFindChildCharacterType (replica.disk j) j = .wise →
        replica.disk j u = 0 := fun j hj =>
      hfool j (afrFindChildCharacterType_eq_wise.mp hj).1
    have hsources := afrMarkSources_of_wisest hall
      (fun i => ⟨replica.size i, uid i⟩) type subvolStatus hwise hwisest
    refine ⟨⟨u, (hsources u).mpr ⟨hwise, hwisest⟩⟩, fun i hi => ?_⟩
    exact (hrow i).mp (((hsources i).mp hi).2 u hwise)

/-- A write that fails on the second of two children. -/
def failedOnSecond : DataTxn 2 where
  preOp := Finset.univ
  succeeded := {0}
  postOp := Finset.univ
  newSize := fun size => size + 1
  spoiled := fun _ size => size
  preOp_nonempty := by decide
  succeeded_subset := by decide
  postOp_subset := by decide

theorem afrMarkSources_sound_failedOnSecond :
    let replica := (Replica.clean 4).run failedOnSecond.steps
    let marked := afrMarkSources replica.disk (fun i => ⟨replica.size i, 0⟩) .data [0, 1] none
    marked.nsources = 1 ∧ (∃ i, marked.sources i = true) ∧
      ∀ i, marked.sources i = true → ∀ txn ∈ [failedOnSecond], i ∈ txn.succeeded := by
  refine ⟨by decide, ?_⟩
  have hhistory : IsHistory [failedOnSecond] failedOnSecond.steps := by
    simp [IsHistory]
  have hu : ∀ txn ∈ [failedOnSecond], 0 ∈ txn.succeeded ∧ 0 ∈ txn.postOp := by
    decide
  exact afrMarkSources_sound hhistory hu 4 (fun _ => 0) .data (by decide) none

end GlusterFS.Afr
