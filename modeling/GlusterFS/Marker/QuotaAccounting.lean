import GlusterFS.Core.ProcessTable
import GlusterFS.Marker.QuotaTxn
import Mathlib.Algebra.BigOperators.Group.Finset.Piecewise

/-!
# No quota update is lost

At every moment a contribution, with what a transaction is about to add to it, is the size of the
inode, or someone is bound to look at the inode again: the change is yet to be announced, a
transaction is yet to read the size, or a transaction below has changed the size and is on its way
up.
-/

namespace GlusterFS.Marker

open Transition ProcessTable

variable {Node : Type} [DecidableEq Node] {tree : Tree Node} {s after : QuotaState Node}
variable {node directory : Node} {txn : Nat} {old new : Txn Node}

/-! ## What a transaction is doing -/

/-- Under the lock of the parent. -/
def TxnPhase.locked : TxnPhase → Bool
  | .locking | .unlocked _ => false
  | _ => true

/-- Before it gives the status free. -/
def TxnPhase.starting : TxnPhase → Bool
  | .locking | .markingDirty | .markedDirty => true
  | _ => false

/-- Before it reads the size. -/
def TxnPhase.reads : TxnPhase → Bool
  | .locking | .markingDirty | .markedDirty | .lookingUp => true
  | _ => false

/-- What it will add to the contribution. -/
def TxnPhase.claim : TxnPhase → Int
  | .lookedUp size contri => size - contri
  | .addingContri delta => delta
  | _ => 0

/-- What it has added to the contribution and not to the size of the parent. -/
def TxnPhase.moving : TxnPhase → Int
  | .addedContri delta | .addingSize delta => delta
  | _ => 0

/-- It has changed the size of the parent and will go there. -/
def TxnPhase.climbs : TxnPhase → Bool
  | .undirtying delta | .unlocking delta | .unlocked delta => delta ≠ 0
  | _ => false

/-- A difference that is being added is not zero. -/
def TxnPhase.Moves : TxnPhase → Prop
  | .addingContri delta | .addedContri delta | .addingSize delta => delta ≠ 0
  | _ => True

def Txn.holds (tree : Tree Node) (directory : Node) (txn : Txn Node) : Int :=
  if tree.parent txn.node = some directory ∧ txn.phase.locked = true then 1 else 0

def Txn.claim (node : Node) (txn : Txn Node) : Int :=
  if txn.node = node then txn.phase.claim else 0

def Txn.moving (tree : Tree Node) (directory : Node) (txn : Txn Node) : Int :=
  if tree.parent txn.node = some directory then txn.phase.moving else 0

/-- The locks follow a transaction from one phase to the next. -/
def LocksFollow (tree : Tree Node) (before after : Node → Bool) (node : Node)
    (phase next : TxnPhase) : Prop :=
  ∀ directory, (if after directory then (1 : Int) else 0) = (if before directory then 1 else 0) +
    (Txn.holds tree directory ⟨node, next⟩ - Txn.holds tree directory ⟨node, phase⟩)

/-- The transaction is bound to look at the node again. -/
def Txn.Owes (tree : Tree Node) (node : Node) (txn : Txn Node) : Prop :=
  txn.node = node ∧ txn.phase.reads = true ∨
    tree.parent txn.node = some node ∧ txn.phase.climbs = true

/-- Someone is bound to look at the node again. -/
def Owed (tree : Tree Node) (s : QuotaState Node) (node : Node) : Prop :=
  node ∈ s.changed ∨ ∃ txn ∈ s.txns, txn.Owes tree node

/-- The contribution is right, up to what a transaction is about to add, or will be. -/
def Covered (tree : Tree Node) (s : QuotaState Node) (node : Node) : Prop :=
  s.contri node + total (Txn.claim node) s.txns = s.size node ∨ Owed tree s node

variable [Fintype Node]

structure QuotaCore (tree : Tree Node) (s : QuotaState Node) : Prop where
  lock : ∀ directory, total (Txn.holds tree directory) s.txns = if s.locked directory then 1 else 0
  status : ∀ node, s.updationStatus node = true →
    ∃ txn ∈ s.txns, txn.node = node ∧ txn.phase.starting = true
  sums : ∀ directory, tree.isDir directory = true →
    ∑ child with tree.parent child = some directory, s.contri child =
      s.size directory + total (Txn.moving tree directory) s.txns
  moves : ∀ txn ∈ s.txns, txn.phase.Moves

structure QuotaInv (tree : Tree Node) (s : QuotaState Node) : Prop extends QuotaCore tree s where
  covered : ∀ node directory, tree.parent node = some directory → Covered tree s node

/-! ## Starting a transaction -/

theorem TxnPhase.reads_of_starting {phase : TxnPhase} (h : phase.starting = true) :
    phase.reads = true := by
  cases phase <;> first | rfl | exact nomatch h

/-- A started transaction, or the one that is under way, will look at the node. -/
theorem QuotaCore.startTxn (hcore : QuotaCore tree s)
    (hcovered : ∀ other directory, tree.parent other = some directory → other ≠ node →
      Covered tree s other) : QuotaInv tree (startTxn s node) := by
  rw [Marker.startTxn]
  split
  · next hstatus =>
    refine ⟨hcore, fun other directory hparent => ?_⟩
    by_cases hsame : other = node
    · subst hsame
      obtain ⟨txn, hmem, hnode, hstarting⟩ := hcore.status other hstatus
      exact .inr (.inr ⟨txn, hmem, .inl ⟨hnode, TxnPhase.reads_of_starting hstarting⟩⟩)
    · exact hcovered other directory hparent hsame
  · refine ⟨⟨fun directory => ?_, fun other hstatus => ?_, fun directory hdir => ?_, ?_⟩, ?_⟩
    · rw [total_append, hcore.lock]
      simp [Txn.holds, TxnPhase.locked]
    · by_cases hsame : other = node
      · subst hsame
        exact ⟨⟨other, .locking⟩, by simp, rfl, rfl⟩
      · dsimp only at hstatus
        rw [Function.update_of_ne hsame] at hstatus
        obtain ⟨txn, hmem, hfound⟩ := hcore.status other hstatus
        exact ⟨txn, List.mem_append_left _ hmem, hfound⟩
    · rw [total_append, hcore.sums directory hdir]
      simp [Txn.moving, TxnPhase.moving]
    · intro txn hmem
      rcases List.mem_append.mp hmem with h | h
      · exact hcore.moves txn h
      · cases List.mem_singleton.mp h
        trivial
    · intro other directory hparent
      by_cases hsame : other = node
      · subst hsame
        exact .inr (.inr ⟨⟨other, .locking⟩, by simp, .inl ⟨rfl, rfl⟩⟩)
      · rcases hcovered other directory hparent hsame with h | h | ⟨txn, hmem, howes⟩
        · refine .inl ?_
          rw [total_append]
          simpa [Txn.claim, TxnPhase.claim] using h
        · exact .inr (.inl h)
        · exact .inr (.inr ⟨txn, List.mem_append_left _ hmem, howes⟩)

/-! ## One step of a transaction -/

section Proceed

variable {phase next : TxnPhase}

omit [Fintype Node] in
theorem Covered.set (hcovered : Covered tree s node) (hget : s.txns[txn]? = some old)
    (hchanged : after.changed = s.changed) (htxns : after.txns = s.txns.set txn new)
    (hsame : after.contri node + new.claim node - after.size node =
      s.contri node + old.claim node - s.size node)
    (howes : old.Owes tree node → new.Owes tree node) : Covered tree after node := by
  rcases hcovered with h | h | h
  · refine .inl ?_
    rw [htxns, total_set hget]
    omega
  · exact .inr (.inl (hchanged ▸ h))
  · exact .inr (.inr (htxns ▸ exists_mem_set hget howes h))

theorem QuotaInv.moved (hinv : QuotaInv tree s) (hget : s.txns[txn]? = some ⟨node, phase⟩)
    (htxns : after.txns = s.txns.set txn ⟨node, next⟩)
    (hlock : LocksFollow tree s.locked after.locked node phase next)
    (hstatus : ∀ other, after.updationStatus other = true → s.updationStatus other = true ∧
      (other = node → phase.starting = true → next.starting = true))
    (hsums : ∀ directory, tree.isDir directory = true →
      ∑ child with tree.parent child = some directory, after.contri child = after.size directory +
        (∑ child with tree.parent child = some directory, s.contri child - s.size directory) +
          (Txn.moving tree directory ⟨node, next⟩ - Txn.moving tree directory ⟨node, phase⟩))
    (hmoves : next.Moves)
    (hcovered : ∀ other directory, tree.parent other = some directory → Covered tree s other →
      Covered tree after other) : QuotaInv tree after := by
  refine ⟨⟨fun directory => ?_, fun other h => ?_, fun directory hdir => ?_, ?_⟩,
    fun other directory hparent => hcovered other directory hparent
      (hinv.covered other directory hparent)⟩
  · rw [htxns, total_set hget, hinv.lock, hlock]
  · obtain ⟨hbefore, hown⟩ := hstatus other h
    rw [htxns]
    exact exists_mem_set hget (fun hstarting => ⟨hstarting.1, hown hstarting.1.symm hstarting.2⟩)
      (hinv.status other hbefore)
  · have hbefore := hinv.sums directory hdir
    rw [htxns, total_set hget, hsums directory hdir]
    omega
  · rw [htxns]
    exact forall_mem_set hinv.moves hmoves

/-- A step that leaves sizes and contributions alone. -/
theorem QuotaInv.passes (hinv : QuotaInv tree s) (hget : s.txns[txn]? = some ⟨node, phase⟩)
    (htxns : after.txns = s.txns.set txn ⟨node, next⟩) (hsize : after.size = s.size)
    (hcontri : after.contri = s.contri) (hchanged : after.changed = s.changed)
    (hlock : LocksFollow tree s.locked after.locked node phase next)
    (hstatus : ∀ other, after.updationStatus other = true → s.updationStatus other = true ∧
      (other = node → phase.starting = true → next.starting = true))
    (hclaim : next.claim = phase.claim) (hmoving : next.moving = phase.moving)
    (hreads : phase.reads = true → next.reads = true)
    (hclimbs : phase.climbs = true → next.climbs = true) (hmoves : next.Moves) :
    QuotaInv tree after := by
  refine hinv.moved hget htxns hlock hstatus ?_ hmoves ?_
  · intro directory _
    have hsame : Txn.moving tree directory ⟨node, next⟩ =
        Txn.moving tree directory ⟨node, phase⟩ := by
      simp only [Txn.moving, hmoving]
    rw [hcontri, hsize, hsame]
    omega
  · intro other _ _ hbefore
    refine hbefore.set hget hchanged htxns ?_
      (Or.imp (And.imp_right hreads) (And.imp_right hclimbs))
    simp only [Txn.claim, hclaim, hcontri, hsize]

omit [Fintype Node] in
theorem Txn.holds_nonneg (tree : Tree Node) (directory : Node) (txn : Txn Node) :
    0 ≤ Txn.holds tree directory txn := by
  rw [Txn.holds]
  split <;> decide

omit [Fintype Node] in
theorem one_le_holds {txns : List (Txn Node)} (hget : txns[txn]? = some ⟨node, phase⟩)
    (hparent : tree.parent node = some directory) (hlocked : phase.locked = true) :
    1 ≤ total (Txn.holds tree directory) txns := by
  have hle := weight_le_total (fun other _ => Txn.holds_nonneg tree directory other)
    (List.mem_of_getElem? hget)
  rwa [Txn.holds, if_pos ⟨hparent, hlocked⟩] at hle

/-- The holder of the lock is the only one that has read the contribution. -/
theorem QuotaInv.claim_eq_zero (hinv : QuotaInv tree s)
    (hget : s.txns[txn]? = some ⟨node, .lookingUp⟩) (hparent : tree.parent node = some directory) :
    total (Txn.claim node) s.txns = 0 := by
  refine total_eq_zero fun found hmem => ?_
  obtain ⟨index, hindex⟩ := List.getElem?_of_mem hmem
  have hsole : total (Txn.holds tree directory) s.txns ≤ 1 := by
    rw [hinv.lock]
    split <;> decide
  by_contra hclaim
  have hnode : found.node = node := by
    by_contra h
    exact hclaim (if_neg h)
  rw [Txn.claim, if_pos hnode] at hclaim
  have hlocked : found.phase.locked = true := by
    cases hphase : found.phase <;> first
      | rfl
      | exact absurd (by rw [hphase]; rfl) hclaim
  have hsame : txn = index :=
    eq_of_total_le_one (fun other _ => Txn.holds_nonneg tree directory other) hsole hget hindex
      (if_pos ⟨hparent, rfl⟩) (if_pos ⟨hnode ▸ hparent, hlocked⟩)
  subst hsame
  cases Option.some.inj (hget.symm.trans hindex)
  exact hclaim rfl

omit [Fintype Node] in
/-- The lock of the parent is taken or left by who did not hold it or held it. -/
theorem lock_update (hparent : tree.parent node = some directory) {locked : Node → Bool}
    {before next taken : Bool} (hbefore : before = !taken) (hnext : next = taken)
    (hlocked : locked directory = !taken) (other : Node) :
    (if Function.update locked directory taken other then (1 : Int) else 0) =
      (if locked other then 1 else 0) + ((if tree.parent node = some other ∧ next = true then 1
        else 0) - if tree.parent node = some other ∧ before = true then 1 else 0) := by
  by_cases hsame : other = directory
  · subst hsame
    cases taken <;> simp [hparent, hbefore, hnext, hlocked]
  · have hother : ¬directory = other := fun h => hsame h.symm
    simp [hparent, Function.update_of_ne hsame, hother]

omit [Fintype Node] in
theorem lock_same {locked : Node → Bool} {before next : Bool} (hsame : next = before)
    (other : Node) : (if locked other then (1 : Int) else 0) = (if locked other then 1 else 0) +
      ((if tree.parent node = some other ∧ next = true then 1 else 0) -
        if tree.parent node = some other ∧ before = true then 1 else 0) := by
  simp [hsame]

theorem QuotaInv.looksUp (hinv : QuotaInv tree s) (hget : s.txns[txn]? = some ⟨node, .lookingUp⟩)
    (hparent : tree.parent node = some directory) :
    QuotaInv tree (s.setPhase txn node (.lookedUp (s.size node) (s.contri node))) := by
  refine hinv.moved hget rfl (lock_same rfl) (fun _ h => ⟨h, fun _ h => nomatch h⟩) ?_ trivial ?_
  · intro other _
    simp only [QuotaState.setPhase, Txn.moving, TxnPhase.moving]
    omega
  · intro other _ _ hbefore
    by_cases hsame : other = node
    · subst hsame
      refine .inl ?_
      simp only [QuotaState.setPhase]
      rw [total_set hget, hinv.claim_eq_zero hget hparent]
      simp only [Txn.claim, TxnPhase.claim, if_true]
      omega
    · have hother : ¬node = other := fun h => hsame h.symm
      refine hbefore.set hget rfl rfl
        (by simp only [QuotaState.setPhase, Txn.claim, hother, if_false]) ?_
      rintro (⟨hnode, -⟩ | ⟨-, hclimbs⟩)
      · exact absurd hnode hother
      · exact nomatch hclimbs

variable {delta : Int}

/-- Adding to the contribution of one node adds to the sum that it is part of. -/
theorem sum_update_add (part : Node → Prop) [DecidablePred part] (contri : Node → Int) :
    ∑ child with part child, Function.update contri node (contri node + delta) child =
      ∑ child with part child, contri child + if part node then delta else 0 := by
  have hupdate : Function.update contri node (contri node + delta) =
      fun child => contri child + if child = node then delta else 0 := by
    funext child
    by_cases h : child = node <;> simp [h]
  simp [hupdate, Finset.sum_add_distrib, Finset.sum_filter]

/-- The contribution of the node becomes what the transaction has read. -/
theorem QuotaInv.addsContri (hinv : QuotaInv tree s)
    (hget : s.txns[txn]? = some ⟨node, .addingContri delta⟩) : QuotaInv tree ({ s with
      contri := Function.update s.contri node (s.contri node + delta) }.setPhase txn node
        (.addedContri delta)) := by
  refine hinv.moved hget rfl (lock_same rfl) (fun _ h => ⟨h, fun _ h => nomatch h⟩) ?_
    (hinv.moves _ (List.mem_of_getElem? hget)) ?_
  · intro other _
    simp only [QuotaState.setPhase, Txn.moving, TxnPhase.moving, sum_update_add]
    split_ifs <;> omega
  · intro other _ _ hbefore
    refine hbefore.set hget rfl rfl ?_ ?_
    · simp only [QuotaState.setPhase, Txn.claim, TxnPhase.claim, Function.update_apply,
        eq_comm (a := other)]
      split_ifs with hsame
      · subst hsame
        omega
      · rfl
    · rintro (⟨-, hreads⟩ | ⟨-, hclimbs⟩)
      · exact nomatch hreads
      · exact nomatch hclimbs

/-- The size of the parent changes, and the transaction will go there. -/
theorem QuotaInv.addsSize (hinv : QuotaInv tree s)
    (hget : s.txns[txn]? = some ⟨node, .addingSize delta⟩)
    (hparent : tree.parent node = some directory) : QuotaInv tree ({ s with
      size := Function.update s.size directory (s.size directory + delta) }.setPhase txn node
        (.undirtying delta)) := by
  have hdelta : delta ≠ 0 := hinv.moves _ (List.mem_of_getElem? hget)
  refine hinv.moved hget rfl (lock_same rfl) (fun _ h => ⟨h, fun _ h => nomatch h⟩) ?_ trivial ?_
  · intro other _
    simp only [QuotaState.setPhase, Txn.moving, TxnPhase.moving, hparent, Option.some.injEq,
      Function.update_apply, eq_comm (a := other)]
    split_ifs with hsame
    · subst hsame
      omega
    · omega
  · intro other _ _ hbefore
    by_cases hsame : other = directory
    · subst hsame
      exact .inr (.inr ⟨⟨node, .undirtying delta⟩,
        List.mem_set (List.getElem?_eq_some_iff.mp hget).1 _, .inr ⟨hparent, by
          simpa [TxnPhase.climbs] using hdelta⟩⟩)
    · refine hbefore.set hget rfl rfl ?_ ?_
      · simp only [QuotaState.setPhase, Function.update_of_ne hsame, Txn.claim, TxnPhase.claim]
      · rintro (⟨-, hreads⟩ | ⟨-, hclimbs⟩)
        · exact nomatch hreads
        · exact nomatch hclimbs

/-- A transaction that ends leaves nothing behind, or goes on with the parent. -/
theorem QuotaInv.ends (hinv : QuotaInv tree s) (hget : s.txns[txn]? = some ⟨node, .unlocked delta⟩)
    (hparent : tree.parent node = some directory) :
    QuotaInv tree (inodelkCbk tree s txn directory delta) := by
  have hkept : ∀ found ∈ s.txns, found ≠ ⟨node, .unlocked delta⟩ → found ∈ s.txns.eraseIdx txn := by
    intro found hmem hne
    obtain ⟨hlt, heq⟩ := List.getElem?_eq_some_iff.mp hget
    have hperm := (List.getElem_cons_eraseIdx_perm hlt).mem_iff.mpr hmem
    exact (List.mem_cons.mp hperm).resolve_left (heq ▸ hne)
  have hcore : QuotaCore tree { s with txns := s.txns.eraseIdx txn } := by
    refine ⟨fun other => ?_, fun other hstatus => ?_, fun other hdir => ?_, fun found hmem =>
      hinv.moves found (List.mem_of_mem_eraseIdx hmem)⟩
    · rw [total_eraseIdx hget, ← hinv.lock]
      simp [Txn.holds, TxnPhase.locked]
    · obtain ⟨found, hmem, hnode, hstarting⟩ := hinv.status other hstatus
      refine ⟨found, hkept found hmem ?_, hnode, hstarting⟩
      rintro rfl
      exact nomatch hstarting
    · rw [total_eraseIdx hget, hinv.sums other hdir]
      simp [Txn.moving, TxnPhase.moving]
  have hcovered : ∀ other, other ≠ directory ∨ delta = 0 → Covered tree s other →
      Covered tree { s with txns := s.txns.eraseIdx txn } other := by
    intro other hother hbefore
    rcases hbefore with h | h | ⟨found, hmem, howes⟩
    · refine .inl ?_
      rw [total_eraseIdx hget]
      simpa [Txn.claim, TxnPhase.claim] using h
    · exact .inr (.inl h)
    · refine .inr (.inr ⟨found, hkept found hmem ?_, howes⟩)
      rintro rfl
      rcases howes with ⟨-, hreads⟩ | ⟨hnode, hclimbs⟩
      · exact nomatch hreads
      · rcases hother with h | h
        · exact h (Option.some.inj (hnode.symm.trans hparent))
        · simp [TxnPhase.climbs, h] at hclimbs
  rw [inodelkCbk]
  split
  · next hstop =>
    refine ⟨hcore, fun other upper hupper => hcovered other ?_ (hinv.covered other upper hupper)⟩
    refine hstop.imp_left fun hroot => ?_
    rintro rfl
    rw [hupper] at hroot
    exact nomatch hroot
  · exact hcore.startTxn fun other upper hupper hne =>
      hcovered other (.inl hne) (hinv.covered other upper hupper)

theorem QuotaInv.proceed (hinv : QuotaInv tree s) (hget : s.txns[txn]? = some ⟨node, phase⟩)
    (hparent : tree.parent node = some directory)
    (hstep : txnStep tree s txn node directory phase = some after) : QuotaInv tree after := by
  cases phase with
  | locking =>
    rw [txnStep] at hstep
    split at hstep
    · exact nomatch hstep
    · next hfree =>
      cases hstep
      exact hinv.passes hget rfl rfl rfl rfl
        (lock_update hparent rfl rfl (eq_false_of_ne_true hfree)) (fun _ h => ⟨h, fun _ _ => rfl⟩)
        rfl rfl (fun _ => rfl) (fun h => nomatch h) trivial
  | markingDirty =>
    cases hstep
    exact hinv.passes hget rfl rfl rfl rfl (lock_same rfl) (fun _ h => ⟨h, fun _ _ => rfl⟩) rfl rfl
      (fun _ => rfl) (fun h => nomatch h) trivial
  | markedDirty =>
    cases hstep
    refine hinv.passes hget rfl rfl rfl rfl (lock_same rfl) ?_ rfl rfl (fun _ => rfl)
      (fun h => nomatch h) trivial
    intro other hstatus
    by_cases hsame : other = node
    · subst hsame
      simp [QuotaState.setPhase] at hstatus
    · simp only [QuotaState.setPhase, Function.update_of_ne hsame] at hstatus
      exact ⟨hstatus, fun h => absurd h hsame⟩
  | lookingUp =>
    cases hstep
    exact hinv.looksUp hget hparent
  | lookedUp size contri =>
    cases hstep
    rw [updateInodeContribution]
    split
    · next hzero =>
      exact hinv.passes hget rfl rfl rfl rfl (lock_same rfl)
        (fun _ h => ⟨h, fun _ h => nomatch h⟩) hzero.symm rfl (fun h => nomatch h)
        (fun h => nomatch h) trivial
    · next hdelta =>
      exact hinv.passes hget rfl rfl rfl rfl (lock_same rfl)
        (fun _ h => ⟨h, fun _ h => nomatch h⟩) rfl rfl (fun h => nomatch h)
        (fun h => nomatch h) hdelta
  | addingContri delta =>
    cases hstep
    exact hinv.addsContri hget
  | addedContri delta =>
    cases hstep
    exact hinv.passes hget rfl rfl rfl rfl (lock_same rfl) (fun _ h => ⟨h, fun _ h => nomatch h⟩)
      rfl rfl (fun h => nomatch h) (fun h => nomatch h) (hinv.moves _ (List.mem_of_getElem? hget))
  | addingSize delta =>
    cases hstep
    exact hinv.addsSize hget hparent
  | undirtying delta =>
    cases hstep
    exact hinv.passes hget rfl rfl rfl rfl (lock_same rfl) (fun _ h => ⟨h, fun _ h => nomatch h⟩)
      rfl rfl (fun h => nomatch h) id trivial
  | unlocking delta =>
    cases hstep
    have hlocked : s.locked directory = true := by
      have hle := one_le_holds hget hparent rfl
      rw [hinv.lock directory] at hle
      by_contra h
      rw [if_neg h] at hle
      exact absurd hle (by decide)
    exact hinv.passes hget rfl rfl rfl rfl (lock_update hparent rfl rfl hlocked)
      (fun _ h => ⟨h, fun _ h => nomatch h⟩) rfl rfl (fun h => nomatch h) id trivial
  | unlocked delta =>
    cases hstep
    exact hinv.ends hget hparent

end Proceed

/-! ## Runs -/

theorem QuotaInv.step {label : QuotaLabel Node} (hinv : QuotaInv tree s)
    (hstep : quotaStep tree s label = some after) : QuotaInv tree after := by
  cases label with
  | change file size =>
    rw [quotaStep] at hstep
    split at hstep
    · exact nomatch hstep
    · next hfile =>
      cases hstep
      refine ⟨⟨hinv.lock, hinv.status, fun directory hdir => ?_, hinv.moves⟩, ?_⟩
      · have hne : directory ≠ file := by
          rintro rfl
          exact hfile hdir
        rw [hinv.sums directory hdir]
        simp only [Function.update_of_ne hne]
      · intro other directory hparent
        by_cases hsame : other = file
        · subst hsame
          exact .inr (.inl List.mem_cons_self)
        · rcases hinv.covered other directory hparent with h | h | h
          · refine .inl ?_
            simpa only [Function.update_of_ne hsame] using h
          · exact .inr (.inl (List.mem_cons_of_mem _ h))
          · exact .inr (.inr h)
  | initiate file =>
    rw [quotaStep] at hstep
    split at hstep
    · cases hstep
      have hcore : QuotaCore tree { s with changed := s.changed.erase file } :=
        ⟨hinv.lock, hinv.status, hinv.sums, hinv.moves⟩
      have hcovered : ∀ other directory, tree.parent other = some directory → other ≠ file →
          Covered tree { s with changed := s.changed.erase file } other := by
        intro other directory hparent hne
        rcases hinv.covered other directory hparent with h | h | h
        · exact .inl h
        · exact .inr (.inl ((List.mem_erase_of_ne hne).mpr h))
        · exact .inr (.inr h)
      split
      · exact hcore.startTxn hcovered
      · next hroot =>
        refine ⟨hcore, fun other directory hparent => hcovered other directory hparent ?_⟩
        rintro rfl
        rw [hparent] at hroot
        exact hroot rfl
    · exact nomatch hstep
  | proceed txn =>
    rw [quotaStep] at hstep
    split at hstep
    · next node phase hget =>
      obtain ⟨directory, hparent, hmove⟩ := Option.bind_eq_some_iff.mp hstep
      exact hinv.proceed hget hparent hmove
    · exact nomatch hstep

/-- A state at rest: nothing is under way and the xattrs are right. -/
structure Settled (tree : Tree Node) (s : QuotaState Node) : Prop where
  quiet : s.Quiet
  unlocked : ∀ directory, s.locked directory = false
  free : ∀ node, s.updationStatus node = false
  accounted : Accounted tree s

theorem Settled.quotaInv (hsettled : Settled tree s) : QuotaInv tree s := by
  have htxns := hsettled.quiet.1
  refine ⟨⟨fun directory => ?_, fun node h => ?_, fun directory hdir => ?_, fun txn hmem => ?_⟩,
    fun node directory hparent => .inl ?_⟩
  · rw [htxns, hsettled.unlocked]
    rfl
  · exact absurd ((hsettled.free node).symm.trans h) (by decide)
  · rw [htxns, ← hsettled.accounted.sum directory hdir]
    exact (add_zero _).symm
  · rw [htxns] at hmem
    exact absurd hmem List.not_mem_nil
  · rw [htxns, hsettled.accounted.contribution node directory hparent]
    exact add_zero _

/-- Without a transaction in flight every contribution and every size is right. -/
theorem QuotaInv.accounted (hinv : QuotaInv tree s) (hquiet : s.Quiet) : Accounted tree s := by
  obtain ⟨htxns, hchanged⟩ := hquiet
  have hcontri : ∀ child directory, tree.parent child = some directory →
      s.contri child = s.size child := by
    intro child directory hparent
    rcases hinv.covered child directory hparent with h | h | ⟨txn, hmem, -⟩
    · rw [htxns] at h
      exact (add_zero _).symm.trans h
    · rw [hchanged] at h
      exact absurd h List.not_mem_nil
    · rw [htxns] at hmem
      exact absurd hmem List.not_mem_nil
  have hsum : ∀ directory, tree.isDir directory = true →
      s.size directory = ∑ child with tree.parent child = some directory, s.contri child := by
    intro directory hdir
    rw [hinv.sums directory hdir, htxns]
    exact (add_zero _).symm
  refine ⟨hcontri, hsum, fun directory hdir => ?_⟩
  have hleaves := tree.toForest.sum_leaves (fun node => tree.isDir node = false) s.size ?_ ?_
    directory ?_
  · convert hleaves
  · intro child upper hparent
    simp [tree.parent_isDir child upper hparent]
  · intro upper hupper
    rw [hsum upper (by simpa using hupper)]
    refine Finset.sum_congr (by ext child; simp) fun child hchild => ?_
    exact hcontri child upper (by simpa using hchild)
  · simp [hdir]

/-- Over every interleaving of size changes and transactions. -/
theorem no_quota_update_lost {start : QuotaState Node} (hstart : Settled tree start)
    (hreach : Reachable (quotaStep tree) start s) (hquiet : s.Quiet) : Accounted tree s := by
  have hinv : QuotaInv tree s :=
    hreach.invariant hstart.quotaInv fun _ _ _ hbefore _ hstep => hbefore.step hstep
  exact hinv.accounted hquiet

/-- The root, a directory in it and a file in that. -/
def oneFile : Tree (Fin 3) where
  parent := fun node => if node = 0 then none else some (node - 1)
  acyclic := by
    have hlt : ∀ child directory : Fin 3,
        (if child = 0 then none else some (child - 1)) = some directory → directory < child := by
      decide
    intro node hcycle
    have hbelow : ∀ {low high : Fin 3}, Relation.TransGen (fun child directory : Fin 3 =>
        (if child = 0 then none else some (child - 1)) = some directory) low high → high < low := by
      intro low high hway
      induction hway with
      | single h => exact hlt _ _ h
      | tail _ h ih => exact (hlt _ _ h).trans ih
    exact lt_irrefl node (hbelow hcycle)
  isDir := fun node => node ≠ 2
  parent_isDir := by decide

def emptyVolume : QuotaState (Fin 3) where
  size := fun _ => 0
  contri := fun _ => 0
  dirty := fun _ => false
  locked := fun _ => false
  updationStatus := fun _ => false
  contribution := fun _ => 0
  txns := []
  changed := []

theorem emptyVolume_settled : Settled oneFile emptyVolume := by
  refine ⟨⟨rfl, rfl⟩, fun _ => rfl, fun _ => rfl, fun _ _ _ => rfl, fun _ _ => ?_, fun _ _ => ?_⟩
  · exact Finset.sum_const_zero.symm
  · exact Finset.sum_const_zero.symm

/-- The size of a new file reaches the root. -/
theorem no_quota_update_lost_one_file : ∃ s, Reachable (quotaStep oneFile) emptyVolume s ∧
    s.size 0 = 512 ∧ Accounted oneFile s := by
  obtain ⟨s, hrun, hreach⟩ := Reachable.exists_of_run (quotaStep oneFile) emptyVolume
    ([.change 2 512, .initiate 2] ++ List.replicate 22 (.proceed 0)) rfl
  have hquiet : s.Quiet ∧ s.size 0 = 512 := by
    cases hrun
    exact ⟨⟨rfl, rfl⟩, rfl⟩
  exact ⟨s, hreach, hquiet.2, no_quota_update_lost emptyVolume_settled hreach hquiet.1⟩

end GlusterFS.Marker
