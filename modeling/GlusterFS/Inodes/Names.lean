import GlusterFS.Inodes.Cycles
import GlusterFS.Inodes.Lists

/-!
# The names of the inode table

A parent and a name resolve to one inode at most.  Linking binds a name, and
renaming binds the new name and frees the old one, as long as they differ.  A call
is a section under the lock of the table with the pruning that follows it.
-/

namespace GlusterFS.Inodes

open Transition

variable {t t' : InodeTable} {held : InodeId → Nat} {i : InodeId} {dentry : Dentry}

/-- Which inode a name stands for under each parent. -/
abbrev NameMap := InodeId → String → Option InodeId

namespace NameMap

variable (names : NameMap) (parent : InodeId) (name : String)

def bind (i : InodeId) : NameMap := fun dir base =>
  if dir = parent ∧ base = name then some i else names dir base

def unbind : NameMap := fun dir base =>
  if dir = parent ∧ base = name then none else names dir base

end NameMap

namespace InodeTable

variable (t : InodeTable)

/-- What `inode_grep` finds. -/
def resolve : NameMap := fun parent name => (t.dentryGrep parent name).map Dentry.inode

/-- No name is hashed twice under one parent. -/
def UniqueNames : Prop := ∀ parent name,
  (t.dentries.countP fun dentry => dentry.hashed ∧ dentry.parent = parent ∧ dentry.name = name) ≤ 1

def UniqueGfids : Prop := ∀ gfid, (t.inodeHash.countP fun i => (t.inode i).gfid = gfid) ≤ 1

end InodeTable

/-! ## Resolving -/

theorem resolve_of_dentries (h : t'.dentries = t.dentries) : t'.resolve = t.resolve := by
  funext parent name
  rw [InodeTable.resolve, InodeTable.dentryGrep, h]
  rfl

theorem find?_erase_of_neg {α : Type*} [DecidableEq α] {p : α → Bool} {a : α} (ha : p a = false)
    (l : List α) : (l.erase a).find? p = l.find? p := by
  induction l with
  | nil => rfl
  | cons head tail ih =>
    by_cases h : head = a
    · rw [h, List.erase_cons_head, List.find?_cons_of_neg (by simp [ha])]
    · rw [List.erase_cons_tail (by simpa using h), List.find?_cons, List.find?_cons, ih]

theorem resolve_cons {dentries : List Dentry} (hhashed : dentry.hashed = true)
    (h : t'.dentries = dentry :: dentries) (hrest : ∀ parent name,
      ¬(parent = dentry.parent ∧ name = dentry.name) →
      (dentries.find? fun other => other.hashed ∧ other.parent = parent ∧ other.name = name) =
        t.dentryGrep parent name) :
    t'.resolve = t.resolve.bind dentry.parent dentry.name dentry.inode := by
  funext parent name
  rw [InodeTable.resolve, InodeTable.dentryGrep, h, NameMap.bind]
  split_ifs with hsame
  · obtain ⟨rfl, rfl⟩ := hsame
    rw [List.find?_cons_of_pos (by simp [hhashed])]
    rfl
  · rw [List.find?_cons_of_neg, hrest parent name hsame]
    · rfl
    · rw [decide_eq_true_eq]
      exact fun h => hsame ⟨h.2.1.symm, h.2.2.symm⟩

theorem resolve_erase_of_ne {parent : InodeId} {name : String}
    (h : t'.dentries = t.dentries.erase dentry)
    (hne : ¬(parent = dentry.parent ∧ name = dentry.name)) :
    t'.resolve parent name = t.resolve parent name := by
  rw [InodeTable.resolve, InodeTable.dentryGrep, h, find?_erase_of_neg]
  · rfl
  · exact decide_eq_false fun h => hne ⟨h.2.1.symm, h.2.2.symm⟩

theorem resolve_erase_self (hnames : t.UniqueNames) (hmem : dentry ∈ t.dentries)
    (hhashed : dentry.hashed = true) (h : t'.dentries = t.dentries.erase dentry) :
    t'.resolve dentry.parent dentry.name = none := by
  have hcount := hnames dentry.parent dentry.name
  have hless : ((t.dentries.erase dentry).countP fun other => other.hashed ∧
      other.parent = dentry.parent ∧ other.name = dentry.name) = 0 := by
    rw [List.countP_erase]
    simp only [hmem, hhashed, decide_true, and_self, if_true]
    omega
  rw [InodeTable.resolve, InodeTable.dentryGrep, h, Option.map_eq_none_iff, List.find?_eq_none]
  exact List.countP_eq_zero.mp hless

theorem InodeTable.UniqueNames.of_sublist (ht : t.UniqueNames)
    (h : t'.dentries.Sublist t.dentries) :
    t'.UniqueNames := fun parent name =>
  Nat.le_trans h.countP_le (ht parent name)

/-! ## Linking -/

/-- What `__inode_link` does to the dentries: the name is bound already, it is new,
or its dentry is replaced. -/
inductive Relinked (t : InodeTable) (dentry : Dentry) : List Dentry → Prop
  | same : t.resolve dentry.parent dentry.name = some dentry.inode → Relinked t dentry t.dentries
  | added : t.dentryGrep dentry.parent dentry.name = none → Relinked t dentry (dentry :: t.dentries)
  | replaced {old : Dentry} : t.dentryGrep dentry.parent dentry.name = some old →
      Relinked t dentry (dentry :: t.dentries.erase old)

theorem Relinked.of_dentries {dentries : List Dentry} (h : Relinked t' dentry dentries)
    (hsame : t'.dentries = t.dentries) : Relinked t dentry dentries := by
  have hgrep : ∀ parent name, t'.dentryGrep parent name = t.dentryGrep parent name := by
    intro parent name
    rw [InodeTable.dentryGrep, hsame]
    rfl
  cases h with
  | same hbound =>
    rw [hsame]
    exact .same (resolve_of_dentries hsame ▸ hbound)
  | added hnone =>
    rw [hsame]
    exact .added ((hgrep _ _).symm.trans hnone)
  | replaced hold =>
    rw [hsame]
    exact .replaced ((hgrep _ _).symm.trans hold)

theorem Relinked.resolve (h : Relinked t dentry t'.dentries) (hhashed : dentry.hashed = true) :
    t'.resolve = t.resolve.bind dentry.parent dentry.name dentry.inode := by
  generalize hdentries : t'.dentries = dentries at h
  cases h with
  | same hbound =>
    rw [resolve_of_dentries hdentries]
    funext parent name
    rw [NameMap.bind]
    split_ifs with h
    · rw [h.1, h.2, hbound]
    · rfl
  | added hnone => exact resolve_cons hhashed hdentries fun _ _ _ => rfl
  | @replaced old hold =>
    refine resolve_cons hhashed hdentries fun parent name hne => find?_erase_of_neg ?_ _
    obtain ⟨-, -, hparent, hname⟩ := dentryGrep_some hold
    refine decide_eq_false fun h => hne ⟨?_, ?_⟩
    · exact h.2.1.symm.trans hparent
    · exact h.2.2.symm.trans hname

theorem Relinked.uniqueNames (h : Relinked t dentry t'.dentries) (ht : t.UniqueNames) :
    t'.UniqueNames := by
  intro parent name
  have hcount := ht parent name
  generalize hdentries : t'.dentries = dentries at h
  cases h with
  | same => exact hcount
  | added hnone =>
    rw [List.countP_cons]
    split_ifs with hnew
    · rw [decide_eq_true_eq] at hnew
      obtain ⟨-, rfl, rfl⟩ := hnew
      have hzero := List.countP_eq_zero.mpr (List.find?_eq_none.mp hnone)
      omega
    · exact hcount
  | @replaced old hold =>
    obtain ⟨hmem, hhashed, hparent, hname⟩ := dentryGrep_some hold
    rw [List.countP_cons, List.countP_erase]
    split_ifs with hgone hnew hnew
    · omega
    · omega
    · rw [decide_eq_true_eq] at hnew
      obtain ⟨-, rfl, rfl⟩ := hnew
      exact absurd ⟨hmem, by simp [hhashed, hparent, hname]⟩ hgone
    · exact hcount

/-- What linking and unlinking leave alone when the parent is in use. -/
structure Keeps (t t' : InodeTable) : Prop where
  lruSize : t'.lruSize = t.lruSize
  lruLimit : t'.lruLimit = t.lruLimit
  gfid : ∀ j, (t'.inode j).gfid = (t.inode j).gfid

theorem Keeps.refl (t : InodeTable) : Keeps t t := ⟨rfl, rfl, fun _ => rfl⟩

theorem Keeps.trans {t'' : InodeTable} (h : Keeps t t') (h' : Keeps t' t'') : Keeps t t'' :=
  ⟨h'.lruSize.trans h.lruSize, h'.lruLimit.trans h.lruLimit, fun j => (h'.gfid j).trans (h.gfid j)⟩

theorem Keeps.setRef (t : InodeTable) (i : InodeId) (ref : Nat) (dentries : List Dentry) :
    Keeps t { t.setRef i ref with dentries := dentries } :=
  ⟨rfl, rfl, fun j => t.setRef_gfid i j ref⟩

section Link

variable (hs : TableInv t held [] [])

include hs

theorem TableInv.inodeRef_held (hi : 0 < held i) : ∃ ref, t.inodeRef i = t.setRef i ref := by
  have hpos : t.ref i ≠ 0 := Nat.ne_of_gt ((hs.mem_active i).mp (hs.active_of_held hi))
  rw [InodeTable.inodeRef]
  exact ⟨_, by rw [if_neg hpos]⟩

theorem TableInv.keeps_unset (hdentry : dentry ∈ t.dentries) (hheld : 0 < held dentry.parent) :
    (t.unset dentry).dentries = t.dentries.erase dentry ∧ Keeps t (t.unset dentry) := by
  obtain ⟨ref, hunset⟩ := hs.unset_held hdentry hheld
  rw [hunset]
  exact ⟨rfl, .setRef t dentry.parent ref _⟩

/-- The name is bound to the inode that is returned. -/
theorem TableInv.dentryLink_names (hlow : ∀ j, t.ref j + 2 < 2 ^ 32) {link parent L : InodeId}
    (hlink : t.Live link ∧ link ∉ t.purge) {old : Bool} (hparent : 0 < held parent)
    {name : String} (hL : (t.dentryLink link old parent name).1 = some L) :
    L = link ∧ Relinked t ⟨link, parent, name, true⟩
      (t.dentryLink link old parent name).2.dentries ∧
      Keeps t (t.dentryLink link old parent name).2 := by
  obtain ⟨ref, href⟩ := hs.inodeRef_held hparent
  obtain ⟨hadd, -⟩ := hs.add_link hlow hlink hparent name
  have hkeeps : Keeps t { t.inodeRef parent with
      dentries := ⟨link, parent, name, true⟩ :: (t.inodeRef parent).dentries } := by
    rw [href]
    exact .setRef t parent ref _
  rw [InodeTable.dentryLink] at hL ⊢
  by_cases hsame : (t.dentryGrep parent name).any fun dentry => dentry.inode = link
  · rw [if_pos hsame] at hL ⊢
    refine ⟨(Option.some.inj hL).symm, .same ?_, .refl t⟩
    rw [InodeTable.resolve]
    cases hgrep : t.dentryGrep parent name with
    | none =>
      rw [hgrep] at hsame
      cases hsame
    | some oldDentry =>
      rw [hgrep] at hsame
      exact congrArg some (of_decide_eq_true hsame)
  rw [if_neg hsame] at hL ⊢
  simp only [dentryCreate_unset, dentryCreate_dentryHash] at hL ⊢
  split_ifs at hL ⊢ with hcyclic
  cases hgrep : t.dentryGrep parent name with
  | none =>
    rw [hgrep] at hL
    refine ⟨(Option.some.inj hL).symm, ?_, hkeeps⟩
    dsimp only
    rw [inodeRef_dentries]
    exact .added hgrep
  | some oldDentry =>
    rw [hgrep] at hL
    obtain ⟨holdParent, hmem⟩ := dentryGrep_old hgrep ⟨link, parent, name, true⟩
    obtain ⟨hdentries, hkept⟩ := hadd.keeps_unset hmem (holdParent ▸ hparent)
    have hne : (⟨link, parent, name, true⟩ : Dentry) ≠ oldDentry := fun h => by
      rw [hgrep, ← h] at hsame
      exact hsame (decide_eq_true rfl)
    refine ⟨(Option.some.inj hL).symm, ?_, hkeeps.trans hkept⟩
    dsimp only
    rw [hdentries, List.erase_cons_tail (by simpa using hne), inodeRef_dentries]
    exact .replaced hgrep

theorem TableInv.inodeLink_names (hlow : ∀ j, t.ref j + 2 < 2 ^ 32) (hi : 0 < held i)
    {parent L : InodeId} (hparent : 0 < held parent) {name : String} (hdot : name ≠ ".")
    (hdots : name ≠ "..") {iatt : Option Nat}
    (hL : (t.inodeLink i (some parent) (some name) iatt).1 = some L) :
    Relinked t ⟨L, parent, name, true⟩ (t.inodeLink i (some parent) (some name) iatt).2.dentries ∧
      (t.inodeLink i (some parent) (some name) iatt).2.lruSize = t.lruSize ∧
      (t.inodeLink i (some parent) (some name) iatt).2.lruLimit = t.lruLimit := by
  obtain ⟨hlinked, hlive, hrefs⟩ := hs.linkInode hi iatt
  obtain ⟨hdentries, hlruSize, hlruLimit⟩ := linkInode_frame t i iatt
  have hnot : ¬(some name = some "." ∨ some name = some "..") := by simp [hdot, hdots]
  rw [InodeTable.inodeLink] at hL ⊢
  rcases hlink : t.linkInode i iatt with ⟨_ | ⟨link, old⟩, u⟩
  · rw [hlink] at hL
    cases hL
  rw [hlink] at hL hlinked hlive hrefs hdentries hlruSize hlruLimit
  dsimp only at hL hlinked hrefs hdentries hlruSize hlruLimit ⊢
  rw [if_neg hnot] at hL ⊢
  have hlow' : ∀ j, u.ref j + 2 < 2 ^ 32 := fun j => by
    rw [hrefs]
    exact hlow j
  obtain ⟨rfl, hrelinked, hkeeps⟩ :=
    hlinked.dentryLink_names hlow' (hlive link old rfl) hparent hL
  exact ⟨hrelinked.of_dentries hdentries, hkeeps.lruSize.trans hlruSize,
    hkeeps.lruLimit.trans hlruLimit⟩

/-! ## Unlinking -/

/-- The dentry that `__inode_unlink` finds by the gfid of the parent is the one that
the name resolves to. -/
theorem TableInv.dentrySearchForInode_names {parent : InodeId} {name : String}
    (hparent : 0 < held parent) (hgfid : (t.inode parent).gfid ≠ 0)
    (hbound : t.resolve parent name = some i) :
    ∃ dentry ∈ t.dentries, t.dentrySearchForInode i (t.inode parent).gfid name = some dentry ∧
      dentry.parent = parent ∧ dentry.name = name := by
  obtain ⟨found, hgrep, rfl⟩ := Option.map_eq_some_iff.mp hbound
  obtain ⟨hmem, -, hfoundParent, hfoundName⟩ := dentryGrep_some hgrep
  rw [InodeTable.dentrySearchForInode, if_neg hgfid]
  cases hsearch : t.dentries.find? fun dentry => dentry.inode = found.inode ∧
      (t.inode dentry.parent).gfid = (t.inode parent).gfid ∧ dentry.name = name with
  | none =>
    have hno := List.find?_eq_none.mp hsearch found hmem
    simp [hfoundParent, hfoundName] at hno
  | some dentry =>
    have hdentry := List.mem_of_find?_eq_some hsearch
    have hmatch := List.find?_some hsearch
    rw [decide_eq_true_eq] at hmatch
    refine ⟨dentry, hdentry, rfl, ?_, hmatch.2.2⟩
    -- Both parents are in use, so both are hashed.
    have hactive : dentry.parent ∈ t.active := hs.parent_active hdentry
    have hhashed : ∀ j ∈ t.active, (t.inode j).gfid ≠ 0 → j ∈ t.inodeHash := fun j hj =>
      hs.named j (hs.live_of_active hj) (hs.not_mem_of_active hj).2
    exact hs.gfid_inj _ (hhashed _ hactive (hmatch.2.1 ▸ hgfid)) _
      (hhashed _ (hs.active_of_held hparent) hgfid) hmatch.2.1

theorem TableInv.inodeUnlink_names (hnames : t.UniqueNames) {parent : InodeId} {name : String}
    (hparent : 0 < held parent) (hgfid : (t.inode parent).gfid ≠ 0)
    (hbound : t.resolve parent name = some i) :
    (t.inodeUnlink i (some parent) (some name)).resolve = t.resolve.unbind parent name ∧
      Keeps t (t.inodeUnlink i (some parent) (some name)) := by
  obtain ⟨dentry, hmem, hsearch, rfl, rfl⟩ :=
    hs.dentrySearchForInode_names hparent hgfid hbound
  obtain ⟨hdentries, hkeeps⟩ := hs.keeps_unset hmem hparent
  have hunlink : t.inodeUnlink i (some dentry.parent) (some dentry.name) = t.unset dentry := by
    rw [InodeTable.inodeUnlink, hsearch]
  rw [hunlink]
  refine ⟨?_, hkeeps⟩
  funext dir base
  rw [NameMap.unbind]
  split_ifs with h
  · rw [h.1, h.2]
    exact resolve_erase_self hnames hmem (hs.hashed dentry hmem) hdentries
  · exact resolve_erase_of_ne hdentries h

end Link

/-! ## Unique names -/

theorem unset_dentries_erase (hmem : dentry ∈ t.dentries) :
    (t.unset dentry).dentries.Sublist (t.dentries.erase dentry) := by
  obtain ⟨fuel, hfuel⟩ : ∃ fuel, t.dentries.length = fuel + 1 :=
    Nat.exists_eq_succ_of_ne_zero (Nat.ne_of_gt (List.length_pos_of_mem hmem))
  rw [InodeTable.unset, hfuel]
  exact inodeUnref_dentries (dentryUnset_dentries fuel) _ dentry.parent

section Unique

variable (ht : t.UniqueNames)

include ht

theorem InodeTable.UniqueNames.dentryLink (link : InodeId) (old : Bool) (parent : InodeId)
    (name : String) :
    (t.dentryLink link old parent name).2.UniqueNames := by
  rw [InodeTable.dentryLink]
  split_ifs with hsame
  · exact ht
  simp only [dentryCreate_unset, dentryCreate_dentryHash]
  split_ifs with hcyclic
  · refine of_sublist ht ?_
    rw [← inodeRef_dentries t parent]
    exact unref_dentries _ parent
  cases hgrep : t.dentryGrep parent name with
  | none =>
    have hadded : Relinked t ⟨link, parent, name, true⟩
        (⟨link, parent, name, true⟩ :: (t.inodeRef parent).dentries) := by
      rw [inodeRef_dentries]
      exact .added hgrep
    exact hadded.uniqueNames ht
  | some oldDentry =>
    have hne : (⟨link, parent, name, true⟩ : Dentry) ≠ oldDentry := fun h => by
      rw [hgrep, ← h] at hsame
      exact hsame (decide_eq_true rfl)
    obtain ⟨-, hmem⟩ := dentryGrep_old hgrep ⟨link, parent, name, true⟩
    have hreplaced : InodeTable.UniqueNames
        { t with dentries := ⟨link, parent, name, true⟩ :: t.dentries.erase oldDentry } :=
      Relinked.uniqueNames (.replaced hgrep) ht
    refine of_sublist hreplaced ((unset_dentries_erase hmem).trans ?_)
    rw [List.erase_cons_tail (by simpa using hne), inodeRef_dentries]

theorem InodeTable.UniqueNames.inodeLink (i : InodeId) (parent : Option InodeId)
    (name : Option String)
    (iatt : Option Nat) : (t.inodeLink i parent name iatt).2.UniqueNames := by
  obtain ⟨hdentries, -⟩ := linkInode_frame t i iatt
  rw [InodeTable.inodeLink]
  rcases hlink : t.linkInode i iatt with ⟨_ | ⟨link, old⟩, u⟩ <;> rw [hlink] at hdentries
  all_goals have hu : u.UniqueNames := of_sublist ht (hdentries ▸ .refl _)
  · exact hu
  · dsimp only
    split_ifs
    · exact hu
    · split
      · exact hu
      · exact hu
      · exact hu.dentryLink link old _ _

theorem InodeTable.UniqueNames.take {s : InodeState} (result : Option InodeId) :
    (s.take (result, t)).table.UniqueNames := by
  cases result with
  | none => exact ht
  | some i => exact of_sublist ht (inodeRef_dentries t i ▸ .refl _)

end Unique

theorem InodeTable.UniqueNames.step {s s' : InodeState} {label : InodeLabel}
    (hs : s.table.UniqueNames)
    (hstep : inodeStep s label = some s') : s'.table.UniqueNames := by
  obtain ⟨-, h⟩ := Option.ite_none_right_eq_some.mp hstep
  obtain rfl := Option.some.inj h
  cases label with
  | new => exact UniqueNames.take (t := s.table.inodeCreate) hs _
  | link i parent name iatt => exact (hs.inodeLink i parent name iatt).take _
  | unlink i parent name => exact hs.of_sublist (inodeUnlink_dentries _ i parent name)
  | rename srcdir srcname dstdir dstname i iatt =>
    exact (hs.inodeLink i dstdir dstname iatt).of_sublist (inodeUnlink_dentries _ i srcdir srcname)
  | ref i => exact hs.take _
  | unref i => exact hs.of_sublist (unref_dentries _ i)
  | lookup i => exact hs
  | forget i nlookup => exact hs
  | find gfid => exact hs.take _
  | grep parent name => exact hs.take _
  | prune => exact hs.of_sublist (pruneLoop_dentries _ _)

variable {lruLimit : Nat}

theorem InodeTable.UniqueNames.of_reachable {s : InodeState}
    {guard : InodeState → InodeLabel → Prop}
    (hreach : ReachableUnder inodeStep guard (.start lruLimit) s) : s.table.UniqueNames :=
  hreach.invariant_along (fun s => s.table.UniqueNames) (fun _ _ => Nat.zero_le _)
    fun _ _ hstep hs => hs.step hstep

theorem TableInv.uniqueGfids {todo : List Dentry} {debt : List InodeId}
    (hs : TableInv t held todo debt) : t.UniqueGfids := by
  intro gfid
  rw [List.countP_eq_length_filter]
  have hnodup := hs.hash_nodup.filter fun i => (t.inode i).gfid = gfid
  have hsame : ∀ i ∈ t.inodeHash.filter fun i => (t.inode i).gfid = gfid,
      i ∈ t.inodeHash ∧ (t.inode i).gfid = gfid := fun i hi => by
    simpa using List.mem_filter.mp hi
  generalize t.inodeHash.filter (fun i => (t.inode i).gfid = gfid) = found at hnodup hsame ⊢
  rcases found with _ | ⟨i, _ | ⟨j, rest⟩⟩
  · exact Nat.zero_le _
  · exact Nat.le_refl _
  · obtain ⟨hi, hgfid⟩ := hsame i List.mem_cons_self
    obtain ⟨hj, hgfid'⟩ := hsame j (List.mem_cons_of_mem _ List.mem_cons_self)
    have heq := hs.gfid_inj i hi j hj (hgfid.trans hgfid'.symm)
    exact absurd (heq ▸ List.mem_cons_self) (List.nodup_cons.mp hnodup).1

/-- Neither a name nor a gfid is hashed twice, however the critical sections of the calls
interleave. -/
theorem unique_of_reachable {s : InodeState}
    (hreach : ReachableUnder inodeStep RootInUse (.start lruLimit) s) :
    s.table.UniqueNames ∧ s.table.UniqueGfids :=
  ⟨.of_reachable hreach, TableInv.uniqueGfids (InodeState.Inv.of_reachable hreach)⟩

/-! ## Calls -/

/-- The functions that end with `inode_table_prune`. -/
def InodeLabel.prunes : InodeLabel → Bool
  | .link _ _ _ _ | .unlink _ _ _ | .rename _ _ _ _ _ _ | .unref _ | .forget _ _ => true
  | .new | .ref _ | .lookup _ | .find _ | .grep _ _ | .prune => false

/-- One whole call, with nobody else at the table. -/
def inodeCall (s : InodeState) (label : InodeLabel) : Option InodeState :=
  (inodeStep s label).map fun s =>
    if label.prunes then { s with table := s.table.inodeTablePrune } else s

/-- The root is in use when the call prunes. -/
def CallInUse (s : InodeState) (label : InodeLabel) : Prop :=
  RootInUse s label ∧ ∀ s' ∈ inodeStep s label, RootInUse s' .prune
  deriving Decidable

/-- A call is one step, or one and then pruning. -/
theorem reachable_of_calls {s : InodeState}
    (hreach : ReachableUnder inodeCall CallInUse (.start lruLimit) s) :
    ReachableUnder inodeStep RootInUse (.start lruLimit) s := by
  induction hreach with
  | start => exact .start
  | next _ hguard hcall ih =>
    obtain ⟨s', hstep, rfl⟩ := Option.map_eq_some_iff.mp hcall
    have hnext := ReachableUnder.next ih hguard.1 hstep
    split_ifs
    · refine .next hnext (hguard.2 s' hstep) ?_
      rw [inodeStep, if_pos (by simp [InodeLabel.arguments])]
    · exact hnext

theorem inodeRef_lru (t : InodeTable) (i : InodeId) :
    (t.inodeRef i).lruSize ≤ t.lruSize ∧ (t.inodeRef i).lruLimit = t.lruLimit := by
  rw [InodeTable.inodeRef]
  split_ifs
  · exact ⟨Int.sub_le_self _ (by decide), rfl⟩
  · exact ⟨Int.le_refl _, rfl⟩

theorem InodeTable.WithinLimit.of_le (ht : t.WithinLimit) (hsize : t'.lruSize ≤ t.lruSize)
    (hlimit : t'.lruLimit = t.lruLimit) : t'.WithinLimit := by
  rw [WithinLimit, hlimit]
  exact ht.imp_right fun h => Int.le_trans hsize h

theorem InodeTable.WithinLimit.take (ht : t.WithinLimit) (s : InodeState)
    (result : Option InodeId) : (s.take (result, t)).table.WithinLimit := by
  cases result with
  | none => exact ht
  | some i => exact ht.of_le (inodeRef_lru t i).1 (inodeRef_lru t i).2

theorem InodeState.Inv.withinLimit_prune {s : InodeState} (hs : s.Inv)
    (hguard : RootInUse s .prune) : s.table.inodeTablePrune.WithinLimit := by
  by_cases hlimit : s.table.WithinLimit
  · rw [InodeTable.inodeTablePrune, pruneLoop_of_withinLimit _ hlimit]
    exact hlimit
  · rw [s.table.withinLimit_iff, not_not] at hlimit
    exact TableInv.pruneLoop_withinLimit hs (hguard.2 rfl hlimit.1 hlimit.2) _ (Nat.le_refl _)

/-- Between calls `lru` is within its limit. -/
theorem withinLimit_of_calls {s : InodeState}
    (hreach : ReachableUnder inodeCall CallInUse (.start lruLimit) s) : s.table.WithinLimit := by
  refine hreach.invariant_along (fun s => s.table.WithinLimit) ?_ ?_
  · rcases Nat.eq_zero_or_pos lruLimit with h | h
    · exact .inl h
    · exact .inr (Int.ofNat_le.mpr h)
  · intro before label after hbefore hguard hcall hwithin
    have hs := InodeState.Inv.of_reachable (reachable_of_calls hbefore)
    obtain ⟨s', hstep, rfl⟩ := Option.map_eq_some_iff.mp hcall
    by_cases hprunes : label.prunes
    · rw [if_pos hprunes]
      exact (hs.step hguard.1 hstep).withinLimit_prune (hguard.2 s' hstep)
    · rw [if_neg hprunes]
      obtain ⟨-, h⟩ := Option.ite_none_right_eq_some.mp hstep
      obtain rfl := Option.some.inj h
      cases label with
      | new =>
        refine hwithin.of_le (Int.le_of_eq ?_) (inodeRef_lru _ _).2
        have hzero : before.table.inodeCreate.ref before.table.created = 0 := by
          simp [InodeTable.inodeCreate, InodeTable.ref]
        simp only [InodeState.take, InodeTable.inodeRef, hzero, if_true]
        exact Int.add_sub_cancel ..
      | ref i => exact hwithin.take before _
      | lookup i => exact hwithin
      | find gfid => exact hwithin.take before _
      | grep parent name => exact hwithin.take before _
      | prune => exact hs.withinLimit_prune hguard.1
      | link | unlink | rename | unref | forget => exact absurd rfl hprunes

theorem inodeTablePrune_dentries (ht : t.WithinLimit) :
    t.inodeTablePrune.dentries = t.dentries := by
  rw [InodeTable.inodeTablePrune, pruneLoop_of_withinLimit _ ht]
  rfl

/-- A hashed inode is linked as it is. -/
theorem inodeLink_hashed (hi : i ∈ t.inodeHash) {parent : InodeId} {name : String}
    (hdot : name ≠ ".") (hdots : name ≠ "..") {iatt : Option Nat} :
    t.inodeLink i (some parent) (some name) iatt = t.dentryLink i false parent name := by
  have hnot : ¬(some name = some "." ∨ some name = some "..") := by simp [hdot, hdots]
  have hlink : t.linkInode i iatt = (some (i, false), t) := by
    unfold InodeTable.linkInode
    exact if_pos hi
  rw [InodeTable.inodeLink, hlink]
  exact if_neg hnot

section Call

variable {s s' : InodeState} (hs : s.Inv) (hwithin : s.table.WithinLimit)
variable {parent : InodeId} {name : String} {iatt : Option Nat}

include hs hwithin

/-- Nothing is pruned when a name is linked. -/
theorem InodeState.Inv.link_resolve (hdot : name ≠ ".") (hdots : name ≠ "..") {L : InodeId}
    (hguard : RootInUse s (.link i (some parent) (some name) iatt))
    (hcall : inodeCall s (.link i (some parent) (some name) iatt) = some s')
    (hL : (s.table.inodeLink i (some parent) (some name) iatt).1 = some L) :
    s'.table.resolve = s.table.resolve.bind parent name L := by
  obtain ⟨_, hstep, rfl⟩ := Option.map_eq_some_iff.mp hcall
  obtain ⟨harguments, h⟩ := Option.ite_none_right_eq_some.mp hstep
  obtain rfl := Option.some.inj h
  have hi : 0 < s.held i := harguments i List.mem_cons_self
  have hparent : 0 < s.held parent :=
    harguments parent (List.mem_cons_of_mem _ List.mem_cons_self)
  obtain ⟨hrelinked, hlruSize, hlruLimit⟩ :=
    TableInv.inodeLink_names hs (hs.low hguard.1) hi hparent hdot hdots hL
  have hlinked : (s.table.inodeLink i (some parent) (some name) iatt).2.WithinLimit :=
    hwithin.of_le (Int.le_of_eq hlruSize) hlruLimit
  have hresolve := hrelinked.resolve rfl
  change (s.take (s.table.inodeLink i (some parent) (some name) iatt)
    ).table.inodeTablePrune.resolve = _
  rw [resolve_of_dentries (inodeTablePrune_dentries (hlinked.take s _)), ← hresolve]
  refine resolve_of_dentries ?_
  rw [← Prod.eta (s.table.inodeLink i (some parent) (some name) iatt), hL]
  exact inodeRef_dentries _ L

/-- A hashed inode is linked itself, and the name it had is freed. -/
theorem InodeState.Inv.rename_resolve {srcdir : InodeId} {srcname : String}
    (hhashed : i ∈ s.table.inodeHash) (hbound : s.table.resolve srcdir srcname = some i)
    (hother : ¬(srcdir = parent ∧ srcname = name)) (hdot : name ≠ ".") (hdots : name ≠ "..")
    (hgfid : (s.table.inode srcdir).gfid ≠ 0) (hnames : s.table.UniqueNames)
    (hguard : RootInUse s (.rename (some srcdir) (some srcname) (some parent) (some name) i iatt))
    (hcall : inodeCall s (.rename (some srcdir) (some srcname) (some parent) (some name) i iatt) =
      some s') :
    s'.table.resolve = (s.table.resolve.bind parent name i).unbind srcdir srcname := by
  obtain ⟨_, hstep, rfl⟩ := Option.map_eq_some_iff.mp hcall
  obtain ⟨harguments, h⟩ := Option.ite_none_right_eq_some.mp hstep
  obtain rfl := Option.some.inj h
  have hsrcdir : 0 < s.held srcdir := harguments srcdir (by simp [InodeLabel.arguments])
  have hparent : 0 < s.held parent := harguments parent (by simp [InodeLabel.arguments])
  have hlow := hs.low hguard.1
  have hlive := hs.hash_live i hhashed
  change ((s.table.inodeLink i (some parent) (some name) iatt).2.inodeUnlink i (some srcdir)
    (some srcname)).inodeTablePrune.resolve = _
  rw [inodeLink_hashed hhashed hdot hdots]
  have hfst : (s.table.dentryLink i false parent name).1 = some i := by
    rw [InodeTable.dentryLink]
    split_ifs
    · rfl
    · split <;> rfl
  obtain ⟨-, hrelinked, hkeeps⟩ := TableInv.dentryLink_names hs hlow hlive hparent hfst
  have hresolve := hrelinked.resolve rfl
  have hlinked := (TableInv.dentryLink hs hlow hlive false hparent name).inv
  have hstill : (s.table.dentryLink i false parent name).2.resolve srcdir srcname = some i := by
    rw [hresolve, NameMap.bind, if_neg hother, hbound]
  obtain ⟨hunlinked, hkept⟩ := hlinked.inodeUnlink_names (hnames.dentryLink i false parent name)
    hsrcdir ((hkeeps.gfid srcdir).symm ▸ hgfid) hstill
  have hkeeps' := hkeeps.trans hkept
  have hwithin' := hwithin.of_le (Int.le_of_eq hkeeps'.lruSize) hkeeps'.lruLimit
  rw [resolve_of_dentries (inodeTablePrune_dentries hwithin'), hunlinked, hresolve]

end Call

/-- The table is a map of names: linking and renaming change the names they are
about and no others, and neither a name nor a gfid is hashed twice. -/
theorem inode_table_name_map {lruLimit : Nat} {s : InodeState}
    (hreach : ReachableUnder inodeCall CallInUse (.start lruLimit) s) :
    (∀ i parent name iatt s' L, name ≠ "." → name ≠ ".." →
      CallInUse s (.link i (some parent) (some name) iatt) →
      inodeCall s (.link i (some parent) (some name) iatt) = some s' →
      (s.table.inodeLink i (some parent) (some name) iatt).1 = some L →
      s'.table.resolve = s.table.resolve.bind parent name L) ∧
    (∀ srcdir srcname dstdir dstname i iatt s', i ∈ s.table.inodeHash →
      s.table.resolve srcdir srcname = some i →
      ¬(srcdir = dstdir ∧ srcname = dstname) → dstname ≠ "." → dstname ≠ ".." →
      (s.table.inode srcdir).gfid ≠ 0 →
      CallInUse s (.rename (some srcdir) (some srcname) (some dstdir) (some dstname) i iatt) →
      inodeCall s (.rename (some srcdir) (some srcname) (some dstdir) (some dstname) i iatt) =
        some s' →
      s'.table.resolve = (s.table.resolve.bind dstdir dstname i).unbind srcdir srcname) ∧
    s.table.UniqueNames ∧ s.table.UniqueGfids := by
  have hsteps := reachable_of_calls hreach
  have hs := InodeState.Inv.of_reachable hsteps
  have hwithin := withinLimit_of_calls hreach
  have hunique := unique_of_reachable hsteps
  refine ⟨?_, ?_, hunique⟩
  · intro i parent name iatt s' L hdot hdots hguard hcall hL
    exact hs.link_resolve hwithin hdot hdots hguard.1 hcall hL
  · intro srcdir srcname dstdir dstname i iatt s' hhashed hbound hother hdot hdots hgfid
      hguard hcall
    exact hs.rename_resolve hwithin hhashed hbound hother hdot hdots hgfid hunique.1 hguard.1
      hcall

/-- Two files in the root. -/
def twoFiles : List InodeLabel :=
  [.find rootGfid, .new, .link 1 (some root) (some "a") (some 2), .new,
    .link 2 (some root) (some "b") (some 3)]

/-- One file is renamed over the other. -/
theorem inode_table_name_map_replaced : ∃ s s', run inodeCall (.start 1) twoFiles = some s ∧
      inodeCall s (.rename (some root) (some "a") (some root) (some "b") 1 none) = some s' ∧
      s'.table.resolve = (s.table.resolve.bind root "b" 1).unbind root "a" := by
  obtain ⟨s, hrun⟩ : ∃ s, run inodeCall (.start 1) twoFiles = some s := ⟨_, rfl⟩
  obtain ⟨s', hcall⟩ : ∃ s',
      inodeCall s (.rename (some root) (some "a") (some root) (some "b") 1 none) = some s' := by
    cases hrun
    exact ⟨_, rfl⟩
  have hmap := inode_table_name_map (.of_run twoFiles .start (by decide) hrun)
  refine ⟨s, s', hrun, hcall, hmap.2.1 root "a" root "b" 1 none s' ?_ ?_ (by decide) (by decide)
    (by decide) ?_ ?_ hcall⟩ <;> cases hrun <;> decide

/-- A file is linked under a directory that has no gfid yet. -/
def linkedUnderNew : List InodeLabel :=
  [.find rootGfid, .new, .new, .link 2 (some 1) (some "a") (some 2)]

/-- A name that is renamed to itself is lost, and so is one that is renamed to a dot;
under a parent without gfid the old name stays. -/
theorem rename_to_itself : (¬∀ lruLimit s, ReachableUnder inodeCall CallInUse (.start lruLimit) s →
      ∀ srcdir srcname dstdir dstname i iatt s', i ∈ s.table.inodeHash →
        s.table.resolve srcdir srcname = some i →
        inodeCall s (.rename (some srcdir) (some srcname) (some dstdir) (some dstname) i iatt) =
          some s' →
        s'.table.resolve dstdir dstname = some i) ∧
    (run inodeCall (.start 0) (twoFiles ++ [.rename (some root) (some "a") (some root) (some ".") 1
      none])).map (fun s => (s.table.resolve root "a", s.table.resolve root ".")) =
        some (none, none) ∧
    (run inodeCall (.start 0) (linkedUnderNew ++ [.rename (some 1) (some "a") (some root) (some "b")
      2 none])).map (fun s => (s.table.resolve 1 "a", s.table.resolve root "b")) =
        some (some 2, some 2) := by
  refine ⟨fun hall => ?_, by decide, by decide⟩
  obtain ⟨s, hrun⟩ : ∃ s, run inodeCall (.start 0) twoFiles = some s := ⟨_, rfl⟩
  obtain ⟨s', hcall⟩ : ∃ s',
      inodeCall s (.rename (some root) (some "a") (some root) (some "a") 1 none) = some s' := by
    cases hrun
    exact ⟨_, rfl⟩
  have hbound := hall 0 s (.of_run twoFiles .start (by decide) hrun) root "a" root "a" 1 none s'
    (by cases hrun; decide) (by cases hrun; decide) hcall
  have hlost : s'.table.resolve root "a" = none := by
    cases hrun
    cases hcall
    decide
  rw [hlost] at hbound
  cases hbound

end GlusterFS.Inodes
