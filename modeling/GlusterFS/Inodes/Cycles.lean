import GlusterFS.Core.EdgeList
import GlusterFS.Inodes.References

/-!
# Circles of dentries

`__inode_link` looks for a circle only where it has found another inode with the
same gfid.  As long as every other inode is linked under none of its own
descendants, no circle comes up, and the walks from an inode to its ancestors come
to an end.
-/

namespace GlusterFS.Inodes

open Transition EdgeList

variable {t t' : InodeTable} {i : InodeId} {dentry : Dentry}

namespace InodeTable

variable (t : InodeTable)

/-- The inodes with their parents, over all the dentries. -/
def links : List (InodeId × InodeId) :=
  t.dentries.map fun dentry => (dentry.inode, dentry.parent)

/-- The inode has a hashed dentry under the parent. -/
def HashedUnder (i parent : InodeId) : Prop :=
  ∃ dentry ∈ t.dentries, dentry.hashed = true ∧ dentry.inode = i ∧ dentry.parent = parent

/-! ## Walks to the ancestors -/

/-- The loop over `dentry_list` in `__foreach_ancestor_dentry`: it ends with the
first dentry that is not passed, and does not end where a call does not return. -/
def firstOf (call : Dentry → Option Bool) : List Dentry → Option Bool
  | [] => some false
  | each :: rest =>
    match call each with
    | none => none
    | some true => some true
    | some false => firstOf call rest

/-- `__foreach_ancestor_dentry`; `none` if it has not returned `fuel` calls deep. -/
def foreachAncestorDentry (perDentry : Dentry → Bool) : Nat → Dentry → Option Bool
  | 0, _ => none
  | fuel + 1, dentry =>
    if perDentry dentry then some true
    else firstOf (foreachAncestorDentry perDentry fuel) (t.dentryList dentry.parent)

/-- `__dentry_search_arbit` -/
def dentrySearchArbit (i : InodeId) : Option Dentry :=
  ((t.dentryList i).find? fun dentry => dentry.hashed).or (t.dentryList i).head?

/-- `PATH_MAX` -/
def pathMax : Nat := 4096

/-- The first loop of `__inode_path`: where it ends and the length of the names, or
nothing where they are too long.  It has not ended if there is no fuel left. -/
def inodePathWalk : Nat → InodeId → Nat → Option (Option (InodeId × Nat))
  | 0, _, _ => none
  | fuel + 1, i, size =>
    match t.dentrySearchArbit i with
    | none => some (some (i, size))
    | some dentry =>
      let size := size + 1 + dentry.name.utf8ByteSize
      if pathMax < size then some none else inodePathWalk fuel dentry.parent size

end InodeTable

theorem mem_of_dentrySearchArbit (hsearch : t.dentrySearchArbit i = some dentry) :
    dentry ∈ t.dentries ∧ dentry.inode = i := by
  have hmem : dentry ∈ t.dentryList i := by
    rcases Option.or_eq_some_iff.mp hsearch with hfind | ⟨-, hhead⟩
    · exact List.mem_of_find?_eq_some hfind
    · exact List.mem_of_head? hhead
  simpa [InodeTable.dentryList] using hmem

theorem firstOf_isSome {call : Dentry → Option Bool} {dentries : List Dentry}
    (hcall : ∀ each ∈ dentries, (call each).isSome) :
    (InodeTable.firstOf call dentries).isSome := by
  induction dentries with
  | nil => rfl
  | cons each rest ih =>
    obtain ⟨found, hfound⟩ := Option.isSome_iff_exists.mp (hcall each List.mem_cons_self)
    rw [InodeTable.firstOf, hfound]
    cases found with
    | true => rfl
    | false => exact ih fun other hother => hcall other (List.mem_cons_of_mem _ hother)

theorem any_of_firstOf {call : Dentry → Option Bool} {test : Dentry → Bool} {found : Bool}
    (hcall : ∀ each found, call each = some found → test each = found) {dentries : List Dentry}
    (h : InodeTable.firstOf call dentries = some found) : dentries.any test = found := by
  induction dentries with
  | nil => exact Option.some.inj h
  | cons each rest ih =>
    rw [InodeTable.firstOf] at h
    rw [List.any_cons]
    cases hfirst : call each with
    | none =>
      rw [hfirst] at h
      cases h
    | some first =>
      rw [hfirst] at h
      rw [hcall each first hfirst]
      cases first with
      | true => exact Option.some.inj h
      | false => exact ih h

/-- Where `__foreach_ancestor_dentry` returns, `checkCycle` has its result. -/
theorem checkCycle_of_foreach {link : InodeId} {fuel : Nat} {found : Bool}
    (h : t.foreachAncestorDentry (fun dentry => dentry.parent = link) fuel dentry = some found) :
    t.checkCycle link fuel dentry = found := by
  induction fuel generalizing dentry found with
  | zero => cases h
  | succ fuel ih =>
    rw [InodeTable.foreachAncestorDentry] at h
    rw [InodeTable.checkCycle]
    by_cases hparent : dentry.parent = link
    · rw [if_pos (decide_eq_true hparent)] at h
      rw [decide_eq_true hparent]
      exact Option.some.inj h
    · rw [if_neg (by simpa using hparent)] at h
      rw [decide_eq_false hparent, Bool.false_or]
      exact any_of_firstOf (fun each found hcall => ih hcall) h

section Ends

variable {edges : List (InodeId × InodeId)} (hacyclic : Acyclic edges)

include hacyclic

/-- The recursion goes up an acyclic graph and ends. -/
theorem foreachAncestorDentry_isSome {perDentry : Dentry → Bool}
    (hup : ∀ dentry, perDentry dentry = false → ∀ each ∈ t.dentryList dentry.parent,
      (dentry.parent, each.parent) ∈ edges)
    (fuel : Nat) (dentry : Dentry) (hfuel : rank edges dentry.parent < fuel) :
    (t.foreachAncestorDentry perDentry fuel dentry).isSome := by
  induction fuel generalizing dentry with
  | zero => exact absurd hfuel (Nat.not_lt_zero _)
  | succ fuel ih =>
    rw [InodeTable.foreachAncestorDentry]
    by_cases hstop : perDentry dentry = true
    · rw [if_pos hstop]
      rfl
    · rw [if_neg hstop]
      refine firstOf_isSome fun each heach => ih each ?_
      have hless := hacyclic.rank_lt (hup dentry (Bool.eq_false_iff.mpr hstop) each heach)
      omega

theorem inodePathWalk_isSome (hup : ∀ dentry ∈ t.dentries, (dentry.inode, dentry.parent) ∈ edges)
    (fuel : Nat) (i : InodeId) (size : Nat) (hfuel : rank edges i < fuel) :
    (t.inodePathWalk fuel i size).isSome := by
  induction fuel generalizing i size with
  | zero => exact absurd hfuel (Nat.not_lt_zero _)
  | succ fuel ih =>
    rw [InodeTable.inodePathWalk]
    cases hsearch : t.dentrySearchArbit i with
    | none => rfl
    | some dentry =>
      obtain ⟨hdentry, hinode⟩ := mem_of_dentrySearchArbit hsearch
      dsimp only
      split_ifs
      · rfl
      · have hless := hacyclic.rank_lt (hup dentry hdentry)
        refine ih dentry.parent _ ?_
        rw [hinode] at hless
        omega

end Ends

theorem InodeTable.mem_links (hdentry : dentry ∈ t.dentries) :
    (dentry.inode, dentry.parent) ∈ t.links :=
  List.mem_map_of_mem hdentry

theorem InodeTable.mem_links_of_dentryList {parent : InodeId}
    (hdentry : dentry ∈ t.dentryList parent) : (parent, dentry.parent) ∈ t.links := by
  obtain ⟨hmem, hinode⟩ := List.mem_filter.mp hdentry
  rw [decide_eq_true_eq] at hinode
  exact hinode ▸ t.mem_links hmem

/-! ## What the calls do to the dentries -/

section Dentries

variable {drop : InodeTable → Dentry → InodeTable}

theorem foldl_dentries {turn : InodeTable → Dentry → InodeTable}
    (hturn : ∀ t dentry, (turn t dentry).dentries.Sublist t.dentries) (dentries : List Dentry)
    (t : InodeTable) : (dentries.foldl turn t).dentries.Sublist t.dentries := by
  induction dentries generalizing t with
  | nil => exact .refl _
  | cons dentry dentries ih => exact (ih (turn t dentry)).trans (hturn t dentry)

variable (hdrop : ∀ t dentry, (drop t dentry).dentries.Sublist t.dentries)

include hdrop

theorem inodePassivate_dentries (t : InodeTable) (i : InodeId) :
    (t.inodePassivate drop i).dentries.Sublist t.dentries := by
  refine foldl_dentries (fun t dentry => ?_) _ _
  split_ifs
  · exact .refl _
  · exact hdrop t dentry

theorem inodeRetire_dentries (t : InodeTable) (i : InodeId) :
    (t.inodeRetire drop i).dentries.Sublist t.dentries :=
  foldl_dentries hdrop _ _

theorem inodeUnref_dentries (t : InodeTable) (i : InodeId) :
    (t.inodeUnref drop i).dentries.Sublist t.dentries := by
  rw [InodeTable.inodeUnref]
  dsimp only
  split_ifs
  · exact .refl _
  · exact inodePassivate_dentries hdrop _ i
  · exact inodeRetire_dentries hdrop _ i
  · exact .refl _

end Dentries

theorem dentryUnset_dentries (fuel : Nat) (t : InodeTable) (dentry : Dentry) :
    (InodeTable.dentryUnset fuel t dentry).dentries.Sublist t.dentries := by
  induction fuel generalizing t dentry with
  | zero => exact .refl _
  | succ fuel ih => exact (inodeUnref_dentries ih _ dentry.parent).trans List.erase_sublist

theorem unset_dentries (t : InodeTable) (dentry : Dentry) :
    (t.unset dentry).dentries.Sublist t.dentries :=
  dentryUnset_dentries _ t dentry

theorem unref_dentries (t : InodeTable) (i : InodeId) : (t.unref i).dentries.Sublist t.dentries :=
  inodeUnref_dentries (dentryUnset_dentries _) t i

theorem inodeUnlink_dentries (t : InodeTable) (i : InodeId) (parent : Option InodeId)
    (name : Option String) : (t.inodeUnlink i parent name).dentries.Sublist t.dentries := by
  unfold InodeTable.inodeUnlink
  split
  · split
    · exact .refl _
    · exact unset_dentries t _
  · exact .refl _

theorem pruneLoop_dentries (fuel : Nat) (t : InodeTable) :
    (InodeTable.pruneLoop fuel t).dentries.Sublist t.dentries := by
  induction fuel generalizing t with
  | zero => exact .refl _
  | succ fuel ih =>
    rw [InodeTable.pruneLoop]
    split_ifs
    · split
      · exact .refl _
      · exact (ih _).trans (inodeRetire_dentries (dentryUnset_dentries _) _ _)
    · exact .refl _

theorem linkInode_frame (t : InodeTable) (i : InodeId) (iatt : Option Nat) :
    (t.linkInode i iatt).2.dentries = t.dentries ∧ (t.linkInode i iatt).2.lruSize = t.lruSize ∧
      (t.linkInode i iatt).2.lruLimit = t.lruLimit := by
  unfold InodeTable.linkInode
  split_ifs
  · exact ⟨rfl, rfl, rfl⟩
  · split
    · exact ⟨rfl, rfl, rfl⟩
    · split_ifs
      · exact ⟨rfl, rfl, rfl⟩
      · split <;> exact ⟨rfl, rfl, rfl⟩

/-! ## Looking for a circle -/

/-- `__check_cycle` over the ancestors searches for the inode upwards from the
parent. -/
theorem checkCycle_eq_search (t : InodeTable) (link : InodeId) (fuel : Nat) (dentry : Dentry) :
    t.checkCycle link fuel dentry = search t.links link fuel dentry.parent := by
  induction fuel generalizing dentry with
  | zero => rfl
  | succ fuel ih =>
    rw [InodeTable.checkCycle, search, InodeTable.links, List.filter_map, List.any_map]
    exact congrArg _ (congrArg (List.any _) (funext ih))

theorem links_dentryCreate (t : InodeTable) (dentry : Dentry) :
    (t.dentryCreate dentry).links = (dentry.inode, dentry.parent) :: t.links := by
  simp only [InodeTable.links, InodeTable.dentryCreate, inodeRef_dentries, List.map_cons]

/-- Where no circle is found, the parent is not below the inode. -/
theorem not_reaches_of_not_cyclic (h : (t.dentryCreate dentry).isDentryCyclic dentry = false) :
    ¬Reaches t.links dentry.parent dentry.inode := by
  intro hway
  have hlength : (t.dentryCreate dentry).dentries.length = t.links.length + 1 := by
    rw [← List.length_cons (a := (dentry.inode, dentry.parent)), ← links_dentryCreate,
      InodeTable.links, List.length_map]
  have hfound : search (t.dentryCreate dentry).links dentry.inode
      (t.dentryCreate dentry).dentries.length dentry.parent = true := by
    rw [links_dentryCreate, hlength]
    exact search_mono (List.subset_cons_self ..) (search_of_reaches hway (Nat.lt_succ_self _))
  rw [InodeTable.isDentryCyclic, checkCycle_eq_search, hfound] at h
  cases h

theorem dentryLink_dentries (t : InodeTable) (link : InodeId) (old : Bool) (dir : InodeId)
    (base : String) :
    (t.dentryLink link old dir base).2.dentries.Sublist t.dentries ∨
      (old = true → ¬Reaches t.links dir link) ∧ (t.dentryLink link old dir base).2.dentries.Sublist
          (⟨link, dir, base, true⟩ :: t.dentries) := by
  rw [InodeTable.dentryLink]
  split_ifs with hthere
  · exact .inl (.refl _)
  dsimp only
  split_ifs with hcyclic
  · refine .inl ?_
    rw [dentryCreate_unset, ← inodeRef_dentries t dir]
    exact unref_dentries _ dir
  · refine .inr ⟨fun hold => ?_, ?_⟩
    · rw [hold, Bool.true_and, Bool.not_eq_true] at hcyclic
      exact not_reaches_of_not_cyclic hcyclic
    · have hadded : ((t.dentryCreate ⟨link, dir, base, false⟩).dentryHash
          ⟨link, dir, base, false⟩).dentries = ⟨link, dir, base, true⟩ :: t.dentries := by
        rw [dentryCreate_dentryHash, ← inodeRef_dentries t dir]
      rw [← hadded]
      split
      · exact .refl _
      · exact unset_dentries _ _

/-- `__inode_link` makes one dentry at most, and not under a descendant of an inode
that was found by its gfid. -/
theorem inodeLink_dentries (t : InodeTable) (i : InodeId) (parent : Option InodeId)
    (name : Option String) (iatt : Option Nat) :
    (t.inodeLink i parent name iatt).2.dentries.Sublist t.dentries ∨
      ∃ link old dir base, (t.linkInode i iatt).1 = some (link, old) ∧ parent = some dir ∧
        name = some base ∧ base ≠ "." ∧ base ≠ ".." ∧
        (old = true → ¬Reaches t.links dir link) ∧
        (t.inodeLink i parent name iatt).2.dentries.Sublist
          (⟨link, dir, base, true⟩ :: t.dentries) := by
  obtain ⟨hsame, -⟩ := linkInode_frame t i iatt
  rw [InodeTable.inodeLink]
  rcases hlink : t.linkInode i iatt with ⟨_ | ⟨link, old⟩, u⟩
  · rw [hlink] at hsame
    exact .inl (hsame ▸ .refl _)
  rw [hlink] at hsame
  have hunchanged : u.dentries.Sublist t.dentries := hsame ▸ .refl _
  dsimp only
  split_ifs with hdots
  · exact .inl hunchanged
  rcases parent with _ | dir
  · exact .inl hunchanged
  rcases name with _ | base
  · exact .inl hunchanged
  rw [not_or] at hdots
  have hlinks : u.links = t.links := by rw [InodeTable.links, hsame, InodeTable.links]
  rcases dentryLink_dentries u link old dir base with h | ⟨hchecked, h⟩
  · exact .inl (h.trans hunchanged)
  · rw [hlinks] at hchecked
    rw [hsame] at h
    exact .inr ⟨link, old, dir, base, rfl, rfl, rfl, fun h => hdots.1 (congrArg some h),
      fun h => hdots.2 (congrArg some h), hchecked, h⟩

/-! ## Runs -/

/-- Every dentry is hashed, and no way upwards comes back. -/
structure LoopFree (t : InodeTable) : Prop where
  hashed : ∀ dentry ∈ t.dentries, dentry.hashed = true
  acyclic : Acyclic t.links

theorem LoopFree.of_sublist (ht : LoopFree t) (h : t'.dentries.Sublist t.dentries) :
    LoopFree t' where
  hashed dentry hdentry := ht.hashed dentry (h.subset hdentry)
  acyclic := ht.acyclic.mono (h.map _).subset

/-- An inode that is linked without a search by gfid is neither the parent nor
above it. -/
def InodeTable.NotUnderItself (t : InodeTable) (i : InodeId) (parent : Option InodeId)
    (name : Option String) (iatt : Option Nat) : Prop :=
  (t.linkInode i iatt).1 = some (i, false) → name ≠ some "." → name ≠ some ".." →
    ∀ dir ∈ parent, ¬Reaches t.links dir i
  deriving Decidable

theorem linkInode_eq_of_not_old {link : InodeId} {iatt : Option Nat}
    (h : (t.linkInode i iatt).1 = some (link, false)) : link = i := by
  unfold InodeTable.linkInode at h
  split_ifs at h
  · cases h
    rfl
  · split at h
    · cases h
    · split_ifs at h
      split at h
      · cases h
      · cases h
        rfl

/-- A new dentry leads upwards. -/
theorem LoopFree.inodeLink (ht : LoopFree t) {parent : Option InodeId} {name : Option String}
    {iatt : Option Nat} (hguard : t.NotUnderItself i parent name iatt) :
    LoopFree (t.inodeLink i parent name iatt).2 := by
  rcases inodeLink_dentries t i parent name iatt with
    hless | ⟨link, old, dir, base, hlink, rfl, rfl, hdot, hdots, hchecked, hadded⟩
  · exact ht.of_sublist hless
  have hback : ¬Reaches t.links dir link := by
    cases old with
    | true => exact hchecked rfl
    | false =>
      obtain rfl := linkInode_eq_of_not_old hlink
      exact hguard hlink (fun h => hdot (Option.some.inj h))
        (fun h => hdots (Option.some.inj h)) dir rfl
  have hmore : LoopFree { t with dentries := ⟨link, dir, base, true⟩ :: t.dentries } :=
    ⟨List.forall_mem_cons.mpr ⟨rfl, ht.hashed⟩, ht.acyclic.cons hback⟩
  exact hmore.of_sublist hadded

/-- No inode is linked or renamed under itself or one of its descendants, except
where `__inode_link` looks for it. -/
def LinksUpwards (s : InodeState) : InodeLabel → Prop
  | .link i parent name iatt => s.table.NotUnderItself i parent name iatt
  | .rename _ _ dstdir dstname i iatt => s.table.NotUnderItself i dstdir dstname iatt
  | _ => True

instance (s : InodeState) : (label : InodeLabel) → Decidable (LinksUpwards s label)
  | .link i parent name iatt =>
    inferInstanceAs (Decidable (s.table.NotUnderItself i parent name iatt))
  | .rename _ _ dstdir dstname i iatt =>
    inferInstanceAs (Decidable (s.table.NotUnderItself i dstdir dstname iatt))
  | .new | .unlink _ _ _ | .ref _ | .unref _ | .lookup _ | .forget _ _ | .find _ | .grep _ _
  | .prune => inferInstanceAs (Decidable True)

theorem LoopFree.take {s : InodeState} {result : Option InodeId × InodeTable}
    (h : LoopFree result.2) : LoopFree (s.take result).table := by
  rcases result with ⟨_ | i, t⟩
  · exact h
  · exact h.of_sublist (inodeRef_dentries t i ▸ .refl _)

theorem LoopFree.step {s s' : InodeState} {label : InodeLabel} (hs : LoopFree s.table)
    (hguard : LinksUpwards s label) (hstep : inodeStep s label = some s') :
    LoopFree s'.table := by
  obtain ⟨-, h⟩ := Option.ite_none_right_eq_some.mp hstep
  obtain rfl := Option.some.inj h
  cases label with
  | new => exact .take (hs.of_sublist (.refl _))
  | link i parent name iatt => exact .take (hs.inodeLink hguard)
  | unlink i parent name => exact hs.of_sublist (inodeUnlink_dentries _ i parent name)
  | rename srcdir srcname dstdir dstname i iatt =>
    exact (hs.inodeLink hguard).of_sublist (inodeUnlink_dentries _ i srcdir srcname)
  | ref i => exact .take hs
  | unref i => exact hs.of_sublist (unref_dentries _ i)
  | lookup i => exact hs.of_sublist (.refl _)
  | forget i nlookup => exact hs.of_sublist (.refl _)
  | find gfid => exact .take hs
  | grep parent name => exact .take hs
  | prune => exact hs.of_sublist (pruneLoop_dentries _ _)

theorem LoopFree.start (lruLimit : Nat) : LoopFree (InodeState.start lruLimit).table :=
  ⟨fun _ h => absurd h List.not_mem_nil, acyclic_nil⟩

theorem LoopFree.of_reachable {lruLimit : Nat} {s : InodeState}
    (hreach : ReachableUnder inodeStep LinksUpwards (.start lruLimit) s) : LoopFree s.table :=
  hreach.invariant_along (fun s => LoopFree s.table) (.start lruLimit)
    fun _ hguard hstep hs => hs.step hguard hstep

/-- The walks to the ancestors end: over the table, when `__inode_link` looks for a
circle before a dentry is hashed, and when a path is made. -/
structure InodeTable.WalksEnd (t : InodeTable) : Prop where
  foreach : ∀ perDentry dentry,
    (t.foreachAncestorDentry perDentry (t.dentries.length + 1) dentry).isSome
  isDentryCyclic : ∀ dentry, (t.dentryCreate dentry).foreachAncestorDentry
    (fun ancestor => ancestor.parent = dentry.inode) (t.dentries.length + 1) dentry =
      some ((t.dentryCreate dentry).isDentryCyclic dentry)
  inodePath : ∀ i, (t.inodePathWalk (t.dentries.length + 1) i 0).isSome

theorem LoopFree.rank_lt (t : InodeTable) (i : InodeId) :
    rank t.links i < t.dentries.length + 1 := by
  have hle : rank t.links i ≤ t.links.length := List.countP_le_length
  rw [InodeTable.links, List.length_map] at hle
  exact Nat.lt_succ_of_le hle

theorem LoopFree.walksEnd (ht : LoopFree t) : t.WalksEnd where
  foreach perDentry dentry :=
    foreachAncestorDentry_isSome ht.acyclic
      (fun _ _ _ heach => InodeTable.mem_links_of_dentryList heach) _ dentry (rank_lt t _)
  isDentryCyclic dentry := by
    -- The new dentry is one of `link_inode`, where the search stops.
    have hup : ∀ ancestor : Dentry, decide (ancestor.parent = dentry.inode) = false →
        ∀ each ∈ (t.dentryCreate dentry).dentryList ancestor.parent,
          (ancestor.parent, each.parent) ∈ t.links := by
      intro ancestor hgoOn each heach
      rw [decide_eq_false_iff_not] at hgoOn
      have hlink := InodeTable.mem_links_of_dentryList heach
      rw [links_dentryCreate, List.mem_cons, Prod.mk.injEq] at hlink
      exact hlink.resolve_left fun h => hgoOn h.1
    obtain ⟨found, hfound⟩ := Option.isSome_iff_exists.mp
      (foreachAncestorDentry_isSome ht.acyclic hup _ dentry (rank_lt t _))
    have hlength : (t.dentryCreate dentry).dentries.length = t.dentries.length + 1 := by
      rw [InodeTable.dentryCreate, List.length_cons, inodeRef_dentries]
    rw [hfound, InodeTable.isDentryCyclic, hlength, checkCycle_of_foreach hfound]
  inodePath i :=
    inodePathWalk_isSome ht.acyclic (fun _ hdentry => InodeTable.mem_links hdentry) _ i 0
      (rank_lt t i)

/-- No inode is its own ancestor, and the walks to the ancestors end. -/
theorem dentry_graph_acyclic {lruLimit : Nat} {s : InodeState}
    (hreach : ReachableUnder inodeStep LinksUpwards (.start lruLimit) s) :
    (∀ i, ¬Relation.TransGen s.table.HashedUnder i i) ∧ s.table.WalksEnd := by
  have hs := LoopFree.of_reachable hreach
  refine ⟨fun i hcycle => hs.acyclic i (Relation.TransGen.mono ?_ i i hcycle), hs.walksEnd⟩
  rintro child parent ⟨dentry, hdentry, -, rfl, rfl⟩
  exact InodeTable.mem_links hdentry

/-- A directory is moved from the root into another one, with an inode found by its
gfid, and renamed. -/
def directoryMoved : List InodeLabel :=
  [.find rootGfid, .new, .link 1 (some root) (some "a") (some 2), .new,
    .link 2 (some root) (some "b") (some 3), .new, .link 3 (some 1) (some "c") (some 3),
    .unlink 2 (some root) (some "b"), .rename (some 1) (some "c") (some 1) (some "d") 2 none]

theorem dentry_graph_acyclic_moved : ∃ s, run inodeStep (.start 0) directoryMoved = some s ∧
      s.table.dentries = [⟨2, 1, "d", true⟩, ⟨1, root, "a", true⟩] ∧
      (∀ i, ¬Relation.TransGen s.table.HashedUnder i i) ∧ s.table.WalksEnd := by
  obtain ⟨s, hrun⟩ : ∃ s, run inodeStep (.start 0) directoryMoved = some s := ⟨_, rfl⟩
  have hdentries : s.table.dentries = [⟨2, 1, "d", true⟩, ⟨1, root, "a", true⟩] := by
    cases hrun
    decide
  exact ⟨s, hrun, hdentries, dentry_graph_acyclic (.of_run directoryMoved .start (by decide) hrun)⟩

/-- The recursion does not return from dentries that lead to each other. -/
theorem foreachAncestorDentry_never {perDentry : Dentry → Bool} (circle : List Dentry)
    (hcircle : ∀ dentry ∈ circle, perDentry dentry = false ∧
      ∃ each ∈ circle, (t.dentryList dentry.parent).head? = some each)
    (fuel : Nat) (hdentry : dentry ∈ circle) :
    t.foreachAncestorDentry perDentry fuel dentry = none := by
  induction fuel generalizing dentry with
  | zero => rfl
  | succ fuel ih =>
    obtain ⟨hgoOn, each, heach, hfirst⟩ := hcircle dentry hdentry
    obtain ⟨rest, hlist⟩ := List.head?_eq_some_iff.mp hfirst
    rw [InodeTable.foreachAncestorDentry, hgoOn, hlist, InodeTable.firstOf, ih heach]
    rfl

/-- A directory, which is hashed already, is linked under its own subdirectory. -/
def linkedUnderItself : List InodeLabel :=
  [.find rootGfid, .new, .link 1 (some root) (some "a") (some 2), .new,
    .link 2 (some 1) (some "b") (some 3), .link 1 (some 2) (some "c") none]

/-- The directory becomes its own ancestor, and when another inode is then found by
its gfid and linked there, looking for a circle does not return. -/
theorem directory_under_itself : (¬∀ lruLimit s, Reachable inodeStep (.start lruLimit) s →
      ∀ i, ¬Relation.TransGen s.table.HashedUnder i i) ∧
    ¬∀ lruLimit s, Reachable inodeStep (.start lruLimit) s → ∀ dentry, ∃ fuel,
      ((s.table.dentryCreate dentry).foreachAncestorDentry
        (fun ancestor => ancestor.parent = dentry.inode) fuel dentry).isSome := by
  obtain ⟨s, hrun, hreach⟩ := Reachable.exists_of_run inodeStep (.start 0) linkedUnderItself rfl
  have hdentries : s.table.dentries =
      [⟨1, 2, "c", true⟩, ⟨2, 1, "b", true⟩, ⟨1, root, "a", true⟩] := by
    cases hrun
    decide
  constructor
  · intro hall
    have hup : s.table.HashedUnder 1 2 := ⟨⟨1, 2, "c", true⟩, by simp [hdentries], rfl, rfl, rfl⟩
    have hdown : s.table.HashedUnder 2 1 := ⟨⟨2, 1, "b", true⟩, by simp [hdentries], rfl, rfl, rfl⟩
    exact hall 0 s hreach 1 (.tail (.single hup) hdown)
  · intro hall
    obtain ⟨fuel, hsome⟩ := hall 0 s hreach ⟨3, 2, "d", false⟩
    have hnever : (s.table.dentryCreate ⟨3, 2, "d", false⟩).foreachAncestorDentry
        (fun ancestor => ancestor.parent = 3) fuel ⟨3, 2, "d", false⟩ = none := by
      refine foreachAncestorDentry_never
        [⟨3, 2, "d", false⟩, ⟨2, 1, "b", true⟩, ⟨1, 2, "c", true⟩] ?_ fuel List.mem_cons_self
      simp only [InodeTable.dentryList, InodeTable.dentryCreate, inodeRef_dentries, hdentries]
      decide
    rw [hnever] at hsome
    cases hsome

end GlusterFS.Inodes
