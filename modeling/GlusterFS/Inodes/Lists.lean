import GlusterFS.Inodes.Unset

/-!
# The lists of the inode table

In runs that never prune before the root is referenced, and in which no reference
count comes near its limit, every live inode is on one list, the sizes are those
of the lists, and no dentry outlives its parent.  The root has no reference at
first and is the first on `lru`, so that pruning destroys it.
-/

namespace GlusterFS.Inodes

open Transition

variable {t t' : InodeTable} {held : InodeId → Nat} {todo : List Dentry}
variable {debt : List InodeId} {i : InodeId} {dentry : Dentry}

/-- `lru` is as short as pruning leaves it. -/
def InodeTable.WithinLimit (t : InodeTable) : Prop := t.lruLimit = 0 ∨ t.lruSize ≤ t.lruLimit

theorem InodeTable.withinLimit_iff (t : InodeTable) :
    t.WithinLimit ↔ ¬(t.lruLimit ≠ 0 ∧ (t.lruLimit : Int) < t.lruSize) := by
  rw [WithinLimit]
  omega

theorem pruneLoop_of_withinLimit (fuel : Nat) (h : t.WithinLimit) :
    InodeTable.pruneLoop fuel t = t := by
  cases fuel with
  | zero => rfl
  | succ fuel => rw [InodeTable.pruneLoop, if_neg (t.withinLimit_iff.mp h)]

namespace TableInv

/-! ## References of callers -/

theorem claims_hold (t : InodeTable) (held : InodeId → Nat) (debt : List InodeId) (i j : InodeId) :
    t.claims (Function.update held i (held i + 1)) debt j = t.claims held (i :: debt) j := by
  rw [claims_cons, InodeTable.claims, InodeTable.claims, Function.update_apply]
  split_ifs with h
  · rw [h]
    omega
  · omega

theorem hold (hs : TableInv t held todo (i :: debt)) :
    TableInv t (Function.update held i (held i + 1)) todo debt :=
  { hs with
    refs := fun j hj => (hs.refs j hj).trans (claims_hold t held debt i j).symm
    rootRef := Nat.le_trans (Nat.le_of_eq (claims_hold t held debt i root)) hs.rootRef }

section

variable (hs : TableInv t held todo debt)

include hs

theorem release (hi : 0 < held i) :
    TableInv t (Function.update held i (held i - 1)) todo (i :: debt) := by
  have hback : Function.update (Function.update held i (held i - 1)) i
      (Function.update held i (held i - 1) i + 1) = held := by
    rw [Function.update_idem, Function.update_self, Nat.sub_add_cancel hi, Function.update_eq_self]
  have hclaims := claims_hold t (Function.update held i (held i - 1)) debt i
  rw [hback] at hclaims
  exact { hs with
      refs := fun j hj => (hs.refs j hj).trans (hclaims j)
      rootRef := Nat.le_trans (Nat.le_of_eq (hclaims root).symm) hs.rootRef }

theorem active_of_held (hi : 0 < held i) : i ∈ t.active := by
  refine hs.active_of_pos ?_
  rw [InodeTable.claims]
  omega

/-- An inode that a caller holds is alive and not about to be destroyed. -/
theorem of_held (hi : 0 < held i) : t.Live i ∧ i ∉ t.purge :=
  ⟨hs.live_of_active (hs.active_of_held hi), (hs.not_mem_of_active (hs.active_of_held hi)).2⟩

/-! ## Inodes and dentries -/

/-- Nothing but the lookups change, and the inodes that are not alive. -/
theorem of_inode {inode : InodeId → Inode} (href : ∀ j, (inode j).ref = t.ref j)
    (hgfid : ∀ j, t.Live j → (inode j).gfid = (t.inode j).gfid)
    (hroot : ∀ j, (inode j).gfid = rootGfid ↔ j = root) :
    TableInv { t with inode := inode } held todo debt :=
  { hs with
    mem_active := fun j => (hs.mem_active j).trans (by rw [← href j]; rfl)
    ref_lt := fun j => Nat.lt_of_le_of_lt (Nat.le_of_eq (href j)) (hs.ref_lt j)
    refs := fun j hj => (href j).trans (hs.refs j hj)
    rootRef := Nat.le_trans hs.rootRef (Nat.le_of_eq (href root).symm)
    gfid := hroot
    gfid_inj := fun j hj k hk h => by
      rw [hgfid j (hs.hash_live j hj).1, hgfid k (hs.hash_live k hk).1] at h
      exact hs.gfid_inj j hj k hk h
    named := fun j hlive hpurge h => by
      rw [hgfid j hlive] at h
      exact hs.named j hlive hpurge h }

theorem setInode {inode : Inode} (href : inode.ref = t.ref i)
    (hgfid : t.Live i → inode.gfid = (t.inode i).gfid) (hroot : inode.gfid = rootGfid ↔ i = root) :
    TableInv (t.setInode i inode) held todo debt := by
  refine hs.of_inode (fun j => ?_) (fun j hj => ?_) fun j => ?_ <;> by_cases h : j = i
  · rw [h, Function.update_self, href]
  · rw [Function.update_of_ne h]
    rfl
  · rw [h, Function.update_self, hgfid (h ▸ hj)]
  · rw [Function.update_of_ne h]
  · rw [h, Function.update_self, hroot]
  · rw [Function.update_of_ne h, hs.gfid]

/-- An inode gets a gfid that no hashed inode has, and is hashed. -/
theorem hash_inode {gfid : Nat} (hlive : t.Live i) (hpurge : i ∉ t.purge) (hhash : i ∉ t.inodeHash)
    (hgfid : gfid ≠ rootGfid) (hnew : ∀ j ∈ t.inodeHash, (t.inode j).gfid ≠ gfid) :
    TableInv { t.setInode i { t.inode i with gfid := gfid } with inodeHash := i :: t.inodeHash }
      held todo debt := by
  have hroot : i ≠ root := fun h => hhash (h ▸ hs.root_hashed)
  have hne : ∀ j ∈ t.inodeHash, j ≠ i := fun j hj h => hhash (h ▸ hj)
  obtain ⟨inode, hinode⟩ : ∃ inode, inode = (t.setInode i { t.inode i with gfid := gfid }).inode :=
    ⟨_, rfl⟩
  have hself : (inode i).gfid = gfid := by rw [hinode, t.setInode_inode_self]
  have hother : ∀ j, j ≠ i → (inode j).gfid = (t.inode j).gfid := fun j hj => by
    rw [hinode, t.setInode_inode_of_ne hj]
  have href : ∀ j, (inode j).ref = t.ref j := by
    intro j
    by_cases h : j = i
    · rw [h, hinode, t.setInode_inode_self]
      rfl
    · rw [hinode, t.setInode_inode_of_ne h]
      rfl
  change TableInv { t with
    inode := (t.setInode i { t.inode i with gfid := gfid }).inode
    inodeHash := i :: t.inodeHash } held todo debt
  rw [← hinode]
  exact { hs with
      mem_active := fun j => (hs.mem_active j).trans (by rw [← href j]; rfl)
      ref_lt := fun j => Nat.lt_of_le_of_lt (Nat.le_of_eq (href j)) (hs.ref_lt j)
      refs := fun j hj => (href j).trans (hs.refs j hj)
      rootRef := Nat.le_trans hs.rootRef (Nat.le_of_eq (href root).symm)
      hash_live := List.forall_mem_cons.mpr ⟨⟨hlive, hpurge⟩, hs.hash_live⟩
      root_hashed := List.mem_cons_of_mem _ hs.root_hashed
      gfid := fun j => by
        by_cases h : j = i
        · rw [h, hself]
          exact iff_of_false hgfid hroot
        · rw [hother j h]
          exact hs.gfid j
      hash_nodup := List.nodup_cons.mpr ⟨hhash, hs.hash_nodup⟩
      gfid_inj := fun j hj k hk h => by
        rcases List.mem_cons.mp hj with hji | hj' <;> rcases List.mem_cons.mp hk with hki | hk'
        · exact hji.trans hki.symm
        · rw [hji, hself, hother k (hne k hk')] at h
          exact absurd h.symm (hnew k hk')
        · rw [hki, hself, hother j (hne j hj')] at h
          exact absurd h (hnew j hj')
        · rw [hother j (hne j hj'), hother k (hne k hk')] at h
          exact hs.gfid_inj j hj' k hk' h
      named := fun j hj hjpurge h => by
        by_cases hji : j = i
        · exact hji ▸ List.mem_cons_self
        · rw [hother j hji] at h
          exact List.mem_cons_of_mem _ (hs.named j hj hjpurge h) }

end

/-- A dentry takes over a reference on its parent. -/
theorem add_dentry (hs : TableInv t held todo (dentry.parent :: debt))
    (hhashed : dentry.hashed = true) (hlive : t.Live dentry.inode)
    (hpurge : dentry.inode ∉ t.purge) :
    TableInv { t with dentries := dentry :: t.dentries } held todo debt :=
  have hclaims : ∀ j, InodeTable.claims { t with dentries := dentry :: t.dentries } held debt j =
      t.claims held (dentry.parent :: debt) j := by
    intro j
    simp only [InodeTable.claims, InodeTable.parents, List.countP_cons, List.count_cons,
      decide_eq_true_eq, beq_iff_eq]
    omega
  { hs with
    dentry_live := List.forall_mem_cons.mpr ⟨hlive, hs.dentry_live⟩
    hashed := List.forall_mem_cons.mpr ⟨hhashed, hs.hashed⟩
    todo := by
      rw [List.filter_cons_of_neg (by simpa using hpurge)]
      exact hs.todo
    refs := fun j hj => (hs.refs j hj).trans (hclaims j).symm
    rootRef := Nat.le_trans (Nat.le_of_eq (hclaims root)) hs.rootRef }

theorem not_purge_of_dentry (hs : TableInv t held [] debt) (hdentry : dentry ∈ t.dentries) :
    dentry.inode ∉ t.purge := by
  intro hpurge
  have hnil := List.perm_nil.mp hs.todo
  have hmem : dentry ∈ t.dentries.filter fun dentry => dentry.inode ∈ t.purge :=
    List.mem_filter.mpr ⟨hdentry, by simpa using hpurge⟩
  rw [hnil] at hmem
  cases hmem

/-- The next inode is none that anybody knows. -/
theorem created_fresh (hs : TableInv t held todo debt) :
    t.created ∉ t.listed ∧ t.ref t.created = 0 := by
  have hnot : t.created ∉ t.listed := fun h =>
    Nat.lt_irrefl _ ((hs.mem_listed t.created).mp h).1
  refine ⟨hnot, Nat.eq_zero_of_not_pos fun hpos => hnot ?_⟩
  exact List.mem_append_left _ ((hs.mem_active t.created).mpr hpos)

theorem inodeCreate (hs : TableInv t held todo debt) : TableInv t.inodeCreate held todo debt := by
  obtain ⟨hnot, hzero⟩ := hs.created_fresh
  have hroot : t.created ≠ root := Nat.ne_of_gt hs.root_live.1
  have hinode : TableInv (t.setInode t.created ⟨0, 0, 0⟩) held todo debt :=
    hs.setInode hzero.symm (fun h => absurd h.1 (Nat.lt_irrefl _)) (iff_of_false (by decide) hroot)
  have hlive : ∀ j, t.Live j → t.inodeCreate.Live j := fun j hj => ⟨Nat.lt_succ_of_lt hj.1, hj.2⟩
  have hperm : (t.active ++ (t.created :: t.lru ++ t.purge)).Perm (t.created :: t.listed) :=
    List.perm_middle
  exact { hinode with
      nodup := hperm.nodup_iff.mpr (List.nodup_cons.mpr ⟨hnot, hs.nodup⟩)
      mem_listed := fun j => by
        refine hperm.mem_iff.trans ?_
        rw [List.mem_cons, hs.mem_listed]
        constructor
        · rintro (rfl | hj)
          · exact ⟨Nat.lt_succ_self _, fun h => Nat.lt_irrefl _ (hs.destroyed_lt _ h)⟩
          · exact hlive j hj
        · rintro ⟨hlt, hj⟩
          rcases Nat.lt_succ_iff_lt_or_eq.mp hlt with hlt | heq
          · exact .inr ⟨hlt, hj⟩
          · exact .inl heq
      lruSize := by simp [InodeTable.inodeCreate, hs.lruSize]
      hash_live := fun j hj => ⟨hlive j (hs.hash_live j hj).1, (hs.hash_live j hj).2⟩
      named := fun j hj hpurge h => by
        rcases Nat.lt_succ_iff_lt_or_eq.mp hj.1 with hlt | rfl
        · exact hinode.named j ⟨hlt, hj.2⟩ hpurge h
        · refine absurd ?_ h
          simp [InodeTable.inodeCreate]
      dentry_live := fun dentry hdentry => hlive _ (hs.dentry_live dentry hdentry)
      destroyed_lt := fun j hj => Nat.lt_succ_of_lt (hs.destroyed_lt j hj)
      root_live := hlive root hs.root_live }

/-- The inodes on `purge` have nothing left when they are destroyed. -/
theorem destroyPurge (hs : TableInv t held [] debt) : TableInv t.destroyPurge held [] debt := by
  have hinode : TableInv { t with
      inode := fun i => if i ∈ t.purge then { t.inode i with nlookup := 0 } else t.inode i }
      held [] debt := by
    refine hs.of_inode (fun j => ?_) (fun j _ => ?_) fun j => ?_
    · split_ifs <;> rfl
    · split_ifs <;> rfl
    · split_ifs <;> exact hs.gfid j
  have hlive : ∀ j, t.destroyPurge.Live j ↔ t.Live j ∧ j ∉ t.purge := by
    intro j
    simp only [InodeTable.Live, InodeTable.destroyPurge, List.mem_append, not_or]
    tauto
  have hlisted : t.destroyPurge.listed = t.active ++ t.lru := by
    simp [InodeTable.listed, InodeTable.destroyPurge]
  have hsplit := hs.nodup
  rw [InodeTable.listed, ← List.append_assoc] at hsplit
  obtain ⟨hnodup, -, hdisjoint⟩ := List.nodup_append.mp hsplit
  exact { hinode with
      nodup := hlisted ▸ hnodup
      mem_listed := fun j => by
        rw [hlisted, hlive, ← hs.mem_listed, InodeTable.listed, ← List.append_assoc,
          List.mem_append (s := t.active ++ t.lru)]
        constructor
        · exact fun h => ⟨.inl h, fun hpurge => hdisjoint j h j hpurge rfl⟩
        · exact fun h => h.1.resolve_right h.2
      purgeSize := rfl
      named := fun j hj _ => hinode.named j ((hlive j).mp hj).1 ((hlive j).mp hj).2
      hash_live := fun j hj => ⟨(hlive j).mpr (hs.hash_live j hj), List.not_mem_nil⟩
      dentry_live := fun dentry hdentry =>
        (hlive _).mpr ⟨hs.dentry_live dentry hdentry, hs.not_purge_of_dentry hdentry⟩
      todo := by simp [InodeTable.destroyPurge]
      destroyed_lt := fun j hj => by
        rcases List.mem_append.mp hj with hpurge | hdestroyed
        · have hlisted : j ∈ t.listed :=
            List.mem_append_right _ (List.mem_append_right _ hpurge)
          exact ((hs.mem_listed j).mp hlisted).1
        · exact hs.destroyed_lt j hdestroyed
      root_live := (hlive root).mpr ⟨hs.root_live, hs.root_purge⟩
      root_purge := List.not_mem_nil }

/-! ## Pruning -/

theorem ne_root_of_lru (hs : TableInv t held todo debt) (hroot : 0 < t.ref root)
    (hi : i ∈ t.lru) : i ≠ root := fun h =>
  (hs.not_mem_of_lru hi).1 (h ▸ (hs.mem_active root).mpr hroot)

/-- The loop keeps the root as long as it is in use. -/
theorem pruneLoop (hs : TableInv t held [] debt) (hroot : 0 < t.ref root) (fuel : Nat) :
    TableInv (InodeTable.pruneLoop fuel t) held [] debt := by
  induction fuel generalizing t with
  | zero => exact hs
  | succ fuel ih =>
    rw [InodeTable.pruneLoop]
    split_ifs with hlimit
    · split
      next => exact hs
      next entry rest hlru =>
        have hentry : entry ∈ t.lru := hlru ▸ List.mem_cons_self
        obtain ⟨hnext, hshrinks, -⟩ := hs.retire (hs.ne_root_of_lru hroot hentry) hentry rfl
        exact ih hnext (hshrinks.root_ref ▸ hroot)
    · exact hs

/-- The loop ends with `lru` within its limit. -/
theorem pruneLoop_withinLimit (hs : TableInv t held [] debt) (hroot : 0 < t.ref root) (fuel : Nat)
    (hfuel : t.active.length + t.lru.length ≤ fuel) :
    (InodeTable.pruneLoop fuel t).WithinLimit := by
  have hsize := hs.lruSize
  induction fuel generalizing t with
  | zero =>
    have hlimit : (0 : Int) ≤ t.lruLimit := Int.natCast_nonneg _
    rw [InodeTable.pruneLoop]
    exact .inr (by omega)
  | succ fuel ih =>
    rw [InodeTable.pruneLoop]
    split_ifs with hlimit
    · split
      next hlru =>
        rw [hlru, List.length_nil] at hsize
        exact .inr (by omega)
      next entry rest hlru =>
        have hentry : entry ∈ t.lru := hlru ▸ List.mem_cons_self
        obtain ⟨hnext, hshrinks, hless⟩ :=
          hs.retire (hs.ne_root_of_lru hroot hentry) hentry rfl
        exact ih hnext (hshrinks.root_ref ▸ hroot) (by omega) hnext.lruSize
    · exact t.withinLimit_iff.mpr hlimit

end TableInv

/-! ## Linking -/

theorem inodeRef_live (t : InodeTable) (i j : InodeId) : (t.inodeRef i).Live j ↔ t.Live j := by
  rw [InodeTable.inodeRef]
  split_ifs <;> rfl

theorem inodeRef_purge (h : i ∉ t.purge) : (t.inodeRef i).purge = t.purge := by
  rw [InodeTable.inodeRef]
  split_ifs
  · exact List.erase_of_not_mem h
  · rfl

theorem inodeRef_ref_le (t : InodeTable) (i j : InodeId) : (t.inodeRef i).ref j ≤ t.ref j + 1 := by
  have hstart : ∀ u : InodeTable, u.ref = t.ref →
      (u.setRef i ((u.ref i + 1) % 2 ^ 32)).ref j ≤ t.ref j + 1 := by
    intro u hu
    by_cases h : j = i
    · subst h
      rw [u.setRef_ref_self, hu]
      exact Nat.mod_le ..
    · rw [u.setRef_ref_of_ne h, hu]
      omega
  rw [InodeTable.inodeRef]
  split_ifs
  · exact hstart _ rfl
  · exact hstart _ rfl

/-- What a call returns can be referenced. -/
structure Returned (held : InodeId → Nat) (result : Option InodeId × InodeTable) : Prop where
  inv : TableInv result.2 held [] []
  live : ∀ i, result.1 = some i → result.2.Live i ∧ i ∉ result.2.purge
  low : ∀ i, result.2.ref i + 1 < 2 ^ 32

variable {parent : InodeId}

theorem dentryGrep_some {name : String} (h : t.dentryGrep parent name = some dentry) :
    dentry ∈ t.dentries ∧ dentry.hashed = true ∧ dentry.parent = parent ∧ dentry.name = name := by
  have hfound := List.find?_some h
  rw [decide_eq_true_eq] at hfound
  exact ⟨List.mem_of_find?_eq_some h, hfound⟩

/-- The dentry that has the name now has the same parent, and is still there when the
new one is made. -/
theorem dentryGrep_old {name : String} {oldDentry : Dentry}
    (hgrep : t.dentryGrep parent name = some oldDentry) (dentry : Dentry) :
    oldDentry.parent = parent ∧ oldDentry ∈ dentry :: (t.inodeRef parent).dentries := by
  obtain ⟨hmem, -, hparent, -⟩ := dentryGrep_some hgrep
  rw [inodeRef_dentries]
  exact ⟨hparent, List.mem_cons_of_mem _ hmem⟩

section Link

variable (hs : TableInv t held [] []) (hlow : ∀ j, t.ref j + 2 < 2 ^ 32)

include hs

theorem TableInv.inodeFind {gfid : Nat} (hfind : t.inodeFind gfid = some i) :
    t.Live i ∧ i ∉ t.purge := by
  rw [InodeTable.inodeFind] at hfind
  split_ifs at hfind
  · obtain rfl := Option.some.inj hfind
    exact ⟨hs.root_live, hs.root_purge⟩
  · exact hs.hash_live i (List.mem_of_find?_eq_some hfind)

/-- The inode that is linked is the one passed, with its gfid, or the one that has
the gfid already. -/
theorem TableInv.linkInode (hi : 0 < held i) (iatt : Option Nat) :
    TableInv (t.linkInode i iatt).2 held [] [] ∧
      (∀ link old, (t.linkInode i iatt).1 = some (link, old) →
        (t.linkInode i iatt).2.Live link ∧ link ∉ (t.linkInode i iatt).2.purge) ∧
      ∀ j, (t.linkInode i iatt).2.ref j = t.ref j := by
  have hheld := hs.of_held hi
  unfold InodeTable.linkInode
  split_ifs with hhashed
  · refine ⟨hs, fun link old h => ?_, fun _ => rfl⟩
    cases h
    exact hheld
  · cases iatt with
    | none => exact ⟨hs, fun _ _ h => (nomatch h), fun _ => rfl⟩
    | some gfid =>
      dsimp only
      by_cases hnull : gfid = 0
      · rw [if_pos hnull]
        exact ⟨hs, fun _ _ h => (nomatch h), fun _ => rfl⟩
      · rw [if_neg hnull]
        cases hfind : t.inodeFind gfid with
        | some old =>
          refine ⟨hs, fun link _ h => ?_, fun _ => rfl⟩
          cases h
          exact hs.inodeFind hfind
        | none =>
          have hgfid : gfid ≠ rootGfid := fun h => by
            rw [InodeTable.inodeFind, if_pos h] at hfind
            cases hfind
          have hnew : ∀ j ∈ t.inodeHash, (t.inode j).gfid ≠ gfid := by
            rw [InodeTable.inodeFind, if_neg hgfid] at hfind
            simpa using List.find?_eq_none.mp hfind
          refine ⟨hs.hash_inode hheld.1 hheld.2 hhashed hgfid hnew, fun link old h => ?_, ?_⟩
          · cases h
            exact hheld
          · intro j
            by_cases h : j = i
            · subst h
              simp [InodeTable.ref]
            · simp [InodeTable.ref, t.setInode_inode_of_ne h]

include hlow

theorem TableInv.add_link {link : InodeId} (hlink : t.Live link ∧ link ∉ t.purge)
    (hparent : 0 < held parent) (name : String) : TableInv { t.inodeRef parent with
      dentries := ⟨link, parent, name, true⟩ :: (t.inodeRef parent).dentries } held [] [] ∧
      (t.inodeRef parent).Live link ∧ link ∉ (t.inodeRef parent).purge := by
  obtain ⟨hparentLive, hparentPurge⟩ := hs.of_held hparent
  have href := hs.inodeRef hparentLive hparentPurge (Nat.lt_of_succ_lt (hlow parent))
  have hlive : (t.inodeRef parent).Live link ∧ link ∉ (t.inodeRef parent).purge := by
    rw [inodeRef_live, inodeRef_purge hparentPurge]
    exact hlink
  exact ⟨href.add_dentry rfl hlive.1 hlive.2, hlive⟩

/-- A dentry is added, and the one it replaces goes. -/
theorem TableInv.dentryLink {link : InodeId} (hlink : t.Live link ∧ link ∉ t.purge) (old : Bool)
    (hparent : 0 < held parent) (name : String) :
    Returned held (t.dentryLink link old parent name) := by
  have hlowOne : ∀ j, t.ref j + 1 < 2 ^ 32 := fun j => by
    have := hlow j
    omega
  obtain ⟨hparentLive, hparentPurge⟩ := hs.of_held hparent
  have href := hs.inodeRef hparentLive hparentPurge (hlowOne parent)
  have hrefLow : ∀ j, (t.inodeRef parent).ref j + 1 < 2 ^ 32 := fun j => by
    have hle := inodeRef_ref_le t parent j
    have := hlow j
    omega
  rw [InodeTable.dentryLink]
  by_cases hsame : (t.dentryGrep parent name).any fun dentry => dentry.inode = link
  · rw [if_pos hsame]
    refine ⟨hs, fun i h => ?_, hlowOne⟩
    cases h
    exact hlink
  rw [if_neg hsame]
  simp only [dentryCreate_unset, dentryCreate_dentryHash]
  split_ifs with hcyclic
  · obtain ⟨hnext, hshrinks⟩ := href.unref
    refine ⟨hnext, fun _ h => (nomatch h), fun j => ?_⟩
    exact Nat.lt_of_le_of_lt (Nat.add_le_add_right (hshrinks.ref_le j) 1) (hrefLow j)
  obtain ⟨hadd, hlive⟩ := hs.add_link hlow hlink hparent name
  cases hgrep : t.dentryGrep parent name with
  | none =>
    refine ⟨hadd, fun i h => ?_, hrefLow⟩
    cases h
    exact hlive
  | some oldDentry =>
    obtain ⟨holdParent, hmem⟩ := dentryGrep_old hgrep ⟨link, parent, name, true⟩
    obtain ⟨hnext, hshrinks⟩ := hadd.unset hmem
    obtain ⟨hpurge, hstays⟩ := hadd.unset_held_stays hmem (holdParent ▸ hparent)
    refine ⟨hnext, fun i h => ?_, fun j => ?_⟩
    · cases h
      rw [hpurge]
      exact ⟨(hstays link).mpr hlive.1, hlive.2⟩
    · exact Nat.lt_of_le_of_lt (Nat.add_le_add_right (hshrinks.ref_le j) 1) (hrefLow j)

theorem TableInv.inodeLink (hi : 0 < held i) {parent : Option InodeId}
    (hparent : ∀ dir ∈ parent, 0 < held dir) (name : Option String) (iatt : Option Nat) :
    Returned held (t.inodeLink i parent name iatt) := by
  obtain ⟨hlinked, hlive, hrefs⟩ := hs.linkInode hi iatt
  have hlow' : ∀ j, (t.linkInode i iatt).2.ref j + 2 < 2 ^ 32 := fun j => by
    rw [hrefs]
    exact hlow j
  have hlowOne : ∀ j, (t.linkInode i iatt).2.ref j + 1 < 2 ^ 32 := fun j => by
    have := hlow' j
    omega
  rw [InodeTable.inodeLink]
  rcases hlink : t.linkInode i iatt with ⟨_ | ⟨link, old⟩, u⟩
  · rw [hlink] at hlinked hlowOne
    exact ⟨hlinked, fun _ h => (nomatch h), hlowOne⟩
  · rw [hlink] at hlinked hlive hlow' hlowOne
    have hreturn : Returned held (some link, u) := by
      refine ⟨hlinked, fun j h => ?_, hlowOne⟩
      cases h
      exact hlive link old rfl
    dsimp only
    split_ifs
    · exact hreturn
    · cases parent with
      | none => exact hreturn
      | some dir =>
        cases name with
        | none => exact ⟨hlinked, fun _ h => (nomatch h), hlowOne⟩
        | some name =>
          exact hlinked.dentryLink hlow' (hlive link old rfl) old (hparent dir rfl) name

omit hlow in
theorem TableInv.inodeUnlink (i : InodeId) (parent : Option InodeId) (name : Option String) :
    TableInv (t.inodeUnlink i parent name) held [] [] := by
  unfold InodeTable.inodeUnlink
  split
  · split
    next => exact hs
    next dentry hsearch =>
      have hmem : dentry ∈ t.dentries := by
        rw [InodeTable.dentrySearchForInode] at hsearch
        split_ifs at hsearch
        exact List.mem_of_find?_eq_some hsearch
      exact (hs.unset hmem).1
  · exact hs

end Link

/-! ## Runs -/

/-- What the lists, the counters and the dentries have to say of each other. -/
structure InodeTable.ListsOk (t : InodeTable) : Prop where
  one_list : ∀ i, t.Live i → i ≠ root → t.active.count i + t.lru.count i + t.purge.count i = 1
  active_iff : ∀ i, t.Live i → i ≠ root → (i ∈ t.active ↔ 0 < t.ref i)
  purge_bare : ∀ i ∈ t.purge, i ∉ t.inodeHash ∧ ∀ dentry ∈ t.dentries, dentry.inode ≠ i
  sizes : t.activeSize = t.active.length ∧ t.lruSize = t.lru.length ∧ t.purgeSize = t.purge.length
  parents_le : ∀ i, t.Live i → t.parents i ≤ t.ref i
  parent_live : ∀ dentry ∈ t.dentries, t.Live dentry.inode → t.Live dentry.parent

theorem TableInv.listsOk (hs : TableInv t held [] []) : t.ListsOk where
  one_list i hlive _ := by
    have hcount := List.count_eq_one_of_mem hs.nodup ((hs.mem_listed i).mpr hlive)
    rw [InodeTable.listed, List.count_append, List.count_append] at hcount
    omega
  active_iff i _ _ := hs.mem_active i
  purge_bare i hi := by
    refine ⟨fun h => (hs.hash_live i h).2 hi, fun dentry hdentry h => ?_⟩
    exact hs.not_purge_of_dentry hdentry (h ▸ hi)
  sizes := ⟨hs.activeSize, hs.lruSize, hs.purgeSize⟩
  parents_le i _ := by
    have hle := hs.ref_le i
    rw [InodeTable.claims] at hle
    omega
  parent_live dentry hdentry _ := hs.parent_live hdentry

/-- No reference count is about to wrap around, and the root is in use when inodes
are pruned. -/
def RootInUse (s : InodeState) (label : InodeLabel) : Prop :=
  (∀ i < s.table.created, s.table.ref i + 2 < 2 ^ 32) ∧
    (label = .prune → s.table.lruLimit ≠ 0 → (s.table.lruLimit : Int) < s.table.lruSize →
      0 < s.table.ref root)

instance (s : InodeState) (label : InodeLabel) : Decidable (RootInUse s label) :=
  inferInstanceAs (Decidable (_ ∧ _))

def InodeState.Inv (s : InodeState) : Prop := TableInv s.table s.held [] []

theorem InodeState.Inv.take {s : InodeState} {result : Option InodeId × InodeTable}
    (hresult : Returned s.held result) : (s.take result).Inv := by
  rcases result with ⟨_ | i, t⟩
  · exact hresult.inv
  · obtain ⟨hlive, hpurge⟩ := hresult.live i rfl
    exact (hresult.inv.inodeRef hlive hpurge (hresult.low i)).hold

section Step

variable {s s' : InodeState} (hs : s.Inv)

include hs

theorem InodeState.Inv.low (hlow : ∀ i < s.table.created, s.table.ref i + 2 < 2 ^ 32)
    (i : InodeId) : s.table.ref i + 2 < 2 ^ 32 := by
  by_cases hi : i < s.table.created
  · exact hlow i hi
  · have hzero : s.table.ref i = 0 := by
      refine Nat.eq_zero_of_not_pos fun hpos => hi ?_
      exact (hs.live_of_active ((hs.mem_active i).mpr hpos)).1
    rw [hzero]
    decide

theorem InodeState.Inv.returned_new (hlow : ∀ j, s.table.ref j + 1 < 2 ^ 32) :
    Returned s.held (some s.table.created, s.table.inodeCreate) := by
  obtain ⟨hfresh, -⟩ := TableInv.created_fresh hs
  refine ⟨TableInv.inodeCreate hs, fun i h => ?_, fun j => ?_⟩
  · obtain rfl := Option.some.inj h
    have hlive : s.table.inodeCreate.Live s.table.created :=
      ⟨Nat.lt_succ_self _, fun h => Nat.lt_irrefl _ (hs.destroyed_lt _ h)⟩
    exact ⟨hlive, fun h => hfresh (List.mem_append_right _ (List.mem_append_right _ h))⟩
  · by_cases h : j = s.table.created
    · subst h
      simp [InodeTable.inodeCreate, InodeTable.ref]
    · have hj := hlow j
      simpa [InodeTable.inodeCreate, InodeTable.ref, h] using hj

theorem InodeState.Inv.returned (hlow : ∀ j, s.table.ref j + 1 < 2 ^ 32) {result : Option InodeId}
    (hlive : ∀ i, result = some i → s.table.Live i ∧ i ∉ s.table.purge) :
    Returned s.held (result, s.table) :=
  ⟨hs, hlive, hlow⟩

/-- Pruning keeps the root if it is in use whenever there is something to prune. -/
theorem InodeState.Inv.prune
    (hroot : s.table.lruLimit ≠ 0 → (s.table.lruLimit : Int) < s.table.lruSize →
      0 < s.table.ref root) : TableInv s.table.inodeTablePrune s.held [] [] := by
  refine TableInv.destroyPurge ?_
  by_cases hlimit : s.table.lruLimit ≠ 0 ∧ (s.table.lruLimit : Int) < s.table.lruSize
  · exact TableInv.pruneLoop hs (hroot hlimit.1 hlimit.2) _
  · rw [pruneLoop_of_withinLimit _ (s.table.withinLimit_iff.mpr hlimit)]
    exact hs

theorem InodeState.Inv.step {label : InodeLabel} (hguard : RootInUse s label)
    (hstep : inodeStep s label = some s') : s'.Inv := by
  have hlow := hs.low hguard.1
  have hlowOne : ∀ j, s.table.ref j + 1 < 2 ^ 32 := fun j => by
    have := hlow j
    omega
  obtain ⟨harguments, h⟩ := Option.ite_none_right_eq_some.mp hstep
  obtain rfl := Option.some.inj h
  cases label with
  | new => exact .take (hs.returned_new hlowOne)
  | link i parent name iatt =>
    have hi : 0 < s.held i := harguments i List.mem_cons_self
    have hparent : ∀ dir ∈ parent, 0 < s.held dir := fun dir hdir =>
      harguments dir (List.mem_cons_of_mem _ (Option.mem_toList.mpr hdir))
    exact .take (TableInv.inodeLink hs hlow hi hparent name iatt)
  | unlink i parent name => exact TableInv.inodeUnlink hs i parent name
  | rename srcdir srcname dstdir dstname i iatt =>
    have hi : 0 < s.held i := harguments i List.mem_cons_self
    have hparent : ∀ dir ∈ dstdir, 0 < s.held dir := fun dir hdir => by
      have hmem := List.mem_append_right srcdir.toList (Option.mem_toList.mpr hdir)
      exact harguments dir (List.mem_cons_of_mem _ hmem)
    have hlinked := (TableInv.inodeLink hs hlow hi hparent dstname iatt).inv
    exact hlinked.inodeUnlink i srcdir srcname
  | ref i =>
    refine .take (hs.returned hlowOne fun j h => ?_)
    obtain rfl := Option.some.inj h
    exact TableInv.of_held hs (harguments i List.mem_cons_self)
  | unref i =>
    exact (TableInv.release hs (harguments i List.mem_cons_self)).unref.1
  | lookup i => exact TableInv.setInode hs rfl (fun _ => rfl) (hs.gfid i)
  | forget i nlookup => exact TableInv.setInode hs rfl (fun _ => rfl) (hs.gfid i)
  | find gfid => exact .take (hs.returned hlowOne fun j h => TableInv.inodeFind hs h)
  | grep parent name =>
    refine .take (hs.returned hlowOne fun j h => ?_)
    obtain ⟨dentry, hgrep, rfl⟩ := Option.map_eq_some_iff.mp h
    have hmem : dentry ∈ s.table.dentries := List.mem_of_find?_eq_some hgrep
    exact ⟨hs.dentry_live dentry hmem, TableInv.not_purge_of_dentry hs hmem⟩
  | prune => exact hs.prune (hguard.2 rfl)

end Step

theorem InodeState.Inv.start (lruLimit : Nat) : (InodeState.start lruLimit).Inv where
  nodup := List.pairwise_singleton ..
  mem_listed i := by
    change i ∈ [0] ↔ i < 1 ∧ i ∉ []
    simp
  mem_active i := by
    refine iff_of_false (fun h => nomatch h) ?_
    by_cases h : i = 0 <;>
      simp [InodeState.start, InodeTable.inodeTableNew, InodeTable.ref, InodeTable.setInode,
        InodeTable.inodeCreate, root, h]
  ref_lt i := by
    by_cases h : i = 0 <;>
      simp [InodeState.start, InodeTable.inodeTableNew, InodeTable.ref, InodeTable.setInode,
        InodeTable.inodeCreate, root, h]
  activeSize := rfl
  lruSize := rfl
  purgeSize := rfl
  hash_live := by
    intro i hi
    obtain rfl := List.mem_singleton.mp hi
    exact ⟨⟨Nat.zero_lt_one, fun h => nomatch h⟩, fun h => nomatch h⟩
  dentry_live := fun _ h => nomatch h
  hashed := fun _ h => nomatch h
  todo := .refl _
  refs i hi := by
    simp [InodeState.start, InodeTable.inodeTableNew, InodeTable.ref, InodeTable.setInode,
      InodeTable.inodeCreate, InodeTable.claims, InodeTable.parents, hi]
  rootRef := Nat.zero_le _
  gfid i := by
    by_cases h : i = root <;>
      simp [InodeState.start, InodeTable.inodeTableNew, InodeTable.setInode,
        InodeTable.inodeCreate, rootGfid, h]
  hash_nodup := List.pairwise_singleton ..
  gfid_inj i hi j hj _ := (List.mem_singleton.mp hi).trans (List.mem_singleton.mp hj).symm
  named i hlive _ _ := List.mem_singleton.mpr (Nat.lt_one_iff.mp hlive.1)
  destroyed_lt := fun _ h => nomatch h
  root_live := ⟨Nat.zero_lt_one, fun h => nomatch h⟩
  root_purge := fun h => nomatch h
  root_hashed := List.mem_singleton_self _

theorem InodeState.Inv.of_reachable {lruLimit : Nat} {s : InodeState}
    (hreach : ReachableUnder inodeStep RootInUse (.start lruLimit) s) : s.Inv :=
  hreach.invariant_along InodeState.Inv (.start lruLimit) fun _ hguard hstep hs =>
    hs.step hguard hstep

/-- The lists, the sizes, the references and the dentries agree in every state
reached. -/
theorem inode_lists_consistent {lruLimit : Nat} {s : InodeState}
    (hreach : ReachableUnder inodeStep RootInUse (.start lruLimit) s) : s.table.ListsOk :=
  TableInv.listsOk (InodeState.Inv.of_reachable hreach)

/-- A directory with a file, and another file beside it, are linked, looked up and
let go.  Pruning destroys the files, and the directory comes to `lru` when it
loses the first. -/
def filesPruned : List InodeLabel :=
  [.find rootGfid, .new, .link 1 (some root) (some "d") (some 2), .lookup 1, .new,
    .link 2 (some 1) (some "f") (some 3), .lookup 2, .new, .link 3 (some root) (some "g") (some 4),
    .lookup 3, .unref 1, .unref 1, .unref 2, .unref 2, .unref 3, .unref 3, .prune]

theorem inode_lists_consistent_pruned :
    ∃ s, run inodeStep (.start 1) filesPruned = some s ∧ s.table.lru = [1] ∧
      s.table.destroyed = [2, 3] ∧ s.table.ListsOk := by
  obtain ⟨s, hrun⟩ : ∃ s, run inodeStep (.start 1) filesPruned = some s := ⟨_, rfl⟩
  have hlists : s.table.lru = [1] ∧ s.table.destroyed = [2, 3] := by
    cases hrun
    decide
  exact ⟨s, hrun, hlists.1, hlists.2,
    inode_lists_consistent (.of_run filesPruned .start (by decide) hrun)⟩

/-- An inode is linked without a parent, looked up and let go, while nobody has
used the root.  The root is pruned, and found again by its gfid. -/
def rootPruned : List InodeLabel :=
  [.new, .link 1 none none (some 2), .lookup 1, .unref 1, .unref 1, .prune, .find rootGfid]

/-- The root that is destroyed comes back to `active`, and `lru_size` is one less
than the inodes on `lru`. -/
theorem root_pruned_unused :
    ¬∀ lruLimit s, Reachable inodeStep (.start lruLimit) s → s.table.ListsOk := by
  intro hall
  obtain ⟨s, hrun⟩ : ∃ s, run inodeStep (.start 1) rootPruned = some s := ⟨_, rfl⟩
  have hsizes := (hall 1 s (.of_run rootPruned .start hrun)).sizes.2.1
  have hlists : s.table.lruSize = 0 ∧ s.table.lru = [1] := by
    cases hrun
    decide
  rw [hlists.1, hlists.2] at hsizes
  exact absurd hsizes (by decide)

/-- References are never lost and never too many: an inode has as many as callers and
dentries hold on it, so what a caller holds, what has a child, and what is found by gfid or
by name is still there. -/
theorem inode_references_exact {lruLimit : Nat} {s : InodeState}
    (hreach : ReachableUnder inodeStep RootInUse (.start lruLimit) s) :
    (∀ i, i ≠ root → s.table.ref i = s.held i + s.table.parents i) ∧
    (∀ i, 0 < s.held i → s.table.Live i) ∧
    (∀ gfid i, s.table.inodeFind gfid = some i → s.table.Live i) ∧
    ∀ parent name dentry, s.table.dentryGrep parent name = some dentry →
      s.table.Live dentry.inode ∧ s.table.Live parent := by
  have hs : TableInv s.table s.held [] [] := InodeState.Inv.of_reachable hreach
  refine ⟨fun i hi => hs.refs i hi, fun i hi => ?_, fun gfid i hfind => ?_,
    fun parent name dentry hgrep => ?_⟩
  · exact hs.live_of_active (hs.active_of_pos (Nat.add_pos_left (Nat.add_pos_left hi _) _))
  · rw [InodeTable.inodeFind] at hfind
    split_ifs at hfind
    · exact Option.some.inj hfind ▸ hs.root_live
    · exact (hs.hash_live i (List.mem_of_find?_eq_some hfind)).1
  · obtain ⟨hmem, -, rfl, -⟩ := dentryGrep_some hgrep
    exact ⟨hs.dentry_live dentry hmem, hs.parent_live hmem⟩

/-- The directory is let go and stays for its file. -/
theorem inode_references_exact_pruned :
    ∃ s, run inodeStep (.start 1) (filesPruned.take 12) = some s ∧ s.held 1 = 0 ∧
      s.table.ref 1 = 1 :=
  ⟨_, rfl, by decide, ((@inode_references_exact 1 _
    (.of_run (filesPruned.take 12) .start (by decide) rfl)).1 1 (by decide)).trans (by decide)⟩

end GlusterFS.Inodes
