import GlusterFS.Quota.CheckLimit

/-!
# The sizes that a write changes

`quota_update_size` goes from an inode to the root and adds the change to the sizes that it comes
by.  It keeps the context in a variable that `inode_ctx_get` leaves alone where an inode has none.
-/

namespace GlusterFS.Quota

variable {env : WriteEnv} {limit : Nat → Option Int} {size : Nat → Int} {delta : Int}
  {link inode : Nat} {value : Option Nat}

/-- `inode_ctx_get`: the context of the inode, or what `value` was before.  `limit` is defined
for the inodes that have a context. -/
def inodeCtxGet (limit : Nat → Option Int) (inode : Nat) (value : Option Nat) : Option Nat :=
  if (limit inode).isSome then some inode else value

def Limited (limit : Nat → Option Int) (inode : Nat) : Prop :=
  ∃ found ∈ limit inode, 0 ≤ found
  deriving Decidable

/-- The loop of `quota_update_size`, over at most `fuel` inodes. -/
def updateSizeLoop (env : WriteEnv) (limit : Nat → Option Int) (link : Nat) (delta : Int) :
    Nat → (Nat → Int) → Nat → Bool → Option Nat → Option (Nat → Int)
  | 0, _, _, _, _ => none
  | fuel + 1, size, inode, name, value =>
    let size := fun owner =>
      if value = some owner ∧ Limited limit owner then size owner + delta else size owner
    match env.above link inode name with
    | none => some size
    | some parent =>
      updateSizeLoop env limit link delta fuel size parent false (inodeCtxGet limit parent value)

def quotaUpdateSize (env : WriteEnv) (limit : Nat → Option Int) (link : Nat) (delta : Int)
    (fuel : Nat) (size : Nat → Int) : Option (Nat → Int) :=
  updateSizeLoop env limit link delta fuel size env.file true (inodeCtxGet limit env.file none)

/-- The inodes from the first one to the root, or to one whose parent is not known. -/
def WriteEnv.Climbs (env : WriteEnv) (link : Nat) : Bool → List Nat → Prop
  | _, [] => False
  | name, [inode] => env.above link inode name = none
  | name, inode :: parent :: rest =>
    env.above link inode name = some parent ∧ env.Climbs link false (parent :: rest)

/-- An inode without a context is not above one with a limit. -/
def NoGap (limit : Nat → Option Int) (lower upper : Nat) : Prop :=
  limit upper = none → ¬Limited limit lower
  deriving Decidable

/-- The loop charges the inode that it is at, if that has a limit, and no other. -/
def AtHand (limit : Nat → Option Int) (inode : Nat) (value : Option Nat) : Prop :=
  ∀ owner, value = some owner ∧ Limited limit owner ↔ owner = inode ∧ Limited limit inode

theorem inodeCtxGet_atHand
    (hnone : limit inode = none → ∀ owner, ¬(value = some owner ∧ Limited limit owner)) :
    AtHand limit inode (inodeCtxGet limit inode value) := by
  intro owner
  rw [inodeCtxGet]
  split_ifs with hsome
  · rw [Option.some.injEq]
    exact ⟨fun h => ⟨h.1.symm, h.1 ▸ h.2⟩, fun h => ⟨h.1.symm, h.1 ▸ h.2⟩⟩
  · refine iff_of_false (hnone (Option.not_isSome_iff_eq_none.mp hsome) owner) ?_
    rintro ⟨-, found, hfound, -⟩
    exact hsome (Option.isSome_of_mem hfound)

theorem AtHand.eq_some_iff {owner : Nat} (hvalue : AtHand limit inode value)
    (hlimited : Limited limit owner) : value = some owner ↔ owner = inode := by
  have howner := hvalue owner
  rw [and_iff_left hlimited] at howner
  exact howner.trans (and_iff_left_of_imp fun h => h ▸ hlimited)

/-- The contexts that the loop has at hand at the inodes of a list. -/
def handsAt (limit : Nat → Option Int) : Option Nat → List Nat → List (Option Nat)
  | _, [] => []
  | value, inode :: rest =>
    inodeCtxGet limit inode value :: handsAt limit (inodeCtxGet limit inode value) rest

/-- The sizes after a charge for each context of a list. -/
def charged (limit : Nat → Option Int) (delta : Int) (hands : List (Option Nat))
    (size : Nat → Int) : Nat → Int :=
  fun owner => if Limited limit owner then size owner + delta * hands.count (some owner)
    else size owner

theorem charged_nil : charged limit delta [] size = size := by
  funext owner
  simp [charged]

theorem charged_cons {hands : List (Option Nat)} :
    charged limit delta hands (fun owner => if value = some owner ∧ Limited limit owner then
        size owner + delta else size owner) = charged limit delta (value :: hands) size := by
  funext owner
  rw [charged, charged, List.count_cons]
  by_cases hvalue : value = some owner
  · by_cases hlimited : Limited limit owner
    · simp only [hvalue, hlimited, and_self, if_true, beq_self_eq_true, Int.natCast_add,
        Int.mul_add]
      omega
    · simp [hlimited]
  · simp [hvalue]

/-- The loop charges an inode as often as it has its context at hand. -/
theorem updateSizeLoop_eq {name : Bool} {rest : List Nat} {fuel : Nat}
    (hchain : env.Climbs link name (inode :: rest)) (hfuel : rest.length < fuel) :
    updateSizeLoop env limit link delta fuel size inode name value =
      some (charged limit delta (value :: handsAt limit value rest) size) := by
  obtain ⟨fuel, rfl⟩ :=
    Nat.exists_eq_add_one_of_ne_zero (Nat.ne_of_gt (Nat.zero_lt_of_lt hfuel))
  rw [updateSizeLoop, ← charged_cons]
  induction rest generalizing fuel size inode name value with
  | nil =>
    rw [show env.above link inode name = none from hchain]
    rw [handsAt, charged_nil]
  | cons parent rest ih =>
    obtain ⟨hparent, hclimbs⟩ := hchain
    obtain ⟨fuel, rfl⟩ := Nat.exists_eq_add_one_of_ne_zero
      (Nat.ne_of_gt (Nat.zero_lt_of_lt (Nat.lt_of_succ_lt_succ hfuel)))
    rw [hparent, handsAt]
    dsimp only
    rw [updateSizeLoop, ← charged_cons]
    exact ih hclimbs _ (Nat.lt_of_succ_lt_succ hfuel)

/-- Every inode with a limit is at hand where the loop is at it, and nowhere else, exactly where
none of them is right below an inode without a context. -/
theorem count_handsAt_iff {rest : List Nat} (hnodup : (inode :: rest).Nodup)
    (hvalue : AtHand limit inode value) :
    (∀ owner, Limited limit owner → (value :: handsAt limit value rest).count (some owner) =
        if owner ∈ inode :: rest then 1 else 0) ↔
      (inode :: rest).IsChain (NoGap limit) := by
  induction rest generalizing inode value with
  | nil =>
    refine iff_of_true (fun owner hlimited => ?_) (.singleton _)
    have hhand := hvalue.eq_some_iff hlimited
    by_cases hsame : owner = inode
    · simp [handsAt, hsame, hhand.mpr hsame]
    · simp [handsAt, hsame, mt hhand.mp hsame]
  | cons parent rest ih =>
    obtain ⟨hfirst, hrest⟩ := List.nodup_cons.mp hnodup
    rw [List.isChain_cons_cons, handsAt]
    by_cases hgap : NoGap limit inode parent
    · have hparent : AtHand limit parent (inodeCtxGet limit parent value) :=
        inodeCtxGet_atHand fun hnone owner h => hgap hnone ((hvalue owner).mp h).2
      rw [and_iff_right hgap, ← ih hrest hparent]
      refine forall₂_congr fun owner hlimited => ?_
      have hhand := hvalue.eq_some_iff hlimited
      by_cases hsame : owner = inode
      · simp [hsame, hhand.mpr hsame, hfirst]
      · simp [hsame, mt hhand.mp hsame]
    · -- The limit right below an inode without a context is at hand there again.
      refine iff_of_false (fun hcount => ?_) fun h => hgap h.1
      obtain ⟨hnone, hlimited⟩ := Classical.not_imp.mp hgap
      rw [not_not] at hlimited
      have htwice := hcount inode hlimited
      rw [inodeCtxGet, hnone, (hvalue.eq_some_iff hlimited).mpr rfl] at htwice
      simp at htwice

/-- The change is charged once for every inode of the chain that has a limit, and no other size
changes. -/
def WriteEnv.ChargedOnce (env : WriteEnv) (limit : Nat → Option Int) (link : Nat) (delta : Int)
    (chain : List Nat) : Prop :=
  ∀ size, ∀ fuel ≥ chain.length, quotaUpdateSize env limit link delta fuel size =
    some fun owner =>
      if owner ∈ chain ∧ Limited limit owner then size owner + delta else size owner

/-- Every inode of the chain that has a limit is charged once exactly where none of them is right
below an inode without a context, or there is nothing to charge. -/
theorem quota_update_size_once {rest : List Nat} (hchain : env.Climbs link true (env.file :: rest))
    (hnodup : (env.file :: rest).Nodup) (delta : Int) :
    env.ChargedOnce limit link delta (env.file :: rest) ↔
      delta = 0 ∨ (env.file :: rest).IsChain (NoGap limit) := by
  have hloop : ∀ size, ∀ fuel ≥ (env.file :: rest).length,
      quotaUpdateSize env limit link delta fuel size =
        some (charged limit delta (handsAt limit none (env.file :: rest)) size) :=
    fun size fuel hfuel => updateSizeLoop_eq hchain hfuel
  have hat : AtHand limit env.file (inodeCtxGet limit env.file none) :=
    inodeCtxGet_atHand (by simp)
  rw [← count_handsAt_iff hnodup hat, ← handsAt]
  constructor
  · intro honce
    refine or_iff_not_imp_left.mpr fun hdelta owner hlimited => ?_
    have hsize := honce (fun _ => 0) _ (Nat.le_refl _)
    rw [hloop _ _ (Nat.le_refl _)] at hsize
    have howner := congrFun (Option.some_inj.mp hsize) owner
    simp only [charged, hlimited, if_true, and_true, Int.zero_add] at howner
    apply Int.natCast_inj.mp
    apply Int.eq_of_mul_eq_mul_left hdelta
    rw [howner]
    split_ifs <;> simp
  · intro hright size fuel hfuel
    rw [hloop size fuel hfuel]
    congr 1
    funext owner
    by_cases hlimited : Limited limit owner
    · obtain rfl | hcount := hright
      · simp [charged]
      · simp only [charged, hlimited, if_true, and_true, hcount owner hlimited]
        split_ifs <;> simp
    · simp [charged, hlimited]

/-- A file in directory 1 below directory 2 below the root 3. -/
def deepFile : WriteEnv where
  file := 0
  links := [some 1]
  parent := fun inode => if inode = 1 then some 2 else if inode = 2 then some 3 else none
  isRoot := fun inode => inode = 3
  delta := 1
  timeout := 5

theorem deepFile_climbs : deepFile.Climbs 0 true [0, 1, 2, 3] := ⟨rfl, rfl, rfl, rfl⟩

theorem quota_update_size_once_deep : deepFile.ChargedOnce
    (fun inode => some (if inode = 2 then 100 else -1)) 0 4 [0, 1, 2, 3] :=
  (quota_update_size_once deepFile_climbs (by decide) 4).mpr (.inr (by decide))

/-- The root has no context, and the size of directory 2 below it is changed again. -/
theorem quota_update_size_twice : ¬∀ (env : WriteEnv) (limit : Nat → Option Int) (link : Nat)
    (delta : Int) (chain : List Nat), chain.head? = some env.file → env.Climbs link true chain →
      chain.Nodup → env.ChargedOnce limit link delta chain := by
  intro hall
  have honce := hall deepFile (fun inode => if inode = 2 then some 100 else none) 0 4
    [0, 1, 2, 3] rfl deepFile_climbs (by decide) (fun _ => 0) 4 (by decide)
  have hsize := congrArg (Option.map fun size => size 2) honce
  exact absurd hsize (by decide)

end GlusterFS.Quota
