import GlusterFS.Afr.SourceSelection

/-!
# Erasing the changelog after a self-heal

`afr_sh_pending_to_delta` turns the pending matrix, column by column and in
place, into what has to be added to it: healed children forget what they had
against one another, and agree on what they have against the others.
-/

namespace GlusterFS.Afr

variable {n : Nat}

/-! ## The code -/

/-- `value`: the count every healed child shall have for `tgt`. -/
def targetValue (matrix : PendingMatrix n) (success : Fin n → Bool) (tgt : Fin n) : Int :=
  if success tgt then 0
  else (List.finRange n).foldl (fun value src =>
      if success src then if value < matrix src tgt then matrix src tgt else value
      else value) 0

/-- One turn of the outer loop: the column of `tgt`. -/
def deltaColumn (success : Fin n → Bool) (matrix : PendingMatrix n) (tgt : Fin n) :
    PendingMatrix n :=
  fun src j =>
    if j = tgt then
      if success src then targetValue matrix success tgt - matrix src tgt else 0
    else matrix src j

/-- `afr_sh_pending_to_delta`, from the pending matrix on. -/
def afrShPendingToDelta (pendingMatrix : PendingMatrix n) (success : Fin n → Bool) :
    PendingMatrix n :=
  (List.finRange n).foldl (deltaColumn success) pendingMatrix

/-- `afr_sh_erase_pending`: every child adds its row of the delta matrix. -/
def afrShErasePending (disk : PendingMatrix n) (success : Fin n → Bool) : PendingMatrix n :=
  (List.finRange n).foldl
    (fun disk' i => xattropAddArray disk' i (afrShPendingToDelta disk success i)) disk

/-! ## The delta -/

/-- Each column is changed once, from what it was at the start. -/
theorem foldl_deltaColumn (success : Fin n → Bool) {columns : List (Fin n)}
    (hcolumns : columns.Nodup) (matrix : PendingMatrix n) (src tgt : Fin n) :
    columns.foldl (deltaColumn success) matrix src tgt = if tgt ∈ columns then
        if success src then targetValue matrix success tgt - matrix src tgt else 0
      else matrix src tgt := by
  induction columns generalizing matrix with
  | nil => rfl
  | cons column columns ih =>
    obtain ⟨hfresh, hrest⟩ := List.nodup_cons.mp hcolumns
    rw [List.foldl_cons, ih hrest]
    by_cases htgt : tgt = column
    · subst htgt
      rw [if_neg hfresh, if_pos List.mem_cons_self, deltaColumn, if_pos rfl]
    · have hkept : ∀ src, deltaColumn success matrix column src tgt = matrix src tgt :=
        fun src => if_neg htgt
      simp [targetValue, hkept, htgt]

theorem foldl_xattropAddArray (delta : PendingMatrix n) {children : List (Fin n)}
    (hchildren : children.Nodup) (disk : PendingMatrix n) (i j : Fin n) :
    children.foldl (fun disk' child => xattropAddArray disk' child (delta child)) disk i j =
      disk i j + if i ∈ children then delta i j else 0 := by
  induction children generalizing disk with
  | nil => simp
  | cons child children ih =>
    obtain ⟨hfresh, hrest⟩ := List.nodup_cons.mp hchildren
    rw [List.foldl_cons, ih hrest, xattropAddArray_apply]
    by_cases hi : child = i
    · subst hi
      simp [hfresh]
    · simp [hi, Ne.symm hi]

theorem afrShErasePending_apply (disk : PendingMatrix n) (success : Fin n → Bool) (i j : Fin n) :
    afrShErasePending disk success i j =
      if success i then targetValue disk success j else disk i j := by
  rw [afrShErasePending, foldl_xattropAddArray _ (List.nodup_finRange n),
    if_pos (List.mem_finRange i), afrShPendingToDelta,
    foldl_deltaColumn success (List.nodup_finRange n), if_pos (List.mem_finRange j)]
  split_ifs <;> omega

/-! ## The largest count -/

/-- The loops that look for the largest value of the items they keep. -/
theorem foldl_largest {Item : Type*} (keep : Item → Bool) (value : Item → Int) (items : List Item)
    (start : Int) :
    let largest := items.foldl
      (fun best item => if keep item then if best < value item then value item else best else best)
      start
    start ≤ largest ∧ (∀ item ∈ items, keep item = true → value item ≤ largest) ∧
      (largest = start ∨ ∃ item ∈ items, keep item = true ∧ value item = largest) := by
  induction items generalizing start with
  | nil => exact ⟨Int.le_refl _, by simp, .inl rfl⟩
  | cons item items ih =>
    intro largest
    by_cases hkeep : keep item = true ∧ start < value item
    · obtain ⟨hstart, hitems, hattained⟩ := ih (value item)
      have hlargest : largest = items.foldl (fun best item =>
          if keep item then if best < value item then value item else best else best)
          (value item) := by
        simp [largest, hkeep]
      rw [← hlargest] at hstart hitems hattained
      refine ⟨by omega, List.forall_mem_cons.mpr ⟨fun _ => hstart, hitems⟩, .inr ?_⟩
      rcases hattained with hsame | ⟨other, hother, hfound⟩
      · exact ⟨item, List.mem_cons_self, hkeep.1, hsame.symm⟩
      · exact ⟨other, List.mem_cons_of_mem _ hother, hfound⟩
    · obtain ⟨hstart, hitems, hattained⟩ := ih start
      have hlargest : largest = items.foldl (fun best item =>
          if keep item then if best < value item then value item else best else best) start := by
        simp only [largest, List.foldl_cons]
        congr 1
        split_ifs with hkept hless
        · exact absurd ⟨hkept, hless⟩ hkeep
        · rfl
        · rfl
      rw [← hlargest] at hstart hitems hattained
      refine ⟨hstart, List.forall_mem_cons.mpr ⟨fun hkept => ?_, hitems⟩, ?_⟩
      · have hle : ¬start < value item := fun hless => hkeep ⟨hkept, hless⟩
        omega
      · rcases hattained with hsame | ⟨other, hother, hfound⟩
        · exact .inl hsame
        · exact .inr ⟨other, List.mem_cons_of_mem _ hother, hfound⟩

variable {disk : PendingMatrix n} {success : Fin n → Bool} {i j : Fin n}

theorem targetValue_of_healed (hj : success j = true) : targetValue disk success j = 0 :=
  if_pos hj

/-- The count for a child that was not healed is the largest that a healed child had. -/
theorem targetValue_largest (hdisk : ∀ i j, 0 ≤ disk i j) (hi : success i = true)
    (hj : success j = false) :
    (∀ k, success k = true → disk k j ≤ targetValue disk success j) ∧
      ∃ k, success k = true ∧ disk k j = targetValue disk success j := by
  obtain ⟨hstart, hitems, hattained⟩ :=
    foldl_largest success (fun src => disk src j) (List.finRange n) 0
  have hvalue : targetValue disk success j = (List.finRange n).foldl (fun value src =>
      if success src then if value < disk src j then disk src j else value else value) 0 := by
    simp [targetValue, hj]
  rw [← hvalue] at hstart hitems hattained
  refine ⟨fun k hk => hitems k (List.mem_finRange k) hk, ?_⟩
  rcases hattained with hzero | ⟨k, -, hk, hsame⟩
  · have hle := hitems i (List.mem_finRange i) hi
    have hnonneg := hdisk i j
    exact ⟨i, hi, by omega⟩
  · exact ⟨k, hk, hsame⟩

/-! ## The sources afterwards -/

/-- When there are wise children, a source is one of them that none of them accuses. -/
theorem afrMarkSources_of_wise {pendingMatrix : PendingMatrix n} {successChildren : List (Fin n)}
    (hall : ∀ i, i ∈ successChildren) (bufs : Fin n → Iatt) (type : AfrSelfHealType)
    (subvolStatus : Option Nat) {u : Fin n}
    (hwise : afrFindChildCharacterType (pendingMatrix u) u = .wise)
    (hsource : (afrMarkSources pendingMatrix bufs type successChildren subvolStatus).sources i =
      true) :
    ∀ j, afrFindChildCharacterType (pendingMatrix j) j = .wise → pendingMatrix j i = 0 := by
  by_cases hwisest : ∃ v, afrFindChildCharacterType (pendingMatrix v) v = .wise ∧
      ∀ j, afrFindChildCharacterType (pendingMatrix j) j = .wise → pendingMatrix j v = 0
  · obtain ⟨v, hv, hvwisest⟩ := hwisest
    exact ((afrMarkSources_of_wisest hall bufs type subvolStatus hv hvwisest i).mp hsource).2
  · push Not at hwisest
    rw [afrMarkSources_of_conflict hall bufs type subvolStatus hwise hwisest] at hsource
    cases hsource

/-- A self-heal leaves the rows of the children it did not heal as they were.  Rows of healed
children forget healed children and agree on the others, with the largest count one of them
had.  A child that was not healed and that a healed one accuses is not a source. -/
theorem self_heal_erases_exactly (disk : PendingMatrix n) (hdisk : ∀ i j, 0 ≤ disk i j)
    (success : Fin n → Bool) :
    (∀ i j, success i = false → afrShErasePending disk success i j = disk i j) ∧
      (∀ i j, success i = true → success j = true → afrShErasePending disk success i j = 0) ∧
      (∀ i j, success i = true → success j = false → (∀ k, success k = true →
          afrShErasePending disk success k j = afrShErasePending disk success i j ∧
            disk k j ≤ afrShErasePending disk success i j) ∧
        ∃ k, success k = true ∧ disk k j = afrShErasePending disk success i j) ∧
      ∀ (bufs : Fin n → Iatt) (type : AfrSelfHealType) (successChildren : List (Fin n))
        (subvolStatus : Option Nat), (∀ i, i ∈ successChildren) →
        ∀ i j, success i = true → success j = false → 0 < disk i j →
          (afrMarkSources (afrShErasePending disk success) bufs type successChildren
            subvolStatus).sources j = false := by
  have hrow : ∀ i j, success i = true →
      afrShErasePending disk success i j = targetValue disk success j := by
    intro i j hi
    rw [afrShErasePending_apply, if_pos hi]
  refine ⟨fun i j hi => ?_, fun i j hi hj => ?_, fun i j hi hj => ?_, ?_⟩
  · rw [afrShErasePending_apply, if_neg (by simp [hi])]
  · rw [hrow i j hi, targetValue_of_healed hj]
  · obtain ⟨hle, hattained⟩ := targetValue_largest hdisk hi hj
    rw [hrow i j hi]
    exact ⟨fun k hk => ⟨hrow k j hk, hle k hk⟩, hattained⟩
  · intro bufs type successChildren subvolStatus hall i j hi hj haccuses
    have hpos : 0 < afrShErasePending disk success i j := by
      have hle := (targetValue_largest hdisk hi hj).1 i hi
      rw [hrow i j hi]
      omega
    have hwise : afrFindChildCharacterType (afrShErasePending disk success i) i = .wise := by
      refine afrFindChildCharacterType_eq_wise.mpr ⟨?_, j, by omega⟩
      rw [hrow i i hi, targetValue_of_healed hi]
    by_contra hsource
    have hnone := afrMarkSources_of_wise hall bufs type subvolStatus hwise
      (Bool.not_eq_false _ ▸ hsource) i hwise
    omega

/-- The first two of three children were healed. -/
theorem self_heal_erases_exactly_two :
    let disk : PendingMatrix 3 := fun i j => if i = 0 ∧ j = 2 then 5 else 1
    let success : Fin 3 → Bool := fun i => i ≠ 2
    afrShErasePending disk success 1 2 = 5 ∧
      (afrMarkSources (afrShErasePending disk success) (fun _ => ⟨0, 0⟩) .data [0, 1, 2]
        none).sources 2 = false := by
  intro disk success
  refine ⟨by decide, ?_⟩
  exact (self_heal_erases_exactly disk (by decide) success).2.2.2 _ .data [0, 1, 2] none (by decide)
    0 2 (by decide) (by decide) (by decide)

end GlusterFS.Afr
