import GlusterFS.Afr.MarkSources

/-!
# What the loops of the source selection compute

One statement for each loop of `afr_mark_sources`, in terms of the rows of the
pending matrix.
-/

namespace GlusterFS.Afr

variable {n : Nat}


theorem foldl_markSources_spec (keep : Fin n → Bool) (children : List (Fin n))
    (marked : Int × Sources n) :
    let result := children.foldl (fun marked child =>
        if keep child then
          (marked.1 + 1, Function.update marked.2 child true)
        else marked) marked
    result.1 = marked.1 + children.countP keep ∧ ∀ i, result.2 i = true ↔
        marked.2 i = true ∨ i ∈ children ∧ keep i = true := by
  induction children generalizing marked with
  | nil => simp
  | cons child children ih =>
    simp only [List.foldl_cons]
    by_cases hkeep : keep child = true
    · obtain ⟨hcount, hmarks⟩ := ih (marked.1 + 1, Function.update marked.2 child true)
      rw [if_pos hkeep]
      refine ⟨?_, fun i => ?_⟩
      · rw [hcount, List.countP_cons_of_pos hkeep]
        omega
      · rw [hmarks i]
        by_cases hi : i = child
        · subst hi
          simp [hkeep]
        · simp [hi]
    · obtain ⟨hcount, hmarks⟩ := ih marked
      rw [if_neg hkeep]
      refine ⟨?_, fun i => ?_⟩
      · rw [hcount, List.countP_cons_of_neg hkeep]
      · rw [hmarks i, List.mem_cons]
        by_cases hi : i = child
        · subst hi
          simp [hkeep]
        · simp [hi]

theorem markSourcesWhere_count (keep : Fin n → Bool) (children : List (Fin n))
    (sources : Sources n) :
    (markSourcesWhere keep children sources).1 = children.countP keep := by
  simpa [markSourcesWhere] using (foldl_markSources_spec keep children (0, sources)).1

variable {i : Fin n}

theorem markSourcesWhere_apply {keep : Fin n → Bool} {children : List (Fin n)}
    {sources : Sources n} :
    (markSourcesWhere keep children sources).2 i = true ↔
      sources i = true ∨ i ∈ children ∧ keep i = true := by
  simpa [markSourcesWhere] using (foldl_markSources_spec keep children (0, sources)).2 i

/-- The children that answered get the types of their rows. -/
theorem afrFindCharacterTypes_apply (characters : Fin n → AfrNodeCharacter)
    (pendingMatrix : PendingMatrix n) (successChildren : List (Fin n)) (i : Fin n) :
    afrFindCharacterTypes characters pendingMatrix successChildren i = if i ∈ successChildren then
        { characters i with
          type := afrFindChildCharacterType (pendingMatrix i) i }
      else characters i := by
  induction successChildren generalizing characters with
  | nil => rfl
  | cons child children ih =>
    rw [afrFindCharacterTypes, List.foldl_cons, ← afrFindCharacterTypes, ih]
    by_cases hi : i = child
    · subst hi
      simp
    · simp [hi]

/-- When all the children answered, every child gets the type of its row. -/
theorem afrFindCharacterTypes_eq (pendingMatrix : PendingMatrix n)
    {successChildren : List (Fin n)} (hall : ∀ i, i ∈ successChildren) :
    afrFindCharacterTypes (fun _ => .zeroed) pendingMatrix successChildren =
      fun i => ⟨afrFindChildCharacterType (pendingMatrix i) i, 0⟩ := by
  funext i
  rw [afrFindCharacterTypes_apply, if_pos (hall i)]
  rfl

variable {row : Counters n}

theorem afrShIsInnocent_iff : afrShIsInnocent row = true ↔ ∀ j, row j = 0 := by
  simp [afrShIsInnocent]

theorem afrFindChildCharacterType_eq_innocent :
    afrFindChildCharacterType row i = .innocent ↔ ∀ j, row j = 0 := by
  rw [← afrShIsInnocent_iff]
  unfold afrFindChildCharacterType
  split_ifs with hinnocent <;> simp [hinnocent]

theorem afrFindChildCharacterType_eq_fool :
    afrFindChildCharacterType row i = .fool ↔ row i ≠ 0 := by
  unfold afrFindChildCharacterType
  split_ifs with hinnocent hfool hwise
  · simp [afrShIsInnocent_iff.mp hinnocent i]
  · simpa [afrShIsFool] using hfool
  · simpa [afrShIsFool] using hfool
  · simpa [afrShIsFool] using hfool

theorem afrFindChildCharacterType_eq_wise :
    afrFindChildCharacterType row i = .wise ↔ row i = 0 ∧ ∃ j, row j ≠ 0 := by
  constructor
  · intro hwise
    constructor
    · by_contra h
      rw [afrFindChildCharacterType_eq_fool.mpr h] at hwise
      cases hwise
    · by_contra h
      push Not at h
      rw [afrFindChildCharacterType_eq_innocent.mpr h] at hwise
      cases hwise
  · rintro ⟨hzero, j, hj⟩
    have hinnocent : afrShIsInnocent row ≠ true :=
      fun h => hj (afrShIsInnocent_iff.mp h j)
    simp [afrFindChildCharacterType, hinnocent, afrShIsFool, afrShIsWise, hzero]

/-- A child is of wisdom 1 when it is wise and no wise child accuses it. -/
theorem afrShComputeWisdom_eq_one {pendingMatrix : PendingMatrix n}
    {characters : Fin n → AfrNodeCharacter} (hzero : (characters i).wisdom = 0) :
    (afrShComputeWisdom pendingMatrix characters i).wisdom = 1 ↔ (characters i).type = .wise ∧
        ∀ j, (characters j).type = .wise → pendingMatrix j i = 0 := by
  have hfold : ∀ (children : List (Fin n)) (start : Int), start = 0 ∨ start = 1 →
      ((children.foldl (fun wisdom j =>
        if (characters j).type = .wise ∧ pendingMatrix j i ≠ 0 then 0
        else wisdom) start) = 1 ↔ start = 1 ∧
        ∀ j ∈ children, (characters j).type = .wise → pendingMatrix j i = 0) := by
    intro children
    induction children with
    | nil => intro start _; simp
    | cons child children ih =>
      intro start hstart
      rw [List.foldl_cons]
      split_ifs with h
      · rw [ih 0 (.inl rfl)]
        simp only [List.mem_cons, forall_eq_or_imp]
        constructor
        · rintro ⟨h01, -⟩
          omega
        · rintro ⟨-, hchild, -⟩
          exact absurd (hchild h.1) h.2
      · rw [ih start hstart]
        simp only [List.mem_cons, forall_eq_or_imp]
        have hchild : (characters child).type = .wise → pendingMatrix child i = 0 := by
          intro hwise
          by_contra hne
          exact h ⟨hwise, hne⟩
        tauto
  unfold afrShComputeWisdom
  split_ifs with hwise
  · rw [hfold _ 1 (.inr rfl)]
    simp [hwise]
  · simp [hwise, hzero]

end GlusterFS.Afr
