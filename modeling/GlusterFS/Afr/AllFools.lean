import GlusterFS.Afr.PendingToDelta

/-!
# Sources among fools

When no child that answered is wise, the fools that accuse the other children
most become sources.  There is one source, and all the other children that
answered are sinks, if one fool accuses the others more than every other fool.
-/

namespace GlusterFS.Afr

variable {n : Nat}

/-! ## Sinks of a data self-heal -/

/-- `afr_sh_select_source` -/
def afrShSelectSource (sources : Sources n) : Option (Fin n) :=
  (List.finRange n).find? fun i => sources i

/-- The loop of `afr_sh_inode_set_read_ctx`: copies of another size than the
source's are no sources. -/
def unmarkOtherSizes (bufs : Fin n → Iatt) (childErrno : Fin n → Bool) (source : Fin n)
    (sources : Sources n) : Sources n :=
  fun i =>
    if i = source ∨ childErrno i then sources i
    else if (bufs i).iaSize ≠ (bufs source).iaSize then false
    else sources i

/-- The children that `afr_sh_mark_source_sinks` counts as active sinks. -/
def activeSink (sources : Sources n) (childUp : Fin n → Bool) (i : Fin n) : Bool :=
  !sources i && childUp i

/-- The sinks that `afr_sh_data_fix` heals, after the sources were marked. -/
def dataSinks (bufs : Fin n → Iatt) (childErrno childUp : Fin n → Bool) (sources : Sources n) :
    Fin n → Bool :=
  match afrShSelectSource sources with
  | none => fun _ => false
  | some source => activeSink (unmarkOtherSizes bufs childErrno source sources) childUp

/-! ## What fools say -/

/-- What a child counts against the others, as an `int` has it. -/
def accusations (pendingMatrix : PendingMatrix n) (i : Fin n) : Int :=
  ((List.finRange n).map fun j => if i = j then 0 else pendingMatrix i j).sum.bmod (2 ^ 32)

theorem afrComputeWitnessOfFools_apply (pendingMatrix : PendingMatrix n)
    {characters : Fin n → AfrNodeCharacter} {i : Fin n} (hfool : (characters i).type = .fool) :
    afrComputeWitnessOfFools pendingMatrix characters i = accusations pendingMatrix i := by
  have hfold : ∀ (children : List (Fin n)) (start : Int), children.foldl (fun witness j =>
        if i = j then witness else (witness + pendingMatrix i j).bmod (2 ^ 32))
        (start.bmod (2 ^ 32)) =
      (start + (children.map fun j => if i = j then 0 else pendingMatrix i j).sum).bmod
        (2 ^ 32) := by
    intro children
    induction children with
    | nil => simp
    | cons child children ih =>
      intro start
      rw [List.foldl_cons, List.map_cons, List.sum_cons, ← Int.add_assoc, ← ih]
      split_ifs <;> simp
  rw [afrComputeWitnessOfFools, if_neg (not_not.mpr hfool),
    accusations, ← Int.zero_add (List.sum _)]
  exact hfold (List.finRange n) 0

/-- No fool has a larger witness than the one that is found, which is -1 or that of a fool. -/
theorem afrFindBiggestWitnessAmongFools_spec (witnesses : Counters n)
    (characters : Fin n → AfrNodeCharacter) :
    -1 ≤ afrFindBiggestWitnessAmongFools witnesses characters ∧
      (∀ i, (characters i).type = .fool →
        witnesses i ≤ afrFindBiggestWitnessAmongFools witnesses characters) ∧
      (afrFindBiggestWitnessAmongFools witnesses characters = -1 ∨
        ∃ i, (characters i).type = .fool ∧
          witnesses i = afrFindBiggestWitnessAmongFools witnesses characters) := by
  obtain ⟨hstart, hitems, hattained⟩ :=
    foldl_largest (fun i => (characters i).type = .fool) witnesses (List.finRange n) (-1)
  have hloop : afrFindBiggestWitnessAmongFools witnesses characters =
      (List.finRange n).foldl (fun best i =>
        if decide ((characters i).type = .fool) then
          if best < witnesses i then witnesses i else best
        else best) (-1) := by
    simp only [afrFindBiggestWitnessAmongFools, ne_eq, ite_not, decide_eq_true_eq]
  rw [← hloop] at hstart hitems hattained
  refine ⟨hstart, fun i hi => hitems i (List.mem_finRange i) (by simpa using hi), ?_⟩
  rcases hattained with hnone | ⟨i, -, hi, hsame⟩
  · exact .inl hnone
  · exact .inr ⟨i, by simpa using hi, hsame⟩

/-! ## One source -/

/-- A fool among the children that answered. -/
def AnsweringFool (pendingMatrix : PendingMatrix n) (successChildren : List (Fin n))
    (i : Fin n) : Prop :=
  i ∈ successChildren ∧ afrFindChildCharacterType (pendingMatrix i) i = .fool
  deriving Decidable

/-- One fool among the children that answered counts more against the others than every
other fool does.  The search for the most starts at -1. -/
structure TopFool (pendingMatrix : PendingMatrix n) (successChildren : List (Fin n))
    (top : Fin n) : Prop where
  fool : AnsweringFool pendingMatrix successChildren top
  found : -1 ≤ accusations pendingMatrix top
  most : ∀ i, AnsweringFool pendingMatrix successChildren i → i ≠ top →
    accusations pendingMatrix i < accusations pendingMatrix top

variable {pendingMatrix : PendingMatrix n} {successChildren : List (Fin n)} {top : Fin n}

/-- The characters when only some children answered. -/
def answeredCharacters (pendingMatrix : PendingMatrix n) (successChildren : List (Fin n)) :
    Fin n → AfrNodeCharacter :=
  afrFindCharacterTypes (fun _ => .zeroed) pendingMatrix successChildren

theorem answeredCharacters_type {type : AfrNodeType} (htype : type ≠ .invalid) (i : Fin n) :
    (answeredCharacters pendingMatrix successChildren i).type = type ↔
      i ∈ successChildren ∧ afrFindChildCharacterType (pendingMatrix i) i = type := by
  rw [answeredCharacters, afrFindCharacterTypes_apply]
  split_ifs with hanswered
  · simp [hanswered]
  · simp [hanswered, AfrNodeCharacter.zeroed, Ne.symm htype]

/-- `biggest_witness` -/
def biggestWitness (pendingMatrix : PendingMatrix n) (successChildren : List (Fin n)) : Int :=
  let characters := answeredCharacters pendingMatrix successChildren
  afrFindBiggestWitnessAmongFools (afrComputeWitnessOfFools pendingMatrix characters) characters

/-- The fools that are marked. -/
def biggestFool (pendingMatrix : PendingMatrix n) (successChildren : List (Fin n))
    (i : Fin n) : Bool :=
  let characters := answeredCharacters pendingMatrix successChildren
  (characters i).type = .fool ∧ biggestWitness pendingMatrix successChildren =
    afrComputeWitnessOfFools pendingMatrix characters i

theorem biggestFool_iff {i : Fin n} : biggestFool pendingMatrix successChildren i = true ↔
    AnsweringFool pendingMatrix successChildren i ∧
      biggestWitness pendingMatrix successChildren = accusations pendingMatrix i := by
  rw [biggestFool, decide_eq_true_iff]
  constructor
  · rintro ⟨hfool, hbiggest⟩
    exact ⟨(answeredCharacters_type (by decide) i).mp hfool,
      hbiggest.trans (afrComputeWitnessOfFools_apply pendingMatrix hfool)⟩
  · rintro ⟨hi, hbiggest⟩
    have hfool := (answeredCharacters_type (by decide) i).mpr hi
    exact ⟨hfool, hbiggest.trans (afrComputeWitnessOfFools_apply pendingMatrix hfool).symm⟩

theorem afrMarkSourcesBody_of_fools
    (hwise : ∀ i ∈ successChildren, afrFindChildCharacterType (pendingMatrix i) i ≠ .wise)
    (hfool : ∃ i, AnsweringFool pendingMatrix successChildren i)
    (bufs : Fin n → Iatt) (type : AfrSelfHealType) (subvolStatus : Option Nat) :
    let marked := markSourcesWhere (biggestFool pendingMatrix successChildren) (List.finRange n)
      fun _ => false
    afrMarkSourcesBody pendingMatrix bufs type successChildren subvolStatus =
      ⟨marked.1, marked.2, subvolStatus.map (· ||| allFools)⟩ := by
  intro marked
  have hcharacters : afrFindCharacterTypes (fun _ => .zeroed) pendingMatrix successChildren =
      answeredCharacters pendingMatrix successChildren := rfl
  have hinnocent :
      afrShAllNodesInnocent (answeredCharacters pendingMatrix successChildren) = false := by
    obtain ⟨i, hi⟩ := hfool
    have htype := (answeredCharacters_type (by decide) i).mpr hi
    simp only [afrShAllNodesInnocent, List.all_eq_false]
    exact ⟨i, List.mem_finRange i, by simp [htype]⟩
  have hexist :
      afrShWiseNodesExist (answeredCharacters pendingMatrix successChildren) = false := by
    simp only [afrShWiseNodesExist, List.any_eq_false, decide_eq_true_eq]
    intro i _ hi
    obtain ⟨hanswered, hi'⟩ := (answeredCharacters_type (by decide) i).mp hi
    exact hwise i hanswered hi'
  simp only [afrMarkSourcesBody, hcharacters, hinnocent, hexist, Bool.false_eq_true, if_false]
  rfl

/-- One fool is marked exactly where one counts most against the others. -/
theorem biggestFool_eq_iff : (∀ i, biggestFool pendingMatrix successChildren i = true ↔ i = top) ↔
    TopFool pendingMatrix successChildren top := by
  obtain ⟨hstart, hle, hattained⟩ := afrFindBiggestWitnessAmongFools_spec
    (afrComputeWitnessOfFools pendingMatrix (answeredCharacters pendingMatrix successChildren))
    (answeredCharacters pendingMatrix successChildren)
  rw [← biggestWitness] at hstart hattained
  have hmost : ∀ i, AnsweringFool pendingMatrix successChildren i →
      accusations pendingMatrix i ≤ biggestWitness pendingMatrix successChildren := by
    intro i hi
    have hfool := (answeredCharacters_type (by decide) i).mpr hi
    rw [← afrComputeWitnessOfFools_apply pendingMatrix hfool]
    exact hle i hfool
  simp only [biggestFool_iff]
  constructor
  · intro honly
    obtain ⟨hfool, hbiggest⟩ := (honly top).mpr rfl
    refine ⟨hfool, hbiggest ▸ hstart, fun i hi hne => ?_⟩
    have hless : biggestWitness pendingMatrix successChildren ≠ accusations pendingMatrix i :=
      fun hsame => hne ((honly i).mp ⟨hi, hsame⟩)
    have hle := hmost i hi
    omega
  · intro htop i
    have hbiggest : biggestWitness pendingMatrix successChildren =
        accusations pendingMatrix top := by
      have hle := hmost top htop.fool
      rcases hattained with hnone | ⟨j, hj, hsame⟩
      · have hfound := htop.found
        omega
      · rw [afrComputeWitnessOfFools_apply pendingMatrix hj] at hsame
        by_cases hne : j = top
        · rw [← hsame, hne]
        · have hless := htop.most j ((answeredCharacters_type (by decide) j).mp hj) hne
          omega
    constructor
    · rintro ⟨hi, hsame⟩
      by_contra hne
      have hless := htop.most i hi hne
      omega
    · rintro rfl
      exact ⟨htop.fool, hbiggest⟩

/-- With one source, every other child that is up is a sink. -/
theorem dataSinks_of_one_source {sources : Sources n} (hsources : ∀ i, sources i = true ↔ i = top)
    (bufs : Fin n → Iatt) (childErrno childUp : Fin n → Bool) {i : Fin n} (hi : i ≠ top)
    (hup : childUp i = true) : dataSinks bufs childErrno childUp sources i = true := by
  have hselected : ∃ source, afrShSelectSource sources = some source := by
    rw [← Option.isSome_iff_exists, afrShSelectSource, List.find?_isSome]
    exact ⟨top, List.mem_finRange top, (hsources top).mpr rfl⟩
  obtain ⟨source, hsource⟩ := hselected
  have hunmarked : sources i = false :=
    Bool.eq_false_iff.mpr fun hmarked => hi ((hsources i).mp hmarked)
  rw [dataSinks, hsource]
  simp [activeSink, unmarkOtherSizes, hunmarked, hup]

/-- One fool is the source, and every other child that is up becomes a sink. -/
def OneFoolIsSource (marked : MarkedSources n) (pendingMatrix : PendingMatrix n)
    (successChildren : List (Fin n)) (bufs : Fin n → Iatt) : Prop :=
  marked.nsources = 1 ∧ ∃ top, AnsweringFool pendingMatrix successChildren top ∧
    (∀ i, marked.sources i = true ↔ i = top) ∧
    ∀ (childErrno childUp : Fin n → Bool) (i : Fin n), i ≠ top → childUp i = true →
      dataSinks bufs childErrno childUp marked.sources i = true

/-- Among fools there is one source exactly where one of them counts more against the other
children than every other fool. -/
theorem top_fool_is_only_source (pendingMatrix : PendingMatrix n) (successChildren : List (Fin n))
    (hwise : ∀ i ∈ successChildren, afrFindChildCharacterType (pendingMatrix i) i ≠ .wise)
    (hfool : ∃ i, AnsweringFool pendingMatrix successChildren i) (bufs : Fin n → Iatt)
    (type : AfrSelfHealType) (subvolStatus : Option Nat) :
    OneFoolIsSource (afrMarkSources pendingMatrix bufs type successChildren subvolStatus)
        pendingMatrix successChildren bufs ↔
      ∃ top, TopFool pendingMatrix successChildren top := by
  have hbody := afrMarkSourcesBody_of_fools hwise hfool bufs type subvolStatus
  have hmarked : ∀ i, (afrMarkSourcesBody pendingMatrix bufs type successChildren
      subvolStatus).sources i = true ↔ biggestFool pendingMatrix successChildren i = true := by
    intro i
    rw [hbody, markSourcesWhere_apply]
    simp
  constructor
  · rintro ⟨hcount, top, -, hsources, -⟩
    refine ⟨top, biggestFool_eq_iff.mp fun i => ?_⟩
    rw [← hmarked, ← hsources i, afrMarkSources]
    split
    next hnone =>
      rw [afrMarkSources, if_pos hnone] at hcount
      exact absurd (hnone.symm.trans hcount) (by decide)
    next => rfl
  · rintro ⟨top, htop⟩
    have honly := biggestFool_eq_iff.mpr htop
    have hcount : (afrMarkSourcesBody pendingMatrix bufs type successChildren
        subvolStatus).nsources = 1 := by
      have hone : (List.finRange n).countP (biggestFool pendingMatrix successChildren) = 1 := by
        rw [← List.count_eq_one_of_mem (List.nodup_finRange n) (List.mem_finRange top),
          List.count_eq_countP]
        exact List.countP_congr fun i _ => (honly i).trans (by simp)
      rw [hbody, markSourcesWhere_count]
      exact congrArg Int.ofNat hone
    have hsources : ∀ i, (afrMarkSourcesBody pendingMatrix bufs type successChildren
        subvolStatus).sources i = true ↔ i = top := fun i => (hmarked i).trans (honly i)
    rw [afrMarkSources, if_neg (by rw [hcount]; decide)]
    exact ⟨hcount, top, htop.fool, hsources, fun childErrno childUp i =>
      dataSinks_of_one_source hsources bufs childErrno childUp⟩

/-- A crash in the middle of a write, after an older one that the second child missed. -/
theorem top_fool_is_only_source_crash :
    let pendingMatrix : PendingMatrix 2 := fun i j => if i = 0 ∧ j = 1 then 2 else 1
    OneFoolIsSource (afrMarkSources pendingMatrix (fun _ => ⟨0, 0⟩) .data [0, 1] none)
      pendingMatrix [0, 1] fun _ => ⟨0, 0⟩ :=
  (top_fool_is_only_source _ [0, 1] (by decide) ⟨0, by decide⟩ (fun _ => ⟨0, 0⟩) .data none).mpr
    ⟨0, by decide, by decide, by decide⟩

/-- After a crash in the middle of a write both copies accuse both: both are sources and
neither is healed. -/
theorem tied_fools_are_all_sources : ¬∀ (n : Nat) (pendingMatrix : PendingMatrix n)
    (bufs : Fin n → Iatt) (type : AfrSelfHealType) (successChildren : List (Fin n))
    (subvolStatus : Option Nat), (∀ i j, 0 ≤ pendingMatrix i j) →
    (∀ i ∈ successChildren, afrFindChildCharacterType (pendingMatrix i) i ≠ .wise) →
    (∃ i, AnsweringFool pendingMatrix successChildren i) →
    OneFoolIsSource (afrMarkSources pendingMatrix bufs type successChildren subvolStatus)
      pendingMatrix successChildren bufs := by
  intro hall
  obtain ⟨-, top, -, hsources, -⟩ := hall 2 (fun _ _ => 1) (fun _ => ⟨0, 0⟩) .data [0, 1] none
    (by decide) (by decide) ⟨0, by decide⟩
  have hzero : (0 : Fin 2) = top := (hsources 0).mp (by decide)
  have hone : (1 : Fin 2) = top := (hsources 1).mp (by decide)
  exact absurd (hzero.trans hone.symm) (by decide)

end GlusterFS.Afr
