import Mathlib.Data.UInt

/-!
# Graphs given by a list of edges

Which nodes a node leads to, a search that decides it, and acyclic graphs: how
they grow by one edge, and a rank that falls along every edge.
-/

namespace GlusterFS.EdgeList

open Relation

variable {Node : Type*} {edges more : List (Node × Node)} {a b c : Node}

/-- The graph has a way from one node to the other, which may be empty. -/
def Reaches (edges : List (Node × Node)) : Node → Node → Prop :=
  ReflTransGen fun a b => (a, b) ∈ edges

def Acyclic (edges : List (Node × Node)) : Prop :=
  ∀ a, ¬TransGen (fun a b => (a, b) ∈ edges) a a

theorem Acyclic.mono (hsubset : edges ⊆ more) (h : Acyclic more) : Acyclic edges := fun a hcycle =>
  h a (TransGen.mono (fun _ _ hedge => hsubset hedge) _ _ hcycle)

theorem acyclic_nil : Acyclic ([] : List (Node × Node)) := by
  intro a hcycle
  obtain ⟨b, hedge, -⟩ := TransGen.head'_iff.mp hcycle
  exact absurd hedge List.not_mem_nil

/-! ## Adding an edge -/

/-- A way that uses the new edge comes to its start first and goes on from its
end. -/
theorem reaches_cons {x y : Node} (h : Reaches ((a, b) :: edges) x y) :
    Reaches edges x y ∨ Reaches edges x a ∧ Reaches edges b y := by
  induction h with
  | refl => exact .inl .refl
  | tail _ hedge ih =>
    rcases List.mem_cons.mp hedge with hnew | hold
    · obtain ⟨rfl, rfl⟩ := Prod.mk.inj hnew
      exact .inr ⟨ih.elim id And.left, .refl⟩
    · exact ih.imp (fun h => h.tail hold) fun h => ⟨h.1, h.2.tail hold⟩

/-- An edge closes no circle if there is no way back from its end. -/
theorem Acyclic.cons (hacyclic : Acyclic edges) (hback : ¬Reaches edges b a) :
    Acyclic ((a, b) :: edges) := by
  intro x hcycle
  obtain ⟨y, hedge, hway⟩ := TransGen.head'_iff.mp hcycle
  rcases List.mem_cons.mp hedge with hnew | hold
  · obtain ⟨rfl, rfl⟩ := Prod.mk.inj hnew
    exact hback ((reaches_cons hway).elim id And.left)
  · rcases reaches_cons hway with hway | ⟨hto, hfrom⟩
    · exact hacyclic x (TransGen.head' hold hway)
    · exact hback (hfrom.trans ((ReflTransGen.single hold).trans hto))

/-! ## Searching -/

section Search

variable [DecidableEq Node]

/-- Depth-first search, `fuel` nodes deep. -/
def search (edges : List (Node × Node)) (target : Node) : Nat → Node → Bool
  | 0, _ => false
  | fuel + 1, a =>
    a = target || (edges.filter fun edge => edge.1 = a).any fun edge =>
      search edges target fuel edge.2

theorem search_succ (target : Node) (fuel : Nat) : search edges target (fuel + 1) a = true ↔
      a = target ∨ ∃ b, (a, b) ∈ edges ∧ search edges target fuel b = true := by
  simp only [search, Bool.or_eq_true, decide_eq_true_eq, List.any_eq_true, List.mem_filter]
  constructor
  · rintro (h | ⟨⟨_, b⟩, ⟨hedge, rfl⟩, hfound⟩)
    · exact .inl h
    · exact .inr ⟨b, hedge, hfound⟩
  · rintro (h | ⟨b, hedge, hfound⟩)
    · exact .inl h
    · exact .inr ⟨(a, b), ⟨hedge, rfl⟩, hfound⟩

variable {fuel : Nat}

theorem search_mono (hsubset : edges ⊆ more) (h : search edges b fuel a = true) :
    search more b fuel a = true := by
  induction fuel generalizing a with
  | zero => cases h
  | succ fuel ih =>
    refine (search_succ b fuel).mpr (((search_succ b fuel).mp h).imp_right ?_)
    rintro ⟨c, hedge, hfound⟩
    exact ⟨c, hsubset hedge, ih hfound⟩

theorem Reaches.of_search (h : search edges b fuel a = true) : Reaches edges a b := by
  induction fuel generalizing a with
  | zero => cases h
  | succ fuel ih =>
    rcases (search_succ b fuel).mp h with rfl | ⟨c, hedge, hfound⟩
    · exact .refl
    · exact .head hedge (ih hfound)

/-- A way need not come back to where it starts. -/
theorem Reaches.leave (h : Reaches edges a b) : a = b ∨
    ∃ c, (a, c) ∈ edges ∧ Reaches (edges.filter fun edge => edge.1 ≠ a) c b := by
  have hafter : ∀ {x}, Reaches edges x b → Reaches (edges.filter fun edge => edge.1 ≠ a) x b ∨
        ∃ c, (a, c) ∈ edges ∧ Reaches (edges.filter fun edge => edge.1 ≠ a) c b := by
    intro x hway
    induction hway using ReflTransGen.head_induction_on with
    | refl => exact .inl .refl
    | @head y z hedge _ ih =>
      refine ih.elim (fun hrest => ?_) .inr
      by_cases hy : y = a
      · exact .inr ⟨z, hy ▸ hedge, hrest⟩
      · exact .inl (.head (List.mem_filter.mpr ⟨hedge, by simpa using hy⟩) hrest)
  refine (hafter h).elim (fun hway => ?_) .inr
  rcases ReflTransGen.cases_head hway with rfl | ⟨c, hedge, -⟩
  · exact .inl rfl
  · simp at hedge

/-- The search is deep enough when it may follow every edge once. -/
theorem search_of_reaches (h : Reaches edges a b) (hfuel : edges.length < fuel) :
    search edges b fuel a = true := by
  induction fuel generalizing edges a with
  | zero => exact absurd hfuel (Nat.not_lt_zero _)
  | succ fuel ih =>
    refine (search_succ b fuel).mpr (h.leave.imp_right ?_)
    rintro ⟨c, hedge, hrest⟩
    refine ⟨c, hedge, search_mono (fun _ h => (List.mem_filter.mp h).1) (ih hrest ?_)⟩
    have hless : (edges.filter fun edge => edge.1 ≠ a).length < edges.length :=
      List.length_filter_lt_length_iff_exists.mpr ⟨(a, c), hedge, by simp⟩
    omega

instance (edges : List (Node × Node)) (a b : Node) : Decidable (Reaches edges a b) :=
  decidable_of_iff (search edges b (edges.length + 1) a = true)
    ⟨.of_search, fun h => search_of_reaches h (Nat.lt_succ_self _)⟩

/-! ## Ranks -/

/-- The number of edges that can be followed from the node. -/
def rank (edges : List (Node × Node)) (a : Node) : Nat :=
  edges.countP fun edge => Reaches edges a edge.1

theorem Acyclic.rank_lt (hacyclic : Acyclic edges) (hedge : (a, b) ∈ edges) :
    rank edges b < rank edges a := by
  have hback : ¬Reaches edges b a := fun hway => hacyclic a (TransGen.head' hedge hway)
  have hsame : rank edges b =
      (edges.filter fun edge => Reaches edges a edge.1).countP fun edge =>
        Reaches edges b edge.1 := by
    rw [rank, List.countP_filter]
    refine List.countP_congr fun edge _ => ?_
    simp only [Bool.and_eq_true, decide_eq_true_eq]
    exact ⟨fun hway => ⟨hway, hway.head hedge⟩, And.left⟩
  rw [hsame, rank, List.countP_eq_length_filter (l := edges)]
  refine List.countP_lt_length_iff.mpr ⟨(a, b), List.mem_filter.mpr ⟨hedge, ?_⟩, ?_⟩
  · exact decide_eq_true .refl
  · exact decide_eq_false hback

end Search

end GlusterFS.EdgeList
