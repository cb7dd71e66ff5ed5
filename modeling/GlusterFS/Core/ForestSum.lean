import Mathlib.Algebra.BigOperators.Group.Finset.Basic
import Mathlib.Data.UInt
import Mathlib.Order.WellFounded

/-!
# Sums over a finite forest

Every node has at most one parent.  A weight that at every inner node is the sum of the weights
of the children is the sum of the weights of the leaves below.
-/

namespace GlusterFS

open Relation

variable {Node : Type*}

/-- A forest is given by the parents of its nodes. -/
structure Forest (Node : Type*) where
  parent : Node → Option Node
  acyclic : ∀ node, ¬TransGen (fun child directory => parent child = some directory) node node

namespace Forest

variable (forest : Forest Node) {node child directory : Node}

def Below (node directory : Node) : Prop :=
  TransGen (fun child directory => forest.parent child = some directory) node directory

variable {forest}

/-- The way up from a node passes through one child of a directory. -/
theorem child_unique {left right : Node} (hleft : forest.parent left = some directory)
    (hright : forest.parent right = some directory)
    (hfromLeft : ReflTransGen (fun child directory => forest.parent child = some directory)
      node left)
    (hfromRight :
      ReflTransGen (fun child directory => forest.parent child = some directory) node right) :
    left = right := by
  -- one of the two is on the way up from the other, which then leads through the directory twice
  have hcycle : ∀ {lower upper : Node}, forest.parent lower = some directory →
      forest.parent upper = some directory →
      ReflTransGen (fun child directory => forest.parent child = some directory) lower upper →
      lower = upper := by
    intro lower upper hlower hupper hway
    rcases hway.cases_head with h | ⟨next, hnext, hrest⟩
    · exact h
    · cases Option.some.inj (hlower.symm.trans hnext)
      exact absurd (TransGen.tail' hrest hupper) (forest.acyclic directory)
  have hunique : Relator.RightUnique fun child directory => forest.parent child = some directory :=
    fun _ _ _ hfirst hsecond => Option.some.inj (hfirst.symm.trans hsecond)
  rcases hfromLeft.total_of_right_unique hunique hfromRight with h | h
  · exact hcycle hleft hright h
  · exact (hcycle hright hleft h).symm

theorem below_iff : forest.Below node directory ↔ ∃ child, forest.parent child = some directory ∧
    ReflTransGen (fun child directory => forest.parent child = some directory) node child := by
  constructor
  · intro h
    obtain ⟨child, hway, hchild⟩ := TransGen.tail'_iff.mp h
    exact ⟨child, hchild, hway⟩
  · rintro ⟨child, hchild, hway⟩
    exact TransGen.tail' hway hchild

theorem wellFounded [Finite Node] (forest : Forest Node) : WellFounded forest.Below := by
  have : IsTrans Node forest.Below := ⟨fun _ _ _ => TransGen.trans⟩
  have : Std.Irrefl forest.Below := ⟨forest.acyclic⟩
  exact Finite.wellFounded_of_trans_of_irrefl forest.Below

open Classical in
/-- The weight of an inner node is that of the leaves below it. -/
theorem sum_leaves [Fintype Node] (forest : Forest Node) (leaf : Node → Prop) (weight : Node → Int)
    (hleaf : ∀ child directory, forest.parent child = some directory → ¬leaf directory)
    (hinner : ∀ directory, ¬leaf directory →
      weight directory = ∑ child with forest.parent child = some directory, weight child)
    (directory : Node) (hdirectory : ¬leaf directory) :
    weight directory = ∑ node with leaf node ∧ forest.Below node directory, weight node := by
  induction directory using forest.wellFounded.induction with
  | _ directory ih =>
    let under : Node → Finset Node := fun child => {node | leaf node ∧
      ReflTransGen (fun child directory => forest.parent child = some directory) node child}
    have hunder : ∀ child ∈ ({child | forest.parent child = some directory} : Finset Node),
        weight child = ∑ node ∈ under child, weight node := by
      intro child hchild
      have hparent := (Finset.mem_filter.mp hchild).2
      by_cases hkind : leaf child
      · have hsingle : under child = {child} := by
          ext node
          simp only [under, Finset.mem_filter_univ, Finset.mem_singleton]
          constructor
          · rintro ⟨-, hway⟩
            rcases hway.cases_tail with h | ⟨lower, -, hlower⟩
            · exact h.symm
            · exact absurd hkind (hleaf lower child hlower)
          · rintro rfl
            exact ⟨hkind, .refl⟩
        rw [hsingle, Finset.sum_singleton]
      · rw [ih child (.single hparent) hkind]
        refine Finset.sum_congr (Finset.filter_congr fun node _ => ?_) fun _ _ => rfl
        rw [reflTransGen_iff_eq_or_transGen]
        constructor
        · exact fun h => ⟨h.1, .inr h.2⟩
        · rintro ⟨hnode, rfl | hbelow⟩
          · exact absurd hnode hkind
          · exact ⟨hnode, hbelow⟩
    rw [hinner directory hdirectory, Finset.sum_congr rfl hunder, ← Finset.sum_biUnion]
    · refine Finset.sum_congr ?_ fun _ _ => rfl
      ext node
      simp only [under, Finset.mem_biUnion, Finset.mem_filter_univ, below_iff]
      constructor
      · rintro ⟨child, hchild, hnode, hway⟩
        exact ⟨hnode, child, hchild, hway⟩
      · rintro ⟨hnode, child, hchild, hway⟩
        exact ⟨child, hchild, hnode, hway⟩
    · intro left hleft right hright hne
      rw [Function.onFun, Finset.disjoint_left]
      intro node hnodeLeft hnodeRight
      refine hne (child_unique (Finset.mem_filter.mp hleft).2 (Finset.mem_filter.mp hright).2
        (Finset.mem_filter.mp hnodeLeft).2.2 (Finset.mem_filter.mp hnodeRight).2.2)

end Forest

end GlusterFS
