import Mathlib.Data.List.Basic
import Mathlib.Data.List.Perm.Basic

/-!
# What a merge sort asks of its comparison

A merge sort that gives one result for all the orders of a list compares by a linear order on
the items of the list.  The first item of the result comes strictly before all that differ from
it: another one that comes before or with it could be put in front of all its copies.  The same
holds of the first of the rest, once the items that are settled are left out.
-/

namespace GlusterFS.MergeOrder

variable {Item : Type*} {le : Item → Item → Bool} {high : Item → Bool}
variable {list xs ys : List Item} {x y : Item}

/-- The comparison is antisymmetric and transitive on the items of the list. -/
structure LinearOn (le : Item → Item → Bool) (list : List Item) : Prop where
  antisymm : ∀ a ∈ list, ∀ b ∈ list, le a b = true → le b a = true → a = b
  trans : ∀ a ∈ list, ∀ b ∈ list, ∀ c ∈ list, le a b = true → le b c = true → le a c = true

/-- The items that are not high come strictly before the high ones. -/
def Below (le : Item → Item → Bool) (high : Item → Bool) (list : List Item) : Prop :=
  ∀ a ∈ list, ∀ b ∈ list, high a = false → high b = true → le a b = true ∧ le b a = false

def LowFirst (high : Item → Bool) (list : List Item) : Prop :=
  list.Pairwise fun a b => high a = true → high b = true

theorem Below.mono (hbelow : Below le high list) (hsub : ∀ a ∈ xs, a ∈ list) :
    Below le high xs :=
  fun a ha b hb => hbelow a (hsub a ha) b (hsub b hb)

theorem LowFirst.all_high (hlist : LowFirst high (x :: xs)) (hx : high x = true) :
    ∀ a ∈ x :: xs, high a = true :=
  List.forall_mem_cons.mpr ⟨hx, fun a ha => (List.pairwise_cons.mp hlist).1 a ha hx⟩

theorem LowFirst.cons {rest filtered : List Item}
    (hrest : LowFirst high rest ∧ rest.filter high = filtered)
    (hhigh : high x = true → ∀ a ∈ rest, high a = true) :
    LowFirst high (x :: rest) ∧
      (x :: rest).filter high = if high x then x :: filtered else filtered :=
  ⟨List.pairwise_cons.mpr ⟨fun a ha hx => hhigh hx a ha, hrest.1⟩,
    by rw [List.filter_cons, hrest.2]⟩

/-- Among the high items a merge goes as if there were no others. -/
theorem merge_high (hbelow : Below le high (xs ++ ys)) (hxs : LowFirst high xs)
    (hys : LowFirst high ys) :
    LowFirst high (xs.merge ys le) ∧
      (xs.merge ys le).filter high = (xs.filter high).merge (ys.filter high) le := by
  induction xs generalizing ys with
  | nil => simpa using hys
  | cons x xs ihx =>
    induction ys with
    | nil => simpa using hxs
    | cons y ys ihy =>
      rw [List.cons_merge_cons]
      have hstrict := hbelow x (by simp) y (by simp)
      have hstrict' := hbelow y (by simp) x (by simp)
      split_ifs with hle
      · have hstep := LowFirst.cons (x := x)
          (ihx (hbelow.mono fun _ => List.mem_cons_of_mem x) (List.Pairwise.of_cons hxs) hys)
          fun hx a ha => (List.mem_merge.mp ha).elim
            (fun ha => hxs.all_high hx a (List.mem_cons_of_mem x ha))
            (hys.all_high (by grind) a)
        refine ⟨hstep.1, hstep.2.trans ?_⟩
        grind [List.cons_merge_cons]
      · have hstep := LowFirst.cons (x := y)
          (ihy (hbelow.mono fun a ha => by grind) (List.Pairwise.of_cons hys))
          fun hy a ha => (List.mem_merge.mp ha).elim (hxs.all_high (by grind) a)
            fun ha => hys.all_high hy a (List.mem_cons_of_mem y ha)
        refine ⟨hstep.1, hstep.2.trans ?_⟩
        grind [List.cons_merge_cons]

/-- Induction along the halves that a merge sort takes. -/
theorem mergeSort_induction {motive : List Item → List Item → Prop}
    (hshort : ∀ list : List Item, list.length ≤ 1 → motive list list)
    (hmerge : ∀ left right : List Item, motive left (left.mergeSort le) →
      motive right (right.mergeSort le) →
      motive (left ++ right) ((left.mergeSort le).merge (right.mergeSort le) le))
    (list : List Item) : motive list (list.mergeSort le) := by
  induction hn : list.length using Nat.strongRecOn generalizing list with
  | ind n ih =>
    subst hn
    match list with
    | [] => simpa using hshort [] (by simp)
    | [a] => simpa using hshort [a] (by simp)
    | a :: b :: rest =>
      have happend := hmerge ((a :: b :: rest).take ((rest.length + 3) / 2))
        ((a :: b :: rest).drop ((rest.length + 3) / 2)) (ih _ (by simp; omega) _ rfl)
        (ih _ (by simp; omega) _ rfl)
      rw [List.take_append_drop] at happend
      rwa [List.mergeSort, List.MergeSort.Internal.splitInTwo_fst,
        List.MergeSort.Internal.splitInTwo_snd]

theorem lowFirst_mergeSort (hbelow : Below le high list) :
    LowFirst high (list.mergeSort le) := by
  revert hbelow
  refine mergeSort_induction (motive := fun list sorted => Below le high list →
    LowFirst high sorted) ?_ ?_ list
  · intro list hlength _
    match list with
    | [] => exact List.Pairwise.nil
    | [a] => exact List.pairwise_singleton _ a
  · intro left right hleft hright hbelow
    exact (merge_high (hbelow.mono (by simp))
      (hleft (hbelow.mono fun _ => List.mem_append_left _))
      (hright (hbelow.mono fun _ => List.mem_append_right _))).1

/-- The high items of a merge of two sorted halves. -/
theorem filter_mergeSort_append {left right : List Item}
    (hbelow : Below le high (left ++ right)) :
    ((left.mergeSort le).merge (right.mergeSort le) le).filter high =
      ((left.mergeSort le).filter high).merge ((right.mergeSort le).filter high) le :=
  (merge_high (hbelow.mono (by simp))
    (lowFirst_mergeSort (hbelow.mono fun _ => List.mem_append_left _))
    (lowFirst_mergeSort (hbelow.mono fun _ => List.mem_append_right _))).2

/-- Where `y` stands in front of all the copies of `x` and comes before or with it, the high
items of the result do not begin with `x`. -/
theorem head_mergeSort_ne (hbelow : Below le high list) (hle : le y x = true) (hne : y ≠ x)
    (hlist : list.filter high = y :: (xs ++ ys)) (hxs : ∀ a ∈ xs, a = x) (hys : x ∉ ys) :
    ((list.mergeSort le).filter high).head? ≠ some x := by
  refine mergeSort_induction (motive := fun list sorted => ∀ xs ys, Below le high list →
    list.filter high = y :: (xs ++ ys) → (∀ a ∈ xs, a = x) → x ∉ ys →
    (sorted.filter high).head? ≠ some x) ?_ ?_ list xs ys hbelow hlist hxs hys
  · intro list _ xs ys _ hlist _ _
    simpa [hlist] using hne
  · intro left right hleft hright xs ys hbelow hlist hxs hys
    have hlow := hbelow.mono fun _ => List.mem_append_left right
    rw [filter_mergeSort_append hbelow]
    rw [List.filter_append] at hlist
    have hpermLeft := (List.mergeSort_perm left le).filter high
    have hpermRight := (List.mergeSort_perm right le).filter high
    rcases List.append_eq_cons_iff.mp hlist with ⟨hnone, hhigh⟩ | ⟨front, hfront, hhigh⟩
    · -- the first half has no high items
      rw [hnone] at hpermLeft
      rw [hpermLeft.eq_nil, List.nil_merge]
      exact hright xs ys (hbelow.mono fun _ => List.mem_append_right left) hhigh hxs hys
    · rw [hfront] at hpermLeft
      obtain ⟨first, rest, hsorted⟩ :
          ∃ first rest, (left.mergeSort le).filter high = first :: rest :=
        List.ne_nil_iff_exists_cons.mp fun hnil => by simp [hnil] at hpermLeft
      have hmem : first ∈ y :: front := hpermLeft.mem_iff.mp (hsorted ▸ List.mem_cons_self)
      -- copies are left for the second half only where the first one has nothing but `y`
      obtain ⟨hfirst, hcopies⟩ : first ≠ x ∧ (x ∈ right.filter high → first = y) := by
        rcases List.append_eq_append_iff.mp hhigh with ⟨between, rfl, rfl⟩ | ⟨between, rfl, hrest⟩
        · have hhead := hleft xs between hlow hfront hxs fun h => hys (List.mem_append_left _ h)
          rw [hsorted, List.head?_cons] at hhead
          exact ⟨fun h => hhead (congrArg some h), fun h => absurd (List.mem_append_right _ h) hys⟩
        · have hfronts := (List.forall_mem_append.mp hxs).1
          have hhead := hleft front [] hlow (by simpa using hfront) hfronts (by simp)
          rw [hsorted, List.head?_cons] at hhead
          have hne : first ≠ x := fun h => hhead (congrArg some h)
          exact ⟨hne, fun _ => (List.mem_cons.mp hmem).resolve_right fun h => hne (hfronts _ h)⟩
      rw [hsorted]
      cases hother : (right.mergeSort le).filter high with
      | nil => simpa using hfirst
      | cons second others =>
        rw [List.cons_merge_cons]
        split_ifs with hbefore
        · simpa using hfirst
        · rintro hsecond
          obtain rfl : second = x := by simpa using hsecond
          rw [hcopies (hpermRight.mem_iff.mp (hother ▸ List.mem_cons_self))] at hbefore
          exact hbefore hle

theorem LinearOn.of_first [DecidableEq Item] (htotal : ∀ a b, le a b = true ∨ le b a = true)
    (hfirst : ∀ a ∈ list, a ≠ x → le a x = false)
    (hrest : LinearOn le (list.filter fun a => a ≠ x)) : LinearOn le list := by
  have heq : ∀ a ∈ list, le a x = true → a = x := by grind
  have hbefore : ∀ a ∈ list, le x a = true := by grind
  have hmem : ∀ a ∈ list, a ≠ x → a ∈ list.filter fun a => a ≠ x := by grind
  constructor
  · intro a ha b hb hab hba
    by_cases hax : a = x
    · subst hax
      exact (heq b hb hba).symm
    · have hbx : b ≠ x := fun h => hax (heq a ha (h ▸ hab))
      exact hrest.antisymm a (hmem a ha hax) b (hmem b hb hbx) hab hba
  · intro a ha b hb c hc hab hbc
    by_cases hax : a = x
    · subst hax
      exact hbefore c hc
    · have hbx : b ≠ x := fun h => hax (heq a ha (h ▸ hab))
      have hcx : c ≠ x := fun h => hbx (heq b hb (h ▸ hbc))
      exact hrest.trans a (hmem a ha hax) b (hmem b hb hbx) c (hmem c hc hcx) hab hbc

/-- The first high item of a result that all the orders share comes strictly before the others. -/
theorem first_of_mergeSort_eq [DecidableEq Item]
    (hsame : ∀ other : List Item, other.Perm list → other.mergeSort le = list.mergeSort le)
    (hbelow : Below le high list)
    (hhead : ((list.mergeSort le).filter high).head? = some x) :
    ∀ y ∈ list.filter high, y ≠ x → le y x = false := by
  intro y hy hne
  by_contra hle
  -- `y` in front, then the copies of `x`
  let others := (list.filter high).erase y
  let copies := others.filter fun a => a = x
  let rest := others.filter fun a => !decide (a = x)
  have hhigh : ((y :: (copies ++ rest))).Perm (list.filter high) :=
    ((List.filter_append_perm _ others).cons y).trans (List.perm_cons_erase hy).symm
  have hperm : ((y :: (copies ++ rest)) ++ list.filter fun a => !high a).Perm list :=
    (hhigh.append_right _).trans (List.filter_append_perm high list)
  have hfilter : ((y :: (copies ++ rest)) ++ list.filter fun a => !high a).filter high =
      y :: (copies ++ rest) := by
    rw [List.filter_append, List.filter_eq_self.mpr, List.filter_filter]
    · simp
    · intro a ha
      exact (List.mem_filter.mp (hhigh.mem_iff.mp ha)).2
  refine head_mergeSort_ne (hbelow.mono fun a => hperm.mem_iff.mp) (by simpa using hle) hne hfilter
    (by simp [copies]) (by simp [rest]) ?_
  rw [hsame _ hperm, hhead]

/-- One result for all the orders of a list makes the comparison linear on it. -/
theorem linearOn_of_mergeSort_eq [DecidableEq Item]
    (htotal : ∀ a b, le a b = true ∨ le b a = true)
    (hsame : ∀ other : List Item, other.Perm list → other.mergeSort le = list.mergeSort le) :
    LinearOn le list := by
  suffices hhigh : ∀ high, Below le high list → LinearOn le (list.filter high) by
    simpa using hhigh (fun _ => true) (by simp [Below])
  intro high hbelow
  induction hn : (list.filter high).length using Nat.strongRecOn generalizing high with
  | ind n ih =>
    subst hn
    have hperm := (List.mergeSort_perm list le).filter high
    cases hsorted : (list.mergeSort le).filter high with
    | nil =>
      rw [hsorted] at hperm
      rw [← hperm.nil_eq]
      exact ⟨by simp, by simp⟩
    | cons x sorted =>
      have hx : x ∈ list.filter high := hperm.mem_iff.mp (hsorted ▸ List.mem_cons_self)
      have hfirst := first_of_mergeSort_eq hsame hbelow (by rw [hsorted, List.head?_cons])
      refine .of_first htotal hfirst ?_
      rw [List.filter_filter]
      refine ih _ ?_ _ ?_ rfl
      · rw [← List.filter_filter, List.length_filter_lt_length_iff_exists]
        exact ⟨x, hx, by simp⟩
      · intro a ha b hb hlow hhigh
        obtain ⟨hbx, hbhigh⟩ : b ≠ x ∧ high b = true := by simpa using hhigh
        cases hahigh : high a with
        | false => exact hbelow a ha b hb hahigh hbhigh
        | true =>
          obtain rfl : a = x := by simpa [hahigh] using hlow
          have hlater := hfirst b (List.mem_filter.mpr ⟨hb, hbhigh⟩) hbx
          exact ⟨(htotal a b).resolve_right (by simp [hlater]), hlater⟩

end GlusterFS.MergeOrder
