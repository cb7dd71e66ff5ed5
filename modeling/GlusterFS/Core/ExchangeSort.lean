import Mathlib.Data.List.Range
import Mathlib.Data.UInt

/-!
# Exchange sort

Two nested loops compare the item at each index with all the items behind it and exchange
the two when they are in the wrong order.  The result is a permutation for any comparison,
and it is in order when the comparison agrees with a transitive order on the items.
-/

namespace GlusterFS.ExchangeSort

variable {Item : Type*} (after : Item → Item → Bool)

def swap (list : List Item) (i j : Nat) : List Item := (list.toArray.swapIfInBounds i j).toList

/-- One turn of the inner loop. -/
def turn (i : Nat) (list : List Item) (j : Nat) : List Item :=
  match list[i]?, list[j]? with
  | some left, some right => if after left right then swap list i j else list
  | _, _ => list

def innerLoop (list : List Item) (i : Nat) : List Item :=
  (List.range' (i + 1) (list.length - (i + 1))).foldl (turn after i) list

def exchangeSort (list : List Item) : List Item :=
  (List.range (list.length - 1)).foldl (innerLoop after) list

/-! ## Permutations -/

theorem swap_perm (list : List Item) (i j : Nat) : (swap list i j).Perm list := by
  rw [swap, Array.swapIfInBounds]
  split_ifs with hi hj
  · exact (Array.swap_perm hi hj).toList
  · exact List.Perm.refl list
  · exact List.Perm.refl list

theorem turn_perm (i : Nat) (list : List Item) (j : Nat) : (turn after i list j).Perm list := by
  rw [turn]
  split
  · split_ifs
    · exact swap_perm list i j
    · exact List.Perm.refl list
  · exact List.Perm.refl list

theorem foldl_perm {Index : Type*} {turn : List Item → Index → List Item}
    (hturn : ∀ list index, (turn list index).Perm list) (indices : List Index)
    (list : List Item) : (indices.foldl turn list).Perm list := by
  induction indices generalizing list with
  | nil => exact List.Perm.refl list
  | cons index rest ih => exact (ih (turn list index)).trans (hturn list index)

theorem exchangeSort_perm (list : List Item) : (exchangeSort after list).Perm list :=
  foldl_perm (fun list i => foldl_perm (turn_perm after i) _ list) _ list

/-! ## The loops over the rest of a list -/

/-- What the inner loop leaves at its index, and what it leaves behind it. -/
def pass : Item → List Item → Item × List Item
  | item, [] => (item, [])
  | item, next :: rest =>
    if after item next then ((pass next rest).1, item :: (pass next rest).2)
    else ((pass item rest).1, next :: (pass item rest).2)

/-- The result of the outer loop; the number is that of the items. -/
def passes : Nat → List Item → List Item
  | 0, list => list
  | _ + 1, [] => []
  | count + 1, item :: rest =>
    (pass after item rest).1 :: passes count (pass after item rest).2

theorem length_pass (item : Item) (list : List Item) :
    (pass after item list).2.length = list.length := by
  induction list generalizing item with
  | nil => rfl
  | cons next rest ih =>
    rw [pass]
    split_ifs <;> simp [ih]

theorem swap_append (front between rest : List Item) (left right : Item) :
    swap (front ++ left :: (between ++ right :: rest)) front.length
        (front.length + (between.length + 1)) =
      front ++ right :: (between ++ left :: rest) := by
  rw [swap, Array.swapIfInBounds, dif_pos (by simp), dif_pos (by simp), Array.toList_swap]
  simp

theorem turn_append (front between rest : List Item) (left right : Item) :
    turn after front.length (front ++ left :: (between ++ right :: rest))
        (front.length + (between.length + 1)) =
      if after left right then front ++ right :: (between ++ left :: rest)
      else front ++ left :: (between ++ right :: rest) := by
  have hleft : (front ++ left :: (between ++ right :: rest))[front.length]? = some left := by simp
  have hright : (front ++ left :: (between ++ right :: rest))[
      front.length + (between.length + 1)]? = some right := by
    rw [List.getElem?_append_right (by omega), Nat.add_sub_cancel_left]
    simp
  rw [turn, hleft, hright]
  dsimp only
  rw [swap_append]

theorem foldl_turn (front between rest : List Item) (item : Item) :
    (List.range' (front.length + (between.length + 1)) rest.length).foldl (turn after front.length)
        (front ++ item :: (between ++ rest)) =
      front ++ (pass after item rest).1 :: (between ++ (pass after item rest).2) := by
  induction rest generalizing between item with
  | nil => rfl
  | cons next rest ih =>
    rw [List.length_cons, List.range'_succ, List.foldl_cons, turn_append, pass]
    split_ifs with hafter
    · simpa [Nat.add_assoc] using ih (between ++ [item]) next
    · simpa [Nat.add_assoc] using ih (between ++ [next]) item

theorem innerLoop_append (front rest : List Item) (item : Item) :
    innerLoop after (front ++ item :: rest) front.length =
      front ++ (pass after item rest).1 :: (pass after item rest).2 := by
  have hlength : (front ++ item :: rest).length - (front.length + 1) = rest.length := by
    simp
    omega
  rw [innerLoop, hlength]
  exact foldl_turn after front [] rest item

theorem foldl_innerLoop (count : Nat) (front list : List Item) (hcount : list.length = count) :
    (List.range' front.length (count - 1)).foldl (innerLoop after) (front ++ list) =
      front ++ passes after count list := by
  induction count generalizing front list with
  | zero => simp [passes]
  | succ count ih =>
    cases list with
    | nil => simp at hcount
    | cons item rest =>
      have hrest : rest.length = count := Nat.succ_inj.mp hcount
      rw [Nat.add_sub_cancel, passes]
      cases count with
      | zero =>
        rw [List.length_eq_zero_iff.mp hrest]
        rfl
      | succ count =>
        have hnext := ih (front ++ [(pass after item rest).1]) (pass after item rest).2
          ((length_pass after item rest).trans hrest)
        rw [List.range'_succ, List.foldl_cons, innerLoop_append]
        simpa using hnext

theorem exchangeSort_eq (list : List Item) :
    exchangeSort after list = passes after list.length list := by
  rw [exchangeSort, List.range_eq_range']
  exact foldl_innerLoop after list.length [] list rfl

/-! ## Order -/

theorem pass_perm (item : Item) (list : List Item) :
    ((pass after item list).1 :: (pass after item list).2).Perm (item :: list) := by
  induction list generalizing item with
  | nil => exact List.Perm.refl _
  | cons next rest ih =>
    rw [pass]
    split_ifs
    · exact (List.Perm.swap _ _ _).trans ((ih next).cons item)
    · exact (List.Perm.swap _ _ _).trans (((ih item).cons next).trans (List.Perm.swap _ _ _))

theorem passes_perm (count : Nat) (list : List Item) : (passes after count list).Perm list := by
  induction count generalizing list with
  | zero => exact List.Perm.refl _
  | succ count ih =>
    cases list with
    | nil => exact List.Perm.refl _
    | cons item rest => exact ((ih _).cons _).trans (pass_perm after item rest)

/-- The comparison agrees with the order on the items of the list. -/
structure Agrees (le : Item → Item → Prop) (list : List Item) : Prop where
  of_after : ∀ left ∈ list, ∀ right ∈ list, after left right = true → le right left
  of_not_after : ∀ left ∈ list, ∀ right ∈ list, after left right = false → le left right

variable {after} {le : Item → Item → Prop}

variable {list : List Item}

theorem Agrees.mono {sub : List Item} (hagrees : Agrees after le list)
    (hsub : ∀ item ∈ sub, item ∈ list) : Agrees after le sub where
  of_after left hleft right hright :=
    hagrees.of_after left (hsub left hleft) right (hsub right hright)
  of_not_after left hleft right hright :=
    hagrees.of_not_after left (hsub left hleft) right (hsub right hright)

theorem Agrees.refl (hagrees : Agrees after le list) {item : Item} (hitem : item ∈ list) :
    le item item := by
  cases hafter : after item item with
  | true => exact hagrees.of_after item hitem item hitem hafter
  | false => exact hagrees.of_not_after item hitem item hitem hafter

variable (htrans : ∀ a b c, le a b → le b c → le a c)

include htrans

/-- What a pass carries to the front precedes the item it began with and the others. -/
theorem pass_le {item : Item} (hagrees : Agrees after le (item :: list)) :
    le (pass after item list).1 item ∧
      ∀ other ∈ (pass after item list).2, le (pass after item list).1 other := by
  induction list generalizing item with
  | nil => exact ⟨hagrees.refl List.mem_cons_self, by simp [pass]⟩
  | cons next rest ih =>
    have hnext : next ∈ item :: next :: rest := by simp
    rw [pass]
    split
    next hafter =>
      obtain ⟨hle, hrest⟩ := ih (hagrees.mono fun other hother => List.mem_cons_of_mem _ hother)
      have hitem : le (pass after next rest).1 item :=
        htrans _ _ _ hle (hagrees.of_after item List.mem_cons_self next hnext hafter)
      exact ⟨hitem, List.forall_mem_cons.mpr ⟨hitem, hrest⟩⟩
    next hbefore =>
      have hagrees' : Agrees after le (item :: rest) :=
        hagrees.mono fun other hother => by
          rcases List.mem_cons.mp hother with rfl | hother <;> simp [*]
      obtain ⟨hle, hrest⟩ := ih hagrees'
      have hnext' : le (pass after item rest).1 next :=
        htrans _ _ _ hle (hagrees.of_not_after item List.mem_cons_self next hnext
          (Bool.not_eq_true _ ▸ hbefore))
      exact ⟨hle, List.forall_mem_cons.mpr ⟨hnext', hrest⟩⟩

theorem passes_pairwise {count : Nat} (hcount : list.length = count)
    (hagrees : Agrees after le list) : (passes after count list).Pairwise le := by
  induction count generalizing list with
  | zero =>
    rw [List.length_eq_zero_iff.mp hcount]
    exact .nil
  | succ count ih =>
    cases list with
    | nil => exact .nil
    | cons item rest =>
      have hperm := pass_perm after item rest
      refine .cons (fun other hother => ?_) (ih ?_ (hagrees.mono fun other hother => ?_))
      · exact (pass_le htrans hagrees).2 other ((passes_perm after _ _).mem_iff.mp hother)
      · exact (length_pass after item rest).trans (Nat.succ_inj.mp hcount)
      · exact hperm.mem_iff.mp (List.mem_cons_of_mem _ hother)

/-- The sort puts the items in order if the comparison agrees with it. -/
theorem exchangeSort_pairwise (hagrees : Agrees after le list) :
    (exchangeSort after list).Pairwise le :=
  exchangeSort_eq after list ▸ passes_pairwise htrans rfl hagrees

end GlusterFS.ExchangeSort
