import Mathlib.Algebra.Order.BigOperators.Group.List
import Mathlib.Algebra.Order.Group.Int
import Mathlib.Data.UInt

/-!
# Weights over a table of processes

A table lists the processes of a system, and one step replaces one entry.  A
shared counter is explained by giving every process a weight and comparing the
counter with the total.
-/

namespace GlusterFS.ProcessTable

variable {Process : Type*}

def total (weight : Process → Int) (table : List Process) : Int :=
  (table.map weight).sum

variable {weight : Process → Int} {table : List Process}

@[simp]
theorem total_nil : total weight [] = 0 := rfl

@[simp]
theorem total_cons (process : Process) :
    total weight (process :: table) = weight process + total weight table := by
  simp [total]

@[simp]
theorem total_append (left right : List Process) :
    total weight (left ++ right) = total weight left + total weight right := by
  simp [total]

variable {index : Nat} {old : Process}

theorem total_eraseIdx (hold : table[index]? = some old) :
    total weight (table.eraseIdx index) = total weight table - weight old := by
  obtain ⟨hindex, rfl⟩ := List.getElem?_eq_some_iff.mp hold
  have hsum := ((List.getElem_cons_eraseIdx_perm hindex).map weight).sum_eq
  rw [List.map_cons, List.sum_cons] at hsum
  simp only [total]
  omega

/-- Replacing one entry moves the total by the difference of the weights. -/
theorem total_set (hold : table[index]? = some old) (new : Process) :
    total weight (table.set index new) = total weight table + (weight new - weight old) := by
  have hindex := (List.getElem?_eq_some_iff.mp hold).1
  have hsum := ((List.set_perm_cons_eraseIdx hindex new).map weight).sum_eq
  have herase : total weight (table.eraseIdx index) = _ := total_eraseIdx hold
  rw [List.map_cons, List.sum_cons] at hsum
  simp only [total] at herase ⊢
  omega

theorem total_modify (hold : table[index]? = some old) (change : Process → Process) :
    total weight (table.modify index change) =
      total weight table + (weight (change old) - weight old) := by
  have hmodify : table.modify index change = table.set index (change old) := by
    rw [List.modify_eq_set_getElem?, hold]
    rfl
  rw [hmodify, total_set hold]

theorem total_nonneg (hweight : ∀ process ∈ table, 0 ≤ weight process) :
    0 ≤ total weight table :=
  List.sum_nonneg (List.forall_mem_map.mpr hweight)

theorem weight_le_total (hweight : ∀ process ∈ table, 0 ≤ weight process)
    {process : Process} (hmem : process ∈ table) :
    weight process ≤ total weight table :=
  List.single_le_sum (List.forall_mem_map.mpr hweight) _ (List.mem_map_of_mem hmem)

/-- Only one process has the weight that the whole table has. -/
theorem eq_of_total_le_one (hweight : ∀ process ∈ table, 0 ≤ weight process)
    (htotal : total weight table ≤ 1) {first second : Nat} {left right : Process}
    (hleft : table[first]? = some left) (hright : table[second]? = some right)
    (hleftWeight : weight left = 1) (hrightWeight : weight right = 1) : first = second := by
  by_contra hne
  have hmem : right ∈ table.eraseIdx first :=
    List.mem_eraseIdx_iff_getElem?.mpr ⟨second, Ne.symm hne, hright⟩
  have hle : weight right ≤ total weight (table.eraseIdx first) :=
    weight_le_total (fun process h => hweight process (List.mem_of_mem_eraseIdx h)) hmem
  rw [total_eraseIdx hleft] at hle
  omega

theorem total_eq_zero (hweight : ∀ process ∈ table, weight process = 0) :
    total weight table = 0 :=
  List.sum_eq_zero (List.forall_mem_map.mpr hweight)

theorem total_pos_iff (hweight : ∀ process ∈ table, 0 ≤ weight process) :
    0 < total weight table ↔ ∃ process ∈ table, 0 < weight process := by
  constructor
  · intro hpos
    by_contra hnone
    have hzero : total weight table = 0 := by
      refine total_eq_zero fun process h => ?_
      have hnot : ¬0 < weight process := fun hpos => hnone ⟨process, h, hpos⟩
      exact Int.le_antisymm (Int.not_lt.mp hnot) (hweight process h)
    omega
  · rintro ⟨process, hmem, hpos⟩
    have hle := weight_le_total hweight hmem
    omega

theorem total_eq_countP {keep : Process → Bool}
    (hweight : ∀ process ∈ table, weight process = if keep process then 1 else 0) :
    total weight table = table.countP keep := by
  induction table with
  | nil => simp
  | cons head tail ih =>
    rw [total_cons, hweight head (by simp),
      ih fun process h => hweight process (by simp [h]), List.countP_cons]
    split_ifs <;> omega

/-- At most one process of the table passes a test. -/
def Sole (test : Process → Bool) (table : List Process) : Prop := table.countP test ≤ 1

theorem Sole.set {test : Process → Bool} {new : Process} (hsole : Sole test table)
    (hold : table[index]? = some old)
    (hnew : test new = true → test old = true ∨ ∀ process ∈ table, test process = false) :
    Sole test (table.set index new) := by
  obtain ⟨hindex, hget⟩ := List.getElem?_eq_some_iff.mp hold
  have hcount : table.countP test ≤ 1 := hsole
  rw [Sole, List.countP_set hindex, hget]
  split_ifs with hpass hnewPass hnewPass
  · have := List.countP_pos_iff.mpr ⟨old, List.mem_of_getElem? hold, hpass⟩
    omega
  · omega
  · have hzero : table.countP test = 0 := List.countP_eq_zero.mpr fun process hmem => by
      simp [(hnew hnewPass).resolve_left hpass process hmem]
    omega
  · omega

theorem Sole.eq {test : Process → Bool} (hsole : Sole test table) {first second : Nat}
    {left right : Process} (hleft : table[first]? = some left)
    (hright : table[second]? = some right) (hleftPass : test left = true)
    (hrightPass : test right = true) : first = second := by
  have hle : total (fun process => if test process then 1 else 0) table ≤ 1 := by
    rw [total_eq_countP fun _ _ => rfl]
    exact_mod_cast hsole
  refine eq_of_total_le_one (fun process _ => ?_) hle hleft hright (if_pos hleftPass)
    (if_pos hrightPass)
  split_ifs <;> omega

/-- A process with a property is still there when the one that moved keeps it. -/
theorem exists_mem_set {property : Process → Prop} {new : Process} (hold : table[index]? = some old)
    (hkept : property old → property new) (hexists : ∃ process ∈ table, property process) :
    ∃ process ∈ table.set index new, property process := by
  obtain ⟨process, hmem, hproperty⟩ := hexists
  obtain ⟨other, hother⟩ := List.getElem?_of_mem hmem
  by_cases hsame : index = other
  · subst hsame
    cases Option.some.inj (hold.symm.trans hother)
    exact ⟨new, List.mem_set (List.getElem?_eq_some_iff.mp hold).1 new, hkept hproperty⟩
  · exact ⟨process, List.mem_of_getElem? ((List.getElem?_set_ne hsame).trans hother), hproperty⟩

/-- Every process keeps a property when the one that moved does. -/
theorem forall_mem_set {property : Process → Prop} {new : Process}
    (htable : ∀ process ∈ table, property process) (hnew : property new) :
    ∀ process ∈ table.set index new, property process := by
  intro process hmem
  rcases List.mem_or_eq_of_mem_set hmem with hmem | rfl
  · exact htable process hmem
  · exact hnew

end GlusterFS.ProcessTable
