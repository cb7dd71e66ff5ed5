import Mathlib.Data.UInt

/-!
# Objects with a reference count

Objects are numbered in the order of their allocation.  An object starts with
one reference and is freed when the last one is dropped.  The heap also counts
how often an object was freed.
-/

namespace GlusterFS.RefCount

structure Heap where
  ref : Nat → Int
  freed : Nat → Nat
  next : Nat

namespace Heap

def empty : Heap := ⟨fun _ => 0, fun _ => 0, 0⟩

def alloc (heap : Heap) : Heap :=
  { heap with
    ref := Function.update heap.ref heap.next 1
    next := heap.next + 1 }

def retain (heap : Heap) (id : Nat) : Heap :=
  { heap with ref := Function.update heap.ref id (heap.ref id + 1) }

def release (heap : Heap) (id : Nat) : Heap :=
  { heap with
    ref := Function.update heap.ref id (heap.ref id - 1)
    freed := if heap.ref id - 1 = 0 then Function.update heap.freed id (heap.freed id + 1)
      else heap.freed }

def retainAll (heap : Heap) (ids : List Nat) : Heap := ids.foldl retain heap

def releaseAll (heap : Heap) (ids : List Nat) : Heap := ids.foldl release heap

/-- The objects that have no reference left are freed, once each. -/
structure Sound (heap : Heap) : Prop where
  freed : ∀ id, heap.freed id = if id < heap.next ∧ heap.ref id = 0 then 1 else 0
  fresh : ∀ id, heap.next ≤ id → heap.ref id = 0

theorem sound_empty : empty.Sound := ⟨fun id => by simp [empty], fun _ _ => rfl⟩

variable {heap : Heap} {id other : Nat} {ids : List Nat}

@[simp] theorem alloc_next : heap.alloc.next = heap.next + 1 := rfl

@[simp] theorem retain_next : (heap.retain id).next = heap.next := rfl

@[simp] theorem release_next : (heap.release id).next = heap.next := rfl

@[simp]
theorem retainAll_next (heap : Heap) (ids : List Nat) : (heap.retainAll ids).next = heap.next := by
  induction ids generalizing heap with
  | nil => rfl
  | cons id ids ih => exact ih (heap.retain id)

@[simp]
theorem releaseAll_next (heap : Heap) (ids : List Nat) :
    (heap.releaseAll ids).next = heap.next := by
  induction ids generalizing heap with
  | nil => rfl
  | cons id ids ih => exact ih (heap.release id)

@[simp] theorem alloc_ref_next (heap : Heap) : heap.alloc.ref heap.next = 1 := by simp [alloc]

theorem Sound.alloc_ref (hsound : heap.Sound) (other : Nat) :
    heap.alloc.ref other = heap.ref other + if other = heap.next then 1 else 0 := by
  simp only [alloc, Function.update_apply]
  split_ifs with h
  · rw [h, hsound.fresh heap.next (Nat.le_refl _)]
    rfl
  · exact (Int.add_zero _).symm

theorem retain_ref (heap : Heap) (id other : Nat) :
    (heap.retain id).ref other = heap.ref other + if other = id then 1 else 0 := by
  simp only [retain, Function.update_apply]
  split_ifs with h
  · rw [h]
  · exact (Int.add_zero _).symm

theorem release_ref (heap : Heap) (id other : Nat) :
    (heap.release id).ref other = heap.ref other - if other = id then 1 else 0 := by
  simp only [release, Function.update_apply]
  split_ifs with h
  · rw [h]
  · exact (Int.sub_zero _).symm

theorem count_cons_eq (id other : Nat) (ids : List Nat) :
    ((id :: ids).count other : Int) = ids.count other + if other = id then 1 else 0 := by
  rw [List.count_cons]
  by_cases h : other = id
  · simp [h]
  · simp [h, Ne.symm h]

theorem retainAll_ref (heap : Heap) (ids : List Nat) (other : Nat) :
    (heap.retainAll ids).ref other = heap.ref other + ids.count other := by
  induction ids generalizing heap with
  | nil => simp [retainAll]
  | cons id ids ih =>
    have hrest := ih (heap.retain id)
    rw [retain_ref] at hrest
    rw [count_cons_eq]
    change ((heap.retain id).retainAll ids).ref other = _
    omega

theorem releaseAll_ref (heap : Heap) (ids : List Nat) (other : Nat) :
    (heap.releaseAll ids).ref other = heap.ref other - ids.count other := by
  induction ids generalizing heap with
  | nil => simp [releaseAll]
  | cons id ids ih =>
    have hrest := ih (heap.release id)
    rw [release_ref] at hrest
    rw [count_cons_eq]
    change ((heap.release id).releaseAll ids).ref other = _
    omega

theorem Sound.alloc (hsound : heap.Sound) : heap.alloc.Sound := by
  constructor
  · intro other
    rw [hsound.alloc_ref, alloc_next]
    change heap.freed other = _
    rw [hsound.freed]
    by_cases h : other = heap.next
    · simp [h, hsound.fresh]
    · have hlt : other < heap.next + 1 ↔ other < heap.next := by omega
      simp [h, hlt]
  · intro other hother
    rw [alloc_next] at hother
    rw [hsound.alloc_ref, if_neg (by omega), hsound.fresh other (by omega)]
    rfl

theorem Sound.retain (hsound : heap.Sound) (hlive : 0 < heap.ref id) : (heap.retain id).Sound := by
  constructor
  · intro other
    rw [retain_ref, retain_next]
    change heap.freed other = _
    rw [hsound.freed]
    by_cases h : other = id
    · have hold : heap.ref id ≠ 0 := by omega
      have hnew : heap.ref id + 1 ≠ 0 := by omega
      simp [h, hold, hnew]
    · simp [h]
  · intro other hother
    have hne : other ≠ id := by
      rintro rfl
      have := hsound.fresh other hother
      omega
    rw [retain_ref, if_neg hne, hsound.fresh other hother]
    rfl

theorem Sound.release (hsound : heap.Sound) (hlive : 0 < heap.ref id) :
    (heap.release id).Sound := by
  have hlt : id < heap.next := by
    by_contra h
    have := hsound.fresh id (by omega)
    omega
  constructor
  · intro other
    rw [release_ref, release_next]
    have hother := hsound.freed other
    simp only [Heap.release]
    by_cases h : other = id
    · subst h
      have hold : heap.ref other ≠ 0 := by omega
      rw [if_neg (fun h => hold h.2)] at hother
      split_ifs with hlast <;> simp_all
    · rw [if_neg h, Int.sub_zero, ← hother]
      split_ifs
      · exact Function.update_of_ne h ..
      · rfl
  · intro other hother
    rw [release_next] at hother
    rw [release_ref, if_neg (by omega), hsound.fresh other hother]
    rfl

theorem Sound.retainAll (hsound : heap.Sound) (hlive : ∀ id ∈ ids, 0 < heap.ref id) :
    (heap.retainAll ids).Sound := by
  induction ids generalizing heap with
  | nil => exact hsound
  | cons id ids ih =>
    obtain ⟨hid, hrest⟩ := List.forall_mem_cons.mp hlive
    refine ih (hsound.retain hid) fun other hother => ?_
    rw [retain_ref]
    have := hrest other hother
    split_ifs <;> omega

/-- The references that are dropped must be there. -/
theorem Sound.releaseAll (hsound : heap.Sound)
    (hlive : ∀ id ∈ ids, (ids.count id : Int) ≤ heap.ref id) : (heap.releaseAll ids).Sound := by
  induction ids generalizing heap with
  | nil => exact hsound
  | cons id ids ih =>
    have hid : 0 < heap.ref id := by
      have := hlive id List.mem_cons_self
      rw [count_cons_eq, if_pos rfl] at this
      omega
    refine ih (hsound.release hid) fun other hother => ?_
    have := hlive other (List.mem_cons_of_mem _ hother)
    rw [count_cons_eq] at this
    rw [release_ref]
    omega

end Heap

end GlusterFS.RefCount
