import GlusterFS.Core.ThreadedList
import GlusterFS.Core.Transition

/-!
# The fd table

The entries that are free are threaded through the table from `first_free` on.
Every function runs under the lock of the table.  A table without `fdentries` is
one whose memory could not be had; the functions that read it then fault.
-/

namespace GlusterFS.Fds

open Transition ThreadedList

/-- An `fd_t *` that is not null. -/
abbrev Fd := Nat

/-- `GF_FDTABLE_END` -/
def fdtableEnd : Int := -1

/-- `GF_FDENTRY_ALLOCATED` -/
def fdentryAllocated : Int := -2

structure FdEntry where
  fd : Option Fd
  nextFree : Int
  deriving DecidableEq

structure FdTable where
  maxFds : Nat
  fdentries : Option (Nat → FdEntry)
  firstFree : Int

/-- `gf_roundup_next_power_of_two`, from `result` on. -/
def roundupNextPowerOfTwo (nr : Nat) : Nat → Nat → Nat
  | 0, result => result
  | fuel + 1, result =>
    if result ≤ nr then roundupNextPowerOfTwo nr fuel (result * 2) else result

/-- `sizeof (fdentry_t)` -/
def fdentrySize : Nat := 16

/-- Memory as `GF_CALLOC` gives it. -/
def zeroEntries : Nat → FdEntry := fun _ => ⟨none, 0⟩

def setNextFree (entries : Nat → FdEntry) (i : Nat) (nextFree : Int) : Nat → FdEntry :=
  Function.update entries i { entries i with nextFree := nextFree }

/-- `gf_fd_chain_fd_entries` -/
def chainFdEntries (entries : Nat → FdEntry) (startidx endcount : Nat) : Nat → FdEntry :=
  let chained := (List.range' startidx (endcount - 1 - startidx)).foldl
    (fun entries i => setNextFree entries i (i + 1)) entries
  setNextFree chained (max startidx (endcount - 1)) fdtableEnd

namespace FdTable

variable (t : FdTable)

/-- The number of entries that the table is made for. -/
def expandedMax (nr : Nat) : Nat :=
  let nr := nr / (1024 / fdentrySize)
  let nr := roundupNextPowerOfTwo (nr + 1) 32 1
  nr * (1024 / fdentrySize) % 2 ^ 32

/-- `memcpy` of as many bytes as fit in `uint32_t cpy`. -/
def copyEntries (oldfds : Nat → FdEntry) (oldmaxFds : Nat) : Nat → FdEntry := fun i =>
  if (i + 1) * fdentrySize ≤ oldmaxFds * fdentrySize % 2 ^ 32 then oldfds i else zeroEntries i

/-- `gf_fd_fdtable_expand`; `memory` says whether the memory can be had.  The result
is whether it can. -/
def gfFdFdtableExpand (memory : Bool) (nr : Nat) : Bool × FdTable :=
  if memory then
    let entries := match t.fdentries with
      | some oldfds => copyEntries oldfds t.maxFds
      | none => zeroEntries
    (true, ⟨expandedMax nr, some (chainFdEntries entries t.maxFds (expandedMax nr)), t.maxFds⟩)
  else (false, { t with fdentries := none })

/-- `gf_fd_fdtable_alloc` -/
def gfFdFdtableAlloc : FdTable := (gfFdFdtableExpand ⟨0, none, 0⟩ true 0).2

/-- `__gf_fd_fdtable_get_all_fds` -/
def gfFdFdtableGetAllFds (memory : Bool) : Option (Nat → FdEntry) × FdTable :=
  (t.fdentries,
    { t with fdentries := if memory then some (chainFdEntries zeroEntries 0 t.maxFds) else none })

/-- `gf_fd_unused_get` with the number of times it may still expand the table.  The
result is the index, or -1. -/
def gfFdUnusedGet (memory : Bool) (fdptr : Fd) : Nat → FdTable → Option (Int × FdTable)
  | attempts, t =>
    if t.firstFree ≠ fdtableEnd then
      t.fdentries.map fun entries =>
        let fd := t.firstFree.toNat
        (t.firstFree, { t with
            fdentries := some (Function.update entries fd ⟨some fdptr, fdentryAllocated⟩)
            firstFree := (entries fd).nextFree })
    else match attempts with
      | 0 => some (-1, t)
      | attempts + 1 =>
        match t.gfFdFdtableExpand memory (t.maxFds + 1) with
        | (false, t) => some (-1, t)
        | (true, t) => gfFdUnusedGet memory fdptr attempts t

/-- The end of `gf_fd_put` and `gf_fdptr_put`. -/
def putEntry (entries : Nat → FdEntry) (fd : Nat) : FdTable :=
  if (entries fd).nextFree ≠ fdentryAllocated then t
  else { t with
    fdentries := some (Function.update entries fd ⟨none, t.firstFree⟩)
    firstFree := fd }

/-- `gf_fd_put` -/
def gfFdPut (fd : Int) : Option FdTable :=
  if fd < 0 ∨ ¬fd < t.maxFds then some t
  else t.fdentries.map fun entries => t.putEntry entries fd.toNat

/-- `gf_fdptr_put` -/
def gfFdptrPut (fd : Fd) : Option FdTable :=
  t.fdentries.map fun entries =>
    match (List.range t.maxFds).find? fun i => (entries i).fd = some fd with
    | none => t
    | some i => t.putEntry entries i

end FdTable

inductive FdLabel
  | unusedGet (memory : Bool) (fdptr : Fd)
  | put (fd : Int)
  | fdptrPut (fd : Fd)
  | getAllFds (memory : Bool)
  deriving DecidableEq

def fdStep (t : FdTable) : FdLabel → Option FdTable
  | .unusedGet memory fdptr => (FdTable.gfFdUnusedGet memory fdptr 2 t).map Prod.snd
  | .put fd => t.gfFdPut fd
  | .fdptrPut fd => t.gfFdptrPut fd
  | .getAllFds memory => some (t.gfFdFdtableGetAllFds memory).2

end GlusterFS.Fds
