import GlusterFS.Core.SparseFile
import GlusterFS.Stripe.Layout

/-!
# Reading, writing and truncating a striped file

The children are sparse files that answer every request.  A request is cut at
the unit boundaries and each piece goes to the child that owns the unit.  The
sizes of a request (`total_size`, `remaining_size`, `requested_size`) are
`int32_t` in the source and natural numbers here: requests are under 2 GiB.
-/

namespace GlusterFS.Stripe

variable {Byte : Type*}

/-- `iov_subset`: the part of the vectors between two offsets.  `offset` is
where the first of the vectors starts. -/
def iovSubset (srcOffset dstOffset : Nat) (offset : Nat) : List (List Byte) → List (List Byte)
  | [] => []
  | iov :: vector =>
    let rest := iovSubset srcOffset dstOffset (offset + iov.length) vector
    if offset + iov.length < srcOffset ∨ offset > dstOffset then rest
    else
      let startOffset := if srcOffset ≥ offset then srcOffset - offset else 0
      let endOffset :=
        if dstOffset ≤ offset + iov.length then dstOffset - offset else iov.length
      (iov.drop startOffset).take (endOffset - startOffset) :: rest

/-- `iov_subset` cuts the bytes without regard to the vectors' borders. -/
theorem flatten_iovSubset {srcOffset dstOffset : Nat} (hle : srcOffset ≤ dstOffset)
    (vector : List (List Byte)) (offset : Nat) :
    (iovSubset srcOffset dstOffset offset vector).flatten =
      (vector.flatten.drop (srcOffset - offset)).take (dstOffset - max srcOffset offset) := by
  induction vector generalizing offset with
  | nil => simp [iovSubset]
  | cons iov vector ih =>
    have hrest : dstOffset - max srcOffset offset - (iov.length - (srcOffset - offset)) =
          dstOffset - max srcOffset (offset + iov.length) := by omega
    rw [List.flatten_cons, List.drop_append, List.take_append, List.length_drop,
      hrest, Nat.sub_sub, ← ih, iovSubset]
    have hstart : (if srcOffset ≥ offset then srcOffset - offset else 0) =
        srcOffset - offset := by split_ifs <;> omega
    simp only [hstart]
    split_ifs with hskip hdst
    · have hnone : min (dstOffset - max srcOffset offset)
          (iov.length - (srcOffset - offset)) = 0 := by omega
      rw [← List.length_drop, ← List.length_take, List.length_eq_zero_iff] at hnone
      rw [hnone, List.nil_append]
    · rw [List.flatten_cons]
      congr 2
      omega
    · rw [List.flatten_cons]
      congr 1
      rw [List.take_eq_take_iff, List.length_drop]
      omega

variable [Zero Byte]

/-- The child files of a striped file. -/
abbrev Children (Byte : Type*) [Zero Byte] (fctx : StripeFdCtx) :=
  Fin fctx.stripeCount → SparseFile Byte

variable {fctx : StripeFdCtx}

/-- The size after `stripe_fstat_cbk` has seen every child. -/
def fstatSize (children : Children Byte fctx) : Nat :=
  (List.finRange fctx.stripeCount).foldl (fun stbufSize index =>
      max stbufSize (fctx.correctFileSize index (children index).size)) 0

theorem foldl_max_le_iff {ι : Type*} (value : ι → Nat) (indices : List ι) (start bound : Nat) :
    indices.foldl (fun current index => max current (value index)) start ≤ bound ↔
      start ≤ bound ∧ ∀ index ∈ indices, value index ≤ bound := by
  induction indices generalizing start with
  | nil => simp
  | cons index indices ih =>
    rw [List.foldl_cons, ih, List.forall_mem_cons, Nat.max_le, and_assoc]

theorem fstatSize_le_iff (children : Children Byte fctx) (bound : Nat) :
    fstatSize children ≤ bound ↔
      ∀ index, fctx.correctFileSize index (children index).size ≤ bound := by
  simp [fstatSize, foldl_max_le_iff]

/-- The loop that `stripe_truncate` and `stripe_ftruncate` share. -/
def truncateChildren (children : Children Byte fctx) (offset : Nat) :
    Children Byte fctx :=
  fun i => (children i).truncate (fctx.truncateOffset offset i)

def stripeTruncate (children : Children Byte fctx) (offset : Nat) :
    Children Byte fctx :=
  truncateChildren children offset

def stripeFtruncate (children : Children Byte fctx) (offset : Nat) :
    Children Byte fctx :=
  truncateChildren children offset

/-- One piece of a write, inside one unit. -/
def writeChunk (children : Children Byte fctx) (offset : Nat) (bytes : List Byte) :
    Children Byte fctx :=
  Function.update children (fctx.childOf offset)
    ((children (fctx.childOf offset)).write (fctx.destOffset offset) bytes)

/-- The loop of `stripe_writev`.  Each turn but the last writes at least one
byte, so `total_size` turns are enough. -/
def stripeWritevLoop (vector : List (List Byte)) (offset : Nat) :
    Nat → Children Byte fctx → Nat → Nat → Children Byte fctx
  | 0, children, _, _ => children
  | fuel + 1, children, offsetOffset, remainingSize =>
    let fillSize :=
      min (fctx.stripeSize - (offset + offsetOffset) % fctx.stripeSize) remainingSize
    let tmpVec := iovSubset offsetOffset (offsetOffset + fillSize) 0 vector
    let children := writeChunk children (offset + offsetOffset) tmpVec.flatten
    if remainingSize - fillSize = 0 then children
    else
      stripeWritevLoop vector offset fuel children (offsetOffset + fillSize)
        (remainingSize - fillSize)

def stripeWritev (children : Children Byte fctx) (vector : List (List Byte))
    (offset : Nat) : Children Byte fctx :=
  let totalSize := (vector.map List.length).sum
  stripeWritevLoop vector offset totalSize children 0 totalSize

/-- What `stripe_readv_cbk` keeps of a child's answer. -/
structure StripeReply (Byte : Type*) where
  requestedSize : Nat
  vector : List Byte

/-- `op_ret` falls short of what was asked for. -/
def StripeReply.Short (reply : StripeReply Byte) : Prop :=
  reply.vector.length < reply.requestedSize
  deriving Decidable

/-- The loop of `stripe_readv`, with the answers to what it winds. -/
def readReplies (children : Children Byte fctx) (rangeEnd : Nat) :
    Nat → Nat → Nat → List (StripeReply Byte)
  | 0, _, _ => []
  | frames + 1, index, frameOffset =>
    let frameSize :=
      min (roof (frameOffset + 1) fctx.stripeSize) rangeEnd - frameOffset
    { requestedSize := frameSize
      vector := (children (fctx.xlator index)).read
        (fctx.destOffset frameOffset) frameSize } ::
      readReplies children rangeEnd frames (index + 1) (frameOffset + frameSize)

/-- The loop of `stripe_readv_fstat_cbk`: a short answer before the end of the
file is filled up with zeroes. -/
def fillReplies (stbufSize offset : Nat) : Nat → List (StripeReply Byte) → List Byte
  | _, [] => []
  | opRet, reply :: replies =>
    let opRet := opRet + reply.vector.length
    let missing :=
      if reply.Short ∧ stbufSize > offset + opRet then
        reply.requestedSize - reply.vector.length
      else 0
    reply.vector ++ (List.replicate missing 0 ++
      fillReplies stbufSize offset (opRet + missing) replies)

def stripeReadv (children : Children Byte fctx) (size offset : Nat) : List Byte :=
  let roundedStart := floor offset fctx.stripeSize
  let roundedEnd := roof (offset + size) fctx.stripeSize
  let numStripe := (roundedEnd - roundedStart) / fctx.stripeSize
  let offIndex := offset / fctx.stripeSize % fctx.stripeCount
  let replies := readReplies children (offset + size) numStripe offIndex offset
  if ∃ reply ∈ replies, reply.Short then
    fillReplies (fstatSize children) offset 0 replies
  else (replies.map StripeReply.vector).flatten

end GlusterFS.Stripe
