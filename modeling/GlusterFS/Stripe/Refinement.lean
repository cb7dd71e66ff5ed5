import GlusterFS.Stripe.StripedFile

/-!
# A striped file behaves as one flat sparse file

The children of a file refine a flat file when every byte of the flat file is
at its place on its child and no child reaches past the end, which some child
does reach.  Every write and truncation keeps this, and a file that refines a
flat one cannot be told from it by reading or by asking for its size.
-/

namespace GlusterFS.Stripe

variable {Byte : Type*} [Zero Byte] {fctx : StripeFdCtx}

structure Refines (children : Children Byte fctx) (flat : SparseFile Byte) : Prop where
  content : ∀ offset,
    (children (fctx.childOf offset)).data (fctx.destOffset offset) = flat.data offset
  bounded : ∀ index, fctx.correctFileSize index (children index).size ≤ flat.size
  reached : 0 < flat.size →
    fctx.destOffset (flat.size - 1) < (children (fctx.childOf (flat.size - 1))).size

theorem refines_empty : Refines (fun _ : Fin fctx.stripeCount => SparseFile.empty)
      (SparseFile.empty : SparseFile Byte) where
  content _ := rfl
  bounded index := by simp [StripeFdCtx.correctFileSize_eq, SparseFile.empty]
  reached hpos := absurd hpos (Nat.lt_irrefl _)

namespace Refines

variable {children : Children Byte fctx} {flat : SparseFile Byte} {offset length : Nat}

theorem fstatSize_eq (hrefines : Refines children flat) : fstatSize children = flat.size := by
  refine Nat.le_antisymm ((fstatSize_le_iff children _).mpr hrefines.bounded) ?_
  rcases Nat.eq_zero_or_pos flat.size with hzero | hpos
  · omega
  have hcorrect := (fstatSize_le_iff children _).mp (Nat.le_refl _) (fctx.childOf (flat.size - 1))
  have hlast := StripeFdCtx.correctFileSize_le_iff.mp hcorrect _ (hrefines.reached hpos)
  rw [StripeFdCtx.fileOffset_destOffset] at hlast
  omega

end Refines

/-! ## Truncation -/

theorem truncateChildren_refines {children : Children Byte fctx}
    {flat : SparseFile Byte} (hrefines : Refines children flat) (offset : Nat) :
    Refines (truncateChildren children offset) (flat.truncate offset) where
  content position := by
    simp only [truncateChildren, SparseFile.truncate_data,
      StripeFdCtx.lt_truncateOffset_iff, hrefines.content]
  bounded index := by
    refine StripeFdCtx.correctFileSize_le_iff.mpr fun position hposition => ?_
    by_cases hcoalesce : fctx.stripeCoalesce
    · obtain ⟨hchild, hdest⟩ := StripeFdCtx.childOf_fileOffset hcoalesce index position
      refine (fctx.lt_truncateOffset_iff offset _).mp ?_
      rwa [hchild, hdest]
    · simpa [truncateChildren, StripeFdCtx.fileOffset, StripeFdCtx.truncateOffset,
        hcoalesce] using hposition
  reached hpos := by
    simp only [truncateChildren, SparseFile.truncate_size] at hpos ⊢
    exact (fctx.lt_truncateOffset_iff offset _).mpr (by omega)

/-! ## Writing -/

/-- Which bytes of the file a piece covers, seen from the children. -/
theorem mem_chunk_iff {offset length : Nat}
    (hunit : offset % fctx.stripeSize + length ≤ fctx.stripeSize) (position : Nat) :
    offset ≤ position ∧ position < offset + length ↔ fctx.childOf position = fctx.childOf offset ∧
        fctx.destOffset offset ≤ fctx.destOffset position ∧
          fctx.destOffset position < fctx.destOffset offset + length := by
  constructor
  · rintro ⟨hle, hlt⟩
    obtain ⟨index, rfl⟩ := Nat.exists_eq_add_of_le hle
    rw [StripeFdCtx.childOf_add (by omega), StripeFdCtx.destOffset_add (by omega)]
    exact ⟨rfl, by omega, by omega⟩
  · rintro ⟨hchild, hle, hlt⟩
    have hdest := fctx.destOffset_eq position
    have hstart := fctx.destOffset_eq offset
    obtain ⟨rest, hrest⟩ : ∃ rest, fctx.destOffset position =
        fctx.row offset * fctx.stripeSize + rest :=
      Nat.exists_eq_add_of_le (by omega)
    have hrow : fctx.row position = fctx.row offset := by
      have hdiv := congrArg (· / fctx.stripeSize) (hdest.symm.trans hrest)
      simpa only [mul_add_div_of_lt StripeFdCtx.mod_lt_stripeSize,
        mul_add_div_of_lt (show rest < fctx.stripeSize by omega)] using hdiv
    have hposition := Nat.div_add_mod' position fctx.stripeSize
    have hoffset := Nat.div_add_mod' offset fctx.stripeSize
    rw [StripeFdCtx.unit_eq hchild hrow] at hposition
    rw [hrow] at hdest
    omega

theorem writeChunk_refines {children : Children Byte fctx} {flat : SparseFile Byte}
    (hrefines : Refines children flat) {offset : Nat} {bytes : List Byte}
    (hunit : offset % fctx.stripeSize + bytes.length ≤ fctx.stripeSize)
    (hbytes : bytes ≠ []) :
    Refines (writeChunk children offset bytes) (flat.write offset bytes) where
  content position := by
    rw [SparseFile.write_data]
    by_cases hchild : fctx.childOf position = fctx.childOf offset
    · have hmem := mem_chunk_iff hunit position
      simp only [writeChunk, hchild, Function.update_self, SparseFile.write_data]
      by_cases hin : offset ≤ position ∧ position < offset + bytes.length
      · rw [if_pos (hmem.mp hin).2, if_pos hin]
        obtain ⟨index, rfl⟩ := Nat.exists_eq_add_of_le hin.1
        rw [StripeFdCtx.destOffset_add (by omega), Nat.add_sub_cancel_left, Nat.add_sub_cancel_left]
      · rw [if_neg fun hdest => hin (hmem.mpr ⟨hchild, hdest⟩), if_neg hin, ← hchild,
          hrefines.content]
    · rw [if_neg fun hin => hchild ((mem_chunk_iff hunit position).mp hin).1,
        writeChunk, Function.update_of_ne hchild, hrefines.content]
  bounded index := by
    have hlength := List.length_pos_iff.mpr hbytes
    rw [SparseFile.write_size hbytes]
    by_cases hchild : index = fctx.childOf offset
    · subst hchild
      refine StripeFdCtx.correctFileSize_le_iff.mpr fun position hposition => ?_
      rw [writeChunk, Function.update_self, SparseFile.write_size hbytes] at hposition
      rcases Nat.lt_or_ge position (children (fctx.childOf offset)).size with hold | hnew
      · have := StripeFdCtx.correctFileSize_le_iff.mp (hrefines.bounded _) _ hold
        omega
      · have hle : position ≤ fctx.destOffset (offset + (bytes.length - 1)) := by
          rw [StripeFdCtx.destOffset_add (by omega)]
          omega
        have hplace := StripeFdCtx.fileOffset_le (fctx.childOf (offset + (bytes.length - 1))) hle
        rw [StripeFdCtx.fileOffset_destOffset, StripeFdCtx.childOf_add (by omega)] at hplace
        omega
    · rw [writeChunk, Function.update_of_ne hchild]
      have := hrefines.bounded index
      omega
  reached _ := by
    have hlength := List.length_pos_iff.mpr hbytes
    rw [SparseFile.write_size hbytes]
    rcases Nat.lt_or_ge flat.size (offset + bytes.length) with hgrow | hinside
    · have hlast : max flat.size (offset + bytes.length) - 1 =
          offset + (bytes.length - 1) := by omega
      rw [hlast, StripeFdCtx.childOf_add (by omega), StripeFdCtx.destOffset_add (by omega),
        writeChunk, Function.update_self, SparseFile.write_size hbytes]
      omega
    · rw [Nat.max_eq_left hinside]
      have hlast := hrefines.reached (by omega)
      refine Nat.lt_of_lt_of_le hlast ?_
      by_cases hchild : fctx.childOf (flat.size - 1) = fctx.childOf offset
      · rw [hchild, writeChunk, Function.update_self, SparseFile.write_size hbytes]
        exact Nat.le_max_left _ _
      · rw [writeChunk, Function.update_of_ne hchild]

theorem stripeWritevLoop_refines (vector : List (List Byte)) (offset : Nat) :
    ∀ (fuel : Nat) (children : Children Byte fctx) (flat : SparseFile Byte)
      (offsetOffset remainingSize : Nat), Refines children flat →
      offsetOffset + remainingSize = vector.flatten.length → 0 < remainingSize →
      remainingSize ≤ fuel →
      Refines (stripeWritevLoop vector offset fuel children offsetOffset remainingSize)
        (flat.write (offset + offsetOffset) (vector.flatten.drop offsetOffset)) := by
  intro fuel
  induction fuel with
  | zero =>
    intro children flat offsetOffset remainingSize _ _ hpos hfuel
    omega
  | succ fuel ih =>
    intro children flat offsetOffset remainingSize hrefines htotal hpos hfuel
    rw [stripeWritevLoop]
    have hmod : (offset + offsetOffset) % fctx.stripeSize < fctx.stripeSize :=
      StripeFdCtx.mod_lt_stripeSize
    generalize hfill : min (fctx.stripeSize -
      (offset + offsetOffset) % fctx.stripeSize) remainingSize = fillSize
    have hsubset : (iovSubset offsetOffset (offsetOffset + fillSize) 0 vector).flatten =
        (vector.flatten.drop offsetOffset).take fillSize := by
      rw [flatten_iovSubset (by omega), Nat.sub_zero, Nat.max_eq_left (by omega),
        Nat.add_sub_cancel_left]
    have hlength : ((vector.flatten.drop offsetOffset).take fillSize).length =
        fillSize := by
      rw [List.length_take, List.length_drop]
      omega
    have hchunk : Refines (writeChunk children (offset + offsetOffset)
          ((vector.flatten.drop offsetOffset).take fillSize))
        (flat.write (offset + offsetOffset) ((vector.flatten.drop offsetOffset).take fillSize)) :=
      writeChunk_refines hrefines (by omega) (List.ne_nil_of_length_pos (by omega))
    have hwhole : flat.write (offset + offsetOffset) (vector.flatten.drop offsetOffset) =
        (flat.write (offset + offsetOffset)
          ((vector.flatten.drop offsetOffset).take fillSize)).write
            (offset + (offsetOffset + fillSize))
            (vector.flatten.drop (offsetOffset + fillSize)) := by
      conv_lhs => rw [← List.take_append_drop fillSize
        (vector.flatten.drop offsetOffset), SparseFile.write_append, hlength,
        List.drop_drop, Nat.add_assoc]
    simp only [hsubset]
    rw [hwhole]
    split_ifs with hdone
    · have hnone : vector.flatten.drop (offsetOffset + fillSize) = [] :=
        List.drop_eq_nil_of_le (by omega)
      rw [hnone, SparseFile.write_nil]
      exact hchunk
    · exact ih _ _ _ _ hchunk (by omega) (by omega) (by omega)

theorem stripeWritev_refines {children : Children Byte fctx} {flat : SparseFile Byte}
    (hrefines : Refines children flat) {vector : List (List Byte)}
    (hvector : vector.flatten ≠ []) (offset : Nat) :
    Refines (stripeWritev children vector offset) (flat.write offset vector.flatten) := by
  have hpos := List.length_pos_iff.mpr hvector
  rw [stripeWritev, ← List.length_flatten]
  simpa using stripeWritevLoop_refines vector offset vector.flatten.length children flat
    0 vector.flatten.length hrefines (by omega) hpos (Nat.le_refl _)

/-! ## Reading -/

section Replies

variable {children : Children Byte fctx} {flat : SparseFile Byte} {offset length : Nat}

/-- The bytes a child has for a piece are bytes of the flat file. -/
theorem Refines.data_add (hrefines : Refines children flat)
    (hunit : offset % fctx.stripeSize + length ≤ fctx.stripeSize) {index : Nat}
    (hindex : index < length) :
    (children (fctx.childOf offset)).data (fctx.destOffset offset + index) =
      flat.data (offset + index) := by
  rw [← hrefines.content, StripeFdCtx.childOf_add (by omega), StripeFdCtx.destOffset_add (by omega)]

/-- A piece that holds the end of the file or lies after it is cut by its child
where the file ends. -/
theorem Refines.read_last (hrefines : Refines children flat)
    (hunit : offset % fctx.stripeSize + length ≤ fctx.stripeSize)
    (hlast : flat.size < offset + length) :
    (children (fctx.childOf offset)).read (fctx.destOffset offset) length =
      flat.read offset length := by
  refine SparseFile.read_congr (fun index hindex => hrefines.data_add hunit hindex) ?_
  have hupper (index : Nat) (hindex : index < length) (hsize : fctx.destOffset offset + index <
        (children (fctx.childOf offset)).size) : offset + index < flat.size := by
    have hbound := StripeFdCtx.correctFileSize_le_iff.mp (hrefines.bounded _) _ hsize
    have hunit : offset % fctx.stripeSize + index < fctx.stripeSize := by omega
    rwa [← StripeFdCtx.childOf_add hunit, ← StripeFdCtx.destOffset_add hunit,
      StripeFdCtx.fileOffset_destOffset] at hbound
  rcases Nat.lt_or_ge offset flat.size with hbefore | hafter
  · have hreached := hrefines.reached (by omega)
    obtain ⟨index, hindex⟩ := Nat.exists_eq_add_of_le (Nat.le_sub_one_of_lt hbefore)
    rw [hindex, StripeFdCtx.childOf_add (by omega),
      StripeFdCtx.destOffset_add (by omega)] at hreached
    have hnext := hupper (index + 1) (by omega)
    omega
  · have hfirst := hupper 0
    omega

/-- What `stripe_readv_fstat_cbk` makes of one answer. -/
theorem Refines.fill_reply (hrefines : Refines children flat) {start : Nat}
    (hunit : (offset + start) % fctx.stripeSize + length ≤ fctx.stripeSize)
    {reply : StripeReply Byte} (hsize : reply.requestedSize = length)
    (hreply : reply.vector = (children (fctx.childOf (offset + start))).read
      (fctx.destOffset (offset + start)) length) :
    reply.vector ++ List.replicate (if reply.Short ∧ flat.size >
            offset + ((flat.read offset start).length + reply.vector.length) then
          reply.requestedSize - reply.vector.length
        else 0) 0 =
      flat.read (offset + start) length := by
  have hlength : reply.vector.length ≤ length := by
    rw [hreply, SparseFile.length_read]
    exact Nat.min_le_left _ _
  have hshort : reply.Short ↔ reply.vector.length < length := by rw [← hsize]; rfl
  rw [SparseFile.length_read]
  rcases Nat.lt_or_ge flat.size (offset + start + length) with hlast | hinside
  · have hread := hreply.trans (hrefines.read_last hunit hlast)
    have hcut : reply.vector.length = min length (flat.size - (offset + start)) := by
      rw [hread, SparseFile.length_read]
    rw [if_neg (by rw [hshort]; omega), List.replicate_zero, List.append_nil, hread]
  · have hfilled := SparseFile.read_eq_of_data
      (fun index hindex => hrefines.data_add hunit hindex) hinside
    rw [← hreply] at hfilled
    rw [← hfilled]
    congr 2
    by_cases hfull : reply.vector.length = length
    · rw [if_neg (by rw [hshort]; omega), hfull, Nat.sub_self]
    · rw [if_pos ⟨hshort.mpr (by omega), by omega⟩, hsize]

/-- What the loop of `stripe_readv` has left to do. -/
structure FramesLeft (fctx : StripeFdCtx) (rangeEnd frames index frameOffset : Nat) : Prop where
  le : frameOffset ≤ rangeEnd
  child : frameOffset < rangeEnd → fctx.xlator index = fctx.childOf frameOffset
  count : frames = if frameOffset < rangeEnd then
      (rangeEnd - 1) / fctx.stripeSize - frameOffset / fctx.stripeSize + 1
    else 0

theorem FramesLeft.next {rangeEnd frames index frameOffset : Nat}
    (hleft : FramesLeft fctx rangeEnd (frames + 1) index frameOffset) :
    let frameSize := min (roof (frameOffset + 1) fctx.stripeSize) rangeEnd - frameOffset
    frameOffset < rangeEnd ∧ frameOffset % fctx.stripeSize + frameSize ≤ fctx.stripeSize ∧
      FramesLeft fctx rangeEnd frames (index + 1) (frameOffset + frameSize) := by
  obtain ⟨hle, hchild, hcount⟩ := hleft
  have hlt : frameOffset < rangeEnd := by
    by_contra hnot
    rw [if_neg hnot] at hcount
    omega
  rw [if_pos hlt] at hcount
  have hroof : roof (frameOffset + 1) fctx.stripeSize =
      (frameOffset / fctx.stripeSize + 1) * fctx.stripeSize := by
    rw [roof, Nat.add_right_comm, Nat.add_sub_cancel, Nat.add_div_right _ fctx.stripeSize_pos]
  have hframe := Nat.div_add_mod' frameOffset fctx.stripeSize
  have hlast := Nat.div_add_mod' (rangeEnd - 1) fctx.stripeSize
  have hframeMod : frameOffset % fctx.stripeSize < fctx.stripeSize :=
    StripeFdCtx.mod_lt_stripeSize
  have hlastMod : (rangeEnd - 1) % fctx.stripeSize < fctx.stripeSize :=
    StripeFdCtx.mod_lt_stripeSize
  have hunits : frameOffset / fctx.stripeSize ≤ (rangeEnd - 1) / fctx.stripeSize :=
    Nat.div_le_div_right (by omega)
  simp only [hroof]
  rcases Nat.eq_or_lt_of_le hunits with hsame | hmore
  -- The range ends in this unit.
  · rw [← hsame] at hlast
    rw [Nat.min_eq_right (by rw [Nat.add_mul]; omega)]
    refine ⟨hlt, by omega, by omega, fun hnot => by omega, ?_⟩
    rw [if_neg (by omega)]
    omega
  -- The frame goes on to the end of the unit.
  · have hnext : (frameOffset / fctx.stripeSize + 1) * fctx.stripeSize ≤
        (rangeEnd - 1) / fctx.stripeSize * fctx.stripeSize :=
      Nat.mul_le_mul_right _ hmore
    rw [Nat.min_eq_left (by omega)]
    have hend : frameOffset + ((frameOffset / fctx.stripeSize + 1) * fctx.stripeSize -
        frameOffset) = (frameOffset / fctx.stripeSize + 1) * fctx.stripeSize := by
      rw [Nat.add_mul] at hnext ⊢
      omega
    have hdiv : (frameOffset / fctx.stripeSize + 1) * fctx.stripeSize /
        fctx.stripeSize = frameOffset / fctx.stripeSize + 1 :=
      Nat.mul_div_cancel _ fctx.stripeSize_pos
    refine ⟨hlt, by rw [Nat.add_mul]; omega, by omega, fun _ => ?_, ?_⟩
    · have hmod : index % fctx.stripeCount = frameOffset / fctx.stripeSize % fctx.stripeCount :=
        congrArg Fin.val (hchild hlt)
      refine Fin.ext ?_
      rw [hend, StripeFdCtx.childOf, hdiv]
      simp only [StripeFdCtx.xlator]
      rw [Nat.add_mod, hmod, ← Nat.add_mod]
    · rw [hend, hdiv, if_pos (by omega)]
      omega

theorem fillReplies_readReplies (hrefines : Refines children flat) (rangeEnd : Nat) :
    ∀ frames index start : Nat, FramesLeft fctx rangeEnd frames index (offset + start) →
      fillReplies flat.size offset (flat.read offset start).length
          (readReplies children rangeEnd frames index (offset + start)) =
        flat.read (offset + start) (rangeEnd - (offset + start)) := by
  intro frames
  induction frames with
  | zero =>
    intro index start hleft
    have hcount := hleft.count
    split_ifs at hcount with hlt
    have hzero : rangeEnd - (offset + start) = 0 := by omega
    rw [hzero, readReplies, fillReplies, eq_comm, ← List.length_eq_zero_iff,
      SparseFile.length_read, Nat.zero_min]
  | succ frames ih =>
    intro index start hleft
    obtain ⟨hlt, hunit, hnext⟩ := hleft.next
    rw [readReplies, hleft.child hlt]
    generalize min (roof (offset + start + 1) fctx.stripeSize) rangeEnd -
      (offset + start) = frameSize at hunit hnext ⊢
    have hle := hnext.le
    have hsplit : rangeEnd - (offset + start) =
        frameSize + (rangeEnd - (offset + (start + frameSize))) := by omega
    rw [Nat.add_assoc] at hnext ⊢
    obtain ⟨reply, hreply⟩ : ∃ reply : StripeReply Byte, reply =
        ⟨frameSize, (children (fctx.childOf (offset + start))).read
          (fctx.destOffset (offset + start)) frameSize⟩ := ⟨_, rfl⟩
    have hfill := hrefines.fill_reply hunit
      (congrArg StripeReply.requestedSize hreply) (congrArg StripeReply.vector hreply)
    rw [← hreply, fillReplies]
    generalize (if reply.Short ∧ flat.size >
      offset + ((flat.read offset start).length + reply.vector.length) then
        reply.requestedSize - reply.vector.length else 0) = missing at hfill ⊢
    have hopRet : (flat.read offset start).length + reply.vector.length + missing =
        (flat.read offset (start + frameSize)).length := by
      rw [SparseFile.read_append, List.length_append, ← hfill, List.length_append,
        List.length_replicate, Nat.add_assoc]
    rw [hopRet, ih _ _ hnext, ← List.append_assoc, hfill, hsplit,
      SparseFile.read_append, Nat.add_assoc]

end Replies

theorem fillReplies_of_full (stbufSize offset opRet : Nat)
    {replies : List (StripeReply Byte)} (hfull : ∀ reply ∈ replies, ¬reply.Short) :
    fillReplies stbufSize offset opRet replies = (replies.map StripeReply.vector).flatten := by
  induction replies generalizing opRet with
  | nil => rfl
  | cons reply replies ih =>
    obtain ⟨hreply, hreplies⟩ := List.forall_mem_cons.mp hfull
    simp [fillReplies, hreply, ih _ hreplies]

theorem stripeReadv_eq {children : Children Byte fctx} {flat : SparseFile Byte}
    (hrefines : Refines children flat) {size : Nat} (hsize : 0 < size) (offset : Nat) :
    stripeReadv children size offset = flat.read offset size := by
  have hleft : FramesLeft fctx (offset + size)
      ((roof (offset + size) fctx.stripeSize - floor offset fctx.stripeSize) / fctx.stripeSize)
      (offset / fctx.stripeSize % fctx.stripeCount) (offset + 0) := by
    refine ⟨by omega, fun _ => Fin.ext (Nat.mod_mod _ _), ?_⟩
    have hround : offset + size + fctx.stripeSize - 1 =
        offset + size - 1 + fctx.stripeSize := by omega
    have hunits : offset / fctx.stripeSize ≤ (offset + size - 1) / fctx.stripeSize :=
      Nat.div_le_div_right (by omega)
    rw [if_pos (by omega), roof, floor, hround, Nat.add_div_right _ fctx.stripeSize_pos,
      ← Nat.sub_mul, Nat.mul_div_cancel _ fctx.stripeSize_pos]
    simp only [Nat.add_zero]
    omega
  have hfill := fillReplies_readReplies hrefines (offset + size) _ _ _ hleft
  have hempty : (flat.read offset 0).length = 0 := by simp
  rw [hempty, Nat.add_zero, Nat.add_sub_cancel_left, ← hrefines.fstatSize_eq] at hfill
  rw [stripeReadv]
  split_ifs with hshort
  · exact hfill
  · rw [← hfill]
    exact (fillReplies_of_full _ _ _ fun reply hreply hreplyShort =>
      hshort ⟨reply, hreply, hreplyShort⟩).symm

/-! ## Runs -/

/-- The calls that change the file. -/
inductive StripeOp (Byte : Type*) where
  | writev (vector : List (List Byte)) (offset : Nat) (nonempty : vector.flatten ≠ [])
  | truncate (offset : Nat)
  | ftruncate (offset : Nat)

namespace StripeOp

def onStriped (children : Children Byte fctx) : StripeOp Byte → Children Byte fctx
  | writev vector offset _ => stripeWritev children vector offset
  | truncate offset => stripeTruncate children offset
  | ftruncate offset => stripeFtruncate children offset

/-- The call on a file that is not striped. -/
def onFlat (file : SparseFile Byte) : StripeOp Byte → SparseFile Byte
  | writev vector offset _ => file.write offset vector.flatten
  | truncate offset => file.truncate offset
  | ftruncate offset => file.truncate offset

theorem onStriped_refines {children : Children Byte fctx} {flat : SparseFile Byte}
    (hrefines : Refines children flat) (op : StripeOp Byte) :
    Refines (onStriped children op) (onFlat flat op) := by
  cases op with
  | writev vector offset hvector => exact stripeWritev_refines hrefines hvector offset
  | truncate offset => exact truncateChildren_refines hrefines offset
  | ftruncate offset => exact truncateChildren_refines hrefines offset

end StripeOp

/-- The children after a sequence of calls on a new file. -/
def runStriped (fctx : StripeFdCtx) (ops : List (StripeOp Byte)) : Children Byte fctx :=
  ops.foldl StripeOp.onStriped fun _ => SparseFile.empty

def runFlat (ops : List (StripeOp Byte)) : SparseFile Byte :=
  ops.foldl StripeOp.onFlat SparseFile.empty

theorem foldl_refines {children : Children Byte fctx} {flat : SparseFile Byte}
    (hrefines : Refines children flat) (ops : List (StripeOp Byte)) :
    Refines (ops.foldl StripeOp.onStriped children) (ops.foldl StripeOp.onFlat flat) := by
  induction ops generalizing children flat with
  | nil => exact hrefines
  | cons op ops ih => exact ih (StripeOp.onStriped_refines hrefines op)

/-- Reads and sizes of a striped file are those of a flat file that saw the same
calls, whatever the stripe size, the number of children and the offset mode. -/
theorem stripe_refines_flat (fctx : StripeFdCtx) (ops : List (StripeOp Byte))
    (size offset : Nat) (hsize : 0 < size) :
    stripeReadv (runStriped fctx ops) size offset = (runFlat ops).read offset size ∧
      fstatSize (runStriped fctx ops) = (runFlat ops).size := by
  have hrefines : Refines (runStriped fctx ops) (runFlat ops) :=
    foldl_refines refines_empty ops
  exact ⟨stripeReadv_eq hrefines hsize offset, hrefines.fstatSize_eq⟩

/-- A write over three units, a cut inside the second child's unit and a write
that leaves a hole before it, on two coalescing children. -/
theorem stripe_refines_flat_twoChildren :
    let fctx : StripeFdCtx := ⟨2, 2, true, by decide, by decide⟩
    let ops : List (StripeOp Nat) :=
      [.writev [[1, 2, 3], [4]] 1 (by decide), .truncate 3, .writev [[5]] 8 (by decide)]
    stripeReadv (runStriped fctx ops) 10 1 = [1, 2, 0, 0, 0, 0, 0, 5] ∧
      fstatSize (runStriped fctx ops) = 9 := by
  intro fctx ops
  obtain ⟨hread, hsize⟩ := stripe_refines_flat fctx ops 10 1 (by decide)
  exact ⟨hread.trans (by decide), hsize.trans (by decide)⟩

end GlusterFS.Stripe
