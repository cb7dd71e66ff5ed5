import GlusterFS.Core.Tiling
import GlusterFS.WriteBehind.InProgress

/-!
# The bytes that a request holds

A buffered write holds its own bytes and those of the writes collapsed into it,
one after the other.  `__wb_collapse_small_writes` only keeps this up when the
first iovec of the holder is all of it: the new iovec counts from its length.
-/

namespace GlusterFS.WriteBehind

open Relation GlusterFS.Transition GlusterFS.Tiling

variable {Byte : Type*} {s t : WbState Byte} {id : ReqId}

/-- The bytes of a call as a portion. -/
def CallStub.portion (stub : CallStub Byte) (id : ReqId) : Portion Byte :=
  ⟨id, stub.offset, stub.bytes⟩

def WbRequest.carried (req : WbRequest Byte) : List ReqId := req.carries.map Portion.id

theorem Keeps.carried (hkeeps : Keeps s t) (id : ReqId) : (t.req id).carried = (s.req id).carried :=
  congrArg (List.map Portion.id) (hkeeps.carries id)

/-- The positions in the file that a call is about. -/
def CallStub.Touches (stub : CallStub Byte) (position : Nat) : Prop :=
  match stub.fop with
  | .write => Occupies Portion.offset Portion.bytes (stub.portion 0) position
  | .read => stub.offset ≤ position ∧ (stub.size = 0 ∨ position < stub.offset + stub.size)
  | .truncate | .ftruncate => stub.offset ≤ position
  | .flush | .fsync | .stat | .fstat | .setattr | .fsetattr => True

section Records

variable [Zero Byte] {holder req : WbRequest Byte}

theorem carried_absorb (holder req : WbRequest Byte) :
    (holder.absorb req).carried = holder.carried ++ req.carried :=
  List.map_append

/-- The vector of a write is what it carries, at the places where the writes
want it. -/
structure WbRequest.Loaded (req : WbRequest Byte) : Prop where
  unload : iovUnload req.vector = req.carries.flatMap Portion.bytes
  writeSize : req.writeSize = (iovUnload req.vector).length
  laid : Laid Portion.offset Portion.bytes req.stub.offset req.carries
  buffer : req.iobref = true → ∃ base, req.vector = [⟨base, base.length⟩]

/-- The holder has a buffer of its own, or one iovec has all its bytes. -/
def WbRequest.Intact (holder : WbRequest Byte) : Prop :=
  holder.iobref = true ∨ (holder.vector.headD ⟨[], 0⟩).len = holder.writeSize
  deriving Decidable

theorem iovUnload_buffer (base : List Byte) : iovUnload [⟨base, base.length⟩] = base := by
  simp [iovUnload, IoVec.bytes_full]

/-- What collapsing leaves in the vector of an intact holder. -/
theorem WbRequest.Loaded.absorb_vector (hholder : holder.Loaded) (hreq : req.Loaded)
    (hintact : holder.Intact) :
    (holder.absorb req).vector = [⟨iovUnload holder.vector ++ iovUnload req.vector,
        (iovUnload holder.vector ++ iovUnload req.vector).length⟩] := by
  have hbase : (if holder.iobref then (holder.vector.headD ⟨[], 0⟩).base
      else iovUnload holder.vector) = iovUnload holder.vector := by
    split_ifs with hiobref
    · obtain ⟨base, hvector⟩ := hholder.buffer hiobref
      rw [hvector, iovUnload_buffer]
      rfl
    · rfl
  have hlen : (holder.vector.headD ⟨[], 0⟩).len = holder.writeSize := by
    refine hintact.elim (fun hiobref => ?_) id
    obtain ⟨base, hvector⟩ := hholder.buffer hiobref
    rw [hholder.writeSize, hvector, iovUnload_buffer]
    rfl
  have hbuffer : (iovUnload holder.vector ++
      List.replicate (holder.writeSize - (iovUnload holder.vector).length) 0).take
        holder.writeSize = iovUnload holder.vector := by
    simp [hholder.writeSize]
  simp only [WbRequest.absorb, hbase, hlen, hbuffer, List.length_append]
  rw [hholder.writeSize, hreq.writeSize]

/-- A write that follows an intact holder can be collapsed into it. -/
theorem WbRequest.Loaded.absorb (hholder : holder.Loaded) (hreq : req.Loaded)
    (hintact : holder.Intact)
    (hoffset : req.stub.offset = holder.stub.offset + holder.writeSize) :
    (holder.absorb req).Loaded := by
  have hvector := hholder.absorb_vector hreq hintact
  have hunload : iovUnload (holder.absorb req).vector =
      iovUnload holder.vector ++ iovUnload req.vector := by
    rw [hvector, iovUnload_buffer]
  refine ⟨?_, ?_, ?_, fun _ => ⟨_, hvector⟩⟩
  · rw [hunload, hholder.unload, hreq.unload]
    exact List.flatMap_append.symm
  · rw [hunload, List.length_append, ← hholder.writeSize, ← hreq.writeSize]
    rfl
  · refine laid_append.mpr ⟨hholder.laid, ?_⟩
    rw [← hholder.unload, ← hholder.writeSize]
    exact hoffset ▸ hreq.laid

theorem WbRequest.loaded_ofStub (id : ReqId) {stub : CallStub Byte} (tempted : Bool)
    (gen : Nat) (hwrite : stub.fop = .write) :
    (WbRequest.ofStub id stub tempted gen).Loaded where
  unload := by simp [WbRequest.ofStub, iovUnload_iovecs, CallStub.bytes, hwrite]
  writeSize := by
    simp [WbRequest.ofStub, iovUnload_iovecs, iovLength_iovecs, hwrite]
  laid := ⟨rfl, trivial⟩
  buffer h := by cases h

theorem WbRequest.Loaded.covers (hloaded : req.Loaded) (hok : req.Ok)
    (hwrite : req.stub.fop = .write) {portion : Portion Byte} (hmem : portion ∈ req.carries)
    {position : Nat} (hposition : Occupies Portion.offset Portion.bytes portion position) :
    req.Covers position := by
  obtain ⟨hfrom, hto⟩ := hloaded.laid.occupied hmem hposition
  obtain ⟨hoff, hsize⟩ := hok.range hwrite
  rw [WbRequest.Covers, hoff, hsize, hloaded.writeSize, hloaded.unload]
  exact ⟨hfrom, .inr hto⟩

end Records

/-! ## States -/

/-- A portion is the whole of one write, of the same kind and on the same fd as
the request that carries it. -/
structure IsPart (s : WbState Byte) (req : WbRequest Byte) (portion : Portion Byte) : Prop where
  lt_next : portion.id < s.next
  whole : portion = (s.req portion.id).stub.portion portion.id
  tempted : (s.req portion.id).tempted = req.tempted
  fd : (s.req portion.id).fd = req.fd

/-- Every request holds what it carries, and it carries whole writes. -/
structure Content [Zero Byte] (s : WbState Byte) : Prop where
  loaded : ∀ id, (s.req id).stub.fop = .write → (s.req id).Loaded
  parts : ∀ id, ∀ portion ∈ (s.req id).carries, IsPart s (s.req id) portion
  own : ∀ id, id < s.next → (s.req id).stub.portion id ∈ (s.req id).carries
  single : ∀ id, (s.req id).tempted = false → ∀ portion ∈ (s.req id).carries, portion.id = id
  ordering : ∀ id, (s.req id).stub.fop ≠ .write →
    ∀ position, (s.req id).Covers position ↔ (s.req id).stub.Touches position
  fd : ∀ id, (s.req id).stub.fop = .write → (s.req id).fd = (s.req id).stub.fd

section States

variable {req after : WbRequest Byte} {portion : Portion Byte}

theorem IsPart.of_fixed (hpart : IsPart s req portion) (hnext : s.next ≤ t.next)
    (hfixed : ∀ id, id < s.next → (t.req id).fixed = (s.req id).fixed)
    (htempted : after.tempted = req.tempted) (hfd : after.fd = req.fd) :
    IsPart t after portion := by
  have hsame := hfixed portion.id hpart.lt_next
  refine ⟨Nat.lt_of_lt_of_le hpart.lt_next hnext, ?_, ?_, ?_⟩
  · rw [show (t.req portion.id).stub = (s.req portion.id).stub from congrArg (·.1) hsame]
    exact hpart.whole
  · exact (congrArg (·.2.2.2.1) hsame).trans (hpart.tempted.trans htempted.symm)
  · exact (congrArg (·.2.1) hsame).trans (hpart.fd.trans hfd.symm)

variable [Zero Byte] {conf : WbConf}

theorem WbRequest.Loaded.of_data (hloaded : req.Loaded) (hdata : after.data = req.data) :
    after.Loaded := by
  have hstub : after.stub = req.stub := congrArg (·.1.1) hdata
  have hvector : after.vector = req.vector := congrArg (·.2.1.1) hdata
  have hsize : after.writeSize = req.writeSize := congrArg (·.2.1.2.1) hdata
  have hcarries : after.carries = req.carries := congrArg (·.2.1.2.2.2) hdata
  have hiobref : after.iobref = req.iobref := congrArg (·.2.2) hdata
  refine ⟨?_, ?_, ?_, ?_⟩
  · rw [hvector, hcarries, hloaded.unload]
  · rw [hsize, hvector, hloaded.writeSize]
  · rw [hstub, hcarries]
    exact hloaded.laid
  · rw [hiobref, hvector]
    exact hloaded.buffer

theorem Content.keeps (hcontent : Content s) (hkeeps : Keeps s t) : Content t where
  loaded id hwrite := (hcontent.loaded id (hkeeps.stub id ▸ hwrite)).of_data (hkeeps.data id)
  parts id portion hmem :=
    (hcontent.parts id portion (hkeeps.carries id ▸ hmem)).of_fixed
      (Nat.le_of_eq hkeeps.next.symm) (fun other _ => congrArg (·.1) (hkeeps.data other))
      (hkeeps.tempted id) (hkeeps.fd id)
  own id hid := by
    rw [hkeeps.stub, hkeeps.carries]
    exact hcontent.own id (hkeeps.next ▸ hid)
  single id htempted portion hmem :=
    hcontent.single id (hkeeps.tempted id ▸ htempted) portion (hkeeps.carries id ▸ hmem)
  ordering id hfop position := by
    rw [WbRequest.Covers, hkeeps.off, hkeeps.size, hkeeps.stub]
    exact hcontent.ordering id (hkeeps.stub id ▸ hfop) position
  fd id hwrite := by
    rw [hkeeps.fd, hkeeps.stub]
    exact hcontent.fd id (hkeeps.stub id ▸ hwrite)

theorem Content.part_of_carried {carrier : ReqId} (hcontent : Content s)
    (hid : id ∈ (s.req carrier).carried) :
    (s.req id).stub.portion id ∈ (s.req carrier).carries ∧
      IsPart s (s.req carrier) ((s.req id).stub.portion id) := by
  obtain ⟨portion, hportion, rfl⟩ := List.mem_map.mp hid
  have hpart := hcontent.parts carrier portion hportion
  rw [← hpart.whole]
  exact ⟨hportion, hpart⟩

theorem content_create : Content (WbState.create : WbState Byte) where
  loaded _ h := by cases h
  parts _ _ h := by cases h
  own _ h := absurd h (Nat.not_lt_zero _)
  single _ _ _ h := by cases h
  ordering _ _ position := by
    simp [WbState.create, WbRequest.blank, WbRequest.Covers, CallStub.Touches]
  fd _ h := by cases h

omit [Zero Byte] in
theorem ofStub_covers_iff (stub : CallStub Byte) (tempted : Bool) (gen : Nat)
    (hfop : stub.fop ≠ .write) (position : Nat) :
    (WbRequest.ofStub id stub tempted gen).Covers position ↔ stub.Touches position := by
  simp only [WbRequest.Covers, WbRequest.ofStub, CallStub.Touches]
  cases h : stub.fop <;> simp_all

theorem Content.enqueueCommon {stub : CallStub Byte} {tempted : Bool}
    (hcontent : Content s) : Content (s.enqueueCommon stub tempted) := by
  have hnext : (s.enqueueCommon stub tempted).next = s.next + 1 := rfl
  have hself := enqueueCommon_req_next (s := s) stub tempted
  have hother {id : ReqId} (hne : id ≠ s.next) :
      (s.enqueueCommon stub tempted).req id = s.req id := enqueueCommon_req_of_ne hne
  constructor
  case loaded =>
    intro id hwrite
    by_cases h : id = s.next
    · subst h
      rw [hself] at hwrite ⊢
      exact WbRequest.loaded_ofStub _ tempted _ hwrite
    · rw [hother h] at hwrite ⊢
      exact hcontent.loaded id hwrite
  case parts =>
    intro id portion hmem
    by_cases h : id = s.next
    · subst h
      rw [hself] at hmem ⊢
      cases List.mem_singleton.mp hmem
      exact ⟨Nat.lt_succ_self _, by rw [hself]; rfl, by rw [hself], by rw [hself]⟩
    · rw [hother h] at hmem ⊢
      refine (hcontent.parts id portion hmem).of_fixed (Nat.le_succ _) (fun other hlt => ?_) rfl rfl
      rw [hother (Nat.ne_of_lt hlt)]
  case own =>
    intro id hid
    by_cases h : id = s.next
    · subst h
      rw [hself]
      exact List.mem_singleton.mpr rfl
    · rw [hother h]
      exact hcontent.own id (Nat.lt_of_le_of_ne (Nat.le_of_lt_succ hid) h)
  case single =>
    intro id htempted portion hmem
    by_cases h : id = s.next
    · subst h
      rw [hself] at hmem
      cases List.mem_singleton.mp hmem
      rfl
    · rw [hother h] at htempted hmem
      exact hcontent.single id htempted portion hmem
  case ordering =>
    intro id hfop
    by_cases h : id = s.next
    · subst h
      rw [hself] at hfop ⊢
      exact ofStub_covers_iff stub tempted _ hfop
    · rw [hother h] at hfop ⊢
      exact hcontent.ordering id hfop
  case fd =>
    intro id hwrite
    by_cases h : id = s.next
    · subst h
      rw [hself] at hwrite ⊢
      have hwrite : stub.fop = .write := hwrite
      simp [WbRequest.ofStub, hwrite]
    · rw [hother h] at hwrite ⊢
      exact hcontent.fd id hwrite

theorem collapse_data_of_ne {holder other : ReqId} (hlt : holder < id) (hother : other ≠ holder) :
    ((s.collapse holder id).req other).data = (s.req other).data := by
  by_cases h : other = id
  · rw [h, collapse_req_id (Nat.ne_of_lt hlt)]
    rfl
  · rw [collapse_req_of_ne hother h]

theorem collapse_carries_of_ne {holder other : ReqId} (hlt : holder < id)
    (hother : other ≠ holder) :
    ((s.collapse holder id).req other).carries = (s.req other).carries :=
  congrArg (·.2.1.2.2.2) (collapse_data_of_ne (s := s) hlt hother)

theorem Content.collapse {holder : ReqId} (hcontent : Content s) (hok : ∀ id, (s.req id).Ok)
    (hcollapsing : Collapsing conf s holder id) (hintact : (s.req holder).Intact) :
    Content (s.collapse holder id) := by
  obtain ⟨hholder, hid, hlt, hoffset, _, hfd, _⟩ := hcollapsing
  have hself : (s.collapse holder id).req holder = (s.req holder).absorb (s.req id) :=
    collapse_req_holder (Nat.ne_of_lt hlt)
  have hdata {other : ReqId} (hother : other ≠ holder) := collapse_data_of_ne (s := s) hlt hother
  have hnext : (s.collapse holder id).next = s.next := (WbState.fulfillRequest_frame ..).1
  have hfixed (other : ReqId) : ((s.collapse holder id).req other).fixed = (s.req other).fixed :=
    collapse_field WbRequest.fixed (Nat.ne_of_lt hlt) rfl rfl other
  have hstub (other : ReqId) : ((s.collapse holder id).req other).stub = (s.req other).stub :=
    congrArg (·.1) (hfixed other)
  have htempted (other : ReqId) :
      ((s.collapse holder id).req other).tempted = (s.req other).tempted :=
    congrArg (·.2.2.2.1) (hfixed other)
  have hfdKept (other : ReqId) : ((s.collapse holder id).req other).fd = (s.req other).fd :=
    congrArg (·.2.1) (hfixed other)
  have hkept {portion : Portion Byte} {req after : WbRequest Byte} (hpart : IsPart s req portion)
      (htempted : after.tempted = req.tempted) (hfd : after.fd = req.fd) :
      IsPart (s.collapse holder id) after portion :=
    hpart.of_fixed (Nat.le_of_eq hnext.symm) (fun other _ => hfixed other) htempted hfd
  constructor
  case loaded =>
    intro other hwrite
    rw [hstub] at hwrite
    by_cases h : other = holder
    · subst h
      rw [hself]
      exact (hcontent.loaded other hwrite).absorb
        (hcontent.loaded id ((hok id).tempted_write hid.tempted)) hintact hoffset
    · exact (hcontent.loaded other hwrite).of_data (hdata h)
  case parts =>
    intro other portion hmem
    by_cases h : other = holder
    · subst h
      rw [hself] at hmem ⊢
      rcases List.mem_append.mp hmem with hmem | hmem
      · exact hkept (hcontent.parts other portion hmem) rfl rfl
      · exact hkept (hcontent.parts id portion hmem) (hholder.tempted.trans hid.tempted.symm)
          hfd.symm
    · rw [collapse_carries_of_ne hlt h] at hmem
      exact hkept (hcontent.parts other portion hmem) (htempted other) (hfdKept other)
  case own =>
    intro other hother
    have hown := hcontent.own other (hnext ▸ hother)
    rw [hstub]
    by_cases h : other = holder
    · subst h
      rw [hself]
      exact List.mem_append_left _ hown
    · rwa [collapse_carries_of_ne hlt h]
  case single =>
    intro other hcall portion hmem
    rw [htempted] at hcall
    have h : other ≠ holder := by
      rintro rfl
      simp [hholder.tempted] at hcall
    rw [collapse_carries_of_ne hlt h] at hmem
    exact hcontent.single other hcall portion hmem
  case ordering =>
    intro other hfop position
    rw [hstub] at hfop ⊢
    have h : other ≠ holder := by
      rintro rfl
      exact hfop ((hok other).tempted_write hholder.tempted)
    rw [WbRequest.Covers, show ((s.collapse holder id).req other).off = (s.req other).off from
      congrArg (·.1.2.2.2.2.2.1) (hdata h), show ((s.collapse holder id).req other).size =
      (s.req other).size from congrArg (·.2.1.2.2.1) (hdata h)]
    exact hcontent.ordering other hfop position
  case fd =>
    intro other hwrite
    rw [hstub] at hwrite ⊢
    rw [hfdKept]
    exact hcontent.fd other hwrite

/-- The condition under which collapsing keeps all bytes. -/
def HolderIntact (s : WbState Byte) (holder _id : ReqId) : Prop := (s.req holder).Intact
  deriving Decidable

variable {condition : WbState Byte → ReqId → ReqId → Prop} {noIobuf : List ReqId}

theorem Content.preMove (hcontent : Content s) (hok : ∀ id, (s.req id).Ok)
    (hcondition : ∀ {s holder id}, condition s holder id → HolderIntact s holder id)
    (hmove : PreMove conf condition s t) : Content t := by
  cases hmove with
  | go _ => exact hcontent.keeps (keeps_modify rfl)
  | collapse hcollapsing hintact =>
    exact hcontent.collapse hok hcollapsing (hcondition hintact)

theorem Content.process (hcontent : Content s) (hinv : QueueInv s)
    (hcondition : ∀ {s holder id}, condition s holder id → HolderIntact s holder id)
    (hcollapses : CollapsesSatisfy conf noIobuf condition (s, none) s.todo) :
    Content (wbProcessQueue conf noIobuf s) :=
  wbProcessQueue_preserves Content hinv hcollapses
    (fun hinv _ hmove h => h.preMove hinv.ok hcondition hmove)
    (fun _ _ hmove h => h.keeps hmove.keeps) (fun _ _ hmove h => h.keeps hmove.keeps)
    (fun _ _ hmove h => h.keeps hmove.keeps) hcontent

/-- A guard under which no collapse loses bytes. -/
def GuardsCollapses (conf : WbConf) (guard : WbState Byte → WbLabel Byte → Prop) : Prop :=
  ∀ s noIobuf, guard s (.process noIobuf) →
    CollapsesSatisfy conf noIobuf HolderIntact (s, none) s.todo

theorem Content.step {guard : WbState Byte → WbLabel Byte → Prop} {label : WbLabel Byte}
    (hcontent : Content s) (hinv : QueueInv s) (hguard : GuardsCollapses conf guard)
    (hallowed : guard s label) (hstep : wbStep conf s label = some t) : Content t := by
  rcases (wbStep_cases hinv hstep).2 with ⟨index, stub, _, _, rfl⟩ | ⟨noIobuf, rfl, rfl⟩ |
    ⟨hpasses, _⟩
  · exact hcontent.enqueueCommon.keeps ⟨rfl, fun _ => rfl⟩
  · exact hcontent.process hinv id (hguard s noIobuf hallowed)
  · exact hcontent.keeps hpasses.keeps

theorem content_of_reachableUnder {guard : WbState Byte → WbLabel Byte → Prop}
    (hguard : GuardsCollapses conf guard)
    (hreach : ReachableUnder (wbStep conf) guard WbState.create s) : Content s :=
  hreach.invariant_along Content content_create fun hbefore hallowed hstep hcontent =>
    hcontent.step (queueInv_of_reachableUnder hbefore) hguard hallowed hstep

end States

end GlusterFS.WriteBehind
