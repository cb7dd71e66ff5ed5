import GlusterFS.Afr.HealLoopCounts

/-!
# The bytes of a block under self-heal

While a frame has the lock on its block the source's bytes there do not change.  What the
frame has learnt of the block stays true: the checksums, the bytes it has read and the
sinks that agree with the source.
-/

namespace GlusterFS.Afr

variable (cfg : HealConfig) (files : HealChild → SparseFile UInt8)

/-- A child has the source's byte. -/
def SameAt (c : HealChild) (x : Nat) : Prop := (files c).data x = (files cfg.source).data x

/-- A child has the source's bytes in a block, as far as the file goes. -/
def SameBlock (c : HealChild) (offset : Nat) : Prop :=
  ∀ x, offset ≤ x → x < offset + cfg.blockSize → x < cfg.fileSize → SameAt cfg files c x

/-- All sinks agree with the source in the block, unless the self-heal has failed. -/
def BlockDone (opFailed : Bool) (offset : Nat) : Prop :=
  opFailed = true ∨ ∀ c ∈ cfg.sinks, SameBlock cfg files c offset

/-- Bytes of the source from the start of a block on, at least as far as the file goes. -/
structure SourceBytes (offset : Nat) (bytes : List UInt8) : Prop where
  enough : min cfg.blockSize (cfg.fileSize - offset) ≤ bytes.length
  short : bytes.length ≤ cfg.blockSize
  data : ∀ index < bytes.length, bytes.getD index 0 = (files cfg.source).data (offset + index)

/-- A checksum that a child has answered. -/
def LoopFrame.HasDigest (frame : LoopFrame) (c : HealChild) (strong : Digest) : Prop :=
  frame.checksum c = some strong ∨ (c, some (.checksum (some strong))) ∈ frame.calls

structure Checksumming (opFailed : Bool) (frame : LoopFrame) : Prop where
  source : ∀ strong, frame.HasDigest cfg.source strong →
    strong = cfg.rchecksum (files cfg.source) frame.offset cfg.blockSize
  sink : ∀ c ∈ cfg.sinks, ∀ strong, frame.HasDigest c strong →
    strong = cfg.rchecksum (files cfg.source) frame.offset cfg.blockSize →
      SameBlock cfg files c frame.offset
  asked : ∀ c, c = cfg.source ∨ c ∈ cfg.sinks → opFailed = true ∨
    (∃ strong, frame.checksum c = some strong) ∨ ∃ answer, (c, answer) ∈ frame.calls

structure Reading (opFailed : Bool) (frame : LoopFrame) : Prop where
  bytes : ∀ vector, (cfg.source, some (.read (some vector))) ∈ frame.calls →
    SourceBytes cfg files frame.offset vector.flatten
  needed : ∀ c ∈ cfg.sinks, opFailed = true ∨ frame.writeNeeded c = true ∨
    SameBlock cfg files c frame.offset

structure Writing (opFailed : Bool) (frame : LoopFrame) : Prop where
  bytes : SourceBytes cfg files frame.offset frame.vector.flatten
  written : ∀ c count, (c, some (.write (some count))) ∈ frame.calls →
    SameBlock cfg files c frame.offset
  pending : ∀ c ∈ cfg.sinks, opFailed = true ∨ SameBlock cfg files c frame.offset ∨
    ∃ answer, (c, answer) ∈ frame.calls

/-- What is known of the block of a frame. -/
def LoopContent (opFailed : Bool) (frame : LoopFrame) : Prop :=
  match frame.phase with
  | .locking => ∀ c, frame.checksum c = none
  | .checksum => Checksumming cfg files opFailed frame
  | .reading => Reading cfg files opFailed frame
  | .writing => Writing cfg files opFailed frame
  | .initial | .returned | .finished => BlockDone cfg files opFailed frame.offset

variable {cfg files} {files' : HealChild → SparseFile UInt8} {opFailed opFailed' : Bool}
  {frame : LoopFrame} {offset : Nat} {c : HealChild} {bytes : List UInt8}

theorem loopContent_of_idle (hidle : frame.phase.working = false) :
    LoopContent cfg files opFailed frame ↔ BlockDone cfg files opFailed frame.offset := by
  rw [LoopContent]
  cases hphase : frame.phase with
  | initial | returned | finished => exact Iff.rfl
  | locking | checksum | reading | writing =>
    rw [hphase] at hidle
    cases hidle

theorem LoopContent.checksumming (h : LoopContent cfg files opFailed frame)
    (hphase : frame.phase = .checksum) : Checksumming cfg files opFailed frame := by
  rwa [LoopContent, hphase] at h

theorem LoopContent.reading (h : LoopContent cfg files opFailed frame)
    (hphase : frame.phase = .reading) : Reading cfg files opFailed frame := by
  rwa [LoopContent, hphase] at h

theorem LoopContent.writing (h : LoopContent cfg files opFailed frame)
    (hphase : frame.phase = .writing) : Writing cfg files opFailed frame := by
  rwa [LoopContent, hphase] at h

theorem Checksumming.content (h : Checksumming cfg files opFailed frame)
    (hphase : frame.phase = .checksum) : LoopContent cfg files opFailed frame := by
  rwa [LoopContent, hphase]

theorem Reading.content (h : Reading cfg files opFailed frame) (hphase : frame.phase = .reading) :
    LoopContent cfg files opFailed frame := by
  rwa [LoopContent, hphase]

theorem Writing.content (h : Writing cfg files opFailed frame) (hphase : frame.phase = .writing) :
    LoopContent cfg files opFailed frame := by
  rwa [LoopContent, hphase]

/-! ## Files that change -/

/-- A byte of a child becomes the source's, or it and the source's byte stay. -/
def BytesKept (cfg : HealConfig) (files files' : HealChild → SparseFile UInt8) : Prop :=
  ∀ c x, SameAt cfg files' c x ∨ (files' c).data x = (files c).data x ∧
      (files' cfg.source).data x = (files cfg.source).data x

theorem BytesKept.same (hkept : BytesKept cfg files files') {x : Nat}
    (hsame : SameAt cfg files c x) : SameAt cfg files' c x := by
  rcases hkept c x with h | ⟨hc, hsource⟩
  · exact h
  · rw [SameAt, hc, hsource]
    exact hsame

theorem BytesKept.sameBlock (hkept : BytesKept cfg files files')
    (hsame : SameBlock cfg files c offset) : SameBlock cfg files' c offset :=
  fun x hle hlt hfile => hkept.same (hsame x hle hlt hfile)

theorem BlockDone.mono (hkept : BytesKept cfg files files')
    (hfailed : opFailed = true → opFailed' = true) (hdone : BlockDone cfg files opFailed offset) :
    BlockDone cfg files' opFailed' offset :=
  hdone.imp hfailed fun h c hc => hkept.sameBlock (h c hc)

/-- A client writes the same bytes everywhere. -/
theorem bytesKept_clientWrite (write : ClientWrite) :
    BytesKept cfg files fun c => (files c).write write.start write.bytes := by
  intro c x
  simp only [SameAt, SparseFile.write_data]
  split_ifs with hin
  · exact .inl rfl
  · exact .inr ⟨rfl, rfl⟩

/-- Writing the source's bytes to a child does not change the source. -/
theorem source_update (child : HealChild) (hbytes : SourceBytes cfg files offset bytes) (x : Nat) :
    (Function.update files child ((files child).write offset bytes) cfg.source).data x =
      (files cfg.source).data x := by
  by_cases hchild : cfg.source = child
  · subst hchild
    rw [Function.update_self, SparseFile.write_data]
    split_ifs with hin
    · rw [hbytes.data (x - offset) (by omega)]
      congr 1
      omega
    · rfl
  · rw [Function.update_of_ne hchild]

theorem bytesKept_healWrite (child : HealChild) (hbytes : SourceBytes cfg files offset bytes) :
    BytesKept cfg files (Function.update files child ((files child).write offset bytes)) := by
  intro c x
  have hsource := source_update child hbytes x
  by_cases hchild : c = child
  · subst hchild
    rw [SameAt, hsource, Function.update_self, SparseFile.write_data]
    split_ifs with hin
    · left
      rw [hbytes.data (x - offset) (by omega)]
      congr 1
      omega
    · exact .inr ⟨rfl, rfl⟩
  · rw [Function.update_of_ne hchild]
    exact .inr ⟨rfl, hsource⟩

/-- A child that was written to agrees with the source. -/
theorem sameBlock_healWrite (child : HealChild) (hbytes : SourceBytes cfg files offset bytes) :
    SameBlock cfg (Function.update files child ((files child).write offset bytes))
      child offset := by
  intro x hle hlt hfile
  have henough := hbytes.enough
  rw [SameAt, source_update child hbytes, Function.update_self, SparseFile.write_data,
    if_pos (by omega), hbytes.data (x - offset) (by omega)]
  congr 1
  omega

/-- Checksums of the block compare its bytes. -/
theorem sameBlock_of_rchecksum (hdigest : Function.Injective cfg.digest)
    (h : cfg.rchecksum (files c) offset cfg.blockSize =
      cfg.rchecksum (files cfg.source) offset cfg.blockSize) : SameBlock cfg files c offset := by
  intro x hle hlt _
  have hlists := hdigest h
  have hbyte := List.map_inj_left.mp hlists (x - offset) (List.mem_range.mpr (by omega))
  rwa [Nat.add_sub_cancel' hle] at hbyte

theorem rchecksum_congr (cfg : HealConfig) {left right : SparseFile UInt8} {len : Nat}
    (h : ∀ x, offset ≤ x → x < offset + len → left.data x = right.data x) :
    cfg.rchecksum left offset len = cfg.rchecksum right offset len := by
  rw [HealConfig.rchecksum, HealConfig.rchecksum]
  congr 1
  refine List.map_congr_left fun index hindex => h _ (by omega) ?_
  have := List.mem_range.mp hindex
  omega

theorem SourceBytes.mono (hsource : ∀ x, offset ≤ x → x < offset + cfg.blockSize →
      (files' cfg.source).data x = (files cfg.source).data x)
    (hbytes : SourceBytes cfg files offset bytes) : SourceBytes cfg files' offset bytes := by
  refine ⟨hbytes.enough, hbytes.short, fun index hindex => ?_⟩
  have hshort := hbytes.short
  rw [hbytes.data index hindex, hsource (offset + index) (by omega) (by omega)]

/-- What is known of a block stays known while the source does not change there. -/
theorem LoopContent.mono (hkept : BytesKept cfg files files')
    (hsource : frame.phase.busy = true → ∀ x, frame.offset ≤ x → x < frame.offset + cfg.blockSize →
      (files' cfg.source).data x = (files cfg.source).data x)
    (hfailed : opFailed = true → opFailed' = true)
    (hcontent : LoopContent cfg files opFailed frame) :
    LoopContent cfg files' opFailed' frame := by
  rw [LoopContent] at hcontent ⊢
  cases hphase : frame.phase with
  | locking =>
    rw [hphase] at hcontent
    exact hcontent
  | initial | returned | finished =>
    rw [hphase] at hcontent
    exact BlockDone.mono hkept hfailed hcontent
  | checksum =>
    rw [hphase] at hcontent hsource
    have hdigest := rchecksum_congr cfg (hsource rfl)
    refine ⟨fun strong h => ?_, fun c hc strong h heq => ?_, fun c hc => ?_⟩
    · rw [hdigest]
      exact hcontent.source strong h
    · rw [hdigest] at heq
      exact hkept.sameBlock (hcontent.sink c hc strong h heq)
    · exact (hcontent.asked c hc).imp_left hfailed
  | reading =>
    rw [hphase] at hcontent hsource
    refine ⟨fun vector h => (hcontent.bytes vector h).mono (hsource rfl), fun c hc => ?_⟩
    exact (hcontent.needed c hc).imp hfailed (Or.imp_right hkept.sameBlock)
  | writing =>
    rw [hphase] at hcontent hsource
    refine ⟨hcontent.bytes.mono (hsource rfl), fun c count h => ?_, fun c hc => ?_⟩
    · exact hkept.sameBlock (hcontent.written c count h)
    · exact (hcontent.pending c hc).imp hfailed (Or.imp_left hkept.sameBlock)

/-! ## Callbacks -/

/-- What a callback leaves: the loop goes on with what it knows, or the block is done. -/
structure CbkContent (cfg : HealConfig) (files : HealChild → SparseFile UInt8) (eofReached : Bool)
    (offset : Nat) (result : CbkResult) : Prop where
  eofReached : result.eofReached = eofReached
  waits : ∀ frame', result.loop = .waits frame' → LoopContent cfg files result.opFailed frame'
  returns : ∀ frame' opRet, result.loop = .returns frame' opRet →
    BlockDone cfg files result.opFailed offset

section Callback

variable {eofReached : Bool} {child : HealChild}

theorem cbkContent_waits {frame' : LoopFrame} (h : LoopContent cfg files opFailed frame') :
    CbkContent cfg files eofReached offset ⟨opFailed, eofReached, .waits frame'⟩ := by
  refine ⟨rfl, fun other hother => ?_, fun _ _ hother => (nomatch hother)⟩
  cases hother
  exact h

theorem cbkContent_returns {frame' : LoopFrame} {opRet : Int}
    (h : BlockDone cfg files opFailed offset) :
    CbkContent cfg files eofReached offset ⟨opFailed, eofReached, .returns frame' opRet⟩ :=
  ⟨rfl, fun _ hother => (nomatch hother), fun _ _ _ => h⟩

/-- All checksums are there, or one has failed. -/
theorem checksumsDone_content (h : Checksumming cfg files opFailed frame)
    (hcalls : frame.calls = []) (opRet : Int) :
    CbkContent cfg files eofReached frame.offset
      (cfg.checksumsDone opFailed eofReached frame opRet) := by
  have hrecorded : ∀ c, c = cfg.source ∨ c ∈ cfg.sinks →
      opFailed = true ∨ ∃ strong, frame.checksum c = some strong := by
    intro c hc
    refine (h.asked c hc).imp_right fun hor => hor.resolve_right ?_
    rintro ⟨answer, hanswer⟩
    exact absurd (hcalls ▸ hanswer) List.not_mem_nil
  have hsame : ∀ c ∈ cfg.sinks, frame.checksum c = frame.checksum cfg.source →
      opFailed = true ∨ SameBlock cfg files c frame.offset := by
    intro c hc heq
    rcases hrecorded cfg.source (.inl rfl) with hfailed | ⟨strong, hstrong⟩
    · exact .inl hfailed
    · exact .inr (h.sink c hc strong (.inl (heq.trans hstrong)) (h.source strong (.inl hstrong)))
  rw [HealConfig.checksumsDone]
  dsimp only
  split
  next =>
    refine cbkContent_waits ⟨fun vector hvector => ?_, fun c hc => ?_⟩
    · cases List.mem_singleton.mp hvector
    · by_cases hdiffers : frame.checksum c = frame.checksum cfg.source
      · exact (hsame c hc hdiffers).imp_right .inr
      · exact .inr (.inl (by simp [hc, hdiffers]))
  next hnone =>
    refine cbkContent_returns (or_iff_not_imp_left.mpr fun hfailed c hc => ?_)
    refine (hsame c hc ?_).resolve_left hfailed
    by_contra hdiffers
    exact hnone ⟨List.any_eq_true.mpr ⟨c, hc, by simpa using hdiffers⟩, by simpa using hfailed⟩

theorem mem_filter_calls (child : HealChild) {calls : List (HealChild × Option HealReply)}
    {answer : Option HealReply} (hmem : (c, answer) ∈ calls) :
    c = child ∨ (c, answer) ∈ calls.filter fun call => call.1 ≠ child := by
  by_cases hc : c = child
  · exact .inl hc
  · exact .inr (List.mem_filter.mpr ⟨hmem, by simpa using hc⟩)

theorem shDiffChecksumCbk_content (h : Checksumming cfg files opFailed frame)
    (hphase : frame.phase = .checksum) {strong : Option Digest}
    (hreply : (child, some (.checksum strong)) ∈ frame.calls) :
    CbkContent cfg files eofReached frame.offset (cfg.shDiffChecksumCbk opFailed eofReached
      { frame with calls := frame.calls.filter fun call => call.1 ≠ child } child strong) := by
  cases strong with
  | none =>
    have hnext : Checksumming cfg files true
        { frame with calls := frame.calls.filter fun call => call.1 ≠ child } :=
      ⟨fun strong hstrong => h.source strong (hstrong.imp_right List.mem_of_mem_filter),
        fun c hc strong hstrong => h.sink c hc strong (hstrong.imp_right List.mem_of_mem_filter),
        fun _ _ => .inl rfl⟩
    rw [HealConfig.shDiffChecksumCbk]
    split
    next hcalls => exact checksumsDone_content hnext hcalls (-1)
    next => exact cbkContent_waits (hnext.content hphase)
  | some strong =>
    have hdigest : ∀ c other, ({ frame with
        calls := frame.calls.filter fun call => call.1 ≠ child
        checksum := Function.update frame.checksum child (some strong) }).HasDigest c other →
          frame.HasDigest c other := by
      intro c other hother
      by_cases hc : c = child
      · subst hc
        rcases hother with hother | hother
        · have hself : Function.update frame.checksum c (some strong) c = some strong :=
            Function.update_self ..
          cases Option.some.inj (hself.symm.trans hother)
          exact .inr hreply
        · exact .inr (List.mem_of_mem_filter hother)
      · refine hother.imp (fun hother => ?_) List.mem_of_mem_filter
        exact (Function.update_of_ne hc ..).symm.trans hother
    have hnext : Checksumming cfg files opFailed { frame with
        calls := frame.calls.filter fun call => call.1 ≠ child
        checksum := Function.update frame.checksum child (some strong) } := by
      refine ⟨fun other hother => h.source other (hdigest _ _ hother),
        fun c hc other hother => h.sink c hc other (hdigest _ _ hother), fun c hc => ?_⟩
      by_cases hchild : c = child
      · subst hchild
        exact .inr (.inl ⟨strong, Function.update_self ..⟩)
      · refine (h.asked c hc).imp_right (Or.imp ?_ ?_)
        · rintro ⟨other, hother⟩
          exact ⟨other, (Function.update_of_ne hchild ..).trans hother⟩
        · rintro ⟨answer, hmem⟩
          exact ⟨answer, (mem_filter_calls child hmem).resolve_left hchild⟩
    rw [HealConfig.shDiffChecksumCbk]
    dsimp only
    split
    next hcalls => exact checksumsDone_content hnext hcalls 0
    next => exact cbkContent_waits (hnext.content hphase)

/-- Zeroes in the source need not be written where the sink was shorter. -/
theorem sameBlock_of_holes {vector : List (List UInt8)}
    (hbytes : SourceBytes cfg files offset vector.flatten)
    (hzero : HealConfig.iov0filled vector = true)
    (hhole : ∀ x, offset ≤ x → x < cfg.fileSize → SameAt cfg files c x ∨ (files c).data x = 0) :
    SameBlock cfg files c offset := by
  intro x hle hlt hfile
  refine (hhole x hle hfile).elim id fun hdata => ?_
  have henough := hbytes.enough
  have hlength : x - offset < vector.flatten.length := by omega
  have hsource := hbytes.data (x - offset) hlength
  rw [Nat.add_sub_cancel' hle, List.getD_eq_getElem _ _ hlength] at hsource
  have hbyte : vector.flatten.get ⟨x - offset, hlength⟩ = 0 := by
    obtain ⟨iov, hiov, hmem⟩ := List.mem_flatten.mp (List.get_mem vector.flatten ⟨_, hlength⟩)
    simpa using List.all_eq_true.mp (List.all_eq_true.mp hzero iov hiov) _ hmem
  rw [SameAt, hdata, ← hsource]
  exact hbyte.symm

theorem loopWrites_content {vector : List (List UInt8)} (hoffset : frame.offset = offset)
    (hbytes : SourceBytes cfg files offset vector.flatten)
    (hneeded : ∀ c ∈ cfg.sinks, opFailed = true ∨ frame.writeNeeded c = true ∨
      SameBlock cfg files c offset) :
    CbkContent cfg files eofReached offset (cfg.loopWrites opFailed eofReached frame vector) := by
  subst hoffset
  have hwrites : ∀ c ∈ cfg.sinks, frame.writeNeeded c = true →
      c ∈ (List.range cfg.childCount).filter frame.writeNeeded :=
    fun c hc h => List.mem_filter.mpr ⟨List.mem_of_mem_filter hc, h⟩
  rw [HealConfig.loopWrites]
  split
  next hnone =>
    refine cbkContent_returns (or_iff_not_imp_left.mpr fun hfailed c hc => ?_)
    refine ((hneeded c hc).resolve_left hfailed).resolve_left fun h => ?_
    exact absurd (hnone ▸ hwrites c hc h) List.not_mem_nil
  next =>
    refine cbkContent_waits ⟨hbytes, fun c count h => ?_, fun c hc => ?_⟩
    · obtain ⟨i, -, heq⟩ := List.mem_map.mp h
      cases heq
    · rcases hneeded c hc with hfailed | h | hsame
      · exact .inl hfailed
      · exact .inr (.inr ⟨none, List.mem_map.mpr ⟨c, hwrites c hc h, rfl⟩⟩)
      · exact .inr (.inl hsame)

theorem shLoopReadCbk_content (h : Reading cfg files opFailed frame)
    (hblock : 1 ≤ cfg.blockSize) (hinside : frame.offset < cfg.fileSize)
    (hholes : ∀ c ∈ cfg.sinks, ∀ x, (cfg.before c).size ≤ x → x < cfg.fileSize →
      SameAt cfg files c x ∨ (files c).data x = 0)
    {vector : Option (List (List UInt8))}
    (hreply : (cfg.source, some (.read vector)) ∈ frame.calls)
    (calls : List (HealChild × Option HealReply)) :
    CbkContent cfg files eofReached frame.offset
      (cfg.shLoopReadCbk opFailed eofReached { frame with calls := calls } vector) := by
  cases vector with
  | none => exact cbkContent_returns (.inl rfl)
  | some vector =>
    have hbytes := h.bytes vector hreply
    rw [HealConfig.shLoopReadCbk]
    split
    next hempty =>
      have henough := hbytes.enough
      rw [hempty, List.length_nil] at henough
      omega
    next =>
      split
      next hzero =>
        refine loopWrites_content rfl hbytes fun c hc => (h.needed c hc).imp_right ?_
        rintro (hneeded | hsame)
        · rw [HealConfig.shPruneWritesNeeded]
          split
          · exact .inl hneeded
          · dsimp only
            split
            next hpast =>
              refine .inr (sameBlock_of_holes hbytes hzero.2 fun x hle hlt => ?_)
              exact hholes c hc x (by omega) hlt
            next => exact .inl hneeded
        · exact .inr hsame
      next => exact loopWrites_content rfl hbytes h.needed

theorem writeReturned_content (h : Writing cfg files opFailed frame)
    (hphase : frame.phase = .writing) (hoffset : frame.offset = offset) :
    CbkContent cfg files eofReached offset
      (HealConfig.writeReturned opFailed eofReached frame) := by
  subst hoffset
  rw [HealConfig.writeReturned]
  split
  next hcalls =>
    refine cbkContent_returns (or_iff_not_imp_left.mpr fun hfailed c hc => ?_)
    refine ((h.pending c hc).resolve_left hfailed).resolve_right ?_
    rintro ⟨answer, hmem⟩
    exact absurd (hcalls ▸ hmem) List.not_mem_nil
  next => exact cbkContent_waits (h.content hphase)

theorem shLoopWriteCbk_content (h : Writing cfg files opFailed frame)
    (hphase : frame.phase = .writing) {opRet : Option Nat}
    (hreply : (child, some (.write opRet)) ∈ frame.calls) :
    CbkContent cfg files eofReached frame.offset (HealConfig.shLoopWriteCbk opFailed eofReached
      { frame with calls := frame.calls.filter fun call => call.1 ≠ child } opRet) := by
  have hwritten : ∀ c count, (c, some (.write (some count))) ∈
      (frame.calls.filter fun call => call.1 ≠ child) → SameBlock cfg files c frame.offset :=
    fun c count hmem => h.written c count (List.mem_of_mem_filter hmem)
  have hfail : ∀ opRet, Writing cfg files true { frame with
      calls := frame.calls.filter fun call => call.1 ≠ child
      opRet := opRet } :=
    fun _ => ⟨h.bytes, hwritten, fun _ _ => .inl rfl⟩
  cases opRet with
  | none => exact writeReturned_content (hfail (-1)) hphase rfl
  | some count =>
    rw [HealConfig.shLoopWriteCbk]
    split
    next => exact writeReturned_content (hfail frame.opRet) hphase rfl
    next =>
      refine writeReturned_content ⟨h.bytes, hwritten, fun c hc => ?_⟩ hphase rfl
      refine (h.pending c hc).imp_right fun hpending => ?_
      rcases hpending with hsame | ⟨answer, hmem⟩
      · exact .inl hsame
      · rcases mem_filter_calls child hmem with rfl | hmem
        · exact .inl (h.written c count hreply)
        · exact .inr ⟨answer, hmem⟩

/-- Every callback keeps what is known of the block. -/
theorem callback_content (hwf : FrameWf cfg frame) (hblock : 1 ≤ cfg.blockSize)
    (hinside : frame.offset < cfg.fileSize)
    (hholes : ∀ c ∈ cfg.sinks, ∀ x, (cfg.before c).size ≤ x → x < cfg.fileSize →
      SameAt cfg files c x ∨ (files c).data x = 0)
    (h : LoopContent cfg files opFailed frame) {reply : HealReply}
    (hreply : (child, some reply) ∈ frame.calls) :
    CbkContent cfg files eofReached frame.offset (cfg.callback opFailed eofReached
      { frame with calls := frame.calls.filter fun call => call.1 ≠ child } child reply) := by
  have hphase := hwf.answers child reply hreply
  cases reply with
  | checksum strong =>
    exact shDiffChecksumCbk_content (h.checksumming hphase) hphase hreply
  | read vector =>
    obtain rfl : child = cfg.source := hwf.single hphase _ hreply
    exact shLoopReadCbk_content (h.reading hphase) hblock hinside hholes hreply _
  | write opRet =>
    exact shLoopWriteCbk_content (h.writing hphase) hphase hreply

end Callback

/-! ## The work of a frame and of a child -/

/-- A frame that gets its lock knows nothing of its block yet. -/
theorem algoStart_content (hphase : frame.phase = .locking)
    (h : LoopContent cfg files opFailed frame) (old : Option Nat) (held : Bool) :
    LoopContent cfg files opFailed
      (HealState.algoStart cfg { frame with oldLoopFrame := old, dataLockHeld := held }) := by
  rw [LoopContent, hphase] at h
  rw [HealState.algoStart]
  split
  · have hnone : ∀ c strong, ¬(frame.checksum c = some strong ∨
        (c, some (HealReply.checksum (some strong))) ∈
          (cfg.source, none) :: cfg.sinks.map fun i => (i, none)) := by
      rintro c strong (hrecorded | hmem)
      · rw [h c] at hrecorded
        cases hrecorded
      · simp at hmem
    exact Checksumming.content ⟨fun strong hstrong => absurd hstrong (hnone _ _),
      fun c _ strong hstrong => absurd hstrong (hnone _ _),
      fun c hc => .inr (.inr ⟨none, by simpa using hc⟩)⟩ rfl
  · refine Reading.content ⟨fun vector hvector => ?_, fun c hc => .inr (.inl (if_pos hc))⟩ rfl
    cases List.mem_singleton.mp hvector

theorem sourceBytes_read (hsize : cfg.fileSize ≤ (files cfg.source).size) :
    SourceBytes cfg files offset ((files cfg.source).read offset cfg.blockSize) := by
  refine ⟨?_, ?_, fun index hindex => ?_⟩
  · rw [SparseFile.length_read]
    omega
  · rw [SparseFile.length_read]
    omega
  · rw [List.getD_eq_getElem _ _ hindex]
    simp [SparseFile.read]

/-- A child's answer adds to what is known of the block. -/
theorem executed_content {s : HealState} {child : HealChild} {answer : HealAnswer}
    {reply : HealReply} (hdigest : Function.Injective cfg.digest)
    (hsize : cfg.fileSize ≤ (s.files cfg.source).size)
    (hwhole : ∀ written, answer = .write (some written) → written = frame.vector.flatten.length)
    (hexec : Executed cfg s frame child answer reply files')
    (h : LoopContent cfg s.files opFailed frame) :
    LoopContent cfg files' opFailed (frame.answered child reply) := by
  have hkeep : ∀ c answer, (c, answer) ∈ frame.calls →
      ∃ answer, (c, answer) ∈ (frame.answered child reply).calls := by
    intro c answer hmem
    by_cases hc : c = child
    · exact ⟨some reply, List.mem_map.mpr ⟨_, hmem, by simp [hc]⟩⟩
    · exact ⟨answer, List.mem_map.mpr ⟨_, hmem, by simp [hc]⟩⟩
  cases hexec with
  | checksum ok hphase =>
    have hold := h.checksumming hphase
    have hnew : ∀ c strong, (frame.answered child (.checksum
        (if ok then some (cfg.rchecksum (s.files child) frame.offset cfg.blockSize)
          else none))).HasDigest c strong → frame.HasDigest c strong ∨
            c = child ∧ strong = cfg.rchecksum (s.files child) frame.offset cfg.blockSize := by
      rintro c strong (hrecorded | hmem)
      · exact .inl (.inl hrecorded)
      · rcases mem_answered_calls hmem with ⟨hmem, -⟩ | heq
        · exact .inl (.inr hmem)
        · cases ok <;> cases heq
          exact .inr ⟨rfl, rfl⟩
    refine Checksumming.content ⟨fun strong hstrong => ?_,
      fun c hc strong hstrong heq => ?_, fun c hc => ?_⟩ hphase
    · rcases hnew _ _ hstrong with hstrong | ⟨rfl, rfl⟩
      · exact hold.source strong hstrong
      · rfl
    · rcases hnew _ _ hstrong with hstrong | ⟨rfl, rfl⟩
      · exact hold.sink c hc strong hstrong heq
      · exact sameBlock_of_rchecksum hdigest heq
    · exact (hold.asked c hc).imp_right (Or.imp_right fun ⟨answer, hmem⟩ => hkeep c answer hmem)
  | read vector hphase hvector =>
    have hold := h.reading hphase
    refine Reading.content ⟨fun iovs hmem => ?_, hold.needed⟩ hphase
    rcases mem_answered_calls hmem with ⟨hmem, -⟩ | heq
    · exact hold.bytes iovs hmem
    · obtain rfl : cfg.source = child := congrArg Prod.fst heq
      cases heq
      change SourceBytes cfg s.files frame.offset iovs.flatten
      rw [hvector iovs rfl]
      exact sourceBytes_read hsize
  | writeFail hphase =>
    have hold := h.writing hphase
    refine Writing.content ⟨hold.bytes, fun c count hmem => ?_, fun c hc => ?_⟩ hphase
    · rcases mem_answered_calls hmem with ⟨hmem, -⟩ | heq
      · exact hold.written c count hmem
      · cases heq
    · exact (hold.pending c hc).imp_right (Or.imp_right fun ⟨answer, hmem⟩ => hkeep c answer hmem)
  | write written hphase =>
    have hbytes := (h.writing hphase).bytes
    obtain rfl := hwhole written rfl
    rw [List.take_length]
    have hold := (h.mono (bytesKept_healWrite child hbytes)
      (fun _ x _ _ => source_update child hbytes x) id).writing hphase
    refine Writing.content ⟨hold.bytes, fun c count hmem => ?_, fun c hc => ?_⟩ hphase
    · rcases mem_answered_calls hmem with ⟨hmem, -⟩ | heq
      · exact hold.written c count hmem
      · cases heq
        exact sameBlock_healWrite child hbytes
    · exact (hold.pending c hc).imp_right (Or.imp_right fun ⟨answer, hmem⟩ => hkeep c answer hmem)

end GlusterFS.Afr
