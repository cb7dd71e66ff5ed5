import GlusterFS.Core.History
import GlusterFS.Core.SparseFile
import GlusterFS.Core.Transition

/-!
# Content cached by quick-read

quick-read asks for the content of a small file in the `lookup` request and
answers reads from the content that a reply brought.  A modification drops the
content when it is wound; a reply that brings content installs it whatever was
wound or answered since.  A reply without content keeps the content if its times
are those of the cached content.  The state is one file: the context of its inode,
the calls that were wound to the child, and the contents the file of the child has
had.  The cache time-out does not expire; the cache may drop the content at any
time for want of space.
-/

namespace GlusterFS.QuickRead

open Transition

variable {Byte : Type} [Zero Byte]

structure QrFile (Byte : Type) [Zero Byte] where
  data : SparseFile Byte
  mtime : Nat
  mtimeNsec : Nat

/-- `qr_inode_t` -/
structure QrInode (Byte : Type) where
  data : Option (List Byte)
  size : Nat
  mtime : Nat
  mtimeNsec : Nat

/-- `qr_conf_t` -/
structure QrConf where
  maxFileSize : Nat

/-- `__qr_inode_prune` -/
def qrInodePrune (inode : QrInode Byte) : QrInode Byte := { inode with data := none, size := 0 }

/-- `qr_content_update` -/
def qrContentUpdate (content : List Byte) (buf : QrFile Byte) : QrInode Byte :=
  ⟨some content, buf.data.size, buf.mtime, buf.mtimeNsec⟩

/-- `__qr_content_refresh` -/
def qrContentRefresh (conf : QrConf) (inode : QrInode Byte) (buf : QrFile Byte) : QrInode Byte :=
  if buf.data.size ≤ conf.maxFileSize ∧ inode.mtime = buf.mtime ∧ inode.mtimeNsec = buf.mtimeNsec
  then inode
  else qrInodePrune inode

/-- `qr_readv_cached`: a result without a byte leaves the read to the child. -/
def qrReadvCached (inode : QrInode Byte) (size offset : Nat) : Option (List Byte) :=
  inode.data.bind fun data =>
    if inode.size ≤ offset then none
    else
      let opRet := min size (inode.size - offset)
      if opRet = 0 then none else some ((data.drop offset).take opRet)

inductive QrFop (Byte : Type)
  /-- Whether the request asks for the content. -/
  | lookup (requested : Bool)
  | readdirp
  /-- With the version up to which modifications had been acknowledged when the read arrived. -/
  | readv (ackedBefore size offset : Nat)
  | writev (offset : Nat) (bytes : List Byte)
  | truncate (offset : Nat)
  | ftruncate (offset : Nat)

/-- What a modification does to the file of the child. -/
def QrFop.effect (file : SparseFile Byte) : QrFop Byte → Option (SparseFile Byte)
  | .writev offset bytes => some (file.write offset bytes)
  | .truncate offset => some (file.truncate offset)
  | .ftruncate offset => some (file.truncate offset)
  | .lookup _ | .readdirp | .readv _ _ _ => none

def QrFop.modifies : QrFop Byte → Bool
  | .writev _ _ | .truncate _ | .ftruncate _ => true
  | .lookup _ | .readdirp | .readv _ _ _ => false

/-- An executed call saw the version of the file with its number last. -/
inductive QrStage (Byte : Type) [Zero Byte]
  | wound
  | executed (version : Nat) (seen : QrFile Byte) (content : Bool)
  | failed

def QrStage.isWound : QrStage Byte → Bool
  | .wound => true
  | .executed _ _ _ | .failed => false

/-- The version of the content that an executed `lookup` brings. -/
def QrStage.contentVersion : QrStage Byte → Option Nat
  | .executed version _ true => some version
  | .executed _ _ false | .wound | .failed => none

structure QrCall (Byte : Type) [Zero Byte] where
  fop : QrFop Byte
  stage : QrStage Byte

structure QrAnswer (Byte : Type) where
  ackedBefore : Nat
  size : Nat
  offset : Nat
  data : List Byte
  deriving DecidableEq

structure QrState (Byte : Type) [Zero Byte] where
  inode : Option (QrInode Byte)
  calls : List (QrCall Byte)
  file : History (QrFile Byte)
  /-- The last version that an acknowledged modification made. -/
  acked : Nat
  answers : List (QrAnswer Byte)

namespace QrState

variable (conf : QrConf) (s : QrState Byte)

def wind (fop : QrFop Byte) : QrState Byte := { s with calls := s.calls ++ [⟨fop, .wound⟩] }

/-- `qr_inode_prune` -/
def prune : QrState Byte := { s with inode := s.inode.map qrInodePrune }

/-- `qr_lookup` -/
def lookup : QrState Byte :=
  let cached := (s.inode.bind QrInode.data).isSome
  s.wind (.lookup (!cached && conf.maxFileSize ≠ 0))

/-- `qr_readv` -/
def readv (size offset : Nat) : QrState Byte :=
  match s.inode.bind fun inode => qrReadvCached inode size offset with
  | some data => { s with answers := s.answers ++ [⟨s.acked, size, offset, data⟩] }
  | none => s.wind (.readv s.acked size offset)

/-- `qr_writev`, `qr_truncate` and `qr_ftruncate` -/
def modify (fop : QrFop Byte) : QrState Byte := s.prune.wind fop

/-- The child executes a call.  A modification sets the time of the file, and a `lookup` that
asked for content may be given it. -/
def execute (index : Nat) (fop : QrFop Byte) (content : Bool) (mtime mtimeNsec : Nat) :
    QrState Byte :=
  let file :=
    match fop.effect s.file.current.data with
    | some data => s.file.push ⟨data, mtime, mtimeNsec⟩
    | none => s.file
  { s with
    file := file
    calls := s.calls.set index ⟨fop, .executed file.latest file.current content⟩ }

/-- `qr_lookup_cbk` for a reply without an error. -/
def lookupCbk (seen : QrFile Byte) (content : Bool) : QrState Byte :=
  if content then
    { s with inode := some (qrContentUpdate (seen.data.read 0 seen.data.size) seen) }
  else { s with inode := s.inode.map fun inode => qrContentRefresh conf inode seen }

/-- The callbacks; those of reads and modifications only pass the reply on. -/
def cbk (index : Nat) (call : QrCall Byte) : Option (QrState Byte) :=
  let s := { s with calls := s.calls.eraseIdx index }
  match call.stage, call.fop with
  | .wound, _ => none
  | .failed, .lookup _ => some s.prune
  | .failed, _ => some s
  | .executed _ seen content, .lookup _ => some (s.lookupCbk conf seen content)
  | .executed _ seen _, .readdirp =>
    some { s with inode := s.inode.map fun inode => qrContentRefresh conf inode seen }
  | .executed _ seen _, .readv ackedBefore size offset =>
    some { s with answers :=
      s.answers ++ [⟨ackedBefore, size, offset, seen.data.read offset size⟩] }
  | .executed version _ _, .writev _ _ => some { s with acked := max s.acked version }
  | .executed version _ _, .truncate _ => some { s with acked := max s.acked version }
  | .executed version _ _, .ftruncate _ => some { s with acked := max s.acked version }

end QrState

inductive QrLabel (Byte : Type)
  | lookup
  | readdirp
  | readv (size offset : Nat)
  | writev (offset : Nat) (bytes : List Byte)
  | truncate (offset : Nat)
  | ftruncate (offset : Nat)
  /-- `qr_cache_prune` reaches the inode. -/
  | prune
  | execute (index : Nat) (content : Bool) (mtime mtimeNsec : Nat)
  | fail (index : Nat)
  | cbk (index : Nat)

/-- Content is given to a `lookup` that asked for it and no other call, and a modification changes
the time of the file. -/
def Executes (file : QrFile Byte) (content : Bool) (mtime mtimeNsec : Nat)
    (fop : QrFop Byte) : Prop :=
  (content = true → fop = .lookup true) ∧
    (fop.modifies = true → (mtime, mtimeNsec) ≠ (file.mtime, file.mtimeNsec))

instance [DecidableEq Byte] (file : QrFile Byte) (content : Bool) (mtime mtimeNsec : Nat)
    (fop : QrFop Byte) : Decidable (Executes file content mtime mtimeNsec fop) :=
  have : Decidable (fop = .lookup true) :=
    match fop with
    | .lookup requested => decidable_of_iff (requested = true) (by simp)
    | .readdirp | .readv _ _ _ | .writev _ _ | .truncate _ | .ftruncate _ => isFalse nofun
  inferInstanceAs (Decidable (_ ∧ _))

def qrStep [DecidableEq Byte] (conf : QrConf) (s : QrState Byte) :
    QrLabel Byte → Option (QrState Byte)
  | .lookup => some (s.lookup conf)
  | .readdirp => some (s.wind .readdirp)
  | .readv size offset => some (s.readv size offset)
  | .writev offset bytes => some (s.modify (.writev offset bytes))
  | .truncate offset => some (s.modify (.truncate offset))
  | .ftruncate offset => some (s.modify (.ftruncate offset))
  | .prune => some s.prune
  | .execute index content mtime mtimeNsec => s.calls[index]?.bind fun call =>
    match call.stage with
    | .wound =>
      if Executes s.file.current content mtime mtimeNsec call.fop then
        some (s.execute index call.fop content mtime mtimeNsec)
      else none
    | _ => none
  | .fail index => s.calls[index]?.bind fun call =>
    match call.stage with
    | .wound => some { s with calls := s.calls.set index ⟨call.fop, .failed⟩ }
    | _ => none
  | .cbk index => s.calls[index]?.bind (s.cbk conf index)

def QrState.start (file : QrFile Byte) : QrState Byte := ⟨none, [], ⟨file, []⟩, 0, []⟩

/-- Whatever a read returned, it is what the file held there at some time, and not only before a
modification that was acknowledged when the read arrived. -/
def ServesCurrent (s : QrState Byte) : Prop :=
  ∀ answer ∈ s.answers, ∃ file, s.file.Since answer.ackedBefore file ∧
    answer.data = file.data.read answer.offset answer.size

/-- A reply that brings content shows the file as it is, and no modification is on its way to the
child. -/
def NoOverlap (s : QrState Byte) : QrLabel Byte → Prop
  | .cbk index => ∀ call ∈ s.calls[index]?, ∀ version ∈ call.stage.contentVersion,
      version = s.file.latest ∧
        ∀ other ∈ s.calls, other.fop.modifies = true → other.stage.isWound = false
  | _ => True

instance (s : QrState Byte) (label : QrLabel Byte) : Decidable (NoOverlap s label) :=
  match label with
  | .cbk index => inferInstanceAs (Decidable (∀ call ∈ s.calls[index]?, _))
  | .lookup | .readdirp | .readv _ _ | .writev _ _ | .truncate _ | .ftruncate _ | .prune
  | .execute _ _ _ _ | .fail _ => inferInstanceAs (Decidable True)

/-! ## Lookups apart from modifications -/

/-- The cache holds the content of the file, and holds none while a modification is on its way. -/
structure CurrentInv (s : QrState Byte) : Prop where
  size : ∀ inode ∈ s.inode, ∀ data ∈ inode.data,
    inode.size = s.file.current.data.size ∧ data = s.file.current.data.read 0 inode.size
  apart : ∀ inode ∈ s.inode, inode.data.isSome = true →
    ∀ call ∈ s.calls, call.fop.modifies = true → call.stage.isWound = false
  acked_le : s.acked ≤ s.file.latest
  executed : ∀ call ∈ s.calls, ∀ version seen content, call.stage = .executed version seen content →
    version ≤ s.file.latest ∧ s.file.Since version seen ∧
      (version = s.file.latest → seen = s.file.current)
  reads : ∀ call ∈ s.calls, ∀ ackedBefore size offset, call.fop = .readv ackedBefore size offset →
    ackedBefore ≤ s.file.latest ∧ ∀ version seen content,
      call.stage = .executed version seen content → ackedBefore ≤ version
  answers : ServesCurrent s

namespace CurrentInv

variable {conf : QrConf} {s : QrState Byte}

theorem start (file : QrFile Byte) : CurrentInv (.start file) :=
  ⟨nofun, nofun, Nat.le_refl 0, nofun, nofun, nofun⟩

section

variable (hinv : CurrentInv s)

include hinv

theorem setInode {inode : Option (QrInode Byte)} (hsize : ∀ found ∈ inode, ∀ data ∈ found.data,
      found.size = s.file.current.data.size ∧ data = s.file.current.data.read 0 found.size)
    (hapart : ∀ found ∈ inode, found.data.isSome = true →
      ∀ call ∈ s.calls, call.fop.modifies = true → call.stage.isWound = false) :
    CurrentInv { s with inode := inode } :=
  ⟨hsize, hapart, hinv.acked_le, hinv.executed, hinv.reads, hinv.answers⟩

theorem prune : CurrentInv s.prune := by
  refine hinv.setInode (fun found hfound data hdata => ?_) (fun found hfound hdata => ?_) <;>
  · obtain ⟨inode, _, rfl⟩ := Option.map_eq_some_iff.mp hfound
    exact absurd hdata nofun

theorem refresh (seen : QrFile Byte) :
    CurrentInv { s with inode := s.inode.map fun inode => qrContentRefresh conf inode seen } := by
  have hdata : ∀ inode : QrInode Byte, qrContentRefresh conf inode seen = inode ∨
      (qrContentRefresh conf inode seen).data = none := by
    intro inode
    rw [qrContentRefresh]
    split
    · exact .inl rfl
    · exact .inr rfl
  refine hinv.setInode (fun found hfound data hmem => ?_) (fun found hfound hsome => ?_) <;>
    obtain ⟨inode, hinode, rfl⟩ := Option.map_eq_some_iff.mp hfound <;>
    rcases hdata inode with heq | hnone
  · rw [heq] at hmem ⊢
    exact hinv.size inode hinode data hmem
  · exact absurd (hnone.symm.trans hmem) nofun
  · rw [heq] at hsome
    exact hinv.apart inode hinode hsome
  · rw [hnone] at hsome
    exact absurd hsome nofun

/-- A call is wound; a modification finds nothing cached. -/
theorem wind {fop : QrFop Byte}
    (hmodifies : fop.modifies = true → ∀ inode ∈ s.inode, inode.data = none)
    (hread : ∀ ackedBefore size offset, fop = .readv ackedBefore size offset →
      ackedBefore ≤ s.file.latest) : CurrentInv (s.wind fop) where
  size := hinv.size
  apart inode hinode hdata call hmem hcall := by
    rcases List.mem_append.mp hmem with hmem | hmem
    · exact hinv.apart inode hinode hdata call hmem hcall
    · rw [List.mem_singleton.mp hmem] at hcall
      rw [hmodifies hcall inode hinode] at hdata
      exact absurd hdata nofun
  acked_le := hinv.acked_le
  executed call hmem version seen content hstage := by
    rcases List.mem_append.mp hmem with hmem | hmem
    · exact hinv.executed call hmem version seen content hstage
    · rw [List.mem_singleton.mp hmem] at hstage
      exact absurd hstage nofun
  reads call hmem ackedBefore size offset hfop := by
    rcases List.mem_append.mp hmem with hmem | hmem
    · exact hinv.reads call hmem ackedBefore size offset hfop
    · rw [List.mem_singleton.mp hmem] at hfop ⊢
      exact ⟨hread _ _ _ hfop, nofun⟩
  answers := hinv.answers

theorem modify {fop : QrFop Byte} (hfop : fop.modifies = true) : CurrentInv (s.modify fop) := by
  refine hinv.prune.wind (fun _ inode hinode => ?_) fun _ _ _ heq => ?_
  · obtain ⟨inode, _, rfl⟩ := Option.map_eq_some_iff.mp hinode
    rfl
  · rw [heq] at hfop
    exact absurd hfop nofun

theorem addAnswer {answer : QrAnswer Byte} (hanswer : ∃ file, s.file.Since answer.ackedBefore file ∧
      answer.data = file.data.read answer.offset answer.size) :
    CurrentInv { s with answers := s.answers ++ [answer] } := by
  refine ⟨hinv.size, hinv.apart, hinv.acked_le, hinv.executed, hinv.reads, fun other hmem => ?_⟩
  rcases List.mem_append.mp hmem with hmem | hmem
  · exact hinv.answers other hmem
  · rw [List.mem_singleton.mp hmem]
    exact hanswer

theorem readvCached_eq {inode : QrInode Byte} (hinode : s.inode = some inode) {size offset : Nat}
    {data : List Byte} (hread : qrReadvCached inode size offset = some data) :
    data = s.file.current.data.read offset size := by
  obtain ⟨content, hcontent, hread⟩ := Option.bind_eq_some_iff.mp hread
  obtain ⟨hsize, hdata⟩ := hinv.size inode hinode content hcontent
  split at hread
  · exact absurd hread nofun
  · dsimp only at hread
    split at hread
    · exact absurd hread nofun
    · rw [← Option.some.inj hread, hdata, SparseFile.take_drop_read, Nat.zero_add]
      exact SparseFile.read_eq_of_min_eq (by omega)

theorem readv (size offset : Nat) : CurrentInv (s.readv size offset) := by
  rw [QrState.readv]
  split
  next data hdata =>
    obtain ⟨inode, hinode, hread⟩ := Option.bind_eq_some_iff.mp hdata
    exact hinv.addAnswer ⟨s.file.current, History.since_latest.mono hinv.acked_le,
      hinv.readvCached_eq hinode hread⟩
  next =>
    refine hinv.wind nofun fun _ _ _ heq => ?_
    cases heq
    exact hinv.acked_le

end

variable {call : QrCall Byte} {index : Nat}

section

variable (hinv : CurrentInv s)

include hinv

/-- The invariant when a call is marked; the mark of an execution tells what it saw. -/
theorem setStage (hcall : s.calls[index]? = some call) {stage : QrStage Byte}
    (hwound : stage.isWound = false)
    (hstage : ∀ version seen content, stage = .executed version seen content →
      version = s.file.latest ∧ seen = s.file.current) :
    CurrentInv { s with calls := s.calls.set index ⟨call.fop, stage⟩ } := by
  refine ⟨hinv.size, fun inode hinode hdata other hmem hother => ?_, hinv.acked_le,
    fun other hmem version seen content hother => ?_,
      fun other hmem ackedBefore size offset hfop => ?_,
    hinv.answers⟩ <;> rcases List.mem_or_eq_of_mem_set hmem with hmem | rfl
  · exact hinv.apart inode hinode hdata other hmem hother
  · exact hwound
  · exact hinv.executed other hmem version seen content hother
  · obtain ⟨rfl, rfl⟩ := hstage version seen content hother
    exact ⟨Nat.le_refl _, History.since_latest, fun _ => rfl⟩
  · exact hinv.reads other hmem ackedBefore size offset hfop
  · have hle := (hinv.reads call (List.mem_of_getElem? hcall) ackedBefore size offset hfop).1
    exact ⟨hle, fun version seen content hother => (hstage version seen content hother).1 ▸ hle⟩

/-- The file changes while nothing is cached. -/
theorem push (hnone : ∀ inode ∈ s.inode, inode.data = none) (file : QrFile Byte) :
    CurrentInv { s with file := s.file.push file } := by
  have hlatest : (s.file.push file).latest = s.file.latest + 1 := by
    simp [History.latest, History.push]
  refine ⟨fun inode hinode data hdata => ?_, hinv.apart, ?_,
    fun call hmem version seen content hstage => ?_,
      fun call hmem ackedBefore size offset hfop => ?_,
    fun answer hmem => ?_⟩
  · rw [hnone inode hinode] at hdata
    cases hdata
  · exact hlatest ▸ Nat.le_succ_of_le hinv.acked_le
  · obtain ⟨hle, hsince, _⟩ := hinv.executed call hmem version seen content hstage
    refine ⟨hlatest ▸ Nat.le_succ_of_le hle, hsince.push file, fun heq => ?_⟩
    rw [hlatest] at heq
    omega
  · obtain ⟨hle, hversion⟩ := hinv.reads call hmem ackedBefore size offset hfop
    exact ⟨hlatest ▸ Nat.le_succ_of_le hle, hversion⟩
  · obtain ⟨found, hsince, hdata⟩ := hinv.answers answer hmem
    exact ⟨found, hsince.push file, hdata⟩

theorem execute (hcall : s.calls[index]? = some call) (hwound : call.stage.isWound = true)
    (content : Bool) (mtime mtimeNsec : Nat) :
    CurrentInv (s.execute index call.fop content mtime mtimeNsec) := by
  rw [QrState.execute]
  cases heffect : call.fop.effect s.file.current.data with
  | none => exact hinv.setStage hcall rfl fun _ _ _ heq => by cases heq; exact ⟨rfl, rfl⟩
  | some data =>
    have hmodifies : call.fop.modifies = true := by
      cases hfop : call.fop <;> rw [hfop] at heffect <;> first | rfl | exact absurd heffect nofun
    -- The modification was on its way, so nothing is cached.
    have hnone : ∀ inode ∈ s.inode, inode.data = none := by
      intro inode hinode
      cases hdata : inode.data with
      | none => rfl
      | some found =>
        have hnot := hinv.apart inode hinode (by rw [hdata]; rfl) call
          (List.mem_of_getElem? hcall) hmodifies
        exact absurd (hnot.symm.trans hwound) nofun
    exact (hinv.push hnone ⟨data, mtime, mtimeNsec⟩).setStage hcall rfl
      fun _ _ _ heq => by cases heq; exact ⟨rfl, rfl⟩

theorem eraseIdx (index : Nat) : CurrentInv { s with calls := s.calls.eraseIdx index } :=
  ⟨hinv.size, fun inode hinode hdata call hmem =>
      hinv.apart inode hinode hdata call (List.mem_of_mem_eraseIdx hmem),
    hinv.acked_le, fun call hmem => hinv.executed call (List.mem_of_mem_eraseIdx hmem),
    fun call hmem => hinv.reads call (List.mem_of_mem_eraseIdx hmem), hinv.answers⟩

theorem ack {version : Nat} (hversion : version ≤ s.file.latest) :
    CurrentInv { s with acked := max s.acked version } :=
  ⟨hinv.size, hinv.apart, Nat.max_le.mpr ⟨hinv.acked_le, hversion⟩, hinv.executed, hinv.reads,
    hinv.answers⟩

theorem cbk {after : QrState Byte} (hcall : s.calls[index]? = some call)
    (hguard : NoOverlap s (.cbk index)) (hcbk : s.cbk conf index call = some after) :
    CurrentInv after := by
  have hrest := hinv.eraseIdx index
  have hmem := List.mem_of_getElem? hcall
  have hguard := hguard call hcall
  obtain ⟨fop, stage⟩ := call
  cases stage with
  | wound => exact absurd hcbk nofun
  | failed =>
    cases fop with
    | lookup requested =>
      cases hcbk
      exact hrest.prune
    | readdirp | readv _ _ _ | writev _ _ | truncate _ | ftruncate _ =>
      cases hcbk
      exact hrest
  | executed version seen content =>
    obtain ⟨hle, hsince, hcurrent⟩ := hinv.executed _ hmem version seen content rfl
    cases fop with
    | lookup requested =>
      cases hcbk
      cases content with
      | false => exact hrest.refresh seen
      | true =>
        obtain ⟨hlatest, hapart⟩ := hguard version rfl
        refine hrest.setInode (fun found hfound data hdata => ?_) (fun _ _ _ other hother => ?_)
        · cases hfound
          cases hdata
          rw [hcurrent hlatest]
          exact ⟨rfl, rfl⟩
        · exact hapart other (List.mem_of_mem_eraseIdx hother)
    | readdirp =>
      cases hcbk
      exact hrest.refresh seen
    | readv ackedBefore size offset =>
      cases hcbk
      have hacked := (hinv.reads _ hmem ackedBefore size offset rfl).2 version seen content rfl
      exact hrest.addAnswer ⟨seen, hsince.mono hacked, rfl⟩
    | writev _ _ | truncate _ | ftruncate _ =>
      cases hcbk
      exact hrest.ack hle

theorem step [DecidableEq Byte] {label : QrLabel Byte} {after : QrState Byte}
    (hguard : NoOverlap s label) (hstep : qrStep conf s label = some after) : CurrentInv after := by
  cases label with
  | lookup =>
    cases hstep
    exact hinv.wind nofun nofun
  | readdirp =>
    cases hstep
    exact hinv.wind nofun nofun
  | readv size offset =>
    cases hstep
    exact hinv.readv size offset
  | writev offset bytes =>
    cases hstep
    exact hinv.modify rfl
  | truncate offset =>
    cases hstep
    exact hinv.modify rfl
  | ftruncate offset =>
    cases hstep
    exact hinv.modify rfl
  | prune =>
    cases hstep
    exact hinv.prune
  | execute index content mtime mtimeNsec =>
    obtain ⟨call, hcall, hstep⟩ := Option.bind_eq_some_iff.mp hstep
    cases hstage : call.stage with
    | wound =>
      simp only [hstage] at hstep
      split at hstep
      · cases hstep
        exact hinv.execute hcall (by rw [hstage]; rfl) content mtime mtimeNsec
      · exact absurd hstep nofun
    | executed _ _ _ | failed =>
      rw [hstage] at hstep
      exact absurd hstep nofun
  | fail index =>
    obtain ⟨call, hcall, hstep⟩ := Option.bind_eq_some_iff.mp hstep
    cases hstage : call.stage with
    | wound =>
      rw [hstage] at hstep
      cases hstep
      exact hinv.setStage hcall rfl nofun
    | executed _ _ _ | failed =>
      rw [hstage] at hstep
      exact absurd hstep nofun
  | cbk index =>
    obtain ⟨call, hcall, hcbk⟩ := Option.bind_eq_some_iff.mp hstep
    exact hinv.cbk hcall hguard hcbk

end

end CurrentInv

/-- When no reply that brings content overlaps with a modification, a read never returns content
from before an acknowledged modification. -/
theorem qr_serves_current [DecidableEq Byte] (conf : QrConf) (file : QrFile Byte) {s : QrState Byte}
    (hreach : ReachableUnder (qrStep conf) NoOverlap (.start file) s) : ServesCurrent s :=
  have hinv : CurrentInv s := hreach.invariant (CurrentInv.start file)
    fun _ _ _ hbefore hguard hstep => hbefore.step hguard hstep
  hinv.answers

def oneByte (byte : Nat) (mtime : Nat) : QrFile Nat := ⟨SparseFile.empty.write 0 [byte], mtime, 0⟩

/-- The content from before a write is dropped, and the content after it is read from the cache. -/
theorem qr_serves_current_write : ∃ s,
    ReachableUnder (qrStep ⟨64⟩) NoOverlap (.start (oneByte 1 10)) s ∧
      s.answers = [⟨1, 1, 0, [2]⟩] ∧ ServesCurrent s := by
  obtain ⟨s, hrun, hreach⟩ :=
    ReachableUnder.exists_of_run (qrStep ⟨64⟩) NoOverlap (.start (oneByte 1 10))
    [.lookup, .execute 0 true 0 0, .cbk 0, .writev 0 [2], .execute 0 false 11 0, .cbk 0,
        .lookup, .execute 0 true 0 0, .cbk 0, .readv 1 0] (by decide) rfl
  refine ⟨s, hreach, ?_, qr_serves_current ⟨64⟩ (oneByte 1 10) hreach⟩
  cases hrun
  rfl

/-- A `lookup` that the child executed before a write is answered after the write was acknowledged:
it installs the old content, and the next read returns it. -/
theorem old_content_installed : ¬∀ (conf : QrConf) (file : QrFile Nat) (s : QrState Nat),
    Reachable (qrStep conf) (.start file) s → ServesCurrent s := by
  intro hall
  obtain ⟨s, hrun⟩ : ∃ s, run (qrStep ⟨64⟩) (.start (oneByte 1 10))
      [.lookup, .execute 0 true 0 0, .writev 0 [2], .execute 1 false 11 0, .cbk 1, .cbk 0,
        .readv 1 0] = some s := ⟨_, rfl⟩
  obtain ⟨file, hsince, hdata⟩ :=
    hall ⟨64⟩ (oneByte 1 10) s (.of_run _ .start hrun) ⟨1, 1, 0, [1]⟩ (by cases hrun; decide)
  cases hrun
  cases List.mem_singleton.mp hsince
  exact absurd hdata (by decide)

end GlusterFS.QuickRead
