import GlusterFS.Afr.HealContent

/-!
# Sinks equal to the source

Every block is given to a loop, and a loop that returns leaves its block the same on the
source and on all sinks, unless something has failed.  The driver completes when no loop
runs and no block is left.
-/

namespace GlusterFS.Afr

open Transition

variable {cfg : HealConfig} {s s' : HealState} {frame frame' : LoopFrame} {f : Nat}
  {released : Option Nat}

/-- The writes of the self-heal are whole or fail. -/
def WholeWrite (s : HealState) : HealLabel → Prop
  | .exec f _ (.write (some written)) =>
    ∀ frame ∈ s.frames[f]?, written = frame.vector.flatten.length
  | _ => True

instance (label : HealLabel) : Decidable (WholeWrite s label) :=
  match label with
  | .exec f _ (.write (some _)) => inferInstanceAs (Decidable (∀ frame ∈ s.frames[f]?, _))
  | .exec _ _ (.write none) | .exec _ _ (.checksum _) | .exec _ _ (.read _)
  | .driver _ | .spawn _ | .lockGrant _ | .lockFail _ | .reply _ _ | .clientLock _
  | .clientWrite _ | .clientUnlock _ => inferInstanceAs (Decidable True)

/-- The block at a position is with a loop that is to be started or with a frame. -/
def HealState.Covers (cfg : HealConfig) (s : HealState) (position : Nat) : Prop :=
  (∃ spawn ∈ s.spawns, ∃ j < spawn.loop, position = spawn.offset + j * cfg.blockSize) ∨
    ∃ f frame, s.frames[f]? = some frame ∧ 0 < f ∧ frame.offset = position

/-- Every block before `offset` was given to a loop. -/
structure BlocksInv (cfg : HealConfig) (s : HealState) : Prop where
  first : s.Idle 0
  aligned : ∃ blocks, s.offset = blocks * cfg.blockSize
  covers : ∀ block, block * cfg.blockSize < s.offset → s.opFailed = true ∨
    s.Covers cfg (block * cfg.blockSize)
  spawnInside : ∀ spawn ∈ s.spawns, ∀ j < spawn.loop,
    spawn.offset + j * cfg.blockSize < cfg.fileSize
  frameInside : ∀ f frame, s.frames[f]? = some frame → 0 < f → frame.offset < cfg.fileSize

/-- What is known of the files. -/
structure FilesInv (cfg : HealConfig) (s : HealState) : Prop where
  size : cfg.fileSize ≤ (s.files cfg.source).size
  holes : ∀ c ∈ cfg.sinks, ∀ x, (cfg.before c).size ≤ x → x < cfg.fileSize →
    SameAt cfg s.files c x ∨ (s.files c).data x = 0
  content : ∀ f frame, s.frames[f]? = some frame → 0 < f → LoopContent cfg s.files s.opFailed frame
  eofReached : s.eofReached = false
  complete : ∀ last, HealOutcome.completion last ∈ s.outcomes → ∀ c ∈ cfg.sinks,
    ∀ x < cfg.fileSize, SameAt cfg s.files c x

/-! ## Blocks -/

theorem blocksInv_start (cfg : HealConfig) : BlocksInv cfg cfg.start where
  first := ⟨_, rfl, rfl⟩
  aligned := ⟨0, (Nat.zero_mul _).symm⟩
  covers _ h := absurd h (Nat.not_lt_zero _)
  spawnInside _ h := absurd h List.not_mem_nil
  frameInside f frame hget hf := by
    cases f with
    | zero => exact absurd hf (Nat.lt_irrefl 0)
    | succ f => cases hget

/-- The first frame has no loop. -/
theorem BlocksInv.pos_of_working (hinv : BlocksInv cfg s) (hget : s.frames[f]? = some frame)
    (hworking : frame.phase.working = true) : 0 < f := by
  refine Nat.pos_of_ne_zero ?_
  rintro rfl
  obtain ⟨first, hfirst, hidle⟩ := hinv.first
  cases Option.some.inj (hget.symm.trans hfirst)
  rw [hworking] at hidle
  cases hidle

theorem BlocksInv.frames (hinv : BlocksInv cfg s) (hfirst : s'.Idle 0)
    (hframes : ∀ (f : Nat) (frame : LoopFrame), s.frames[f]? = some frame →
      ∃ frame' : LoopFrame, s'.frames[f]? = some frame' ∧ frame'.offset = frame.offset)
    (hlength : s'.frames.length = s.frames.length) (hoffset : s'.offset = s.offset)
    (hspawns : s'.spawns = s.spawns) (hfailed : s.opFailed = true → s'.opFailed = true) :
    BlocksInv cfg s' where
  first := hfirst
  aligned := hoffset ▸ hinv.aligned
  covers block hblock := by
    rcases hinv.covers block (hoffset ▸ hblock) with h | h | ⟨f, frame, hget, hf, hposition⟩
    · exact .inl (hfailed h)
    · exact .inr (.inl (hspawns ▸ h))
    · obtain ⟨frame', hget', hsame⟩ := hframes f frame hget
      exact .inr (.inr ⟨f, frame', hget', hf, hsame.trans hposition⟩)
  spawnInside := hspawns ▸ hinv.spawnInside
  frameInside f frame' hget' hf := by
    have hlt : f < s.frames.length := hlength ▸ (List.getElem?_eq_some_iff.mp hget').1
    obtain ⟨frame, hget, hsame⟩ := hframes f _ (List.getElem?_eq_getElem hlt)
    rw [Option.some.inj (hget'.symm.trans hget), hsame]
    exact hinv.frameInside f _ (List.getElem?_eq_getElem hlt) hf

theorem shLoopFinish_offset (hget : s.frames[f]? = some frame) (released : Option Nat) :
    ∃ frame', (s.shLoopFinish released).frames[f]? = some frame' ∧
      frame'.offset = frame.offset := by
  rw [shLoopFinish_get, hget]
  split
  · exact ⟨_, rfl, rfl⟩
  · exact ⟨_, rfl, rfl⟩

theorem shLoopFinish_length (s : HealState) (released : Option Nat) :
    (s.shLoopFinish released).frames.length = s.frames.length := by
  cases released with
  | none => rfl
  | some old => simp [HealState.shLoopFinish]

theorem BlocksInv.finish (hinv : BlocksInv cfg s) (released : Option Nat) :
    BlocksInv cfg (s.shLoopFinish released) := by
  have hunmoved := (shLoopFinish_fields s released).2
  exact hinv.frames (hinv.first.finish released) (fun _ _ hget => shLoopFinish_offset hget released)
    (shLoopFinish_length s released) hunmoved.offset hunmoved.spawns hunmoved.opFailed

theorem BlocksInv.moved (hinv : BlocksInv cfg s) (hmoved : Moved cfg s s' f frame frame') :
    BlocksInv cfg s' := by
  obtain ⟨released, hframes, -⟩ := hmoved.frames
  refine hinv.frames (hmoved.idle hinv.first) (fun i other hget => ?_) ?_
    hmoved.unmoved.offset hmoved.unmoved.spawns
    hmoved.unmoved.opFailed
  · by_cases hi : f = i
    · subst hi
      cases Option.some.inj (hmoved.get.symm.trans hget)
      exact ⟨frame', hmoved.get_self, hmoved.offset⟩
    · rw [hframes, List.getElem?_set_ne hi]
      exact shLoopFinish_offset hget released
  · rw [hframes, List.length_set, shLoopFinish_length]

theorem BlocksInv.driver (hinv : BlocksInv cfg s) (hblock : 1 ≤ cfg.blockSize)
    {drivers : List DriverCall} {call : DriverCall} :
    BlocksInv cfg ({ s with drivers := drivers }.shLoopDriver cfg call) := by
  have hmove := shLoopDriver_move cfg { s with drivers := drivers } call
  generalize { s with drivers := drivers }.shLoopDriver cfg call = after at hmove
  cases hmove with
  | complete => exact { hinv with }
  | finish outcomes =>
    have htaken : BlocksInv cfg { s with
        drivers := drivers
        loopsRunning := if call.isFirstCall then s.loopsRunning else s.loopsRunning - 1 } :=
      { hinv with }
    exact { htaken.finish call.oldLoopFrame with }
  | start loop hloop hinside =>
    obtain ⟨blocks, hblocks⟩ := hinv.aligned
    refine ⟨hinv.first, ⟨blocks + loop, ?_⟩, fun block hbefore => ?_,
      List.forall_mem_cons.mpr ⟨hinside, hinv.spawnInside⟩, hinv.frameInside⟩
    · rw [Nat.add_mul, ← hblocks]
    · dsimp only at hbefore ⊢
      by_cases hold : block * cfg.blockSize < s.offset
      · refine (hinv.covers block hold).imp_right fun h => ?_
        rcases h with ⟨spawn, hspawn, h⟩ | h
        · exact .inl ⟨spawn, List.mem_cons_of_mem _ hspawn, h⟩
        · exact .inr h
      · rw [hblocks] at hold hbefore
        rw [← Nat.add_mul] at hbefore
        have hge : blocks ≤ block := by
          by_contra hlt
          exact hold (Nat.mul_lt_mul_of_pos_right (by omega) hblock)
        have hlt : block < blocks + loop := Nat.lt_of_mul_lt_mul_right hbefore
        refine .inr (.inl ⟨_, List.mem_cons_self, block - blocks, by dsimp only; omega, ?_⟩)
        dsimp only
        rw [hblocks, ← Nat.add_mul]
        congr 1
        omega

variable {index : Nat}

/-- A loop that is started takes the first of its blocks. -/
theorem BlocksInv.spawn (hinv : BlocksInv cfg s) {spawn : LoopSpawn}
    (hget : s.spawns[index]? = some spawn) (hloop : 0 < spawn.loop)
    (hmove : SpawnMove cfg s index spawn s') : BlocksInv cfg s' := by
  have hmem := List.mem_of_getElem? hget
  cases hmove with
  | failed hfailed =>
    have hfinished := hinv.finish spawn.oldLoopFrame
    have hunmoved := (shLoopFinish_fields s spawn.oldLoopFrame).2
    refine { hfinished with
      covers := fun _ _ => .inl (hunmoved.opFailed hfailed)
      spawnInside := forall_spawnsLeft hinv.spawnInside fun _ j hj => ?_ }
    exact hinv.spawnInside spawn hmem j (hj.trans_le (Nat.sub_le ..))
  | started hfailed =>
    have hnew : ∀ (f : Nat) (frame : LoopFrame), s.frames[f]? = some frame →
        (s.frames ++ [HealConfig.newFrame spawn.offset spawn.oldLoopFrame])[f]? = some frame := by
      intro f frame hframe
      rw [List.getElem?_append_left (List.getElem?_eq_some_iff.mp hframe).1]
      exact hframe
    obtain ⟨first, hfirst, hidle⟩ := hinv.first
    have hlength : 0 < s.frames.length := (List.getElem?_eq_some_iff.mp hfirst).1
    refine ⟨⟨first, hnew 0 first hfirst, hidle⟩, hinv.aligned, fun block hblock => ?_,
      forall_spawnsLeft hinv.spawnInside fun _ j hj => ?_, fun f frame hframe hf => ?_⟩
    · refine (hinv.covers block hblock).imp_right ?_
      rintro (⟨other, hother, j, hj, hposition⟩ | ⟨f, frame, hframe, hf, hposition⟩)
      · rcases mem_spawnsLeft_of_mem hget hother
            ⟨spawn.loop - 1, spawn.offset + cfg.blockSize, none⟩ with rfl | hother
        · cases j with
          | zero =>
            refine .inr ⟨s.frames.length, HealConfig.newFrame other.offset other.oldLoopFrame,
              List.getElem?_concat_length, hlength, ?_⟩
            rw [hposition, Nat.zero_mul]
            rfl
          | succ j =>
            have hleft : 0 < other.loop - 1 := by omega
            refine .inl ⟨⟨other.loop - 1, other.offset + cfg.blockSize, none⟩, ?_, j,
              by dsimp only; omega, ?_⟩
            · rw [spawnsLeft, if_neg (Nat.ne_of_gt hleft)]
              exact List.mem_set (List.getElem?_eq_some_iff.mp hget).1 _
            dsimp only
            rw [hposition, Nat.add_mul]
            omega
        · exact .inl ⟨other, hother, j, hj, hposition⟩
      · exact .inr ⟨f, frame, hnew f frame hframe, hf, hposition⟩
    · dsimp only at hj ⊢
      have := hinv.spawnInside spawn hmem (j + 1) (by omega)
      rw [Nat.add_mul] at this
      omega
    · rcases Nat.lt_or_ge f s.frames.length with hlt | hge
      · rw [List.getElem?_append_left hlt] at hframe
        exact hinv.frameInside f frame hframe hf
      · have hnewest := List.mem_of_getElem? ((List.getElem?_append_right hge).symm.trans hframe)
        cases List.mem_singleton.mp hnewest
        simpa [HealConfig.newFrame] using hinv.spawnInside spawn hmem 0 hloop

/-! ## Files -/

theorem filesInv_start (cfg : HealConfig) : FilesInv cfg cfg.start := by
  have hsource : cfg.source ∉ cfg.sinks := by
    simp [HealConfig.sinks, cfg.source_mem]
  refine ⟨?_, fun c hc x hpast _ => .inr ?_, fun f frame hget hf => ?_, rfl,
    fun _ h => absurd h List.not_mem_nil⟩
  · simp [HealConfig.start, hsource, HealConfig.fileSize]
  · have hzero := (cfg.before c).zero_beyond x hpast
    simp [HealConfig.start, hc, SparseFile.truncate_data, hzero]
  · cases f with
    | zero => exact absurd hf (Nat.lt_irrefl 0)
    | succ f => cases hget

theorem shLoopFinish_files (s : HealState) (released : Option Nat) :
    (s.shLoopFinish released).files = s.files ∧ (s.shLoopFinish released).opFailed = s.opFailed ∧
      (s.shLoopFinish released).eofReached = s.eofReached ∧
      (s.shLoopFinish released).outcomes = s.outcomes := by
  cases released <;> exact ⟨rfl, rfl, rfl, rfl⟩

theorem FilesInv.finish (hinv : FilesInv cfg s)
    (hidle : ∀ old, released = some old → s.Idle old) : FilesInv cfg (s.shLoopFinish released) := by
  obtain ⟨hfiles, hfailed, heof, houtcomes⟩ := shLoopFinish_files s released
  refine ⟨hfiles ▸ hinv.size, hfiles ▸ hinv.holes, fun f frame hget hf => ?_,
    heof ▸ hinv.eofReached,
    hfiles ▸ houtcomes ▸ hinv.complete⟩
  rw [hfiles, hfailed]
  rw [shLoopFinish_get] at hget
  split at hget
  next hold =>
    obtain ⟨before, hbefore, rfl⟩ := Option.map_eq_some_iff.mp hget
    obtain ⟨other, hother, hreturned⟩ := hidle f hold
    cases Option.some.inj (hbefore.symm.trans hother)
    exact (loopContent_of_idle hreturned).mp (hinv.content f before hbefore hf)
  next => exact hinv.content f frame hget hf

/-- The files change as heals and clients change them. -/
structure FilesMove (cfg : HealConfig) (s s' : HealState) : Prop where
  kept : BytesKept cfg s.files s'.files
  size : (s.files cfg.source).size ≤ (s'.files cfg.source).size
  blocks : ∀ frame ∈ s.frames, frame.phase.busy = true →
    ∀ x, frame.offset ≤ x → x < frame.offset + cfg.blockSize →
      (s'.files cfg.source).data x = (s.files cfg.source).data x
  eofReached : s'.eofReached = s.eofReached

theorem filesMove_of_same (hfiles : s'.files = s.files) (heof : s'.eofReached = s.eofReached) :
    FilesMove cfg s s' :=
  ⟨hfiles ▸ fun _ _ => .inr ⟨rfl, rfl⟩, hfiles ▸ Nat.le_refl _,
    fun _ _ _ _ _ _ => by rw [hfiles], heof⟩

theorem FilesInv.change (hinv : FilesInv cfg s) (hmove : FilesMove cfg s s')
    (hcontent : ∀ f frame, s'.frames[f]? = some frame → 0 < f →
      LoopContent cfg s'.files s'.opFailed frame)
    (houtcomes : s'.outcomes = s.outcomes) : FilesInv cfg s' where
  size := Nat.le_trans hinv.size hmove.size
  holes c hc x hpast hfile := by
    rcases hmove.kept c x with hsame | ⟨hdata, hsource⟩
    · exact .inl hsame
    · rw [SameAt, hdata, hsource]
      exact hinv.holes c hc x hpast hfile
  content := hcontent
  eofReached := hmove.eofReached.trans hinv.eofReached
  complete last hlast c hc x hx :=
    hmove.kept.same (hinv.complete last (houtcomes ▸ hlast) c hc x hx)

theorem FilesInv.moved (hinv : FilesInv cfg s) (hloops : LoopsInv cfg s)
    (hmoved : Moved cfg s s' f frame frame') (hmove : FilesMove cfg s s')
    (hself : 0 < f → LoopContent cfg s'.files s'.opFailed frame') : FilesInv cfg s' := by
  refine hinv.change hmove (fun i other hget hi => ?_) hmoved.unmoved.outcomes
  by_cases hf : f = i
  · subst hf
    cases Option.some.inj (hmoved.get_self.symm.trans hget)
    exact hself hi
  · obtain ⟨released, hframes, hreleased, -⟩ := hmoved.frames
    have hidle : ∀ old, released = some old → s.Idle old := by
      intro old hold
      refine hloops.frameIdle frame (List.mem_of_getElem? hmoved.get) old ?_
      rcases hreleased with ⟨rfl, -⟩ | ⟨rfl, -⟩
      · exact hold
      · cases hold
    rw [hframes, List.getElem?_set_ne hf] at hget
    have hold := (hinv.finish hidle).content i other hget hi
    rw [(shLoopFinish_files s released).1, (shLoopFinish_files s released).2.1] at hold
    refine hold.mono hmove.kept (fun hbusy => ?_) hmoved.unmoved.opFailed
    rcases mem_shLoopFinish (List.mem_of_getElem? hget) with hmem | ⟨before, _, -, -, rfl⟩
    · exact hmove.blocks other hmem hbusy
    · cases hbusy

/-- A client writes outside of the blocks that frames have locked. -/
theorem filesMove_clientWrite (hloops : LoopsInv cfg s) {write : ClientWrite}
    (hwrite : write ∈ s.clients) :
    FilesMove cfg s { s with files := fun c => (s.files c).write write.start write.bytes } := by
  refine ⟨bytesKept_clientWrite write, ?_, fun frame hframe hbusy x hle hlt => ?_, rfl⟩
  · dsimp only [SparseFile.write]
    split
    · exact Nat.le_refl _
    · exact Nat.le_max_left ..
  · have hheld := (hloops.wf frame hframe).held hbusy
    rw [SparseFile.write_data, if_neg]
    intro hin
    exact hloops.apart frame hframe write hwrite ⟨hheld, .inr ⟨by omega, by omega⟩⟩

theorem filesMove_exec (hframe : LoopContent cfg s.files s.opFailed frame) {child : HealChild}
    {answer : HealAnswer} {reply : HealReply} {files : HealChild → SparseFile UInt8}
    (hwhole : ∀ written, answer = .write (some written) → written = frame.vector.flatten.length)
    (hexec : Executed cfg s frame child answer reply files) :
    FilesMove cfg s { s.setFrame f (frame.answered child reply) with files := files } := by
  cases hexec with
  | checksum | read | writeFail => exact filesMove_of_same rfl rfl
  | write written hphase =>
    obtain rfl := hwhole written rfl
    rw [List.take_length]
    have hbytes := (hframe.writing hphase).bytes
    refine ⟨bytesKept_healWrite child hbytes, ?_, fun _ _ _ x _ _ => source_update child hbytes x,
      rfl⟩
    dsimp only [HealState.setFrame]
    by_cases hchild : cfg.source = child
    · subst hchild
      rw [Function.update_self, SparseFile.write]
      dsimp only
      split
      · exact Nat.le_refl _
      · exact Nat.le_max_left ..
    · rw [Function.update_of_ne hchild]

/-- With no loop left and no failure, all blocks of the file agree. -/
theorem same_of_idle (hfiles : FilesInv cfg s) (hblocks : BlocksInv cfg s)
    (hblock : 1 ≤ cfg.blockSize) (hidle : ∀ frame ∈ s.frames, frame.phase.working = false)
    (hspawns : s.spawns = []) (hfailed : s.opFailed = false) (hoffset : cfg.fileSize ≤ s.offset) :
    ∀ c ∈ cfg.sinks, ∀ x < cfg.fileSize, SameAt cfg s.files c x := by
  intro c hc x hx
  have hbelow : x / cfg.blockSize * cfg.blockSize ≤ x := Nat.div_mul_le_self x cfg.blockSize
  have habove : x < x / cfg.blockSize * cfg.blockSize + cfg.blockSize :=
    Nat.lt_div_mul_add hblock
  rcases hblocks.covers (x / cfg.blockSize) (by omega) with h | h | ⟨f, frame, hget, hf, hposition⟩
  · simp [hfailed] at h
  · obtain ⟨spawn, hspawn, -⟩ := h
    rw [hspawns] at hspawn
    exact absurd hspawn List.not_mem_nil
  · have hreturned := hidle frame (List.mem_of_getElem? hget)
    rcases (loopContent_of_idle hreturned).mp (hfiles.content f frame hget hf) with h | hsame
    · simp [hfailed] at h
    · rw [hposition] at hsame
      exact hsame c hc x hbelow habove hx

theorem FilesInv.driver (hfiles : FilesInv cfg s) (hblocks : BlocksInv cfg s)
    (hloops : LoopsInv cfg s) (hblock : 1 ≤ cfg.blockSize) (hwindow : 1 ≤ cfg.windowSize)
    {call : DriverCall} (hget : s.drivers[index]? = some call) :
    FilesInv cfg ({ s with drivers := s.drivers.eraseIdx index }.shLoopDriver cfg call) := by
  have htaken := hloops.takeDriver hget
  have hidle := hloops.driverIdle call (List.mem_of_getElem? hget)
  have hmove := shLoopDriver_move cfg { s with drivers := s.drivers.eraseIdx index } call
  generalize { s with drivers := s.drivers.eraseIdx index }.shLoopDriver cfg call = after at hmove
  cases hmove with
  | start => exact { hfiles with }
  | complete hrunning hfailed hdone =>
    obtain ⟨hframes, hspawns, -⟩ := htaken.idle_of_zero hrunning
    have hoffset : cfg.fileSize ≤ s.offset := by
      by_contra hlt
      dsimp only at hrunning hfailed hdone
      exact hdone ⟨hfiles.eofReached, hfailed, by omega, by omega⟩
    have hsame := same_of_idle hfiles hblocks hblock hframes hspawns hfailed hoffset
    exact { hfiles with complete := fun _ _ => hsame }
  | finish outcomes _ hend =>
    have hbefore : FilesInv cfg { s with
        drivers := s.drivers.eraseIdx index
        loopsRunning := if call.isFirstCall then s.loopsRunning else s.loopsRunning - 1 } :=
      { hfiles with }
    have hfinished := hbefore.finish hidle
    refine { hfinished with complete := fun last hlast => hfinished.complete last ?_ }
    rw [(shLoopFinish_files _ _).2.2.2]
    rcases hend with ⟨rfl, -⟩ | ⟨rfl, -⟩
    · exact hlast
    · exact (List.mem_cons.mp hlast).resolve_left (fun h => nomatch h)

theorem FilesInv.spawn (hfiles : FilesInv cfg s) (hloops : LoopsInv cfg s) {spawn : LoopSpawn}
    (hget : s.spawns[index]? = some spawn) (hmove : SpawnMove cfg s index spawn s') :
    FilesInv cfg s' := by
  cases hmove with
  | failed => exact { hfiles.finish (hloops.spawnIdle spawn (List.mem_of_getElem? hget)) with }
  | started =>
    refine { hfiles with content := fun f frame hframe hf => ?_ }
    rcases Nat.lt_or_ge f s.frames.length with hlt | hge
    · rw [List.getElem?_append_left hlt] at hframe
      exact hfiles.content f frame hframe hf
    · have hnewest := List.mem_of_getElem? ((List.getElem?_append_right hge).symm.trans hframe)
      cases List.mem_singleton.mp hnewest
      exact fun _ => rfl

/-- Everything that is known of a self-heal. -/
structure HealInv (cfg : HealConfig) (s : HealState) : Prop where
  loops : LoopsInv cfg s
  blocks : BlocksInv cfg s
  files : FilesInv cfg s

theorem HealInv.lockGrant {f : Nat} (hinv : HealInv cfg s)
    (h : healStep cfg s (.lockGrant f) = some s') : FilesInv cfg s' := by
  obtain ⟨hloops, -, hfiles⟩ := hinv
  obtain ⟨frame, hget, h⟩ := Option.bind_eq_some_iff.mp h
  split at h
  next hready =>
    cases h
    obtain ⟨hsame, hfailed, heof, -⟩ := shLoopFinish_files s frame.oldLoopFrame
    refine hfiles.moved hloops (lockGrant_moved hget hready.1 hready.2)
      (filesMove_of_same hsame heof) fun hf => ?_
    dsimp only [HealState.shLoopLockSuccess, HealState.setFrame]
    rw [hsame, hfailed]
    exact algoStart_content hready.1 (hfiles.content f frame hget hf) none true
  next => cases h

theorem HealInv.lockFail {f : Nat} (hinv : HealInv cfg s)
    (h : healStep cfg s (.lockFail f) = some s') : FilesInv cfg s' := by
  obtain ⟨hloops, -, hfiles⟩ := hinv
  obtain ⟨frame, hget, h⟩ := Option.bind_eq_some_iff.mp h
  split at h
  next hphase =>
    cases h
    obtain ⟨frame', hidle, hmoved⟩ := lockFail_moved hloops.wf hget hphase
    have hfields : (s.shLoopLockFailure f frame).files = s.files ∧
        (s.shLoopLockFailure f frame).eofReached = s.eofReached ∧
        (s.shLoopLockFailure f frame).opFailed = true := by
      rw [HealState.shLoopLockFailure, HealState.shLoopReturn, if_pos rfl]
      cases frame.oldLoopFrame <;> exact ⟨rfl, rfl, rfl⟩
    exact hfiles.moved hloops hmoved (filesMove_of_same hfields.1 hfields.2.1)
      fun _ => (loopContent_of_idle hidle).mpr (.inl hfields.2.2)
  next => cases h

theorem HealInv.exec {f : Nat} {child : HealChild} {answer : HealAnswer}
    (hinv : HealInv cfg s) (hdigest : Function.Injective cfg.digest)
    (hwhole : WholeWrite s (.exec f child answer))
    (h : healStep cfg s (.exec f child answer) = some s') : FilesInv cfg s' := by
  obtain ⟨hloops, hblocks, hfiles⟩ := hinv
  obtain ⟨frame, hget, h⟩ := Option.bind_eq_some_iff.mp h
  split at h
  next hcall =>
    obtain ⟨reply, files, hexec, rfl⟩ := execCall_executed h
    have hmoved := exec_moved hloops.wf hget hcall hexec.answers files
    have hf := hblocks.pos_of_working hget hmoved.working
    have hcontent := hfiles.content f frame hget hf
    have hall : ∀ written, answer = .write (some written) →
        written = frame.vector.flatten.length := by
      rintro written rfl
      exact hwhole frame hget
    exact hfiles.moved hloops hmoved (filesMove_exec hcontent hall hexec)
      fun _ => executed_content hdigest hfiles.size hall hexec hcontent
  next => cases h

theorem HealInv.reply {f : Nat} {child : HealChild} (hinv : HealInv cfg s)
    (hblock : 1 ≤ cfg.blockSize) (h : healStep cfg s (.reply f child) = some s') :
    FilesInv cfg s' := by
  obtain ⟨hloops, hblocks, hfiles⟩ := hinv
  obtain ⟨frame, hget, h⟩ := Option.bind_eq_some_iff.mp h
  obtain ⟨answer, hanswer, h⟩ := Option.bind_eq_some_iff.mp h
  obtain ⟨reply, rfl, rfl⟩ := Option.map_eq_some_iff.mp h
  have hreply := mem_of_lookup hanswer
  obtain ⟨frame', hmoved, hloop⟩ := reply_moved hloops.wf hget hreply
  have hf := hblocks.pos_of_working hget hmoved.working
  have hcbk : CbkContent cfg s.files s.eofReached frame.offset (cfg.callback s.opFailed
      s.eofReached { frame with calls := frame.calls.filter fun call => call.1 ≠ child }
      child reply) :=
    callback_content (hloops.wf frame (List.mem_of_getElem? hget)) hblock
      (hblocks.frameInside f frame hget hf) hfiles.holes (hfiles.content f frame hget hf) hreply
  obtain ⟨hsame, heof, hfailed, hwaits⟩ := afterCbk_fields s f (cfg.callback s.opFailed
    s.eofReached { frame with calls := frame.calls.filter fun call => call.1 ≠ child }
    child reply)
  refine hfiles.moved hloops hmoved (filesMove_of_same hsame (heof.trans hcbk.eofReached))
    fun _ => ?_
  rw [HealState.replyCbk, hsame]
  rcases hloop with hloop | ⟨hidle, last, opRet, hloop⟩
  · rw [hwaits frame' hloop]
    exact hcbk.waits frame' hloop
  · refine (loopContent_of_idle hidle).mpr ?_
    rw [hmoved.offset]
    exact (hcbk.returns last opRet hloop).imp_left hfailed

theorem HealInv.clientWrite {write : ClientWrite} (hinv : HealInv cfg s)
    (h : healStep cfg s (.clientWrite write) = some s') : FilesInv cfg s' := by
  obtain ⟨hloops, -, hfiles⟩ := hinv
  rw [healStep] at h
  split at h
  next hwrite =>
    cases h
    have hmove := filesMove_clientWrite hloops hwrite
    refine hfiles.change hmove (fun f frame hget hf => ?_) rfl
    exact (hfiles.content f frame hget hf).mono hmove.kept
      (hmove.blocks frame (List.mem_of_getElem? hget)) id
  next => cases h

section Step

variable (hblock : 1 ≤ cfg.blockSize) (hwindow : 1 ≤ cfg.windowSize)
  (hdigest : Function.Injective cfg.digest) (hinv : HealInv cfg s)

include hblock hwindow hdigest hinv

theorem FilesInv.step {label : HealLabel} (hwhole : WholeWrite s label)
    (h : healStep cfg s label = some s') : FilesInv cfg s' := by
  have hfiles := hinv.files
  cases label with
  | driver index =>
    obtain ⟨call, hget, rfl⟩ := Option.map_eq_some_iff.mp h
    exact hfiles.driver hinv.blocks hinv.loops hblock hwindow hget
  | spawn index =>
    obtain ⟨spawn, hget, hs'⟩ := Option.map_eq_some_iff.mp h
    dsimp only at hs'
    rw [shLoopStart_spawns] at hs'
    exact hs' ▸ hfiles.spawn hinv.loops hget (shLoopStart_move cfg s index spawn)
  | lockGrant f => exact hinv.lockGrant h
  | lockFail f => exact hinv.lockFail h
  | exec f child answer => exact hinv.exec hdigest hwhole h
  | reply f child => exact hinv.reply hblock h
  | clientLock write =>
    cases (Option.ite_none_right_eq_some.mp h).2
    exact { hfiles with }
  | clientWrite write => exact hinv.clientWrite h
  | clientUnlock write =>
    cases (Option.ite_none_right_eq_some.mp h).2
    exact { hfiles with }

theorem HealInv.step {label : HealLabel} (hwhole : WholeWrite s label)
    (h : healStep cfg s label = some s') : HealInv cfg s' := by
  refine ⟨hinv.loops.step h, ?_, FilesInv.step hblock hwindow hdigest hinv hwhole h⟩
  cases healStep_move hinv.loops.wf h with
  | driver index call _ hget hs' => exact hs' ▸ hinv.blocks.driver hblock
  | spawn index spawn hget hs' =>
    have hloop := hinv.loops.spawned spawn (List.mem_of_getElem? hget)
    exact hs' ▸ hinv.blocks.spawn hget hloop (shLoopStart_move cfg s index spawn)
  | client files clients _ hs' => exact hs' ▸ { hinv.blocks with }
  | frame f frame frame' hmoved => exact hinv.blocks.moved hmoved

end Step

/-- A self-heal that completes leaves every sink with the source's bytes. -/
theorem heal_makes_sinks_equal (cfg : HealConfig) (hblock : 1 ≤ cfg.blockSize)
    (hwindow : 1 ≤ cfg.windowSize) (hdigest : Function.Injective cfg.digest) {s : HealState}
    (hreach : ReachableUnder (healStep cfg) WholeWrite cfg.start s) {last : Option Nat}
    (hcomplete : HealOutcome.completion last ∈ s.outcomes) :
    ∀ c ∈ cfg.sinks, ∀ x < cfg.fileSize, (s.files c).data x = (s.files cfg.source).data x := by
  have hinv : HealInv cfg s :=
    hreach.invariant ⟨loopsInv_start cfg, blocksInv_start cfg, filesInv_start cfg⟩
      fun before label after hbefore hwhole hstep =>
        HealInv.step hblock hwindow hdigest hbefore hwhole hstep
  exact hinv.files.complete last hcomplete

/-- Two blocks of one byte, of which the second differs. -/
def diffHeal : HealConfig :=
  { childCount := 2
    sources := fun c => c = 0
    childUp := fun _ => true
    source := 0
    blockSize := 1
    windowSize := 1
    algo := .diff
    fileHasHoles := false
    before := fun c => SparseFile.empty.write 0 (if c = 0 then [1, 2] else [1, 3])
    digest := id
    source_mem := @rfl Bool true }

/-- A client writes to the first block while the second one is healed. -/
theorem heal_makes_sinks_equal_diff : ∃ s last,
    ReachableUnder (healStep diffHeal) WholeWrite diffHeal.start s ∧
      HealOutcome.completion last ∈ s.outcomes ∧
      ∀ c ∈ diffHeal.sinks, ∀ x < diffHeal.fileSize,
        (s.files c).data x = (s.files diffHeal.source).data x := by
  obtain ⟨s, hrun, hreach⟩ :=
    ReachableUnder.exists_of_run (healStep diffHeal) WholeWrite diffHeal.start
    [.driver 0, .spawn 0, .lockGrant 1, .exec 1 0 (.checksum true), .exec 1 1 (.checksum true),
        .reply 1 1, .reply 1 0, .driver 0, .spawn 0, .lockGrant 2, .clientLock ⟨0, [7]⟩,
        .clientWrite ⟨0, [7]⟩, .clientUnlock ⟨0, [7]⟩, .exec 2 0 (.checksum true),
        .exec 2 1 (.checksum true), .reply 2 0, .reply 2 1, .exec 2 0 (.read (some [[2]])),
        .reply 2 0, .exec 2 1 (.write (some 1)), .reply 2 1, .driver 0] (by decide) rfl
  have hcomplete : HealOutcome.completion (some 2) ∈ s.outcomes := by
    cases hrun
    exact List.mem_cons_self
  exact ⟨s, some 2, hreach, hcomplete,
    heal_makes_sinks_equal diffHeal (by decide) (by decide) Function.injective_id hreach hcomplete⟩

end GlusterFS.Afr
