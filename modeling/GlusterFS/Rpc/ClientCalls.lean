import GlusterFS.Rpc.Client
import Mathlib.Algebra.Order.BigOperators.Group.List
import Mathlib.Algebra.Order.Group.Nat

/-!
# Every call is answered once

A request is in the custody of exactly one holder: the thread that submits it, the saved
frames, a thread that has taken it off them, or the record of callbacks.  Every action hands
requests on from one holder to another, so the requests in custody are always the callids
given out.
-/

namespace GlusterFS.Rpc

open Transition

variable {client after : Client} {frames rest : SavedFrames} {frame : SavedFrame}
variable {timeout current callid xid : Nat}

/-! ## The saved frames -/

theorem takeFrame_perm {list others : List SavedFrame}
    (htake : takeFrame xid list = some (frame, others)) :
    list.Perm (frame :: others) ∧ frame.rpcreq.xid = xid := by
  induction list generalizing others with
  | nil => exact absurd htake (by simp [takeFrame])
  | cons head tail ih =>
    rw [takeFrame] at htake
    split at htake
    · next hxid =>
      cases htake
      exact ⟨.refl _, hxid⟩
    · obtain ⟨⟨found, left⟩, hfound, heq⟩ := Option.map_eq_some_iff.mp htake
      cases heq
      obtain ⟨hperm, hxid⟩ := ih hfound
      exact ⟨(hperm.cons head).trans (.swap _ _ _), hxid⟩

theorem takeFrame_eq_none {list : List SavedFrame} (htake : takeFrame xid list = none) :
    ∀ frame ∈ list, frame.rpcreq.xid ≠ xid := by
  induction list with
  | nil => exact fun _ hmem => absurd hmem List.not_mem_nil
  | cons head tail ih =>
    rw [takeFrame] at htake
    split at htake
    · exact absurd htake (by simp)
    · next hxid =>
      intro frame hmem
      rcases List.mem_cons.mp hmem with rfl | hmem
      · exact hxid
      · exact ih (Option.map_eq_none_iff.mp htake) frame hmem

/-- The frame that is found has the xid, and leaves the others where they are. -/
theorem savedFrameGet_spec (hget : savedFrameGet frames xid = some (frame, rest)) :
    frames.entries.Perm (frame :: rest.entries) ∧ frame.rpcreq.xid = xid ∧
      rest.count = frames.count - 1 := by
  rw [savedFrameGet] at hget
  split at hget
  · next found sf htake =>
    cases hget
    obtain ⟨hperm, hxid⟩ := takeFrame_perm htake
    exact ⟨hperm.append_right _, hxid, rfl⟩
  · obtain ⟨⟨found, lkSf⟩, htake, heq⟩ := Option.map_eq_some_iff.mp hget
    cases heq
    obtain ⟨hperm, hxid⟩ := takeFrame_perm htake
    exact ⟨(hperm.append_left _).trans List.perm_middle, hxid, rfl⟩

theorem savedFrameGet_eq_none (hget : savedFrameGet frames xid = none) :
    ∀ frame ∈ frames.entries, frame.rpcreq.xid ≠ xid := by
  rw [savedFrameGet] at hget
  split at hget
  · exact absurd hget (by simp)
  · next htake =>
    intro frame hmem
    rcases List.mem_append.mp hmem with hmem | hmem
    · exact takeFrame_eq_none htake frame hmem
    · exact takeFrame_eq_none (Option.map_eq_none_iff.mp hget) frame hmem

theorem savedFramesPut_spec (frames : SavedFrames) (req : RpcReq) (now : Nat) :
    (savedFramesPut frames req now).entries.Perm (⟨req, now⟩ :: frames.entries) ∧
      (savedFramesPut frames req now).count = frames.count + 1 := by
  rw [savedFramesPut]
  split
  · refine ⟨?_, rfl⟩
    rw [SavedFrames.entries, ← List.append_assoc]
    exact List.perm_append_comm
  · refine ⟨?_, rfl⟩
    rw [SavedFrames.entries, List.append_assoc]
    exact List.perm_middle

theorem bailLoop_spec (timeout current fuel : Nat) (frames : SavedFrames) (list : List SavedFrame) :
    (frames.entries ++ list).Perm ((bailLoop timeout current fuel frames list).1.entries ++
      (bailLoop timeout current fuel frames list).2) ∧
    (bailLoop timeout current fuel frames list).1.count -
      (bailLoop timeout current fuel frames list).1.entries.length =
        frames.count - frames.entries.length := by
  induction fuel generalizing frames list with
  | zero => exact ⟨.refl _, rfl⟩
  | succ fuel ih =>
    rw [bailLoop]
    cases hget : savedFramesGetTimedout timeout current frames with
    | none => exact ⟨.refl _, rfl⟩
    | some found =>
      obtain ⟨frame, rest⟩ := found
      have hrest : frames.entries = frame :: rest.entries ∧ rest.count = frames.count - 1 := by
        rw [savedFramesGetTimedout] at hget
        split at hget
        · exact absurd hget (by simp)
        · next head sf hsf =>
          split at hget
          · cases hget
            exact ⟨by rw [SavedFrames.entries, hsf]; rfl, rfl⟩
          · exact absurd hget (by simp)
      obtain ⟨hperm, hcount⟩ := ih rest (frame :: list)
      refine ⟨?_, ?_⟩
      · rw [hrest.1]
        exact List.perm_middle.symm.trans hperm
      · rw [hcount, hrest.1, hrest.2, List.length_cons]
        omega

/-! ## Custody -/

/-- The frames of a list whose callback has not been invoked. -/
def waiting (list : List SavedFrame) (running : Bool) : List SavedFrame :=
  if running then list.tail else list

/-- The requests that a thread has taken off the saved frames. -/
def Thread.taken : Thread → List Nat
  | .replying frame _ => [frame.rpcreq.callid]
  | .bailing list running => callids (waiting list running)
  | .unwinding frames running => callids (waiting frames.entries running)
  | _ => []

/-- The requests whose callback is left to a thread. -/
def Thread.holds : Thread → List Nat
  | .submitting req => [req.callid]
  | .failing req => [req.callid]
  | thread => thread.taken

def Client.answered (client : Client) : List Nat := client.answers.map Answer.callid

def Client.custody (client : Client) : List Nat :=
  callids client.savedFrames.entries ++ client.threads.flatMap Thread.holds ++ client.answered

/-- The same without the submissions under way. -/
def Client.takenUp (client : Client) : List Nat :=
  callids client.savedFrames.entries ++ client.threads.flatMap Thread.taken ++ client.answered

/-- What a thread knows of its frames. -/
def ThreadOk (answered : List Nat) : Thread → Prop
  | .replying frame xid => frame.rpcreq.xid = xid
  | .bailing list running =>
    running = true → ∃ head tail, list = head :: tail ∧ head.rpcreq.callid ∈ answered
  | .unwinding frames running =>
    frames.lkSf = [] ∧ frames.count = (waiting frames.entries running).length ∧
      (running = true → ∃ head tail, frames.sf = head :: tail ∧ head.rpcreq.callid ∈ answered)
  | _ => True

theorem ThreadOk.mono {left right : List Nat} (hsub : left ⊆ right) {thread : Thread}
    (hok : ThreadOk left thread) : ThreadOk right thread := by
  cases thread with
  | submitting req => trivial
  | failing req => trivial
  | replying frame xid => exact hok
  | bailing list running =>
    intro hrunning
    obtain ⟨head, tail, hlist, hmem⟩ := hok hrunning
    exact ⟨head, tail, hlist, hsub hmem⟩
  | unwinding frames running =>
    refine ⟨hok.1, hok.2.1, fun hrunning => ?_⟩
    obtain ⟨head, tail, hlist, hmem⟩ := hok.2.2 hrunning
    exact ⟨head, tail, hlist, hsub hmem⟩

section Handing

variable {thread : Thread} {req : RpcReq} {cause : Cause} {index : Nat}

theorem threads_perm (hget : client.threads[index]? = some thread) :
    client.threads.Perm (thread :: (client.leave index).threads) := by
  obtain ⟨hlt, rfl⟩ := List.getElem?_eq_some_iff.mp hget
  exact (List.getElem_cons_eraseIdx_perm hlt).symm

theorem custody_enter : (client.enter thread).custody.Perm (thread.holds ++ client.custody) := by
  rw [List.perm_iff_count]
  intro callid
  simp only [Client.custody, Client.enter, Client.answered, List.flatMap_cons, List.count_append]
  omega

theorem custody_callback :
    (client.callback req cause).custody.Perm (req.callid :: client.custody) := by
  rw [List.perm_iff_count]
  intro callid
  simp only [Client.custody, Client.callback, Client.answered, List.map_append, List.map_cons,
    List.map_nil, List.count_append, List.count_cons, List.count_nil]
  omega

theorem mem_takenUp_enter :
    callid ∈ (client.enter thread).takenUp ↔ callid ∈ thread.taken ∨ callid ∈ client.takenUp := by
  simp only [Client.takenUp, Client.enter, Client.answered, List.flatMap_cons, List.mem_append]
  tauto

theorem mem_takenUp_callback :
    callid ∈ (client.callback req cause).takenUp ↔ callid = req.callid ∨
      callid ∈ client.takenUp := by
  simp only [Client.takenUp, Client.callback, Client.answered, List.map_append, List.map_cons,
    List.map_nil, List.mem_append, List.mem_singleton]
  tauto

theorem answered_callback : client.answered ⊆ (client.callback req cause).answered ∧
      req.callid ∈ (client.callback req cause).answered := by
  simp [Client.answered, Client.callback]

end Handing

/-! ## The invariant -/

structure CallsInv (client : Client) : Prop where
  custody : client.custody.Perm (List.range' 1 client.xid)
  taken : client.submitted ⊆ client.takenUp
  threads : ∀ thread ∈ client.threads, ThreadOk client.answered thread
  count : client.savedFrames.count = client.savedFrames.entries.length
  replies : ∀ answer ∈ client.answers, ∀ xid, answer.cause = .reply xid →
    answer.callid % 2 ^ 32 = xid

theorem CallsInv.initial : CallsInv initialClient where
  custody := .refl _
  taken := List.nil_subset _
  threads := fun _ hmem => absurd hmem List.not_mem_nil
  count := rfl
  replies := fun _ hmem => absurd hmem List.not_mem_nil

namespace CallsInv

variable {thread next : Thread} {req : RpcReq} {cause : Cause} {index : Nat}

theorem apart (hinv : CallsInv client) (hget : client.threads[index]? = some thread) :
    CallsInv ((client.leave index).enter thread) := by
  have hperm := threads_perm hget
  refine ⟨?_, ?_, ?_, hinv.count, hinv.replies⟩
  · exact (((hperm.symm.flatMap_right _).append_left _).append_right _).trans hinv.custody
  · intro callid hmem
    exact ((((hperm.flatMap_right _).append_left _).append_right _).mem_iff).mp (hinv.taken hmem)
  · exact fun thread hmem => hinv.threads thread (hperm.mem_iff.mpr hmem)

section

variable (hinv : CallsInv (client.enter thread))

include hinv

theorem ended (hholds : thread.holds = []) (htaken : thread.taken = []) : CallsInv client where
  custody := by
    have hperm : (thread.holds ++ client.custody).Perm _ := custody_enter.symm.trans hinv.custody
    rwa [hholds] at hperm
  taken := fun callid hmem => by
    have h := mem_takenUp_enter.mp (hinv.taken hmem)
    rw [htaken] at h
    exact h.resolve_left List.not_mem_nil
  threads := fun other hmem => hinv.threads other (List.mem_cons_of_mem _ hmem)
  count := hinv.count
  replies := hinv.replies

theorem goesOn (hholds : next.holds.Perm thread.holds) (htaken : thread.taken ⊆ next.taken)
    (hok : ThreadOk client.answered next) : CallsInv (client.enter next) where
  custody := by
    refine custody_enter.trans ?_
    exact (hholds.append_right _).trans (custody_enter.symm.trans hinv.custody)
  taken := fun callid hmem => by
    rcases mem_takenUp_enter.mp (hinv.taken hmem) with h | h
    · exact mem_takenUp_enter.mpr (.inl (htaken h))
    · exact mem_takenUp_enter.mpr (.inr h)
  threads := List.forall_mem_cons.mpr ⟨hok, fun other hmem =>
    hinv.threads other (List.mem_cons_of_mem _ hmem)⟩
  count := hinv.count
  replies := hinv.replies

theorem called (hholds : thread.holds.Perm (req.callid :: next.holds))
    (htaken : thread.taken ⊆ req.callid :: next.taken)
    (hok : ThreadOk (client.callback req cause).answered next)
    (hcause : ∀ xid, cause = .reply xid → req.xid = xid) :
    CallsInv ((client.callback req cause).enter next) where
  custody := by
    refine custody_enter.trans ((custody_callback.append_left _).trans ?_)
    refine List.perm_middle.trans ?_
    exact (hholds.symm.append_right _).trans (custody_enter.symm.trans hinv.custody)
  taken := fun callid hmem => by
    rw [mem_takenUp_enter, mem_takenUp_callback]
    rcases mem_takenUp_enter.mp (hinv.taken hmem) with h | h
    · rcases List.mem_cons.mp (htaken h) with h | h
      · exact .inr (.inl h)
      · exact .inl h
    · exact .inr (.inr h)
  threads := List.forall_mem_cons.mpr ⟨hok, fun other hmem =>
    (hinv.threads other (List.mem_cons_of_mem _ hmem)).mono answered_callback.1⟩
  count := hinv.count
  replies := fun answer hmem xid h => by
    rcases List.mem_append.mp hmem with hmem | hmem
    · exact hinv.replies answer hmem xid h
    · cases List.mem_singleton.mp hmem
      exact hcause xid h

theorem calledLast (hholds : thread.holds = [req.callid])
    (hcause : ∀ xid, cause = .reply xid → req.xid = xid) :
    CallsInv (client.callback req cause) := by
  have htaken : thread.taken ⊆ [req.callid] := by
    rw [← hholds]
    cases thread with
    | submitting | failing => exact List.nil_subset _
    | replying | bailing | unwinding => exact List.Subset.refl _
  have hcalled : CallsInv ((client.callback req cause).enter (.bailing [] false)) :=
    hinv.called (hholds ▸ .refl _) htaken (fun h => nomatch h) hcause
  exact hcalled.ended rfl rfl

theorem proceed (hstep : thread.proceed client = some after) : CallsInv after := by
  have hok := hinv.threads thread List.mem_cons_self
  cases thread with
  | submitting req => exact nomatch hstep
  | failing req =>
    cases hstep
    exact hinv.calledLast rfl (fun _ h => nomatch h)
  | replying frame xid =>
    cases hstep
    refine hinv.calledLast rfl fun _ h => ?_
    cases h
    exact hok
  | bailing list running =>
    match list, running with
    | [], false =>
      cases hstep
      exact hinv.ended rfl rfl
    | [], true =>
      cases hstep
      exact hinv.ended rfl rfl
    | frame :: rest, false =>
      cases hstep
      exact hinv.called (.refl _) (List.Subset.refl _)
        (fun _ => ⟨frame, rest, rfl, answered_callback.2⟩) (fun _ h => nomatch h)
    | frame :: rest, true =>
      cases hstep
      exact hinv.goesOn (.refl _) (List.Subset.refl _) (fun h => nomatch h)
  | unwinding frames running =>
    obtain ⟨count, sf, lkSf⟩ := frames
    obtain ⟨rfl, hcount, -⟩ := hok
    match sf, running with
    | [], false =>
      cases hstep
      exact hinv.ended rfl rfl
    | [], true =>
      cases hstep
      exact hinv.ended rfl rfl
    | frame :: rest, false =>
      cases hstep
      refine hinv.called (.refl _) (List.Subset.refl _) ⟨rfl, ?_, fun _ =>
        ⟨frame, rest, rfl, answered_callback.2⟩⟩ (fun _ h => nomatch h)
      simp only [waiting, SavedFrames.entries, List.append_nil, Bool.false_eq_true, if_false,
        List.length_cons, if_true, List.tail_cons] at hcount ⊢
      omega
    | frame :: rest, true =>
      cases hstep
      exact hinv.goesOn (.refl _) (List.Subset.refl _) ⟨rfl, hcount, fun h => nomatch h⟩

end

theorem saved (hinv : CallsInv (client.enter (.submitting req))) (now : Nat) :
    CallsInv { client with
      savedFrames := savedFramesPut client.savedFrames req now
      submitted := client.submitted ++ [req.callid] } := by
  obtain ⟨hput, hcount⟩ := savedFramesPut_spec client.savedFrames req now
  have hcallids : (callids (savedFramesPut client.savedFrames req now).entries).Perm
      (req.callid :: callids client.savedFrames.entries) := hput.map _
  refine ⟨?_, ?_, fun thread hmem => hinv.threads thread (List.mem_cons_of_mem _ hmem), ?_,
    hinv.replies⟩
  · refine .trans ?_ (custody_enter.symm.trans hinv.custody)
    exact (hcallids.append_right _).append_right _
  · intro callid hmem
    have htaken : callid = req.callid ∨ callid ∈ client.takenUp := by
      rcases List.mem_append.mp hmem with h | h
      · exact .inr ((mem_takenUp_enter.mp (hinv.taken h)).resolve_left List.not_mem_nil)
      · exact .inl (List.mem_singleton.mp h)
    simp only [Client.takenUp, List.mem_append, hcallids.mem_iff, List.mem_cons] at htaken ⊢
    tauto
  · have hbefore : client.savedFrames.count = client.savedFrames.entries.length := hinv.count
    rw [hcount, hput.length_eq, List.length_cons]
    omega

theorem detached (hinv : CallsInv client) (connected : Bool)
    (hperm : (callids client.savedFrames.entries).Perm (thread.taken ++ callids frames.entries))
    (hholds : thread.holds = thread.taken) (hok : ThreadOk client.answered thread)
    (hcount : frames.count = frames.entries.length) :
    CallsInv ({ client with savedFrames := frames, connected }.enter thread) where
  custody := by
    refine custody_enter.trans (.trans ?_ hinv.custody)
    rw [hholds, Client.custody, Client.custody, ← List.append_assoc, ← List.append_assoc]
    exact (hperm.symm.append_right _).append_right _
  taken := fun callid hmem => by
    have h := hinv.taken hmem
    rw [mem_takenUp_enter]
    simp only [Client.takenUp, List.mem_append, hperm.mem_iff] at h ⊢
    tauto
  threads := List.forall_mem_cons.mpr ⟨hok, hinv.threads⟩
  count := hcount
  replies := hinv.replies

theorem step {label : Label} (hinv : CallsInv client)
    (hstep : step client timeout label = some after) : CallsInv after := by
  cases label with
  | newCallid prognum progver procnum =>
    cases hstep
    refine ⟨?_, ?_, List.forall_mem_cons.mpr ⟨trivial, hinv.threads⟩, hinv.count, hinv.replies⟩
    · refine custody_enter.trans ?_
      rw [Client.enter, List.range'_1_concat, Nat.add_comm 1]
      exact (hinv.custody.cons _).trans (List.perm_append_singleton _ _).symm
    · exact fun callid hmem => mem_takenUp_enter.mpr (.inr (hinv.taken hmem))
  | recordFails index =>
    rw [Rpc.step] at hstep
    split at hstep
    · next req hget =>
      cases hstep
      exact (hinv.apart hget).goesOn (.refl _) (List.Subset.refl _) trivial
    · exact nomatch hstep
  | transportSubmit index ret now =>
    rw [Rpc.step] at hstep
    split at hstep
    · next req hget =>
      dsimp only at hstep
      split at hstep
      · cases hstep
        exact (hinv.apart hget).saved now
      · cases hstep
        exact (hinv.apart hget).goesOn (.refl _) (List.Subset.refl _) trivial
    · exact nomatch hstep
  | reply xid =>
    rw [Rpc.step] at hstep
    split at hstep
    · next frame frames hget =>
      cases hstep
      obtain ⟨hperm, hxid, hcount⟩ := savedFrameGet_spec hget
      refine hinv.detached _ (hperm.map _) rfl hxid ?_
      rw [hcount, hinv.count, hperm.length_eq, List.length_cons]
      omega
    · cases hstep
      exact hinv
  | callBail current =>
    cases hstep
    obtain ⟨hperm, hcount⟩ := bailLoop_spec timeout current client.savedFrames.sf.length
      client.savedFrames []
    refine hinv.detached _ ?_ rfl (fun h => nomatch h) ?_
    · rw [List.append_nil] at hperm
      exact (hperm.trans List.perm_append_comm).map _ |>.trans (by rw [List.map_append]; rfl)
    · have := hinv.count
      omega
  | disconnect =>
    cases hstep
    have hsplice : client.savedFrames.entries.Perm
        (client.savedFrames.lkSf ++ client.savedFrames.sf) := List.perm_append_comm
    refine hinv.detached _ ?_ rfl ⟨rfl, ?_, fun h => nomatch h⟩ rfl
    · simpa [Thread.taken, waiting, SavedFrames.entries, callids, savedFramesNew] using
        hsplice.map fun frame => frame.rpcreq.callid
    · rw [hinv.count, hsplice.length_eq]
      simp [waiting, SavedFrames.entries]
  | setConnected =>
    cases hstep
    exact ⟨hinv.custody, hinv.taken, hinv.threads, hinv.count, hinv.replies⟩
  | proceed index =>
    rw [Rpc.step] at hstep
    split at hstep
    · next thread hget => exact (hinv.apart hget).proceed hstep
    · exact nomatch hstep

theorem nodup (hinv : CallsInv client) : client.custody.Nodup :=
  hinv.custody.nodup_iff.mpr List.nodup_range'

/-- While few callids have been given out, the xid tells the request. -/
theorem xid_inj (hfew : client.xid < 2 ^ 32) {left right : Nat} (hleft : left ≤ client.xid)
    (hright : right ≤ client.xid) (hxid : left % 2 ^ 32 = right % 2 ^ 32) : left = right := by
  rwa [Nat.mod_eq_of_lt (by omega), Nat.mod_eq_of_lt (by omega)] at hxid

theorem mem_le (hinv : CallsInv client) (hmem : callid ∈ client.custody) : callid ≤ client.xid := by
  have := List.mem_range'_1.mp (hinv.custody.mem_iff.mp hmem)
  omega

/-- A reply finds the frame with its xid. -/
theorem finds (hinv : CallsInv client) (hfew : client.xid < 2 ^ 32)
    (hmem : frame ∈ client.savedFrames.entries) :
    ∃ rest, savedFrameGet client.savedFrames frame.rpcreq.xid = some (frame, rest) := by
  cases hget : savedFrameGet client.savedFrames frame.rpcreq.xid with
  | none => exact absurd rfl (savedFrameGet_eq_none hget frame hmem)
  | some found =>
    obtain ⟨other, rest⟩ := found
    obtain ⟨hperm, hxid, -⟩ := savedFrameGet_spec hget
    have hother : other ∈ client.savedFrames.entries := hperm.mem_iff.mpr List.mem_cons_self
    have hcustody : ∀ frame ∈ client.savedFrames.entries,
        frame.rpcreq.callid ∈ client.custody := fun frame h =>
      List.mem_append_left _ (List.mem_append_left _ (List.mem_map_of_mem h))
    have hcallid : other.rpcreq.callid = frame.rpcreq.callid :=
      xid_inj hfew (hinv.mem_le (hcustody other hother)) (hinv.mem_le (hcustody frame hmem)) hxid
    have hnodup : (callids client.savedFrames.entries).Nodup :=
      (hinv.nodup.of_append_left).of_append_left
    rw [List.inj_on_of_nodup_map hnodup hother hmem hcallid]
    exact ⟨rest, rfl⟩

/-- The list of a thread adds to its waiting frames only one that has been answered. -/
theorem count_listed_le (hok : ThreadOk client.answered thread)
    (hcallid : callid ∉ client.answered) :
    (callids thread.listed).count callid ≤ thread.holds.count callid := by
  have hwaiting : ∀ (list : List SavedFrame) (running : Bool),
      (running = true → ∃ head tail, list = head :: tail ∧ head.rpcreq.callid ∈ client.answered) →
      (callids list).count callid ≤ (callids (waiting list running)).count callid := by
    intro list running hrunning
    cases running with
    | false => exact le_rfl
    | true =>
      obtain ⟨head, tail, rfl, hhead⟩ := hrunning rfl
      have hne : head.rpcreq.callid ≠ callid := fun h => hcallid (h ▸ hhead)
      simp [callids, waiting, hne]
  cases thread with
  | submitting | failing | replying => exact Nat.zero_le _
  | bailing list running => exact hwaiting list running hok
  | unwinding frames running =>
    obtain ⟨hlk, -, hrunning⟩ := hok
    refine hwaiting frames.entries running fun h => ?_
    rw [SavedFrames.entries, hlk, List.append_nil]
    exact hrunning h

/-- A request that has not been called is on exactly one list. -/
theorem count_listed (hinv : CallsInv client) (hmem : callid ∈ client.submitted)
    (hcalled : ¬client.Called callid) : client.listed.count callid = 1 := by
  have hanswered : callid ∉ client.answered := by
    intro h
    obtain ⟨answer, hanswer, heq⟩ := List.mem_map.mp h
    exact hcalled (.inl ⟨answer, hanswer, heq⟩)
  apply le_antisymm
  · have hthreads : (client.threads.flatMap fun thread => callids thread.listed).count callid ≤
        (client.threads.flatMap Thread.holds).count callid := by
      rw [List.count_flatMap, List.count_flatMap]
      exact List.sum_le_sum fun thread h => count_listed_le (hinv.threads thread h) hanswered
    have hcustody := List.nodup_iff_count_le_one.mp hinv.nodup callid
    rw [Client.custody, List.count_append, List.count_append] at hcustody
    rw [Client.listed, List.count_append]
    omega
  · refine List.one_le_count_iff.mpr ?_
    have htaken := hinv.taken hmem
    simp only [Client.takenUp, List.mem_append, hanswered, or_false] at htaken
    rcases htaken with h | h
    · exact List.mem_append_left _ h
    · obtain ⟨thread, hthread, hin⟩ := List.mem_flatMap.mp h
      have hlisted : callid ∈ callids thread.listed := by
        have hwaiting : ∀ list running, callids (waiting list running) ⊆ callids list := by
          intro list running
          refine List.map_subset _ ?_
          cases running with
          | false => exact List.Subset.refl _
          | true => exact (List.tail_sublist list).subset
        cases thread with
        | submitting | failing => exact absurd hin List.not_mem_nil
        | replying frame xid =>
          exact absurd (.inr ⟨frame, xid, hthread, (List.mem_singleton.mp hin).symm⟩) hcalled
        | bailing list running => exact hwaiting list running hin
        | unwinding frames running => exact hwaiting frames.entries running hin
      exact List.mem_append_right _ (List.mem_flatMap.mpr ⟨thread, hthread, hlisted⟩)

end CallsInv

/-! ## Every call is answered once -/

/-- What holds of the calls of a client at every moment. -/
structure CallsAnsweredOnce (timeout : Nat) (client : Client) : Prop where
  /-- No callback is invoked twice. -/
  once : (client.answers.map Answer.callid).Nodup
  /-- A reply went to the one request that has its xid. -/
  reply : ∀ answer ∈ client.answers, ∀ xid, answer.cause = .reply xid →
    ∀ callid, callid ≤ client.xid → (callid % 2 ^ 32 = xid ↔ callid = answer.callid)
  /-- A reply that comes now goes to the saved request that has its xid. -/
  handed : ∀ frame ∈ client.savedFrames.entries, ∃ after,
    step client timeout (.reply frame.rpcreq.xid) = some after ∧
      .replying frame frame.rpcreq.xid ∈ after.threads
  /-- A submitted request that has not been called is on exactly one list. -/
  present : ∀ callid ∈ client.submitted, ¬client.Called callid → client.listed.count callid = 1
  count : client.savedFrames.count = client.savedFrames.entries.length
  /-- The count of detached frames, those whose callback has been invoked apart. -/
  detached : ∀ (frames : SavedFrames) (running : Bool), .unwinding frames running ∈ client.threads →
    frames.count = (waiting frames.entries running).length

/-- Over every interleaving of submissions, replies, bail-outs and disconnects. -/
theorem calls_answered_once (timeout : Nat)
    (hreach : Reachable (step · timeout) initialClient client) (hfew : client.xid < 2 ^ 32) :
    CallsAnsweredOnce timeout client := by
  have hinv : CallsInv client :=
    hreach.invariant .initial fun _ _ _ hbefore _ hstep => hbefore.step hstep
  refine ⟨hinv.nodup.of_append_right, ?_, ?_, ?_, hinv.count, ?_⟩
  · intro answer hanswer xid hcause callid hle
    have hmem : answer.callid ∈ client.custody :=
      List.mem_append_right _ (List.mem_map_of_mem hanswer)
    rw [← hinv.replies answer hanswer xid hcause]
    constructor
    · exact CallsInv.xid_inj hfew hle (hinv.mem_le hmem)
    · rintro rfl
      rfl
  · intro frame hmem
    obtain ⟨rest, hget⟩ := hinv.finds hfew hmem
    refine ⟨_, by rw [step, hget], List.mem_cons_self⟩
  · exact fun callid hmem hcalled => hinv.count_listed hmem hcalled
  · exact fun frames running hmem => (hinv.threads _ hmem).2.1

/-- One of two calls is answered by its reply, the other one by a disconnect. -/
theorem calls_answered_once_disconnect : ∃ client,
    run (step · 1800) initialClient [.newCallid 1298437 330 12, .newCallid 1298437 330 26,
      .transportSubmit 1 true 5, .transportSubmit 0 true 6, .reply 2, .reply 9, .proceed 0,
      .disconnect, .proceed 0] = some client ∧
    client.answers = [⟨2, .reply 2⟩, ⟨1, .unwound⟩] ∧ CallsAnsweredOnce 1800 client := by
  obtain ⟨client, hrun⟩ : ∃ client, run (step · 1800) initialClient [.newCallid 1298437 330 12,
      .newCallid 1298437 330 26, .transportSubmit 1 true 5, .transportSubmit 0 true 6, .reply 2,
      .reply 9, .proceed 0, .disconnect, .proceed 0] = some client := ⟨_, rfl⟩
  have hanswers : client.answers = [⟨2, .reply 2⟩, ⟨1, .unwound⟩] := by
    cases hrun
    decide
  have hfew : client.xid < 2 ^ 32 := by
    cases hrun
    decide
  exact ⟨client, hrun, hanswers, calls_answered_once 1800 (.of_run _ .start hrun) hfew⟩

end GlusterFS.Rpc
