import GlusterFS.PosixAcl.Permits

/-!
# The decision is that of POSIX.1e

A valid list has its entries in six segments, one for each tag.  The loop of `acl_permits`
is followed from segment to segment.
-/

namespace GlusterFS.PosixAcl

variable {acl : List Ace} {caller : Caller} {ctx : AclCtx} {want perm gid : Nat}

/-! ## Permission sets -/

theorem covers_and {left right : Nat} :
    Covers (left &&& right) want ↔ Covers left want ∧ Covers right want := by
  simp only [Covers]
  constructor
  · intro h
    constructor
    · calc left &&& want = left &&& (left &&& right &&& want) := by rw [h]
        _ = left &&& right &&& want := by rw [← Nat.and_assoc, ← Nat.and_assoc, Nat.and_self]
        _ = want := h
    · calc right &&& want = right &&& (left &&& right &&& want) := by rw [h]
        _ = left &&& right &&& want := by
            rw [← Nat.and_assoc, Nat.and_comm left right, ← Nat.and_assoc, Nat.and_self]
        _ = want := h
  · rintro ⟨hleft, hright⟩
    rw [Nat.and_assoc, hright, hleft]

/-! ## Segments -/

def segment (tag : AceTag) (acl : List Ace) : List Ace := acl.filter fun ace => ace.tag = tag

variable {tag : AceTag}

theorem mem_segment {ace : Ace} : ace ∈ segment tag acl ↔ ace ∈ acl ∧ ace.tag = tag := by
  simp [segment]

theorem segment_cons (head : Ace) (tail : List Ace) : segment tag (head :: tail) =
      if head.tag = tag then head :: segment tag tail else segment tag tail := by
  simp [segment, List.filter_cons]

theorem segment_of_count_le_one (hcount : (acl.countP fun ace => ace.tag = tag) ≤ 1) :
    segment tag acl = [] ∨ ∃ single, segment tag acl = [single] := by
  rw [List.countP_eq_length_filter] at hcount
  rcases Nat.le_one_iff_eq_zero_or_eq_one.mp hcount with h | h
  · exact .inl (List.length_eq_zero_iff.mp h)
  · exact .inr (List.length_eq_one_iff.mp h)

theorem maskCheck_iff (hmask : (acl.countP fun ace => ace.tag = .mask) ≤ 1) :
    maskCheck want acl perm = true ↔ Covers perm want ∧ MaskCovers acl want := by
  have hfind : (acl.find? fun ace => ace.tag = .mask) = (segment .mask acl).head? :=
    List.head?_filter.symm
  have hcovers : MaskCovers acl want ↔ ∀ ace ∈ segment .mask acl, Covers ace.perm want := by
    simp only [MaskCovers, mem_segment, and_imp]
  rw [maskCheck, hfind, hcovers]
  obtain hnil | ⟨mask, hmask⟩ := segment_of_count_le_one hmask
  · simp [hnil]
  · simp [hmask, covers_and, and_comm]

/-- An ordered list is its entries of each tag in turn. -/
theorem eq_segments (hdefined : ∀ ace ∈ acl, ace.tag ≠ .undefined)
    (hordered : acl.Pairwise fun left right => left.tag.value ≤ right.tag.value) :
    acl = segment .userObj acl ++ (segment .user acl ++ (segment .groupObj acl ++
      (segment .group acl ++ (segment .mask acl ++ segment .other acl)))) := by
  induction acl with
  | nil => rfl
  | cons head tail ih =>
    obtain ⟨hhead, htail⟩ := List.pairwise_cons.mp hordered
    have hrest := ih (fun ace hace => hdefined ace (List.mem_cons_of_mem _ hace)) htail
    have hempty : ∀ tag : AceTag, tag.value < head.tag.value → segment tag tail = [] := by
      intro tag hlt
      refine List.eq_nil_iff_forall_not_mem.mpr fun ace hace => ?_
      obtain ⟨hmem, rfl⟩ := mem_segment.mp hace
      have hle := hhead ace hmem
      omega
    simp only [segment_cons]
    conv_lhs => rw [hrest]
    cases htag : head.tag with
    | undefined => exact absurd htag (hdefined head List.mem_cons_self)
    | userObj => simp
    | user =>
      rw [htag] at hempty
      simp [hempty .userObj (by decide)]
    | groupObj =>
      rw [htag] at hempty
      simp [hempty .userObj (by decide), hempty .user (by decide)]
    | group =>
      rw [htag] at hempty
      simp [hempty .userObj (by decide), hempty .user (by decide), hempty .groupObj (by decide)]
    | mask =>
      rw [htag] at hempty
      simp [hempty .userObj (by decide), hempty .user (by decide), hempty .groupObj (by decide),
        hempty .group (by decide)]
    | other =>
      rw [htag] at hempty
      simp [hempty .userObj (by decide), hempty .user (by decide), hempty .groupObj (by decide),
        hempty .group (by decide), hempty .mask (by decide)]

/-- The entries of a valid list: named ones are between the single ones. -/
structure Segments (acl : List Ace) (userObj groupObj other : Ace) : Prop where
  eq : acl = userObj :: (segment .user acl ++ groupObj :: (segment .group acl ++
    (segment .mask acl ++ [other])))
  userObj : ∀ ace, ace ∈ acl ∧ ace.tag = .userObj ↔ ace = userObj
  groupObj : ∀ ace, ace ∈ acl ∧ ace.tag = .groupObj ↔ ace = groupObj
  other : ∀ ace, ace ∈ acl ∧ ace.tag = .other ↔ ace = other

theorem segment_single (hcount : (acl.countP fun ace => ace.tag = tag) = 1) :
    ∃ single, segment tag acl = [single] ∧ ∀ ace, ace ∈ acl ∧ ace.tag = tag ↔ ace = single := by
  rw [List.countP_eq_length_filter] at hcount
  obtain ⟨single, hsingle⟩ := List.length_eq_one_iff.mp hcount
  refine ⟨single, hsingle, fun ace => ?_⟩
  rw [← mem_segment, segment, hsingle, List.mem_singleton]

theorem ValidAcl.segments (hvalid : ValidAcl acl) :
    ∃ userObj groupObj other, Segments acl userObj groupObj other := by
  obtain ⟨userObj, huserObj, huser⟩ := segment_single hvalid.userObj
  obtain ⟨groupObj, hgroupObj, hgroup⟩ := segment_single hvalid.groupObj
  obtain ⟨other, hother, hothers⟩ := segment_single hvalid.other
  have heq := eq_segments hvalid.defined hvalid.ordered
  rw [huserObj, hgroupObj, hother] at heq
  exact ⟨userObj, groupObj, other, heq, huser, hgroup, hothers⟩

/-! ## The loop over a segment -/

section Loop

variable (caller ctx want)

/-- Named users: the first one that is the caller decides. -/
theorem aclLoop_users (aclPresent found : Bool) {users : List Ace} (rest : List Ace)
    (husers : ∀ ace ∈ users, ace.tag = .user) (perm : Nat) :
    ∃ last, aclLoop caller ctx want aclPresent (users ++ rest) perm found =
      match users.find? fun ace => ace.id = caller.uid with
      | some ace => .maskCheck ace.perm
      | none => aclLoop caller ctx want aclPresent rest last found := by
  induction users generalizing perm with
  | nil => exact ⟨perm, rfl⟩
  | cons head tail ih =>
    have htag := husers head List.mem_cons_self
    rw [List.cons_append, aclLoop, htag, List.find?_cons]
    by_cases hid : head.id = caller.uid
    · exact ⟨0, by simp [frameIsUser, hid]⟩
    · obtain ⟨last, hlast⟩ := ih (fun ace h => husers ace (List.mem_cons_of_mem _ h)) head.perm
      refine ⟨last, ?_⟩
      simp only [frameIsUser, Ne.symm hid, decide_false, Bool.false_eq_true, if_false, hlast, hid]

/-- Named groups: the first one that has the caller and the permissions decides. -/
theorem aclLoop_groups (aclPresent : Bool) {groups : List Ace} (rest : List Ace)
    (hgroups : ∀ ace ∈ groups, ace.tag = .group) (perm : Nat) (found : Bool) :
    ∃ last, aclLoop caller ctx want aclPresent (groups ++ rest) perm found =
      match groups.find? fun ace => groupDecides caller want ace.id ace.perm with
      | some ace => .maskCheck ace.perm
      | none => aclLoop caller ctx want aclPresent rest last
          (found || groups.any fun ace => frameInGroup caller ace.id) := by
  induction groups generalizing perm found with
  | nil => exact ⟨perm, by simp⟩
  | cons head tail ih =>
    have htag := hgroups head List.mem_cons_self
    rw [List.cons_append, aclLoop, htag, List.find?_cons]
    cases hdecides : groupDecides caller want head.id head.perm with
    | true => exact ⟨0, by simp [hdecides]⟩
    | false =>
      obtain ⟨last, hlast⟩ := ih (fun ace h => hgroups ace (List.mem_cons_of_mem _ h)) head.perm
        (found || frameInGroup caller head.id)
      refine ⟨last, ?_⟩
      simp only [hdecides, Bool.false_eq_true, if_false, hlast, List.any_cons, Bool.or_assoc]

/-- The mask is passed over, and the entry for others ends the loop. -/
theorem aclLoop_last (aclPresent : Bool) {masks : List Ace} {other : Ace}
    (hmasks : ∀ ace ∈ masks, ace.tag = .mask) (hother : other.tag = .other) (perm : Nat)
    (found : Bool) :
    aclLoop caller ctx want aclPresent (masks ++ [other]) perm found =
      if found then .red else .permCheck (otherBits ctx.perm) := by
  induction masks with
  | nil => rw [List.nil_append, aclLoop, hother]
  | cons head tail ih =>
    rw [List.cons_append, aclLoop, hmasks head List.mem_cons_self]
    exact ih fun ace h => hmasks ace (List.mem_cons_of_mem _ h)

end Loop

/-! ## From the loop to the access check -/

section Decision

variable {userObj groupObj other : Ace}

/-- Both places the group permissions are taken from agree. -/
theorem groupObj_perm (hstep : InStep ctx.perm acl)
    (hsegments : Segments acl userObj groupObj other) :
    (if decide (3 < acl.length) = true then groupObj.perm else groupBits ctx.perm) =
      groupObj.perm := by
  split
  · rfl
  · next hlength =>
    obtain ⟨hmem, htag⟩ := (hsegments.groupObj groupObj).mpr rfl
    refine hstep.group ?_ groupObj hmem htag
    intro mask hmask hmaskTag
    have hcount := congrArg List.length hsegments.eq
    have hsegment : 0 < (segment .mask acl).length :=
      List.length_pos_of_mem (mem_segment.mpr ⟨hmask, hmaskTag⟩)
    simp only [List.length_cons, List.length_append, List.length_nil] at hcount
    simp only [decide_eq_true_eq] at hlength
    omega

/-- A caller other than the owner: named users first, then groups, then others. -/
theorem aclLoop_eq (hstep : InStep ctx.perm acl)
    (hsegments : Segments acl userObj groupObj other) (howner : caller.uid ≠ ctx.uid) :
    aclLoop caller ctx want (3 < acl.length) acl 0 false =
      match (segment .user acl).find? fun ace => ace.id = caller.uid with
      | some ace => .maskCheck ace.perm
      | none =>
        if groupDecides caller want ctx.gid groupObj.perm then .maskCheck groupObj.perm
        else
          match (segment .group acl).find? fun ace => groupDecides caller want ace.id ace.perm with
          | some ace => .maskCheck ace.perm
          | none =>
            if frameInGroup caller ctx.gid ||
                (segment .group acl).any fun ace => frameInGroup caller ace.id then .red
            else .permCheck (otherBits ctx.perm) := by
  have huserTag := ((hsegments.userObj userObj).mpr rfl).2
  have hgroupTag := ((hsegments.groupObj groupObj).mpr rfl).2
  have hotherTag := ((hsegments.other other).mpr rfl).2
  have hnotUser : frameIsUser caller ctx.uid = false := by simpa [frameIsUser] using howner
  have hperm := groupObj_perm hstep hsegments
  conv_lhs => arg 5; rw [hsegments.eq]
  rw [aclLoop, huserTag]
  simp only [hnotUser, Bool.false_eq_true, if_false]
  obtain ⟨last, husers⟩ := aclLoop_users caller ctx want (3 < acl.length) false
    (groupObj :: (segment .group acl ++ (segment .mask acl ++ [other])))
    (fun ace h => (mem_segment.mp h).2) (ownerBits ctx.perm)
  rw [husers]
  cases (segment .user acl).find? fun ace => ace.id = caller.uid with
  | some ace => rfl
  | none =>
    dsimp only
    rw [aclLoop, hgroupTag]
    dsimp only
    rw [hperm]
    split
    · rfl
    · obtain ⟨last, hgroups⟩ := aclLoop_groups caller ctx want (3 < acl.length)
        (segment .mask acl ++ [other]) (fun ace h => (mem_segment.mp h).2) groupObj.perm
        (false || frameInGroup caller ctx.gid)
      rw [hgroups, aclLoop_last caller ctx want _ (fun ace h => (mem_segment.mp h).2) hotherTag,
        Bool.false_or]

/-- The caller is in some group of the list exactly when the loop has found one. -/
theorem found_iff (hsegments : Segments acl userObj groupObj other) :
    (∃ ace ∈ acl, MatchesGroup caller gid ace) ↔ (frameInGroup caller gid ||
      (segment .group acl).any fun ace => frameInGroup caller ace.id) = true := by
  rw [Bool.or_eq_true, List.any_eq_true]
  constructor
  · rintro ⟨ace, hace, ⟨-, hin⟩ | ⟨htag, hin⟩⟩
    · exact .inl hin
    · exact .inr ⟨ace, mem_segment.mpr ⟨hace, htag⟩, hin⟩
  · rintro (hin | ⟨ace, hace, hin⟩)
    · obtain ⟨hmem, htag⟩ := (hsegments.groupObj groupObj).mpr rfl
      exact ⟨groupObj, hmem, .inl ⟨htag, hin⟩⟩
    · obtain ⟨hmem, htag⟩ := mem_segment.mp hace
      exact ⟨ace, hmem, .inr ⟨htag, hin⟩⟩

/-- Some group entry grants exactly when the owning group or a named group decides. -/
theorem decides_iff (gid : Nat) (hsegments : Segments acl userObj groupObj other) :
    (∃ ace ∈ acl, MatchesGroup caller gid ace ∧ Covers ace.perm want) ↔
      groupDecides caller want gid groupObj.perm = true ∨
        ∃ ace ∈ segment .group acl, groupDecides caller want ace.id ace.perm = true := by
  simp only [groupDecides, Bool.and_eq_true, decide_eq_true_eq]
  constructor
  · rintro ⟨ace, hace, ⟨htag, hin⟩ | ⟨htag, hin⟩, hcovers⟩
    · rw [(hsegments.groupObj ace).mp ⟨hace, htag⟩] at hcovers
      exact .inl ⟨hin, hcovers⟩
    · exact .inr ⟨ace, mem_segment.mpr ⟨hace, htag⟩, hin, hcovers⟩
  · rintro (⟨hin, hcovers⟩ | ⟨ace, hace, hin, hcovers⟩)
    · obtain ⟨hmem, htag⟩ := (hsegments.groupObj groupObj).mpr rfl
      exact ⟨groupObj, hmem, .inl ⟨htag, hin⟩, hcovers⟩
    · obtain ⟨hmem, htag⟩ := mem_segment.mp hace
      exact ⟨ace, hmem, .inr ⟨htag, hin⟩, hcovers⟩

theorem Covers.of_groupDecides (h : groupDecides caller want gid perm = true) :
    Covers perm want := by
  simp only [groupDecides, Bool.and_eq_true, decide_eq_true_eq] at h
  exact h.2

/-- A caller other than the owner that has no entry of its own. -/
theorem groups_decision (hvalid : ValidAcl acl) (hstep : InStep ctx.perm acl)
    (hsegments : Segments acl userObj groupObj other) (howner : caller.uid ≠ ctx.uid)
    (hnone : (segment .user acl).find? (fun ace => ace.id = caller.uid) = none) :
    (match aclLoop caller ctx want (3 < acl.length) acl 0 false with
      | .permCheck perm => decide (Covers perm want)
      | .maskCheck perm => maskCheck want acl perm
      | .red => false) = true ↔
      ((∃ ace ∈ acl, MatchesGroup caller ctx.gid ace) ∧
        (∃ ace ∈ acl, MatchesGroup caller ctx.gid ace ∧ Covers ace.perm want) ∧
          MaskCovers acl want) ∨
      (¬∃ ace ∈ acl, MatchesGroup caller ctx.gid ace) ∧
        ∃ ace ∈ acl, ace.tag = .other ∧ Covers ace.perm want := by
  rw [aclLoop_eq hstep hsegments howner, hnone]
  dsimp only
  -- a deciding entry is also one that the caller matches
  have hfound : (∃ ace ∈ acl, MatchesGroup caller ctx.gid ace ∧ Covers ace.perm want) →
      ∃ ace ∈ acl, MatchesGroup caller ctx.gid ace :=
    fun ⟨ace, hace, hmatches, _⟩ => ⟨ace, hace, hmatches⟩
  by_cases hgroup : groupDecides caller want ctx.gid groupObj.perm = true
  · have hdecides := (decides_iff ctx.gid hsegments).mpr (.inl hgroup)
    rw [if_pos hgroup]
    simp only [maskCheck_iff hvalid.mask, Covers.of_groupDecides hgroup, hdecides, hfound hdecides,
      true_and, not_true, false_and, or_false]
  · rw [if_neg hgroup]
    cases hnamed : (segment .group acl).find? fun ace =>
      groupDecides caller want ace.id ace.perm with
    | some ace =>
      have hace := List.mem_of_find?_eq_some hnamed
      have hgrants : groupDecides caller want ace.id ace.perm = true := by
        simpa using List.find?_some hnamed
      have hdecides := (decides_iff ctx.gid hsegments).mpr (.inr ⟨ace, hace, hgrants⟩)
      simp only [maskCheck_iff hvalid.mask, Covers.of_groupDecides hgrants, hdecides,
        hfound hdecides, true_and, not_true, false_and, or_false]
    | none =>
      have hnever : ¬∃ ace ∈ acl, MatchesGroup caller ctx.gid ace ∧ Covers ace.perm want := by
        rw [decides_iff ctx.gid hsegments]
        rintro (h | ⟨ace, hace, h⟩)
        · exact hgroup h
        · exact List.find?_eq_none.mp hnamed ace hace h
      have hother : (∃ ace ∈ acl, ace.tag = .other ∧ Covers ace.perm want) ↔
          Covers (otherBits ctx.perm) want := by
        obtain ⟨hmem, htag⟩ := (hsegments.other other).mpr rfl
        rw [hstep.other other hmem htag]
        constructor
        · rintro ⟨ace, hace, haceTag, hcovers⟩
          rwa [(hsegments.other ace).mp ⟨hace, haceTag⟩] at hcovers
        · exact fun hcovers => ⟨other, hmem, htag, hcovers⟩
      rw [found_iff hsegments, hother]
      simp only [hnever, false_and, and_false, false_or]
      cases frameInGroup caller ctx.gid ||
          (segment .group acl).any fun ace => frameInGroup caller ace.id with
      | true => simp
      | false => simp

/-- `acl_permits` grants exactly what the POSIX.1e access check does. -/
theorem acl_permits_iff_posix_grants {conf : AclConf} (hvalid : ValidAcl acl)
    (haccess : ctx.aclAccess = some acl) (hstep : InStep ctx.perm acl)
    (hsuper : frameIsSuperUser caller conf = false) :
    aclPermits caller ctx want conf = true ↔ PosixGrants acl ctx.uid ctx.gid caller want := by
  obtain ⟨userObj, groupObj, other, hsegments⟩ := hvalid.segments
  rw [aclPermits, hsuper, haccess, PosixGrants]
  simp only [Bool.false_eq_true, if_false, Option.getD_some]
  by_cases howner : caller.uid = ctx.uid
  · rw [if_pos howner]
    obtain ⟨hmem, htag⟩ := (hsegments.userObj userObj).mpr rfl
    have hloop : aclLoop caller ctx want (3 < acl.length) acl 0 false =
        .permCheck (ownerBits ctx.perm) := by
      conv_lhs => arg 5; rw [hsegments.eq]
      rw [aclLoop, htag]
      simp [frameIsUser, howner]
    rw [hloop, hstep.owner userObj hmem htag]
    simp only [decide_eq_true_eq]
    constructor
    · exact fun hcovers => ⟨userObj, hmem, htag, hcovers⟩
    · rintro ⟨ace, hace, haceTag, hcovers⟩
      rwa [(hsegments.userObj ace).mp ⟨hace, haceTag⟩] at hcovers
  · rw [if_neg howner]
    have hfind : (acl.find? fun ace => ace.tag = .user ∧ ace.id = caller.uid) =
        (segment .user acl).find? fun ace => ace.id = caller.uid := by
      rw [segment, List.find?_filter]
      simp only [decide_eq_true_eq]
    rw [hfind]
    cases hnamed : (segment .user acl).find? fun ace => ace.id = caller.uid with
    | some ace =>
      rw [aclLoop_eq hstep hsegments howner, hnamed]
      exact maskCheck_iff hvalid.mask
    | none => exact groups_decision hvalid hstep hsegments howner hnamed

/-- A named group entry that grants what the mask keeps. -/
theorem acl_permits_iff_posix_grants_named :
    aclPermits ⟨7, 8, [9]⟩ ⟨1, 2, 0o750, some [⟨.userObj, 7, 0⟩, ⟨.user, 4, 5⟩, ⟨.groupObj, 0, 0⟩,
      ⟨.group, 6, 9⟩, ⟨.mask, 5, 0⟩, ⟨.other, 0, 0⟩]⟩ 4 ⟨0⟩ = true ↔
    PosixGrants [⟨.userObj, 7, 0⟩, ⟨.user, 4, 5⟩, ⟨.groupObj, 0, 0⟩, ⟨.group, 6, 9⟩, ⟨.mask, 5, 0⟩,
      ⟨.other, 0, 0⟩] 1 2 ⟨7, 8, [9]⟩ 4 :=
  acl_permits_iff_posix_grants ⟨by decide, by decide, by decide, by decide, by decide, by decide,
    by decide⟩ rfl ⟨by decide, by decide, by decide, by decide⟩ (by decide)

end Decision

end GlusterFS.PosixAcl
