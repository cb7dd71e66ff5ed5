import GlusterFS.Core.BigEndian
import GlusterFS.Core.MergeOrder
import GlusterFS.PosixAcl.Permits

/-!
# Access lists in extended attributes

An access list is stored as a version and a record of eight bytes for each entry, all of it
little-endian.  The decoder sorts the entries, by a comparison that subtracts the ids as
32-bit words.  The encoder keeps the ids of named users and groups only.
-/

namespace GlusterFS.PosixAcl

open BigEndian (signed32)

/-- `POSIX_ACL_VERSION` -/
def posixAclVersion : UInt32 := 2

/-- `POSIX_ACL_UNDEFINED_ID` -/
def posixAclUndefinedId : UInt32 := 0xffffffff

/-- A `struct posix_acl_xattr_entry` -/
structure XattrEntry where
  tag : UInt16
  perm : UInt16
  id : UInt32

def htole16 (x : UInt16) : List UInt8 := [.ofNat x.toNat, .ofNat (x.toNat / 2 ^ 8)]

def htole32 (x : UInt32) : List UInt8 :=
  [.ofNat x.toNat, .ofNat (x.toNat / 2 ^ 8), .ofNat (x.toNat / 2 ^ 16), .ofNat (x.toNat / 2 ^ 24)]

def letoh16 (a b : UInt8) : UInt16 := .ofNat (a.toNat + b.toNat * 2 ^ 8)

def letoh32 (a b c d : UInt8) : UInt32 :=
  .ofNat (a.toNat + b.toNat * 2 ^ 8 + c.toNat * 2 ^ 16 + d.toNat * 2 ^ 24)

def XattrEntry.bytes (entry : XattrEntry) : List UInt8 :=
  htole16 entry.tag ++ htole16 entry.perm ++ htole32 entry.id

/-- A buffer with these entries. -/
def xattrBuf (entries : List XattrEntry) : List UInt8 :=
  htole32 posixAclVersion ++ entries.flatMap XattrEntry.bytes

/-- The tags that the decoder knows. -/
def AceTag.ofValue (value : UInt16) : Option AceTag :=
  [AceTag.userObj, .user, .groupObj, .group, .mask, .other].find? fun tag =>
    tag.value = value.toNat

/-- One round of the loop of `posix_acl_from_xattr` -/
def decodeEntry (entry : XattrEntry) : Option Ace :=
  (AceTag.ofValue entry.tag).map fun tag =>
    let id := match tag with
      | .userObj | .mask | .other | .undefined => posixAclUndefinedId
      | .group | .user | .groupObj => entry.id
    ⟨tag, entry.perm.toNat, id.toNat⟩

/-- The loop of `posix_acl_from_xattr` -/
def decodeEntries : List UInt8 → Option (List Ace)
  | t0 :: t1 :: p0 :: p1 :: i0 :: i1 :: i2 :: i3 :: rest =>
    (decodeEntry ⟨letoh16 t0 t1, letoh16 p0 p1, letoh32 i0 i1 i2 i3⟩).bind fun ace =>
      (decodeEntries rest).map (ace :: ·)
  | _ => some []

/-- `posix_ace_cmp`: the difference of the ids is that of unsigned words. -/
def posixAceCmp (ace1 ace2 : Ace) : Int :=
  let ret : Int := ace1.tag.value - ace2.tag.value
  if ret = 0 then signed32 ((ace1.id + 2 ^ 32 - ace2.id) % 2 ^ 32) else ret

/-- `posix_acl_normalize`; the `qsort` of the C library is a merge sort. -/
def posixAclNormalize (acl : List Ace) : List Ace :=
  acl.mergeSort fun ace1 ace2 => posixAceCmp ace1 ace2 ≤ 0

/-- `posix_acl_from_xattr` -/
def posixAclFromXattr : List UInt8 → Option (List Ace)
  | v0 :: v1 :: v2 :: v3 :: entries =>
    if entries.length % 8 = 0 ∧ letoh32 v0 v1 v2 v3 = posixAclVersion then
      (decodeEntries entries).map posixAclNormalize
    else none
  | _ => none

/-- One round of the loop of `posix_acl_to_xattr` -/
def encodeAce (ace : Ace) : XattrEntry where
  tag := .ofNat ace.tag.value
  perm := .ofNat ace.perm
  id := match ace.tag with
    | .user | .group => .ofNat ace.id
    | .userObj | .groupObj | .mask | .other | .undefined => posixAclUndefinedId

/-- `posix_acl_to_xattr`: the size that is needed, if the buffer is smaller. -/
def posixAclToXattr (acl : List Ace) (xattrSize : Nat) : Except Nat (List UInt8) :=
  let size := 4 + acl.length * 8
  if xattrSize < size then .error size else .ok (xattrBuf (acl.map encodeAce))

/-- `posix_acl_matches_xattr` -/
def posixAclMatchesXattr (acl : List Ace) (buf : List UInt8) : Bool :=
  match posixAclFromXattr buf with
  | none => false
  | some acl2 => acl = acl2

variable {entries other : List XattrEntry} {acl left right : List Ace} {ace1 ace2 : Ace}

/-! ## Bytes -/

theorem letoh16_bytes (x : UInt16) : letoh16 (.ofNat x.toNat) (.ofNat (x.toNat / 2 ^ 8)) = x := by
  have hx := x.toNat_lt
  apply UInt16.toNat_inj.mp
  simp only [letoh16, UInt8.toNat_ofNat', UInt16.toNat_ofNat']
  omega

theorem letoh32_bytes (x : UInt32) : letoh32 (.ofNat x.toNat) (.ofNat (x.toNat / 2 ^ 8))
    (.ofNat (x.toNat / 2 ^ 16)) (.ofNat (x.toNat / 2 ^ 24)) = x := by
  have hx := x.toNat_lt
  apply UInt32.toNat_inj.mp
  simp only [letoh32, UInt8.toNat_ofNat', UInt32.toNat_ofNat']
  omega

theorem length_flatMap_bytes (entries : List XattrEntry) :
    (entries.flatMap XattrEntry.bytes).length = entries.length * 8 := by
  induction entries with
  | nil => rfl
  | cons entry rest ih =>
    rw [List.flatMap_cons, List.length_append, ih, List.length_cons]
    simp only [XattrEntry.bytes, htole16, htole32, List.length_append, List.length_cons,
      List.length_nil]
    omega

theorem decodeEntries_flatMap (hvalid : ∀ entry ∈ entries, (decodeEntry entry).isSome) :
    decodeEntries (entries.flatMap XattrEntry.bytes) = some (entries.filterMap decodeEntry) := by
  induction entries with
  | nil => rfl
  | cons entry rest ih =>
    obtain ⟨hentry, hrest⟩ := List.forall_mem_cons.mp hvalid
    obtain ⟨ace, hace⟩ := Option.isSome_iff_exists.mp hentry
    rw [List.flatMap_cons, List.filterMap_cons_some hace]
    simp only [XattrEntry.bytes, htole16, htole32, List.cons_append, List.nil_append, decodeEntries,
      letoh16_bytes, letoh32_bytes, hace, ih hrest]
    rfl

/-- A buffer of entries with known tags is decoded. -/
theorem posixAclFromXattr_xattrBuf (hvalid : ∀ entry ∈ entries, (decodeEntry entry).isSome) :
    posixAclFromXattr (xattrBuf entries) =
      some (posixAclNormalize (entries.filterMap decodeEntry)) := by
  have hlength : (entries.flatMap XattrEntry.bytes).length % 8 = 0 := by
    rw [length_flatMap_bytes, Nat.mul_mod_left]
  simp only [xattrBuf, htole32, List.cons_append, List.nil_append, posixAclFromXattr,
    letoh32_bytes, hlength, true_and, if_true, decodeEntries_flatMap hvalid, Option.map_some]

/-! ## The order of the entries -/

/-- The comparison is an order on the entries.  It is not where the ids of three users each
come before the next one within half the range, or those of two are half the range apart. -/
structure Ordered (acl : List Ace) : Prop where
  antisymm : ∀ ace1 ∈ acl, ∀ ace2 ∈ acl,
    posixAceCmp ace1 ace2 ≤ 0 → posixAceCmp ace2 ace1 ≤ 0 → ace1 = ace2
  trans : ∀ ace1 ∈ acl, ∀ ace2 ∈ acl, ∀ ace3 ∈ acl,
    posixAceCmp ace1 ace2 ≤ 0 → posixAceCmp ace2 ace3 ≤ 0 → posixAceCmp ace1 ace3 ≤ 0

theorem posixAceCmp_total (ace1 ace2 : Ace) :
    posixAceCmp ace1 ace2 ≤ 0 ∨ posixAceCmp ace2 ace1 ≤ 0 := by
  simp only [posixAceCmp, signed32]
  split_ifs <;> omega

theorem posixAclNormalize_perm (acl : List Ace) : (posixAclNormalize acl).Perm acl :=
  List.mergeSort_perm ..

theorem Ordered.pairwise_normalize (h : Ordered right) (hsub : ∀ ace ∈ left, ace ∈ right) :
    (posixAclNormalize left).Pairwise fun ace1 ace2 => posixAceCmp ace1 ace2 ≤ 0 := by
  have hattach : (left.attach.mergeSort fun ace1 ace2 =>
      decide (posixAceCmp ace1.1 ace2.1 ≤ 0)).map Subtype.val = posixAclNormalize left :=
    (List.map_mergeSort (f := Subtype.val) fun _ _ _ _ => rfl).trans
      (congrArg posixAclNormalize (List.attach_map_subtype_val left))
  rw [← hattach, List.pairwise_map]
  refine (List.pairwise_mergeSort ?_ ?_ _).imp of_decide_eq_true
  · intro ace1 ace2 ace3 h12 h23
    rw [decide_eq_true_eq] at h12 h23 ⊢
    exact h.trans _ (hsub _ ace1.2) _ (hsub _ ace2.2) _ (hsub _ ace3.2) h12 h23
  · intro ace1 ace2
    simpa using posixAceCmp_total ace1.1 ace2.1

/-- The order of the entries is forgotten. -/
theorem Ordered.normalize_congr (h : Ordered right) (hperm : left.Perm right) :
    posixAclNormalize left = posixAclNormalize right := by
  have hleft := (posixAclNormalize_perm left).trans hperm
  have hright := posixAclNormalize_perm right
  refine List.Perm.eq_of_pairwise ?_ (h.pairwise_normalize fun _ => hperm.mem_iff.mp)
    (h.pairwise_normalize fun _ => id) (hleft.trans hright.symm)
  intro ace1 ace2 hace1 hace2
  exact h.antisymm _ (hleft.mem_iff.mp hace1) _ (hright.mem_iff.mp hace2)

/-! ## Decoding what was encoded -/

/-- The entry of the owning group has no id. -/
def GroupUndefined (acl : List Ace) : Prop :=
  ∀ ace ∈ acl, ace.tag = .groupObj → ace.id = posixAclUndefinedId.toNat
  deriving Decidable

/-- What is left of an entry when it is encoded and decoded again. -/
def withoutGroupId (ace : Ace) : Ace :=
  { ace with id := if ace.tag = .groupObj then posixAclUndefinedId.toNat else ace.id }

theorem decodeEntry_encodeAce {entry : XattrEntry} (hdecode : decodeEntry entry = some ace1) :
    decodeEntry (encodeAce ace1) = some (withoutGroupId ace1) := by
  obtain ⟨tag, htag, rfl⟩ := Option.map_eq_some_iff.mp hdecode
  cases tag <;>
    simp_all [decodeEntry, encodeAce, withoutGroupId, AceTag.ofValue, AceTag.value]

/-- Encoding a decoded list and decoding it again. -/
theorem posixAclFromXattr_encode (hacl : ∀ ace ∈ acl, ∃ entry, decodeEntry entry = some ace) :
    posixAclFromXattr (xattrBuf (acl.map encodeAce)) =
      some (posixAclNormalize (acl.map withoutGroupId)) := by
  have hback : ∀ ace ∈ acl, decodeEntry (encodeAce ace) = some (withoutGroupId ace) := by
    intro ace hace
    obtain ⟨entry, hentry⟩ := hacl ace hace
    exact decodeEntry_encodeAce hentry
  have hentries : (acl.map encodeAce).filterMap decodeEntry = acl.map withoutGroupId := by
    rw [List.filterMap_map, Function.comp_def, List.filterMap_congr hback,
      List.filterMap_eq_map']
  rw [posixAclFromXattr_xattrBuf, hentries]
  intro entry hentry
  obtain ⟨ace, hace, rfl⟩ := List.mem_map.mp hentry
  rw [hback ace hace, Option.isSome_some]

theorem decoded_of_mem_normalize :
    ∀ ace ∈ posixAclNormalize (entries.filterMap decodeEntry),
      ∃ entry, decodeEntry entry = some ace := by
  intro ace hace
  obtain ⟨entry, -, hentry⟩ :=
    List.mem_filterMap.mp ((posixAclNormalize_perm _).mem_iff.mp hace)
  exact ⟨entry, hentry⟩

/-- Decoding forgets the order of the entries, and encoding what was decoded loses nothing. -/
structure Canonical (entries : List XattrEntry) : Prop where
  order : ∀ other : List XattrEntry, other.Perm entries →
    posixAclFromXattr (xattrBuf other) = posixAclFromXattr (xattrBuf entries)
  again : ∃ acl encoded, posixAclFromXattr (xattrBuf entries) = some acl ∧
    posixAclToXattr acl (4 + acl.length * 8) = .ok encoded ∧
    posixAclFromXattr encoded = some acl ∧ posixAclMatchesXattr acl encoded = true

theorem Ordered.canonical (hvalid : ∀ entry ∈ entries, (decodeEntry entry).isSome)
    (hentries : Ordered (entries.filterMap decodeEntry))
    (hgroup : GroupUndefined (entries.filterMap decodeEntry)) : Canonical entries where
  order other hperm := by
    have hother : ∀ entry ∈ other, (decodeEntry entry).isSome :=
      fun entry hentry => hvalid entry (hperm.mem_iff.mp hentry)
    rw [posixAclFromXattr_xattrBuf hvalid, posixAclFromXattr_xattrBuf hother,
      hentries.normalize_congr (hperm.filterMap _)]
  again := by
    have hgroups : (posixAclNormalize (entries.filterMap decodeEntry)).map withoutGroupId =
        posixAclNormalize (entries.filterMap decodeEntry) := by
      refine (List.map_congr_left fun ace hace => ?_).trans (List.map_id _)
      have hid := hgroup ace ((posixAclNormalize_perm _).mem_iff.mp hace)
      simp only [withoutGroupId, id_eq]
      split_ifs with htag
      · rw [← hid htag]
      · rfl
    have hencoded := posixAclFromXattr_encode (@decoded_of_mem_normalize entries)
    rw [hgroups, hentries.normalize_congr (posixAclNormalize_perm _)] at hencoded
    refine ⟨_, _, posixAclFromXattr_xattrBuf hvalid, if_neg (Nat.lt_irrefl _), hencoded, ?_⟩
    rw [posixAclMatchesXattr, hencoded, decide_eq_true_eq]

/-- Every order of the decoded entries comes from an order of the buffer. -/
theorem exists_perm_of_decoded (hvalid : ∀ entry ∈ entries, (decodeEntry entry).isSome)
    (hperm : acl.Perm (entries.filterMap decodeEntry)) :
    ∃ other : List XattrEntry, other.Perm entries ∧ other.filterMap decodeEntry = acl := by
  have hmap : (entries.filterMap decodeEntry).map some = entries.map decodeEntry := by
    rw [List.map_filterMap_some_eq_filter_map_isSome, List.filter_eq_self]
    simpa using hvalid
  have hsome := hperm.map some
  rw [hmap] at hsome
  obtain ⟨other, hother, hentries⟩ :=
    (congrFun₂ (List.eq_map_comp_perm decodeEntry) (acl.map some) entries).mpr hsome
  have hfilter := congrArg (List.filterMap id) hother
  exact ⟨other, hentries, by simpa [List.filterMap_map] using hfilter.symm⟩

/-- A list of entries is canonical exactly where the comparison is an order on its entries
and the entry of the owning group has no id. -/
theorem acl_xattr_canonical (hvalid : ∀ entry ∈ entries, (decodeEntry entry).isSome) :
    Canonical entries ↔ Ordered (entries.filterMap decodeEntry) ∧
      GroupUndefined (entries.filterMap decodeEntry) := by
  constructor
  · rintro ⟨horder, acl, encoded, hacl, hencoded, hagain, -⟩
    refine ⟨?_, fun ace hace htag => ?_⟩
    · have hlinear : MergeOrder.LinearOn (fun ace1 ace2 => decide (posixAceCmp ace1 ace2 ≤ 0))
          (entries.filterMap decodeEntry) := by
        refine MergeOrder.linearOn_of_mergeSort_eq (by simpa using posixAceCmp_total) ?_
        intro acl hperm
        obtain ⟨other, hother, rfl⟩ := exists_perm_of_decoded hvalid hperm
        have hsame := horder other hother
        rw [posixAclFromXattr_xattrBuf hvalid, posixAclFromXattr_xattrBuf fun entry hentry =>
          hvalid entry (hother.mem_iff.mp hentry)] at hsame
        exact Option.some_inj.mp hsame
      exact ⟨by simpa using hlinear.antisymm, by simpa using hlinear.trans⟩
    · rw [posixAclFromXattr_xattrBuf hvalid, Option.some_inj] at hacl
      rw [← hacl, posixAclToXattr, if_neg (Nat.lt_irrefl _), Except.ok.injEq] at hencoded
      rw [← hencoded, posixAclFromXattr_encode decoded_of_mem_normalize, ← hacl,
        Option.some_inj] at hagain
      -- the entry is one of those that were encoded
      have hmem := (posixAclNormalize_perm _).mem_iff.mpr hace
      rw [← hagain] at hmem
      obtain ⟨source, -, rfl⟩ := List.mem_map.mp ((posixAclNormalize_perm _).mem_iff.mp hmem)
      exact if_pos htag
  · rintro ⟨hordered, hgroup⟩
    exact hordered.canonical hvalid hgroup

theorem posixAclFromXattr_pair {entry1 entry2 : XattrEntry} (h1 : decodeEntry entry1 = some ace1)
    (h2 : decodeEntry entry2 = some ace2) : posixAclFromXattr (xattrBuf [entry1, entry2]) =
      some (if posixAceCmp ace1 ace2 ≤ 0 then [ace1, ace2] else [ace2, ace1]) := by
  rw [posixAclFromXattr_xattrBuf (by simp [h1, h2])]
  simp [posixAclNormalize, List.mergeSort, List.merge, h1, h2]

/-- Two users and the owner, in any order. -/
theorem acl_xattr_canonical_users : Canonical [⟨2, 6, 9⟩, ⟨2, 4, 7⟩, ⟨1, 7, 0⟩] :=
  (acl_xattr_canonical (by decide)).mpr ⟨⟨by decide, by decide⟩, by decide⟩

/-- Ids half the range apart are decoded in the order that they are given in. -/
theorem acl_xattr_not_canonical : ¬∀ entries : List XattrEntry,
    (∀ entry ∈ entries, (decodeEntry entry).isSome) → Canonical entries := by
  intro hall
  have hswap := (hall [⟨2, 6, 0⟩, ⟨2, 6, 0x80000000⟩] (by decide)).order _ (.swap _ _ [])
  rw [posixAclFromXattr_pair rfl rfl, posixAclFromXattr_pair rfl rfl] at hswap
  exact absurd hswap (by decide)

end GlusterFS.PosixAcl
