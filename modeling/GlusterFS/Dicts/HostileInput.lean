import GlusterFS.Dicts.Dict

/-!
# Unserializing what a peer sent

The decoder checks that each length ends within the buffer.  It does not check that a length
is not negative, nor that a key ends where its length says.  A decoder that stops at the first
pair that is not consistent is the standard it is compared with.
-/

namespace GlusterFS.Dicts.Dict

open BigEndian

section Buffer

variable (hash : Key → UInt32) (memory : List UInt8)

/-- Where the pair at a position ends. -/
def pairEnd (pos keylen vallen : Int) : Int := pos + 4 + 4 + keylen + 1 + vallen

/-- The lengths are not negative, and the key ends where its length says. -/
def Consistent (pos keylen vallen : Int) : Prop :=
  0 ≤ keylen ∧ 0 ≤ vallen ∧
    ((bytesAt memory (pos + 4 + 4)).bind cString).map (fun key => (key.bytes.length : Int)) =
      some keylen
  deriving Decidable

/-- The pair at a position and where it ends, if it is consistent and in the buffer. -/
def consistentPair (pos : Int) : Option (Key × Data × Int) :=
  (read32At memory pos).bind fun keylen =>
    (read32At memory (pos + 4)).bind fun vallen =>
      if Consistent memory pos keylen vallen ∧ pairEnd pos keylen vallen ≤ memory.length then
        ((bytesAt memory (pos + 4 + 4)).bind cString).bind fun key =>
          (memdup memory (pos + 4 + 4 + keylen + 1) vallen).map fun data =>
            (key, ⟨vallen, data⟩, pairEnd pos keylen vallen)
      else none

/-- Taking the pairs one by one up to the first that is not consistent. -/
def readPairs : Nat → Dict → Int → Bool × Dict × Int
  | 0, d, pos => (true, d, pos)
  | count + 1, d, pos =>
    match consistentPair memory pos with
    | none => (false, d, pos)
    | some (key, value, next) => readPairs count (d.dictAdd hash key value) next

/-- What a decoder has to return: an error for a buffer without a number of pairs or with an
inconsistent pair, and otherwise all the pairs. -/
def readDict (fill : Dict) : Bool × Dict × Int :=
  match read32At memory 0 with
  | none => (false, fill, 0)
  | some count =>
    if count < 0 then (false, fill, 4)
    else readPairs hash memory count.toNat { fill with count := 0 } 4

/-- Every pair that is reached and passes the checks of the decoder is consistent. -/
def ChecksSuffice : Nat → Int → Prop
  | 0, _ => True
  | count + 1, pos => ∀ keylen vallen, read32At memory pos = some keylen →
      read32At memory (pos + 4) = some vallen → pos + 4 + 4 + keylen ≤ memory.length →
      pairEnd pos keylen vallen ≤ memory.length →
      Consistent memory pos keylen vallen ∧ ChecksSuffice count (pairEnd pos keylen vallen)

end Buffer

variable {memory : List UInt8} {pos : Int} {count : Nat} (hash : Key → UInt32)

theorem exists_read32At_iff (hpos : 0 ≤ pos) :
    (∃ word, read32At memory pos = some word) ↔ pos + 4 ≤ memory.length := by
  have hlength : (memory.drop pos.toNat).length = memory.length - pos.toNat := List.length_drop
  simp only [read32At, bytesAt, if_pos hpos, Option.bind_some, Option.map_eq_some_iff]
  rcases hbytes : memory.drop pos.toNat with _ | ⟨a, _ | ⟨b, _ | ⟨c, _ | ⟨d, rest⟩⟩⟩⟩ <;>
    simp only [hbytes, List.length_nil, List.length_cons] at hlength <;> simp [read32] <;> omega

theorem read32At_eq_none (hpos : 0 ≤ pos) (hend : memory.length < pos + 4) :
    read32At memory pos = none := by
  by_contra hsome
  obtain ⟨word, hword⟩ := Option.ne_none_iff_exists'.mp hsome
  have hle := (exists_read32At_iff hpos).mp ⟨word, hword⟩
  omega

theorem exists_memdup {vallen : Int} (hpos : 0 ≤ pos) (hend : pos + vallen ≤ memory.length) :
    ∃ data, memdup memory pos vallen = some data := by
  rw [memdup]
  split
  · exact ⟨_, rfl⟩
  · rw [bytesAt, if_pos hpos, Option.bind_some, if_pos (by rw [List.length_drop]; omega)]
    exact ⟨_, rfl⟩

/-- A turn has refused a pair that is not in the buffer. -/
def TurnRefuses (hash : Key → UInt32) (memory : List UInt8) (count : Nat) (d : Dict)
    (pos : Int) : Prop :=
  unserializePair hash memory memory.length d pos = some (.error ()) ∧
    consistentPair memory pos = none ∧ ChecksSuffice memory (count + 1) pos

/-- A turn has taken a consistent pair. -/
def TurnTakes (hash : Key → UInt32) (memory : List UInt8) (count : Nat) (d : Dict)
    (pos : Int) : Prop :=
  ∃ key value next, consistentPair memory pos = some (key, value, next) ∧ 0 ≤ next ∧
    unserializePair hash memory memory.length d pos =
      some (.ok (d.dictAdd hash key value, next)) ∧
    (ChecksSuffice memory (count + 1) pos ↔ ChecksSuffice memory count next)

/-- A turn has taken a pair that is not consistent, or left the buffer over it. -/
def TurnFails (hash : Key → UInt32) (memory : List UInt8) (count : Nat) (d : Dict)
    (pos : Int) : Prop :=
  unserializePair hash memory memory.length d pos ≠ some (.error ()) ∧
    consistentPair memory pos = none ∧ ¬ChecksSuffice memory (count + 1) pos

theorem turnRefuses_of_short (d : Dict) (hpos : 0 ≤ pos) (hshort : memory.length < pos + 4 + 4) :
    TurnRefuses hash memory count d pos := by
  by_cases hkeyWord : pos + 4 ≤ memory.length
  · obtain ⟨keylen, hkeylen⟩ := (exists_read32At_iff hpos).mpr hkeyWord
    have hnone := read32At_eq_none (show 0 ≤ pos + 4 by omega) hshort
    refine ⟨?_, by simp [consistentPair, hkeylen, hnone], fun _ vallen _ hvallen => ?_⟩
    · rw [unserializePair, if_neg (by omega), hkeylen, Option.bind_some, if_pos (by omega)]
    · simp [hnone] at hvallen
  · have hnone := read32At_eq_none hpos (Int.not_le.mp hkeyWord)
    refine ⟨by rw [unserializePair, if_pos (by omega)], by simp [consistentPair, hnone], ?_⟩
    intro keylen vallen hkeylen
    simp [hnone] at hkeylen

theorem unserializePair_cases (count : Nat) (d : Dict) (hpos : 0 ≤ pos) :
    TurnRefuses hash memory count d pos ∨ TurnTakes hash memory count d pos ∨
      TurnFails hash memory count d pos := by
  by_cases hwords : pos + 4 + 4 ≤ memory.length
  case neg => exact .inl (turnRefuses_of_short hash d hpos (Int.not_le.mp hwords))
  obtain ⟨keylen, hkeylen⟩ :=
    (exists_read32At_iff hpos).mpr (show pos + 4 ≤ (memory.length : Int) by omega)
  obtain ⟨vallen, hvallen⟩ := (exists_read32At_iff (show 0 ≤ pos + 4 by omega)).mpr hwords
  rw [TurnRefuses, TurnTakes, TurnFails, unserializePair, if_neg (by omega), hkeylen,
    Option.bind_some, if_neg (by omega), hvallen, Option.bind_some, consistentPair, hkeylen,
    Option.bind_some, hvallen, Option.bind_some]
  dsimp only
  have hchecks : ChecksSuffice memory (count + 1) pos ↔ (pos + 4 + 4 + keylen ≤ memory.length →
      pairEnd pos keylen vallen ≤ memory.length → Consistent memory pos keylen vallen ∧
        ChecksSuffice memory count (pairEnd pos keylen vallen)) := by
    simp [ChecksSuffice, hkeylen, hvallen]
  rw [hchecks, ← pairEnd]
  by_cases hfits : pos + 4 + 4 + keylen ≤ memory.length ∧
      pairEnd pos keylen vallen ≤ memory.length
  case neg =>
    refine .inl ⟨?_, if_neg ?_, fun hkey hend => absurd ⟨hkey, hend⟩ hfits⟩
    · split_ifs <;> first | rfl | omega
    · rintro ⟨⟨hkey, hval, -⟩, hend⟩
      have hpairEnd := hend
      rw [pairEnd] at hpairEnd
      exact hfits ⟨by omega, hend⟩
  obtain ⟨hkey, hend⟩ := hfits
  rw [if_neg (by omega), if_neg (by omega)]
  by_cases hconsistent : Consistent memory pos keylen vallen
  · have ⟨hkeyPos, hvalPos, hlength⟩ := hconsistent
    obtain ⟨key, hcString, -⟩ := Option.map_eq_some_iff.mp hlength
    obtain ⟨data, hdata⟩ := exists_memdup (show 0 ≤ pos + 4 + 4 + keylen + 1 by omega) hend
    rw [if_pos ⟨hconsistent, hend⟩, hcString, hdata]
    exact .inr (.inl ⟨key, ⟨vallen, data⟩, pairEnd pos keylen vallen, rfl,
      by rw [pairEnd]; omega, rfl, by simp [hkey, hend, hconsistent]⟩)
  · refine .inr (.inr ⟨fun hturn => ?_, if_neg fun h => hconsistent h.1,
      fun h => hconsistent (h hkey hend).1⟩)
    obtain ⟨data, -, hturn⟩ := Option.bind_eq_some_iff.mp hturn
    obtain ⟨key, -, hturn⟩ := Option.map_eq_some_iff.mp hturn
    cases hturn

theorem count_dictAdd (d : Dict) (key : Key) (value : Data) :
    (d.dictAdd hash key value).count = d.count + 1 := by
  have hcount : d.newPair.2.count = d.count := by
    rw [newPair]
    split_ifs <;> rfl
  exact congrArg (· + 1) hcount

theorem count_unserializePair {d d' : Dict} {size next : Int}
    (hturn : unserializePair hash memory size d pos = some (.ok (d', next))) :
    d'.count = d.count + 1 := by
  have hnot : ∀ {fits : Prop} [Decidable fits] {rest : Option (Except Unit (Dict × Int))},
      (if fits then some (.error ()) else rest) = some (.ok (d', next)) →
      rest = some (.ok (d', next)) := by
    intro fits _ rest h
    split_ifs at h
    · cases h
    · exact h
  obtain ⟨keylen, -, hturn⟩ := Option.bind_eq_some_iff.mp (hnot hturn)
  obtain ⟨vallen, -, hturn⟩ := Option.bind_eq_some_iff.mp (hnot hturn)
  obtain ⟨data, -, hturn⟩ := Option.bind_eq_some_iff.mp (hnot (hnot hturn))
  obtain ⟨key, -, hturn⟩ := Option.map_eq_some_iff.mp hturn
  cases hturn
  exact count_dictAdd hash d key _

/-- Pairs are added and not taken away. -/
theorem count_le_unserializeLoop {d d' : Dict} {ok : Bool} {size buf : Int}
    (hloop : unserializeLoop hash memory size count d pos = some (ok, d', buf)) :
    d.count ≤ d'.count := by
  induction count generalizing d pos with
  | zero =>
    cases hloop
    exact Int.le_refl _
  | succ count ih =>
    obtain ⟨turn, hturn, hrest⟩ := Option.bind_eq_some_iff.mp hloop
    cases turn with
    | error =>
      cases hrest
      exact Int.le_refl _
    | ok taken =>
      have hcount := count_unserializePair hash hturn
      have hle := ih hrest
      omega

/-- The loop takes the pairs as they have to be taken exactly where its checks suffice. -/
theorem unserializeLoop_eq_iff (d : Dict) (hpos : 0 ≤ pos) :
    unserializeLoop hash memory memory.length count d pos =
      some (readPairs hash memory count d pos) ↔ ChecksSuffice memory count pos := by
  induction count generalizing d pos with
  | zero => exact iff_of_true rfl trivial
  | succ count ih =>
    rw [unserializeLoop, readPairs]
    obtain ⟨hturn, hpair, hchecks⟩ | ⟨key, value, next, hpair, hnext, hturn, hchecks⟩ |
      ⟨hturn, hpair, hchecks⟩ := unserializePair_cases hash count d hpos
    · rw [hturn, hpair]
      exact iff_of_true rfl hchecks
    · rw [hturn, hpair, hchecks]
      exact ih _ hnext
    · rw [hpair]
      refine iff_of_false (fun hloop => ?_) hchecks
      obtain ⟨turn, hsome, hrest⟩ := Option.bind_eq_some_iff.mp hloop
      cases turn with
      | error => exact hturn hsome
      | ok taken =>
        -- A pair more is in the dict than there has to be.
        have hcount := count_unserializePair hash hsome
        have hle := count_le_unserializeLoop hash hrest
        omega

/-- The decoder reads a buffer within its bounds and stops with an error at the first pair that
is not consistent exactly where its checks let no such pair pass. -/
theorem dict_unserialize_within_bounds (memory : List UInt8) (fill : Dict) {size : Int}
    (hsize : memory.length = size.toNat) :
    dictUnserialize hash memory size fill = some (readDict hash memory fill) ↔
      ∀ count, read32At memory 0 = some count → ChecksSuffice memory count.toNat 4 := by
  rw [dictUnserialize, readDict]
  by_cases hsmall : size = 0 ∨ size < 4
  · have hnone := read32At_eq_none (Int.le_refl 0) (show (memory.length : Int) < 0 + 4 by omega)
    simp [hsmall, hnone]
  · obtain ⟨count, hcount⟩ := (exists_read32At_iff (Int.le_refl 0)).mpr
      (show (0 : Int) + 4 ≤ memory.length by omega)
    rw [if_neg hsmall, hcount, Option.bind_some]
    simp only [Option.some.injEq, forall_eq']
    by_cases hnegative : count < 0
    · have hzero : count.toNat = 0 := by omega
      simp [hnegative, hzero, ChecksSuffice]
    · rw [if_neg hnegative, if_neg hnegative, show size = memory.length by omega]
      exact unserializeLoop_eq_iff hash _ (by decide)

/-- A key of two bytes and a value of one. -/
def pairBuffer : List UInt8 := [0, 0, 0, 1, 0, 0, 0, 2, 0, 0, 0, 1, 97, 98, 0, 7]

theorem dict_unserialize_within_bounds_pair : dictUnserialize (fun _ => 0) pairBuffer 16 dictNew =
    some (readDict (fun _ => 0) pairBuffer dictNew) := by
  obtain ⟨hcount, hkeylen, hvallen⟩ : read32At pairBuffer 0 = some 1 ∧
      read32At pairBuffer 4 = some 2 ∧ read32At pairBuffer (4 + 4) = some 1 := by
    decide +kernel
  refine (dict_unserialize_within_bounds (fun _ => 0) pairBuffer dictNew
    (by decide : _ = Int.toNat 16)).mpr fun count hread => ?_
  obtain rfl := Option.some.inj (hcount.symm.trans hread)
  intro keylen vallen hread hread' _ _
  obtain rfl := Option.some.inj (hkeylen.symm.trans hread)
  obtain rfl := Option.some.inj (hvallen.symm.trans hread')
  exact ⟨by decide +kernel, trivial⟩

/-- A negative key length leads the decoder out of the buffer. -/
theorem dict_unserialize_outside_bounds : ¬∀ (hash : Key → UInt32) (memory : List UInt8)
    (fill : Dict) (size : Int), memory.length = size.toNat →
      dictUnserialize hash memory size fill = some (readDict hash memory fill) := by
  intro hall
  have hread := hall (fun _ => 0) [0, 0, 0, 1, 255, 255, 255, 236, 0, 0, 0, 1] dictNew 12 rfl
  have hnone : (dictUnserialize (fun _ => 0)
      [0, 0, 0, 1, 255, 255, 255, 236, 0, 0, 0, 1] 12 dictNew).isNone := by
    decide +kernel
  rw [hread] at hnone
  cases hnone

end GlusterFS.Dicts.Dict
