import GlusterFS.Dht.Layout

/-!
# The hash of a temporary name

rsync writes a file under a temporary name, which is the name between two dots and with a
suffix, and renames it when it is complete.  The hash of such a name is taken from the part
between the dots, so that the file does not move when it is renamed.
-/

namespace GlusterFS.Dht

variable {target suffix name : FileName}

/-- The name rsync gives to a file before it is complete. -/
def temporaryName (target suffix : FileName) : FileName := dot :: target ++ dot :: suffix

/-- The name has the form of a temporary one. -/
def IsTemporaryName (name : FileName) : Prop :=
  ∃ target suffix, target ≠ [] ∧ suffix ≠ [] ∧ dot ∉ suffix ∧ name = temporaryName target suffix

theorem strrchrDot_append (front : FileName) (hsuffix : dot ∉ suffix) :
    strrchrDot (front ++ dot :: suffix) = some front.length := by
  have hfirst : (front ++ dot :: suffix).reverse.findIdx? (· = dot) = some suffix.length := by
    rw [List.reverse_append, List.reverse_cons, List.append_assoc, List.findIdx?_append,
      List.findIdx?_eq_none_iff.mpr fun char hchar => by
        have hother : char ≠ dot := by
          rintro rfl
          exact hsuffix (List.mem_reverse.mp hchar)
        simpa using hother]
    simp [List.findIdx?_cons]
  rw [strrchrDot, hfirst]
  simp

/-- The last dot splits a name that has one. -/
theorem exists_last_dot (hdot : dot ∈ name) :
    ∃ front suffix, name = front ++ dot :: suffix ∧ dot ∉ suffix := by
  obtain ⟨back, front, hreverse, hback⟩ :=
    List.eq_append_cons_of_mem (List.mem_reverse.mpr hdot)
  refine ⟨front.reverse, back.reverse, ?_, by simpa using hback⟩
  rw [← List.reverse_reverse name, hreverse]
  simp

theorem rsyncFriendlyName_temporary (htarget : target ≠ []) (hsuffix : suffix ≠ [])
    (hdot : dot ∉ suffix) : rsyncFriendlyName (temporaryName target suffix) = target := by
  have hlast : strrchrDot (temporaryName target suffix) = some (target.length + 1) :=
    strrchrDot_append (dot :: target) hdot
  have htarget' : 0 < target.length := List.length_pos_iff.mpr htarget
  have hsuffix' : 0 < suffix.length := List.length_pos_iff.mpr hsuffix
  have hlength : (temporaryName target suffix).length =
      target.length + 1 + (suffix.length + 1) := by
    simp [temporaryName]
    omega
  rw [rsyncFriendlyName, if_pos (by rfl), hlast]
  dsimp only
  rw [if_pos (by omega)]
  simp [temporaryName]

theorem rsyncFriendlyName_of_not_temporary (hname : ¬IsTemporaryName name) :
    rsyncFriendlyName name = name := by
  by_cases hfirst : name.head? = some dot
  · have hdot : dot ∈ name := List.mem_of_mem_head? hfirst
    obtain ⟨front, suffix, rfl, hsuffix⟩ := exists_last_dot hdot
    rw [rsyncFriendlyName, if_pos hfirst, strrchrDot_append front hsuffix]
    dsimp only
    refine if_neg fun hlong => hname ?_
    -- The name begins with a dot, has its last dot behind the second place and goes on.
    cases front with
    | nil => exact absurd hlong.1 (by simp)
    | cons first target =>
      obtain rfl : first = dot := Option.some_inj.mp hfirst
      refine ⟨target, suffix, ?_, ?_, hsuffix, rfl⟩
      · rintro rfl
        exact absurd hlong.1 (by simp)
      · rintro rfl
        exact absurd hlong.2 (by simp)
  · rw [rsyncFriendlyName, if_neg hfirst]

/-- What is hashed for a temporary name is what is hashed for its target exactly where the
target is not itself such a name, and then the two have one hash. -/
theorem temporary_name_hashes_like_target (target suffix : FileName) (htarget : target ≠ [])
    (hsuffix : suffix ≠ []) (hdot : dot ∉ suffix) :
    (rsyncFriendlyName (temporaryName target suffix) = rsyncFriendlyName target ↔
        ¬IsTemporaryName target) ∧
      (¬IsTemporaryName target →
        dhtHashCompute (temporaryName target suffix) = dhtHashCompute target) := by
  rw [dhtHashCompute, dhtHashCompute, rsyncFriendlyName_temporary htarget hsuffix hdot]
  refine ⟨⟨?_, fun hplain => (rsyncFriendlyName_of_not_temporary hplain).symm⟩, fun hplain => ?_⟩
  · rintro hsame ⟨inner, innerSuffix, hinner, hinnerSuffix, hinnerDot, rfl⟩
    rw [rsyncFriendlyName_temporary hinner hinnerSuffix hinnerDot] at hsame
    -- The target is two dots and a suffix longer than what is hashed for it.
    have hlength := congrArg List.length hsame
    simp only [temporaryName, List.cons_append, List.length_cons, List.length_append] at hlength
    omega
  · rw [rsyncFriendlyName_of_not_temporary hplain]

/-- `.a.x` is renamed to `a`. -/
theorem temporary_name_hashes_like_target_a :
    dhtHashCompute (temporaryName [97] [120]) = dhtHashCompute [97] := by
  refine (temporary_name_hashes_like_target [97] [120] (by decide) (by decide)
    (by decide)).2 ?_
  rintro ⟨target, suffix, htarget, -, -, hname⟩
  have hlength := congrArg List.length hname
  simp [temporaryName] at hlength

/-- `..a.b.x` is hashed as `.a.b`, and `.a.b` as `a`. -/
theorem temporary_target_hashes_differently : ¬∀ target suffix : FileName, target ≠ [] →
    suffix ≠ [] → dot ∉ suffix →
    dhtHashCompute (temporaryName target suffix) = dhtHashCompute target := by
  intro hall
  have hsame := hall [46, 97, 46, 98] [120] (by decide) (by decide) (by decide)
  exact absurd hsame (by decide +kernel)

end GlusterFS.Dht
