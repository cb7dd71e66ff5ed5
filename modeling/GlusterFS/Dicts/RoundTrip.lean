import GlusterFS.Dicts.Dict

/-!
# The wire format of dictionaries

In every dict that comes of setting and deleting, the bucket, the list and `count`
have the same pairs, under different keys.  What such a dict is serialized to is
read back as a dict with the same keys and values.
-/

namespace GlusterFS.Dicts

open Transition BigEndian

variable {hash : Key → UInt32} {d : Dict} {key : Key} {value : Data}

/-! ## Buckets and lists -/

/-- A dict has one bucket, with the pairs of the list in the same order. -/
structure DictInv (d : Dict) : Prop where
  hashSize : d.hashSize = 1
  members : d.members 0 = d.membersList
  count : d.count = d.membersList.length
  nodup : d.membersList.Nodup
  keys : (d.membersList.map fun pair => (d.pair pair).key).Nodup
  created : ∀ pair ∈ d.membersList, pair ≤ d.created
  freePair : d.freePairInUse = false → 0 ∉ d.membersList

/-- The keys and values in the order of the list. -/
def Dict.pairs (d : Dict) : List Pair := d.membersList.map d.pair

theorem DictInv.dictNew : DictInv .dictNew :=
  ⟨rfl, rfl, rfl, List.nodup_nil, List.nodup_nil, fun _ h => absurd h List.not_mem_nil,
    fun _ => List.not_mem_nil⟩

section Inv

variable (hd : DictInv d)

include hd

theorem DictInv.lookupHashval (key : Key) : ((hash key).toNat : Int) % d.hashSize = 0 := by
  rw [hd.hashSize]
  exact Int.emod_one _

theorem DictInv.setHashval (key : Key) : d.setHashval hash key = 0 := by
  rw [Dict.setHashval, hd.hashSize]
  exact Int.tmod_one _

theorem DictInv.dictLookup (key : Key) :
    d.dictLookup hash key = d.membersList.find? fun pair => (d.pair pair).key = key := by
  rw [Dict.dictLookup, hd.lookupHashval, hd.members]

theorem DictInv.toMap_eq (key : Key) : d.toMap hash key =
    (d.pairs.find? fun pair => pair.key = key).bind fun pair => pair.value.data := by
  rw [Dict.toMap, hd.dictLookup, Dict.pairs, List.find?_map, Option.bind_map]
  rfl

theorem DictInv.newPair_not_mem : d.newPair.1 ∉ d.membersList := by
  rw [Dict.newPair]
  split_ifs with huse
  · exact fun h => absurd (hd.created _ h) (Nat.not_succ_le_self _)
  · exact hd.freePair (Bool.eq_false_iff.mpr huse)

omit hd in
theorem newPair_le (d : Dict) :
    d.newPair.1 ≤ d.newPair.2.created ∧ d.created ≤ d.newPair.2.created := by
  rw [Dict.newPair]
  split_ifs
  · exact ⟨Nat.le_refl _, Nat.le_succ _⟩
  · exact ⟨Nat.zero_le _, Nat.le_refl _⟩

theorem DictInv.addPair_eq (key : Key) (value : Data) : d.addPair hash key value = { d with
      pair := Function.update d.pair d.newPair.1 ⟨key, value⟩
      members := Function.update d.members 0 (d.newPair.1 :: d.members 0)
      membersList := d.newPair.1 :: d.membersList
      count := d.count + 1
      freePairInUse := true
      created := d.newPair.2.created } := by
  rw [Dict.addPair, hd.setHashval, Dict.newPair]
  cases huse : d.freePairInUse with
  | true => simp
  | false => simp

theorem DictInv.addPair (hkey : ∀ pair ∈ d.pairs, pair.key ≠ key) :
    DictInv (d.addPair hash key value) ∧
      (d.addPair hash key value).pairs = ⟨key, value⟩ :: d.pairs := by
  have hfresh := hd.newPair_not_mem
  have hsame : ∀ pair ∈ d.membersList,
      Function.update d.pair d.newPair.1 ⟨key, value⟩ pair = d.pair pair := fun pair hpair => by
    have hne : pair ≠ d.newPair.1 := fun h => hfresh (h ▸ hpair)
    exact Function.update_of_ne hne ..
  have hpairs : (d.newPair.1 :: d.membersList).map
      (Function.update d.pair d.newPair.1 ⟨key, value⟩) =
      ⟨key, value⟩ :: d.pairs := by
    rw [List.map_cons, Function.update_self, List.map_congr_left hsame, Dict.pairs]
  rw [hd.addPair_eq]
  refine ⟨⟨hd.hashSize, ?_, ?_, List.nodup_cons.mpr ⟨hfresh, hd.nodup⟩, ?_, ?_, ?_⟩, hpairs⟩
  · rw [← hd.members]
    simp
  · simp [hd.count]
  · have hkeys := congrArg (List.map Pair.key) hpairs
    rw [List.map_map] at hkeys
    change (List.map (Pair.key ∘ _) _).Nodup
    rw [hkeys, List.map_cons, List.nodup_cons]
    refine ⟨fun h => ?_, ?_⟩
    · obtain ⟨pair, hpair, rfl⟩ := List.mem_map.mp h
      exact hkey pair hpair rfl
    · rw [Dict.pairs, List.map_map]
      exact hd.keys
  · obtain ⟨hnew, hold⟩ := newPair_le d
    intro pair hpair
    rcases List.mem_cons.mp hpair with rfl | hmem
    · exact hnew
    · exact Nat.le_trans (hd.created pair hmem) hold
  · exact fun h => Bool.noConfusion h

theorem DictInv.dictSet (key : Key) (value : Data) : DictInv (d.dictSet hash key value) ∧
    ∀ pair ∈ (d.dictSet hash key value).pairs, pair ∈ d.pairs ∨ pair.value = value := by
  rw [Dict.dictSet]
  cases hlookup : d.dictLookup hash key with
  | none =>
    have hkey : ∀ pair ∈ d.pairs, pair.key ≠ key := by
      rw [hd.dictLookup, List.find?_eq_none] at hlookup
      intro pair hpair
      obtain ⟨id, hid, rfl⟩ := List.mem_map.mp hpair
      simpa using hlookup id hid
    obtain ⟨hinv, hpairs⟩ :
        DictInv (d.addPair hash key value) ∧ _ = ⟨key, value⟩ :: d.pairs := hd.addPair hkey
    refine ⟨hinv, fun pair hpair => ?_⟩
    rw [hpairs] at hpair
    rcases List.mem_cons.mp hpair with rfl | hmem
    · exact .inr rfl
    · exact .inl hmem
  | some found =>
    have hsame : ∀ pair, (Function.update d.pair found { d.pair found with value := value }
        pair).key = (d.pair pair).key := by
      intro pair
      by_cases h : pair = found
      · rw [h, Function.update_self]
      · rw [Function.update_of_ne h]
    refine ⟨{ hd with keys := ?_ }, fun pair hpair => ?_⟩
    · simp only [hsame]
      exact hd.keys
    · obtain ⟨id, hid, rfl⟩ := List.mem_map.mp hpair
      by_cases h : id = found
      · simp [h]
      · simp only [Function.update_of_ne h]
        exact .inl (List.mem_map_of_mem hid)

theorem DictInv.dictDel (key : Key) : DictInv (d.dictDel hash key) ∧
    ∀ pair ∈ (d.dictDel hash key).pairs, pair ∈ d.pairs := by
  rw [Dict.dictDel, hd.lookupHashval, hd.members]
  cases hfind : d.membersList.find? fun pair => (d.pair pair).key = key with
  | none => exact ⟨hd, fun _ h => h⟩
  | some found =>
    dsimp only
    have hfound := List.mem_of_find?_eq_some hfind
    have hpos := List.length_pos_of_mem hfound
    have hsublist := List.erase_sublist (l := d.membersList) (a := found)
    refine ⟨⟨hd.hashSize, by simp, ?_, hd.nodup.sublist hsublist,
      hd.keys.sublist (hsublist.map _), fun pair hpair => hd.created pair (hsublist.subset hpair),
      ?_⟩, fun pair hpair => (hsublist.map _).subset hpair⟩
    · simp only [hd.count, List.length_erase_of_mem hfound]
      omega
    · split_ifs with hzero
      · intro _ hmem
        exact (hd.nodup.mem_erase_iff.mp hmem).1 hzero.symm
      · exact fun huse hmem => hd.freePair huse (hsublist.subset hmem)

end Inv

/-! ## Runs -/

/-- Every value has its bytes. -/
def Dict.ValuesOk (d : Dict) : Prop := ∀ pair ∈ d.pairs, ∃ bytes, pair.value = .ofBytes bytes

theorem dictInv_of_reachable (hreach : Reachable (dictStep hash) .dictNew d) :
    DictInv d ∧ d.ValuesOk := by
  refine hreach.invariant_along (fun d => DictInv d ∧ d.ValuesOk)
    ⟨.dictNew, fun _ h => absurd h List.not_mem_nil⟩ ?_
  rintro before label after - - hstep ⟨hinv, hvalues⟩
  cases label with
  | set key value =>
    obtain rfl := Option.some.inj hstep
    obtain ⟨hafter, hpairs⟩ := hinv.dictSet key (.ofBytes value)
    refine ⟨hafter, fun pair hpair => ?_⟩
    rcases hpairs pair hpair with hold | hnew
    · exact hvalues pair hold
    · exact ⟨value, hnew⟩
  | del key =>
    obtain rfl := Option.some.inj hstep
    obtain ⟨hafter, hpairs⟩ := hinv.dictDel key
    exact ⟨hafter, fun pair hpair => hvalues pair (hpairs pair hpair)⟩

/-! ## Writing -/

/-- The bytes of a key and a value on the wire. -/
def wirePair (key : Key) (value : List UInt8) : List UInt8 :=
  bytes32 key.bytes.length ++ bytes32 value.length ++ (key.bytes ++ [0]) ++ value

theorem length_wirePair (key : Key) (value : List UInt8) :
    (wirePair key value).length = 4 + 4 + (key.bytes.length + 1) + value.length := by
  simp only [wirePair, List.length_append, length_bytes32, List.length_singleton]

/-- The pairs of the list with the bytes of their values. -/
def Dict.wire (d : Dict) (pairs : List PairId) : List (Key × List UInt8) :=
  pairs.map fun pair => ((d.pair pair).key, (d.pair pair).value.data.getD [])

def wirePairs (pairs : List (Key × List UInt8)) : List UInt8 :=
  pairs.flatMap fun pair => wirePair pair.1 pair.2

theorem wirePairs_cons (pair : Key × List UInt8) (pairs : List (Key × List UInt8)) :
    wirePairs (pair :: pairs) = wirePair pair.1 pair.2 ++ wirePairs pairs :=
  List.flatMap_cons ..

section Write

variable {ids : List PairId} (hvalues : ∀ id ∈ ids, ∃ bytes, (d.pair id).value = .ofBytes bytes)

include hvalues

theorem serializedLengthLoop_eq (len : Nat) :
    d.serializedLengthLoop ids.length ids len = some (len + (wirePairs (d.wire ids)).length) := by
  induction ids generalizing len with
  | nil => rfl
  | cons id ids ih =>
    obtain ⟨bytes, hbytes⟩ := hvalues id List.mem_cons_self
    have hlen : ¬(Data.ofBytes bytes).len < 0 := by
      simp [Data.ofBytes]
    rw [List.length_cons, Dict.serializedLengthLoop, hbytes, if_neg hlen,
      ih fun other hother => hvalues other (List.mem_cons_of_mem _ hother)]
    simp only [Dict.wire, List.map_cons, wirePairs_cons, List.length_append, length_wirePair,
      hbytes, Data.ofBytes, Option.getD_some, Int.toNat_natCast, Option.some.injEq]
    omega

theorem serializeLoop_eq (hsmall : (wirePairs (d.wire ids)).length < 2 ^ 31) :
    d.serializeLoop ids.length ids = some (wirePairs (d.wire ids)) := by
  induction ids with
  | nil => rfl
  | cons id ids ih =>
    obtain ⟨bytes, hbytes⟩ := hvalues id List.mem_cons_self
    have hwire : wirePairs (d.wire (id :: ids)) =
        wirePair (d.pair id).key bytes ++ wirePairs (d.wire ids) := by
      rw [Dict.wire, List.map_cons, wirePairs_cons, hbytes]
      rfl
    rw [hwire, List.length_append, length_wirePair] at hsmall
    have hword : ((bytes.length : Int) % 2 ^ 32).toNat = bytes.length := by omega
    rw [List.length_cons, Dict.serializeLoop,
      ih (fun other hother => hvalues other (List.mem_cons_of_mem _ hother)) (by omega), hbytes,
      hwire]
    simp only [Data.ofBytes, Option.bind_some, Option.map_some, hword, Int.toNat_natCast,
      List.take_length, wirePair]

end Write

/-! ## Reading -/

theorem bytesAt_append (front rest : List UInt8) :
    Dict.bytesAt (front ++ rest) front.length = some rest := by
  rw [Dict.bytesAt, if_pos (Int.natCast_nonneg _), Int.toNat_natCast, List.drop_left]

theorem read32At_append {word : Nat} (hword : word < 2 ^ 31) (front rest : List UInt8) :
    Dict.read32At (front ++ (bytes32 word ++ rest)) front.length = some (word : Int) := by
  rw [Dict.read32At, bytesAt_append, Option.bind_some, read32_bytes32 (by omega), Option.map_some,
    signed32, if_pos hword]

theorem memdup_append (front value rest : List UInt8) :
    Dict.memdup (front ++ (value ++ rest)) front.length value.length = some (some value) := by
  rw [Dict.memdup, if_neg (by omega), bytesAt_append, Option.bind_some,
    if_pos (by rw [List.length_append]; omega), Int.toNat_natCast, List.take_left]

theorem cString_append (key : Key) (rest : List UInt8) :
    Dict.cString (key.bytes ++ 0 :: rest) = some key := by
  have hbefore : ∀ byte ∈ key.bytes, decide (byte ≠ 0) = true := fun byte hbyte => by
    simpa using fun h : byte = 0 => key.noNul (h ▸ hbyte)
  have htake : (key.bytes ++ 0 :: rest).takeWhile (fun byte => byte ≠ 0) = key.bytes := by
    rw [List.takeWhile_append_of_pos hbefore, List.takeWhile_cons_of_neg (by simp), List.append_nil]
  rw [Dict.cString, if_pos (by simp)]
  simp only [htake]

theorem unserializePair_append {value : List UInt8} (hkey : key.bytes.length < 2 ^ 31)
    (hvalue : value.length < 2 ^ 31) (front rest : List UInt8) {size : Int}
    (hsize : front.length + (wirePair key value).length ≤ size) :
    Dict.unserializePair hash (front ++ (wirePair key value ++ rest)) size d front.length =
      some (.ok (d.dictAdd hash key (.ofBytes value),
        front.length + (wirePair key value).length)) := by
  have hkeylen : Dict.read32At (front ++ (wirePair key value ++ rest)) front.length =
      some (key.bytes.length : Int) := by
    simpa only [wirePair, List.append_assoc] using read32At_append hkey front _
  have hvallen : Dict.read32At (front ++ (wirePair key value ++ rest)) (front.length + 4) =
      some (value.length : Int) := by
    simpa [wirePair] using read32At_append hvalue (front ++ bytes32 key.bytes.length)
      (key.bytes ++ 0 :: (value ++ rest))
  have hstring : Dict.bytesAt (front ++ (wirePair key value ++ rest)) (front.length + 4 + 4) =
      some (key.bytes ++ 0 :: (value ++ rest)) := by
    simpa [wirePair, Int.add_assoc] using bytesAt_append
      (front ++ (bytes32 key.bytes.length ++ bytes32 value.length))
      (key.bytes ++ 0 :: (value ++ rest))
  have hdata : Dict.memdup (front ++ (wirePair key value ++ rest))
      (front.length + 4 + 4 + key.bytes.length + 1) value.length = some (some value) := by
    have hmemory : front ++ (wirePair key value ++ rest) = (front ++ (bytes32 key.bytes.length ++
        (bytes32 value.length ++ (key.bytes ++ [0])))) ++ (value ++ rest) := by
      simp [wirePair]
    have hpos : (front.length : Int) + 4 + 4 + key.bytes.length + 1 = (front ++
        (bytes32 key.bytes.length ++ (bytes32 value.length ++ (key.bytes ++ [0])))).length := by
      simp only [List.length_append, length_bytes32, List.length_singleton]
      omega
    rw [hmemory, hpos, memdup_append]
  have hend : (front.length : Int) + 4 + 4 + key.bytes.length + 1 + value.length =
      front.length + (wirePair key value).length := by
    rw [length_wirePair]
    omega
  rw [length_wirePair] at hsize
  rw [Dict.unserializePair, if_neg (by omega), hkeylen, Option.bind_some]
  dsimp only
  rw [if_neg (by omega), hvallen, Option.bind_some, if_neg (by omega), if_neg (by omega), hdata,
    hstring, Option.bind_some, Option.bind_some, cString_append, Option.map_some, hend]
  rfl

variable (hash) in
/-- The loop reads all the pairs that were written. -/
theorem unserializeLoop_append (pairs : List (Key × List UInt8)) (front : List UInt8)
    (hsmall : (wirePairs pairs).length < 2 ^ 31) :
    Dict.unserializeLoop hash (front ++ wirePairs pairs) (front ++ wirePairs pairs).length
        pairs.length d front.length =
      some (true, pairs.foldl (fun d pair => d.dictAdd hash pair.1 (.ofBytes pair.2)) d,
        ((front ++ wirePairs pairs).length : Int)) := by
  induction pairs generalizing d front with
  | nil => simp [wirePairs, Dict.unserializeLoop]
  | cons pair pairs ih =>
    rw [wirePairs_cons, List.length_append, length_wirePair] at hsmall
    rw [wirePairs_cons, List.length_cons, Dict.unserializeLoop,
      unserializePair_append (by omega) (by omega)]
    · have hrest := ih (d := d.dictAdd hash pair.1 (.ofBytes pair.2))
        (front ++ wirePair pair.1 pair.2) (by omega)
      have hpos : ((front ++ wirePair pair.1 pair.2).length : Int) =
          front.length + (wirePair pair.1 pair.2).length := by
        rw [List.length_append]
        omega
      rw [List.append_assoc, hpos] at hrest
      exact hrest
    · simp only [List.length_append]
      omega

/-! ## The round trip -/

variable (hash) in
/-- Pairs with different keys are added one after the other. -/
theorem DictInv.foldl_dictAdd (pairs : List (Key × List UInt8)) (hd : DictInv d)
    (hkeys : (pairs.map Prod.fst).Nodup)
    (hnew : ∀ pair ∈ pairs, ∀ old ∈ d.pairs, old.key ≠ pair.1) :
    DictInv (pairs.foldl (fun d pair => d.dictAdd hash pair.1 (.ofBytes pair.2)) d) ∧
      (pairs.foldl (fun d pair => d.dictAdd hash pair.1 (.ofBytes pair.2)) d).pairs =
        (pairs.map fun pair => (⟨pair.1, .ofBytes pair.2⟩ : Pair)).reverse ++ d.pairs := by
  induction pairs generalizing d with
  | nil => exact ⟨hd, rfl⟩
  | cons pair pairs ih =>
    obtain ⟨hfirst, hrest⟩ := List.nodup_cons.mp hkeys
    obtain ⟨hinv, hpairs⟩ : DictInv (d.dictAdd hash pair.1 (.ofBytes pair.2)) ∧
        (d.dictAdd hash pair.1 (.ofBytes pair.2)).pairs = ⟨pair.1, .ofBytes pair.2⟩ :: d.pairs :=
      hd.addPair (hnew pair List.mem_cons_self)
    have hnew' : ∀ other ∈ pairs, ∀ old ∈ (d.dictAdd hash pair.1 (.ofBytes pair.2)).pairs,
        old.key ≠ other.1 := by
      intro other hother old hold
      rw [hpairs] at hold
      rcases List.mem_cons.mp hold with rfl | hmem
      · intro hsame
        have hmem : other.1 ∈ pairs.map Prod.fst := List.mem_map_of_mem hother
        rw [← hsame] at hmem
        exact hfirst hmem
      · exact hnew other (List.mem_cons_of_mem _ hother) old hmem
    obtain ⟨hall, hlist⟩ := ih hinv hrest hnew'
    refine ⟨hall, hlist.trans ?_⟩
    rw [hpairs, List.map_cons, List.reverse_cons, List.append_assoc]
    rfl

theorem find?_key_eq_some {pairs : List Pair} (hkeys : (pairs.map Pair.key).Nodup) {pair : Pair} :
    (pairs.find? fun pair => pair.key = key) = some pair ↔ pair ∈ pairs ∧ pair.key = key := by
  constructor
  · intro hfind
    exact ⟨List.mem_of_find?_eq_some hfind, by simpa using List.find?_some hfind⟩
  · rintro ⟨hmem, rfl⟩
    obtain ⟨found, hfound⟩ :
        ∃ found, (pairs.find? fun other => other.key = pair.key) = some found :=
      Option.isSome_iff_exists.mp (List.find?_isSome.mpr ⟨pair, hmem, by simp⟩)
    have hsame : found.key = pair.key := by simpa using List.find?_some hfound
    rw [hfound, List.inj_on_of_nodup_map hkeys (List.mem_of_find?_eq_some hfound) hmem hsame]

theorem find?_key_reverse {pairs : List Pair} (hkeys : (pairs.map Pair.key).Nodup) (key : Key) :
    (pairs.reverse.find? fun pair => pair.key = key) = pairs.find? fun pair => pair.key = key := by
  have hreverse : (pairs.reverse.map Pair.key).Nodup := by
    rw [List.map_reverse]
    exact List.nodup_reverse.mpr hkeys
  refine Option.ext fun pair => ?_
  rw [find?_key_eq_some hreverse, find?_key_eq_some hkeys, List.mem_reverse]

/-- What was written for the dict are its pairs. -/
theorem wire_pairs (hvalues : d.ValuesOk) :
    (d.wire d.membersList).map (fun pair => (⟨pair.1, .ofBytes pair.2⟩ : Pair)) = d.pairs := by
  rw [Dict.wire, List.map_map, Dict.pairs]
  refine List.map_congr_left fun id hid => ?_
  obtain ⟨bytes, hbytes⟩ := hvalues (d.pair id) (List.mem_map_of_mem hid)
  change (⟨(d.pair id).key, .ofBytes ((d.pair id).value.data.getD [])⟩ : Pair) = d.pair id
  rw [hbytes]
  change (⟨(d.pair id).key, .ofBytes bytes⟩ : Pair) = d.pair id
  rw [← hbytes]

/-- Every pair takes its four bytes for the lengths and more. -/
theorem length_le_wirePairs (pairs : List (Key × List UInt8)) :
    pairs.length ≤ (wirePairs pairs).length := by
  induction pairs with
  | nil => exact Nat.zero_le _
  | cons pair pairs ih =>
    rw [wirePairs_cons, List.length_append, length_wirePair, List.length_cons]
    omega

/-- The buffer of a dict: the number of pairs and the pairs. -/
def Dict.buffer (d : Dict) : List UInt8 :=
  bytes32 d.membersList.length ++ wirePairs (d.wire d.membersList)

section Buffer

variable (hd : DictInv d) (hvalues : d.ValuesOk)

include hd hvalues

theorem DictInv.dictSerializedLength_eq : d.dictSerializedLength = some d.buffer.length := by
  have hcount : ¬d.count < 0 := by
    rw [hd.count]
    omega
  rw [Dict.dictSerializedLength, if_neg hcount, hd.count, Int.toNat_natCast,
    serializedLengthLoop_eq fun id hid => hvalues _ (List.mem_map_of_mem hid), Dict.buffer,
    List.length_append, length_bytes32]

theorem DictInv.dictSerialize_eq (hsmall : d.buffer.length < 2 ^ 31) :
    d.dictSerialize = some d.buffer := by
  have hcount : ¬d.count < 0 := by
    rw [hd.count]
    omega
  rw [Dict.buffer, List.length_append] at hsmall
  rw [Dict.dictSerialize, if_neg hcount, hd.count, Int.toNat_natCast,
    serializeLoop_eq (fun id hid => hvalues _ (List.mem_map_of_mem hid)) (by omega),
    Option.map_some, Dict.buffer]

/-- The buffer is read back to its end, into the same pairs in the other order. -/
theorem DictInv.dictUnserialize_buffer (receiver : Key → UInt32)
    (hsmall : d.buffer.length < 2 ^ 31) :
    ∃ d', Dict.dictUnserialize receiver d.buffer d.buffer.length .dictNew =
        some (true, d', (d.buffer.length : Int)) ∧
      DictInv d' ∧ d'.pairs = d.pairs.reverse := by
  have hlength : d.buffer.length = 4 + (wirePairs (d.wire d.membersList)).length := by
    rw [Dict.buffer, List.length_append, length_bytes32]
  have hpairs : (d.wire d.membersList).length = d.membersList.length := List.length_map _
  have hcount := length_le_wirePairs (d.wire d.membersList)
  have hread : Dict.read32At d.buffer 0 = some (d.membersList.length : Int) :=
    read32At_append (by omega) [] _
  have hloop := unserializeLoop_append receiver (d := .dictNew) (d.wire d.membersList)
    (bytes32 d.membersList.length) (by omega)
  have hkeys : ((d.wire d.membersList).map Prod.fst).Nodup := by
    rw [Dict.wire, List.map_map]
    exact hd.keys
  obtain ⟨hinv, hlist⟩ := DictInv.dictNew.foldl_dictAdd receiver _ hkeys
    fun _ _ _ hold => absurd hold List.not_mem_nil
  rw [wire_pairs hvalues] at hlist
  rw [hpairs, length_bytes32] at hloop
  refine ⟨_, ?_, hinv, hlist.trans (List.append_nil _)⟩
  rw [Dict.dictUnserialize, if_neg (by omega), hread, Option.bind_some, if_neg (by omega),
    Int.toNat_natCast]
  exact hloop

end Buffer

/-- A dict that comes of setting and deleting is written with the length that was
announced, and read back with the same keys and values. -/
theorem dict_round_trip (hash receiver : Key → UInt32) (d : Dict)
    (hreach : Reachable (dictStep hash) .dictNew d) :
    ∃ len, d.dictSerializedLength = some len ∧ (len < 2 ^ 31 →
      ∃ written, d.dictSerialize = some written ∧ written.length = len ∧
        ∃ d', Dict.dictUnserialize receiver written len .dictNew = some (true, d', (len : Int)) ∧
          d'.count = d.count ∧ d'.toMap receiver = d.toMap hash) := by
  obtain ⟨hinv, hvalues⟩ := dictInv_of_reachable hreach
  refine ⟨_, hinv.dictSerializedLength_eq hvalues, fun hsmall => ?_⟩
  obtain ⟨d', hread, hinv', hpairs⟩ := hinv.dictUnserialize_buffer hvalues receiver hsmall
  refine ⟨_, hinv.dictSerialize_eq hvalues hsmall, rfl, d', hread, ?_, funext fun key => ?_⟩
  · have hlength := congrArg List.length hpairs
    rw [Dict.pairs, Dict.pairs, List.length_reverse, List.length_map, List.length_map] at hlength
    rw [hinv'.count, hinv.count, hlength]
  · have hkeys : (d.pairs.map Pair.key).Nodup := by
      rw [Dict.pairs, List.map_map]
      exact hinv.keys
    rw [hinv'.toMap_eq, hinv.toMap_eq, hpairs, find?_key_reverse hkeys]

/-- One key is set twice and another one deleted. -/
theorem dict_round_trip_replaced : ∃ d written d', run (dictStep fun _ => 7) .dictNew
        [.set ⟨[97], by decide⟩ [1], .set ⟨[98, 99], by decide⟩ [2, 3],
          .set ⟨[97], by decide⟩ [0, 4, 5], .del ⟨[98, 99], by decide⟩] = some d ∧
      d.dictSerialize = some written ∧ written.length = 17 ∧
      Dict.dictUnserialize (fun key => key.bytes.length.toUInt32) written 17 .dictNew =
        some (true, d', 17) ∧
      d'.toMap (fun key => key.bytes.length.toUInt32) ⟨[97], by decide⟩ = some [0, 4, 5] := by
  obtain ⟨d, hrun⟩ : ∃ d, run (dictStep fun _ => 7) .dictNew
      [.set ⟨[97], by decide⟩ [1], .set ⟨[98, 99], by decide⟩ [2, 3],
        .set ⟨[97], by decide⟩ [0, 4, 5], .del ⟨[98, 99], by decide⟩] = some d := ⟨_, rfl⟩
  have hd : d.dictSerializedLength = some 17 ∧
      d.toMap (fun _ => 7) ⟨[97], by decide⟩ = some [0, 4, 5] := by
    cases hrun
    decide
  obtain ⟨len, hlen, hrest⟩ := dict_round_trip (fun _ => 7)
    (fun key => key.bytes.length.toUInt32) d (.of_run _ .start hrun)
  obtain rfl : 17 = len := Option.some.inj (hd.1.symm.trans hlen)
  obtain ⟨written, hwritten, hlength, d', hread, -, hmap⟩ := hrest (by decide)
  exact ⟨d, written, d', hrun, hwritten, hlength, hread, by rw [hmap]; exact hd.2⟩

end GlusterFS.Dicts
