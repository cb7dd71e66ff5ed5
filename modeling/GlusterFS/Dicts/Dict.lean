import GlusterFS.Core.BigEndian
import GlusterFS.Core.Transition
import Mathlib.Data.List.TakeWhile

/-!
# Dictionaries

The pairs of a dict are in hash buckets, which lookups walk, and on one list, which
serialization walks; `count` is kept beside them.  The first pair in use is the one
inside the dict itself, the others come from a pool.  No allocation fails.
-/

namespace GlusterFS.Dicts

open BigEndian

/-- A C string: bytes without the one that ends it. -/
structure Key where
  bytes : List UInt8
  noNul : 0 ∉ bytes
  deriving DecidableEq

/-- A `data_t`, whose `data` may be null. -/
structure Data where
  len : Int
  data : Option (List UInt8)
  deriving DecidableEq

/-- The bytes with their length. -/
def Data.ofBytes (bytes : List UInt8) : Data := ⟨bytes.length, some bytes⟩

/-- A `data_pair_t *`: 0 is `free_pair`, the others are from the pool. -/
abbrev PairId := Nat

structure Pair where
  key : Key
  value : Data
  deriving DecidableEq

structure Dict where
  hashSize : Nat
  count : Int
  members : Int → List PairId
  membersList : List PairId
  pair : PairId → Pair
  freePairInUse : Bool
  created : Nat

namespace Dict

/-- `dict_new` -/
def dictNew : Dict :=
  { hashSize := 1
    count := 0
    members := fun _ => []
    membersList := []
    pair := fun _ => ⟨⟨[], List.not_mem_nil⟩, ⟨0, none⟩⟩
    freePairInUse := false
    created := 0 }

section Hash

/-! `SuperFastHash` may be any function. -/

variable (hash : Key → UInt32) (d : Dict)

/-- `_dict_lookup`, where the hash is taken as unsigned. -/
def dictLookup (key : Key) : Option PairId :=
  (d.members ((hash key).toNat % d.hashSize)).find? fun pair => (d.pair pair).key = key

/-- The bucket in `_dict_set`, where the hash is taken as signed. -/
def setHashval (key : Key) : Int := (signed32 (hash key).toNat).tmod d.hashSize

/-- A new pair in `_dict_set`. -/
def newPair : PairId × Dict :=
  if d.freePairInUse then (d.created + 1, { d with created := d.created + 1 })
  else (0, { d with freePairInUse := true })

/-- The end of `_dict_set`. -/
def addPair (key : Key) (value : Data) : Dict :=
  let hashval := d.setHashval hash key
  let (pair, d) := d.newPair
  { d with
    pair := Function.update d.pair pair ⟨key, value⟩
    members := Function.update d.members hashval (pair :: d.members hashval)
    membersList := pair :: d.membersList
    count := d.count + 1 }

/-- `dict_set`, which is `_dict_set` that replaces. -/
def dictSet (key : Key) (value : Data) : Dict :=
  match d.dictLookup hash key with
  | some pair => { d with pair := Function.update d.pair pair { d.pair pair with value := value } }
  | none => d.addPair hash key value

/-- `dict_add`, which is `_dict_set` that does not replace. -/
def dictAdd (key : Key) (value : Data) : Dict := d.addPair hash key value

/-- `dict_del` -/
def dictDel (key : Key) : Dict :=
  let hashval : Int := (hash key).toNat % d.hashSize
  match (d.members hashval).find? fun pair => (d.pair pair).key = key with
  | none => d
  | some pair =>
    { d with
      members := Function.update d.members hashval ((d.members hashval).erase pair)
      membersList := d.membersList.erase pair
      freePairInUse := if pair = 0 then false else d.freePairInUse
      count := d.count - 1 }

/-- The value bytes of each key. -/
def toMap (key : Key) : Option (List UInt8) :=
  (d.dictLookup hash key).bind fun pair => (d.pair pair).value.data

end Hash

/-! ## Serialization -/

section Serialize

variable (d : Dict)

/-- The loop of `_dict_serialized_length`. -/
def serializedLengthLoop : Nat → List PairId → Nat → Option Nat
  | 0, _, len => some len
  | _ + 1, [], _ => none
  | count + 1, pair :: rest, len =>
    let value := (d.pair pair).value
    if value.len < 0 then none
    else serializedLengthLoop count rest
      (len + (4 + 4) + ((d.pair pair).key.bytes.length + 1) + value.len.toNat)

/-- `_dict_serialized_length`, or nothing where it fails. -/
def dictSerializedLength : Option Nat :=
  if d.count < 0 then none else d.serializedLengthLoop d.count.toNat d.membersList 4

/-- The loop of `_dict_serialize`: what it writes, or nothing where it fails. -/
def serializeLoop : Nat → List PairId → Option (List UInt8)
  | 0, _ => some []
  | _ + 1, [] => none
  | count + 1, pair :: rest =>
    let key := (d.pair pair).key.bytes
    let value := (d.pair pair).value
    value.data.bind fun data =>
      (serializeLoop count rest).map fun written =>
        bytes32 key.length ++ bytes32 (value.len % 2 ^ 32).toNat ++ (key ++ [0]) ++
          data.take value.len.toNat ++ written

/-- `_dict_serialize` -/
def dictSerialize : Option (List UInt8) :=
  if d.count < 0 then none
  else (d.serializeLoop d.count.toNat d.membersList).map fun written =>
    bytes32 d.count.toNat ++ written

end Serialize

/-! ## Unserialization

The memory from `orig_buf` on is a list of bytes, of which `size` are the buffer.  A
result of nothing is a read outside of the memory. -/

/-- The C string at the start of the bytes; it has to end within them. -/
def cString (bytes : List UInt8) : Option Key :=
  if 0 ∈ bytes then
    some ⟨bytes.takeWhile fun byte => byte ≠ 0, fun h => by
      simpa using List.mem_takeWhile_imp h⟩
  else none

/-- The bytes at a position. -/
def bytesAt (memory : List UInt8) (pos : Int) : Option (List UInt8) :=
  if 0 ≤ pos then some (memory.drop pos.toNat) else none

/-- `ntoh32` of the four bytes at a position. -/
def read32At (memory : List UInt8) (pos : Int) : Option Int :=
  (bytesAt memory pos).bind fun bytes => (read32 bytes).map signed32

/-- `memdup`, which gets no memory for a negative size. -/
def memdup (memory : List UInt8) (pos vallen : Int) : Option (Option (List UInt8)) :=
  if vallen < 0 then some none
  else (bytesAt memory pos).bind fun bytes =>
    if vallen ≤ bytes.length then some (some (bytes.take vallen.toNat)) else none

section Unserialize

variable (hash : Key → UInt32) (memory : List UInt8) (size : Int)

/-- One turn of the loop of `dict_unserialize`: the dict and `buf` after it, or that
the buffer is too small. -/
def unserializePair (d : Dict) (buf : Int) : Option (Except Unit (Dict × Int)) :=
  if size < buf + 4 then some (.error ())
  else (read32At memory buf).bind fun keylen =>
    let buf := buf + 4
    if size < buf + 4 then some (.error ())
    else (read32At memory buf).bind fun vallen =>
      let buf := buf + 4
      if size < buf + keylen then some (.error ())
      else
        let key := buf
        let buf := buf + keylen + 1
        if size < buf + vallen then some (.error ())
        else (memdup memory buf vallen).bind fun data =>
          ((bytesAt memory key).bind cString).map fun key =>
            .ok (d.dictAdd hash key ⟨vallen, data⟩, buf + vallen)

/-- The loop of `dict_unserialize`, with its result, the dict and `buf`. -/
def unserializeLoop : Nat → Dict → Int → Option (Bool × Dict × Int)
  | 0, d, buf => some (true, d, buf)
  | count + 1, d, buf =>
    (unserializePair hash memory size d buf).bind fun turn =>
      match turn with
      | .error _ => some (false, d, buf)
      | .ok (d, buf) => unserializeLoop count d buf

/-- `dict_unserialize` -/
def dictUnserialize (fill : Dict) : Option (Bool × Dict × Int) :=
  if size = 0 ∨ size < 4 then some (false, fill, 0)
  else (read32At memory 0).bind fun count =>
    if count < 0 then some (false, fill, 4)
    else unserializeLoop hash memory size count.toNat { fill with count := 0 } 4

end Unserialize

end Dict

inductive DictLabel
  | set (key : Key) (value : List UInt8)
  | del (key : Key)

/-- One call.  The values that are set have bytes. -/
def dictStep (hash : Key → UInt32) (d : Dict) : DictLabel → Option Dict
  | .set key value => some (d.dictSet hash key (.ofBytes value))
  | .del key => some (d.dictDel hash key)

end GlusterFS.Dicts
