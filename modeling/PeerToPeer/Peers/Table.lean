import PeerToPeer.CLib.CString
import PeerToPeer.CLib.GrowArray

namespace PeerToPeer

open CLib

abbrev hashOffset : UInt32 := 2166136261
abbrev prime : UInt32 := 16777619
abbrev maxPeerBuckets : Nat := 10
abbrev initialCap : Nat := 2

instance : NeZero maxPeerBuckets := ⟨by decide⟩

theorem initialCap_pos : 0 < initialCap := by decide
abbrev inetAddrstrlen : Nat := 16

/-- `PEER_STATE`, as the numbers the `state` field stores. -/
inductive PeerState where
  | passive
  | leech
  | seed
  deriving DecidableEq, Repr

def PeerState.code : PeerState → UInt32
  | .passive => 0
  | .leech => 1
  | .seed => 2

/-- `peer_t`, the two padding bytes in front of `state` included. -/
@[ext] structure Peer where
  ip : Bytes inetAddrstrlen
  port : UInt16
  jobId : Bytes 16
  pad : Bytes 2
  state : UInt32
  deriving DecidableEq

/-- `sizeof(peer_t)`. -/
abbrev sizeofPeer : Nat := 40

instance : NeZero sizeofPeer := ⟨by decide⟩

theorem initialCap_peers : initialCap * sizeofPeer ≤ ptrdiffMax := by decide

abbrev PeerArray := GrowArray Peer sizeofPeer

/-- `peer_bucket_t`; `array` stands for its `cap`, `len` and `data`. -/
structure PeerBucket where
  active : Bool
  key : UInt32
  array : PeerArray

namespace PeerBucket

def len (b : PeerBucket) : Nat := b.array.len

def peers (b : PeerBucket) : List Peer := b.array.live

@[simp] theorem peers_length (b : PeerBucket) : b.peers.length = b.len :=
  GrowArray.live_length b.array

end PeerBucket

abbrev PeerTable := Vector PeerBucket maxPeerBuckets

/-- A bucket of the table; an index is always in bounds. -/
instance : GetElem PeerTable (Fin maxPeerBuckets) PeerBucket fun _ _ => True where
  getElem t i _ := t.get i

@[simp] theorem PeerTable.getElem_eq (t : PeerTable) (i : Fin maxPeerBuckets) :
    t[i] = getElem t i.val i.isLt := rfl

/-- What `malloc` left in the two fields of a bucket that `new_peer_array` never writes. -/
structure BucketMemory where
  active : Bool
  key : UInt32

abbrev BucketMemory.zeroed : BucketMemory := ⟨false, 0⟩

def newPeerArray (mem : BucketMemory) : PeerBucket :=
  ⟨mem.active, mem.key, GrowArray.new initialCap initialCap_pos initialCap_peers⟩

def initPeerTable (mem : Fin maxPeerBuckets → BucketMemory) : PeerTable :=
  Vector.ofFn fun i => newPeerArray (mem i)

/-- `hash ^= (unsigned)b; hash *= PRIME`, with `b` a signed `char`. -/
def hashStep (h : UInt32) (b : UInt8) : UInt32 := (h ^^^ b.toInt8.toInt32.toUInt32) * prime

def hashLoop (h : UInt32) : List UInt8 → Except Fault UInt32
  | [] => .error .outOfBounds
  | b :: bs => if b = 0 then .ok h else hashLoop (hashStep h b) bs

/-- `hash % MAX_PEER_BUCKETS` of the FNV-1a value of the string at `input`. -/
def hash (input : List UInt8) : Except Fault (Fin maxPeerBuckets) := do
  let h ← hashLoop hashOffset input
  return Fin.ofNat maxPeerBuckets h.toNat

/-- A bucket index as the `uint32_t` the `key` field stores. -/
def keyOf (i : Fin maxPeerBuckets) : UInt32 := UInt32.ofNat i.val

def pushPeer (b : PeerBucket) (data : Peer) : Except Fault PeerBucket := do
  let array ← b.array.push data
  return { b with array := array }

/-- Rewrite bucket `i` and append `data` to it. -/
def putPeer (table : PeerTable) (i : Fin maxPeerBuckets) (active : Bool) (key : UInt32)
    (data : Peer) : Except Fault PeerTable := do
  let b ← pushPeer { table[i] with active := active, key := key } data
  return table.set i b i.isLt

/-- `set_peer`. The body of its probing loop returns on the first pass, so only the bucket
right behind the home bucket is tried; behind the last bucket the loop does not run at all
and control falls through to the statements that create the home bucket. -/
def setPeer (table : PeerTable) (key : List UInt8) (data : Peer) : Except Fault PeerTable := do
  let hashKey ← hash key
  let home := table[hashKey]
  if home.active then
    if home.key = keyOf hashKey then
      putPeer table hashKey home.active home.key data
    else if h : hashKey.val + 1 < maxPeerBuckets then
      let index : Fin maxPeerBuckets := ⟨hashKey.val + 1, h⟩
      if table[index].len = 0 ∧ table[index].active = false then
        putPeer table index table[index].active (keyOf index) data
      else
        return table
    else
      putPeer table hashKey true (keyOf hashKey) data
  else
    putPeer table hashKey true (keyOf hashKey) data

/-- A sequence of `set_peer` calls. -/
def setPeers (table : PeerTable) : List (List UInt8 × Peer) → Except Fault PeerTable
  | [] => .ok table
  | (key, data) :: rest => do
      let table ← setPeer table key data
      setPeers table rest

/-- The do-while loop of `get_peer_bucket`, from the current value of `current_key`. -/
def getPeerBucketLoop (hashKey : Fin maxPeerBuckets) (currentKey : UInt32) :
    Option (Fin maxPeerBuckets) :=
  if keyOf hashKey = currentKey then some hashKey
  else if (currentKey + 1).toNat < maxPeerBuckets then
    getPeerBucketLoop hashKey (currentKey + 1)
  else none
termination_by if currentKey.toNat < maxPeerBuckets then maxPeerBuckets - currentKey.toNat else 11
decreasing_by
  have h := UInt32.toNat_add currentKey 1
  have hlt := currentKey.toNat_lt
  simp [maxPeerBuckets] at *
  split_ifs <;> omega

/-- `get_peer_bucket`: the index of the bucket it points its result at, or `none` for NULL. -/
def getPeerBucket (table : PeerTable) (key : List UInt8) :
    Except Fault (Option (Fin maxPeerBuckets)) := do
  let hashKey ← hash key
  return getPeerBucketLoop hashKey table[hashKey].key

end PeerToPeer
