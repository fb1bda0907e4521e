import PeerToPeer.Nodes.Search

namespace PeerToPeer

open CLib

/-- `src_addr` as the handler decodes it from the payload of a `GET_PEERS` call. -/
def decodeSrc (body : Body) : Origin :=
  let src := readOrigin (Body.callPayload body) 0
  { src with port := ntohs src.port }

/-- The handler's local copy of the requested hash. -/
def decodeHash (body : Body) : Bytes idSize := (Body.callPayload body).read sizeofOrigin idSize

/-- The answer to a search: the length of the bucket cut to one byte, then its peers. -/
def answerBytes (peers : List Peer) : List UInt8 :=
  UInt8.ofNat peers.length :: peers.flatMap Peer.encode

/-- The two copies into `buffer[MAX_PAYLOAD_SIZE]`. -/
def encodeAnswer (bucket : PeerBucket) : Except Fault (List UInt8) :=
  if sizeofPeer * bucket.len + 1 ≤ maxPayloadSize then .ok (answerBytes bucket.peers)
  else .error .outOfBounds

/-- `case GET_PEERS` of a call. -/
def recvGetPeersCall (os : Os) (hashKey : Bytes idSize) (replyTo : Origin) (msg : RpcMsg)
    (m : Machine) : Except Fault (Int × Machine) := do
  let hash := decodeHash msg.body
  let c ← strcmp hash.mem [0]
  if c < 0 then
    let (_, m) ← replyRpc os .getPeers [0] replyTo msg.correlationId .err m
    return (0, m)
  match ← getPeerBucket m.table hash.mem with
  | none => replyRpc os .getPeers [0] replyTo msg.correlationId .ok m
  | some b =>
    let bucket := m.table[b]
    let srcAddr := decodeSrc msg.body
    if bucket.len = 0 ∧ 0 < m.sortedNeighbors.len then
      let (_, m) ← getPeers os hashKey srcAddr replyTo m
      return (0, m.setWait true)
    let buffer ← encodeAnswer bucket
    let (_, m) ← replyRpc os .getPeers buffer srcAddr msg.correlationId .ok m
    return (0, m.setWait false)

/-- `case JOIN` of a call. -/
def recvJoinCall (os : Os) (hashKey : Bytes idSize) (replyTo : Origin) (msg : RpcMsg)
    (m : Machine) : Except Fault (Int × Machine) := do
  let newPeer : Peer :=
    ⟨replyTo.ip, replyTo.port, Bytes.zero 16, Bytes.zero 2, PeerState.passive.code⟩
  let (r, m) ← replyRpc os .join [] replyTo msg.correlationId .ok m
  if r < 0 then
    return (1, m)
  let table ← setPeer m.table hashKey.mem newPeer
  return (0, m.setTable table)

/-- `uint8_t len`: the count byte of a `GET_PEERS` reply. -/
@[irreducible] def replyCount (body : Body) : Nat := (Body.replyPayload body)[0].toNat

/-- `memcpy` of `len` peers into `p_buf[MAX_PEER_BUCKETS]`. -/
def readPeerBuf (body : Body) (len : Nat) : Except Fault (List Peer) :=
  if len ≤ maxPeerBuckets then .ok (readPeers (Body.replyPayload body) 1 len)
  else .error .outOfBounds

/-- `case GET_PEERS` of a reply. -/
def recvGetPeersReply (os : Os) (hashKey : Bytes idSize) (msg : RpcMsg) (m : Machine) :
    Except Fault (Int × Machine) := do
  if Body.replyStatus msg.body ≠ MsgStatus.ok.code then
    return (-1, m)
  if replyCount msg.body = 0 then
    return (0, m)
  let pBuf ← readPeerBuf msg.body (replyCount msg.body)
  let table ← setPeers m.table (pBuf.map fun p => (hashKey.mem, p))
  let m := m.setTable table
  match ← getPeerBucket m.table hashKey.mem with
  | none => return (-1, m)
  | some b =>
    if initialCap ≤ m.table[b].len then
      let (r, m) ← joinPeers os hashKey m
      if r ≠ 0 then
        .error (.exit r)
      else
        return (0, m.setWait false)
    else
      return (0, m)

/-- `case JOIN` of a reply. -/
def recvJoinReply (msg : RpcMsg) (m : Machine) : Except Fault (Int × Machine) :=
  if Body.replyStatus msg.body ≠ MsgStatus.ok.code then .ok (-1, m) else .ok (0, m)

/-- `recv_rpc`: decode the header in place, then dispatch on type and method. The method of
a reply is not decoded. -/
def recvRpc (os : Os) (hashKey : Bytes idSize) (msgBuffer : RpcMsg) (m : Machine) :
    Except Fault (Int × Machine) := do
  let replyTo ← decodeOrigin msgBuffer.origin
  let msg := decodeHeader msgBuffer
  if msg.msgType = MsgType.call.code then
    if Body.callMethod msg.body = Method.getPeers.code then
      recvGetPeersCall os hashKey replyTo msg m
    else if Body.callMethod msg.body = Method.join.code then
      recvJoinCall os hashKey replyTo msg m
    else
      return (0, m)
  else
    if Body.replyMethod msg.body = Method.getPeers.code then
      recvGetPeersReply os hashKey msg m
    else if Body.replyMethod msg.body = Method.join.code then
      recvJoinReply msg m
    else
      return (0, m)

end PeerToPeer
