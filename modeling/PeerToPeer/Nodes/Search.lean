import PeerToPeer.Rpc.Send

namespace PeerToPeer

open CLib

/-- The loop of `join_peers`; the result of each call is ignored. -/
def joinPeersLoop (os : Os) (host : Origin) :
    List Peer → Machine → Except Fault Machine
  | [], m => .ok m
  | curPeer :: rest, m => do
      let ip ← Bytes.strcpy curPeer.ip
      let (_, m) ← callRpc os .join [] ⟨curPeer.port, ip⟩ host m
      joinPeersLoop os host rest m

def joinPeers (os : Os) (infoHash : Bytes idSize) (m : Machine) :
    Except Fault (Int × Machine) := do
  match ← getPeerBucket m.table infoHash.mem with
  | none => return (0, m)
  | some b =>
    let bucket := m.table[b]
    if bucket.len = 0 then
      return (1, m)
    let ip ← Bytes.strcpy m.node.ip
    let m ← joinPeersLoop os ⟨m.node.port, ip⟩ bucket.peers m
    return (0, m)

/-- The loop of `get_peers`: it passes over neighbours equal to `reply_to` and returns
after the first call it attempts. -/
def getPeersLoop (os : Os) (payload : List UInt8) (host replyTo : Origin) :
    List NodeEntry → Machine → Except Fault (Int × Machine)
  | [], m => .ok (0, m)
  | n :: rest, m => do
      let c ← strcmp n.ip.mem replyTo.ip.mem
      if c = 0 ∧ n.port = replyTo.port then
        getPeersLoop os payload host replyTo rest m
      else
        let ip ← Bytes.strcpy n.ip
        callRpc os .getPeers payload ⟨n.port, ip⟩ host m

/-- The payload of a `GET_PEERS` call: `src`, the hash, and whatever the stack held. -/
def getPeersPayload (stack : Bytes maxPayloadSize) (src : Origin) (infoHash : Bytes idSize) :
    Bytes maxPayloadSize :=
  (stack.write 0 src.encode).write sizeofOrigin infoHash.mem

def getPeers (os : Os) (infoHash : Bytes idSize) (srcAddr replyTo : Origin) (m : Machine) :
    Except Fault (Int × Machine) := do
  let hostIp ← Bytes.strcpy m.node.ip
  let srcIp ← Bytes.strcpy srcAddr.ip
  let payload := getPeersPayload os.stack ⟨htons srcAddr.port, srcIp⟩ infoHash
  getPeersLoop os payload.mem ⟨m.node.port, hostIp⟩ replyTo m.sortedNeighbors.live m

end PeerToPeer
