import PeerToPeer.Rpc.Layout

namespace PeerToPeer

open CLib

/-- `node_t` as an entry of a neighbour array, where the peer table is never set up. -/
structure NodeEntry where
  id : Bytes idSize
  ip : Bytes inetAddrstrlen
  port : UInt16
  distance : UInt32
  deriving DecidableEq

def NodeEntry.addr (n : NodeEntry) : Addr := (n.ip.str, n.port)

/-- `sizeof(node_t)`, the ten table pointers included. -/
abbrev sizeofNode : Nat := 144

instance : NeZero sizeofNode := ⟨by decide⟩

theorem initialCap_nodes : initialCap * sizeofNode ≤ ptrdiffMax := by decide

abbrev NodeArray := GrowArray NodeEntry sizeofNode

/-- The `node_t` a process runs as. -/
structure Node where
  ip : Bytes inetAddrstrlen
  port : UInt16
  peerTable : PeerTable

def Node.addr (n : Node) : Addr := (n.ip.str, n.port)

/-- One `sendto` attempt and whether the socket took the datagram. -/
structure Send where
  dest : Origin
  msg : RpcMsg
  sent : Bool
  deriving DecidableEq

/-- What one process holds across calls, with the attempts to send it has made. -/
structure Machine where
  node : Node
  sortedNeighbors : NodeArray
  wait : Bool
  sends : List Send

namespace Machine

abbrev table (m : Machine) : PeerTable := m.node.peerTable

def setTable (m : Machine) (t : PeerTable) : Machine :=
  { m with node := { m.node with peerTable := t } }

def setWait (m : Machine) (w : Bool) : Machine := { m with wait := w }

end Machine

/-- What the program cannot determine: the outcome of its k-th `sendto`, and the bytes an
uninitialised payload buffer holds. -/
structure Os where
  sendto : Nat → Bool
  stack : Bytes maxPayloadSize

/-- `memcpy` of a payload into a zeroed body; past `MAX_PAYLOAD_SIZE` it leaves the buffer. -/
def copyPayload (body : Body) (off : Nat) (payload : List UInt8) : Except Fault Body :=
  if payload.length ≤ maxPayloadSize then .ok (body.write off payload) else .error .outOfBounds

def randomValue : Bytes correlationIdSize :=
  #v[114, 97, 110, 100, 111, 109, 32, 118, 97, 108, 117, 101, 0, 0, 0, 0]

/-- The message `call_rpc` builds. -/
def callMsg (method : Method) (payload : List UInt8) (host : Origin) : Except Fault RpcMsg := do
  let cBody := (Bytes.zero 1032).setU32 callMethodAt (swapLow method.code)
  let cBody ← copyPayload cBody 0 payload
  let ip ← Bytes.strcpy host.ip
  return {
    segmentCount := 0
    msgType := swapLow MsgType.call.code
    origin := ⟨htons host.port, ip⟩
    segmentNumber := 0
    body := cBody
    correlationId := randomValue }

/-- The message `reply_rpc` builds; its origin stays zero. -/
def replyMsg (method : Method) (payload : List UInt8)
    (correlationId : Bytes correlationIdSize) (status : MsgStatus) : Except Fault RpcMsg := do
  let rBody := (Bytes.zero 1032).setU32 0 (swapLow method.code)
  let rBody := rBody.setU32 replyStatusAt (swapLow status.code)
  let rBody ← copyPayload rBody replyPayloadAt payload
  let id ← Bytes.strcpy correlationId
  return {
    segmentCount := 0
    msgType := swapLow MsgType.reply.code
    origin := ⟨0, Bytes.zero inetAddrstrlen⟩
    segmentNumber := 0
    body := rBody
    correlationId := id }

/-- One `sendto`; the value is what `call_rpc` and `reply_rpc` return. -/
def sendto (os : Os) (dest : Origin) (msg : RpcMsg) (m : Machine) : Int × Machine :=
  let sent := os.sendto m.sends.length
  (if sent then 0 else -1, { m with sends := m.sends ++ [⟨dest, msg, sent⟩] })

def callRpc (os : Os) (method : Method) (payload : List UInt8) (sendTo host : Origin)
    (m : Machine) : Except Fault (Int × Machine) := do
  let msg ← callMsg method payload host
  return sendto os sendTo msg m

def replyRpc (os : Os) (method : Method) (payload : List UInt8) (replyTo : Origin)
    (correlationId : Bytes correlationIdSize) (status : MsgStatus) (m : Machine) :
    Except Fault (Int × Machine) := do
  let msg ← replyMsg method payload correlationId status
  return sendto os replyTo msg m

end PeerToPeer
