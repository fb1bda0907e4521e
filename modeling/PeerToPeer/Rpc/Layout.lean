import PeerToPeer.Peers.Table

namespace PeerToPeer

open CLib

abbrev idSize : Nat := 36
abbrev maxPayloadSize : Nat := 1024
abbrev correlationIdSize : Nat := 16

/-- `origin`: two bytes of port, then the ip; 18 bytes without padding. -/
@[ext] structure Origin where
  port : UInt16
  ip : Bytes inetAddrstrlen
  deriving DecidableEq

abbrev sizeofOrigin : Nat := 18

/-- An address as the network sees it: the ip string and the port. -/
abbrev Addr := List UInt8 × UInt16

def Origin.addr (o : Origin) : Addr := (o.ip.str, o.port)

def Peer.addr (p : Peer) : Addr := (p.ip.str, p.port)

def Origin.encode (o : Origin) : List UInt8 := encodeLE 2 o.port.toNat ++ o.ip.mem

def readU16 {n : Nat} (b : Bytes n) (off : Nat) : UInt16 :=
  UInt16.ofNat (decodeLE (b.read off 2).toList)

theorem readU16_of_bytes {n : Nat} {b : Bytes n} {off : Nat} {x : UInt16}
    (h : (b.read off 2).toList = encodeLE 2 x.toNat) : readU16 b off = x := by
  have hx := x.toNat_lt
  apply UInt16.toNat_inj.mp
  rw [readU16, h, decodeLE_encodeLE, UInt16.toNat_ofNat']
  omega

def readOrigin {n : Nat} (b : Bytes n) (off : Nat) : Origin :=
  ⟨readU16 b off, b.read (off + 2) inetAddrstrlen⟩

def Peer.encode (p : Peer) : List UInt8 :=
  p.ip.mem ++ encodeLE 2 p.port.toNat ++ p.jobId.mem ++ p.pad.mem ++ encodeLE 4 p.state.toNat

def readPeer {n : Nat} (b : Bytes n) (off : Nat) : Peer where
  ip := b.read off inetAddrstrlen
  port := readU16 b (off + 16)
  jobId := b.read (off + 18) 16
  pad := b.read (off + 34) 2
  state := b.u32 (off + 36)

/-- `count` consecutive `peer_t`. -/
def readPeers {n : Nat} (b : Bytes n) (off count : Nat) : List Peer :=
  (List.range count).map fun i => readPeer b (off + sizeofPeer * i)

inductive Method where
  | getPeers
  | join
  | leech
  | seed
  deriving DecidableEq, Repr

def Method.code : Method → UInt32
  | .getPeers => 0
  | .join => 1
  | .leech => 2
  | .seed => 3

inductive MsgStatus where
  | err
  | ok
  deriving DecidableEq, Repr

/-- `ERR = -1` in two's complement. -/
def MsgStatus.code : MsgStatus → UInt32
  | .err => 4294967295
  | .ok => 0

inductive MsgType where
  | reply
  | call
  deriving DecidableEq, Repr

def MsgType.code : MsgType → UInt32
  | .reply => 0
  | .call => 1

/-- The bytes of the `body` union: `call_body` has its payload at 0 and its method at 1024,
`reply_body` its method at 0, its status at 4 and its payload at 8. -/
abbrev Body := Bytes 1032

abbrev callMethodAt : Nat := 1024
abbrev replyStatusAt : Nat := 4
abbrev replyPayloadAt : Nat := 8

namespace Body

def callMethod (b : Body) : UInt32 := Bytes.u32 b callMethodAt

def callPayload (b : Body) : Bytes maxPayloadSize := Bytes.read b 0 maxPayloadSize

def replyMethod (b : Body) : UInt32 := Bytes.u32 b 0

def replyStatus (b : Body) : UInt32 := Bytes.u32 b replyStatusAt

def replyPayload (b : Body) : Bytes maxPayloadSize := Bytes.read b replyPayloadAt maxPayloadSize

end Body

/-- `rpc_msg`. The members of the union are views of `body`. -/
@[ext] structure RpcMsg where
  segmentCount : UInt64
  msgType : UInt32
  origin : Origin
  segmentNumber : UInt16
  body : Body
  correlationId : Bytes correlationIdSize
  deriving DecidableEq

/-- The in-place decoding at the head of `recv_rpc`. It runs before the message type is
known, so on a reply it rewrites the four payload bytes under `cbody.method`. -/
def decodeHeader (msg : RpcMsg) : RpcMsg :=
  { msg with
    body := msg.body.setU32 callMethodAt (swapLow (Body.callMethod msg.body))
    segmentCount := (ntohl msg.segmentCount.toUInt32).toUInt64
    segmentNumber := (ntohl msg.segmentNumber.toUInt32).toUInt16
    msgType := swapLow msg.msgType }

/-- `reply_to`: the origin of the message, its port in host order. -/
def decodeOrigin (o : Origin) : Except Fault Origin := do
  let ip ← Bytes.strcpy o.ip
  return ⟨ntohs o.port, ip⟩

end PeerToPeer
