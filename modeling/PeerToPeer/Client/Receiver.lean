import PeerToPeer.Client.Joining
import PeerToPeer.Rpc.Datagram

namespace PeerToPeer

open CLib

/-- The receive loop: the one `rpc_msg` it reads every datagram into, and the process. -/
structure Receiver where
  msgBuffer : Bytes sizeofRpcMsg
  machine : Machine

/-- One turn of the loop. The number of bytes `recvfrom` returns is not looked at, and the
buffer keeps the message with its header decoded. -/
def receive (os : Os) (hashKey : Bytes idSize) (datagram : List UInt8) (s : Receiver) :
    Except Fault Receiver := do
  let msg := readMsg (recvfrom s.msgBuffer datagram)
  let (_, m) ← recvRpc os hashKey msg s.machine
  return ⟨Bytes.padded sizeofRpcMsg (decodeHeader msg).encode, m⟩

/-- What a turn does that others can see: the peer table, and the datagrams sent. -/
def Receiver.shown (s : Receiver) : PeerTable × List Send := (s.machine.table, s.machine.sends)

/-- The bytes of the buffer that `recv_rpc` lets into its tables and answers, for a message
with its header decoded. -/
inductive Reads (msg : RpcMsg) (i : Nat) : Prop where
  | head (h : msgTypeAt ≤ i ∧ i < segmentNumberAt)
  | callMethod (ht : msg.msgType = MsgType.call.code)
      (h : bodyAt + callMethodAt ≤ i ∧ i < correlationIdAt)
  | search (hc : IsCall msg .getPeers) (h : bodyAt ≤ i ∧ i < bodyAt + sizeofOrigin + idSize)
  | correlation (hc : IsCall msg .getPeers ∨ IsCall msg .join)
      (h : correlationIdAt ≤ i ∧ i < sizeofRpcMsg)
  | replyMethod (ht : msg.msgType ≠ MsgType.call.code) (h : bodyAt ≤ i ∧ i < bodyAt + replyStatusAt)
  | status (hr : IsReply msg .getPeers)
      (h : bodyAt + replyStatusAt ≤ i ∧ i < bodyAt + replyPayloadAt)
  | peers (hr : IsReply msg .getPeers) (hs : ReplyOk msg)
      (h : bodyAt + replyPayloadAt ≤ i ∧
        i < bodyAt + replyPayloadAt + 1 + sizeofPeer * replyCount msg.body)

/-- Two decoded messages that `recv_rpc` cannot tell apart. -/
structure SameReads (msg msg' : RpcMsg) : Prop where
  type : msg.msgType = msg'.msgType
  callMethod : msg.msgType = MsgType.call.code →
    Body.callMethod msg.body = Body.callMethod msg'.body
  hash : IsCall msg .getPeers → decodeHash msg.body = decodeHash msg'.body
  src : IsCall msg .getPeers → decodeSrc msg.body = decodeSrc msg'.body
  correlation : IsCall msg .getPeers ∨ IsCall msg .join →
    msg.correlationId = msg'.correlationId
  replyMethod : msg.msgType ≠ MsgType.call.code →
    Body.replyMethod msg.body = Body.replyMethod msg'.body
  status : IsReply msg .getPeers → Body.replyStatus msg.body = Body.replyStatus msg'.body
  count : IsReply msg .getPeers → ReplyOk msg → replyCount msg.body = replyCount msg'.body
  peers : IsReply msg .getPeers → ReplyOk msg → replyCount msg.body ≤ maxPeerBuckets →
    readPeers (Body.replyPayload msg.body) 1 (replyCount msg.body) =
      readPeers (Body.replyPayload msg'.body) 1 (replyCount msg.body)

/-- What others see of a handled message. -/
def effect (x : Int × Machine) : PeerTable × List Send := (x.2.table, x.2.sends)

theorem recvGetPeersCall_congr (os : Os) (hashKey : Bytes idSize) (replyTo : Origin)
    {msg msg' : RpcMsg} (m : Machine) (hh : decodeHash msg.body = decodeHash msg'.body)
    (hs : decodeSrc msg.body = decodeSrc msg'.body)
    (hc : msg.correlationId = msg'.correlationId) :
    recvGetPeersCall os hashKey replyTo msg m = recvGetPeersCall os hashKey replyTo msg' m := by
  simp only [recvGetPeersCall, hh, hs, hc]

theorem recvGetPeersReply_congr (os : Os) (hashKey : Bytes idSize) {msg msg' : RpcMsg}
    (m : Machine) (hr : IsReply msg .getPeers) (h : SameReads msg msg') :
    recvGetPeersReply os hashKey msg m = recvGetPeersReply os hashKey msg' m := by
  rw [recvGetPeersReply, recvGetPeersReply, ← h.status hr]
  by_cases hs : ReplyOk msg
  · have hbuf : readPeerBuf msg.body (replyCount msg.body) =
        readPeerBuf msg'.body (replyCount msg'.body) := by
      rw [readPeerBuf, readPeerBuf, ← h.count hr hs]
      by_cases hm : replyCount msg.body ≤ maxPeerBuckets
      · rw [if_pos hm, if_pos hm, h.peers hr hs hm]
      · rw [if_neg hm, if_neg hm]
    rw [hbuf, h.count hr hs]
  · have hne : Body.replyStatus msg.body ≠ MsgStatus.ok.code := hs
    rw [if_pos hne, if_pos hne]

theorem recvJoinReply_effect (msg : RpcMsg) (m : Machine) :
    (recvJoinReply msg m).map effect = .ok (m.table, m.sends) := by
  unfold recvJoinReply
  split_ifs <;> rfl

theorem recvRpc_congr (os : Os) (hashKey : Bytes idSize) {msg msg' : RpcMsg} (m : Machine)
    (ho : msg.origin = msg'.origin) (h : SameReads (decodeHeader msg) (decodeHeader msg')) :
    (recvRpc os hashKey msg m).map effect = (recvRpc os hashKey msg' m).map effect := by
  rw [recvRpc, recvRpc, ← ho]
  cases decodeOrigin msg.origin with
  | error f => rw [error_bind, error_bind]
  | ok replyTo =>
    rw [ok_bind, ok_bind]
    dsimp only
    generalize decodeHeader msg = x at h
    generalize decodeHeader msg' = y at h
    rw [← h.type]
    by_cases ht : x.msgType = MsgType.call.code
    · rw [if_pos ht, if_pos ht, ← h.callMethod ht]
      by_cases hg : Body.callMethod x.body = Method.getPeers.code
      · have hc : IsCall x .getPeers := ⟨ht, hg⟩
        rw [if_pos hg, if_pos hg, recvGetPeersCall_congr os hashKey replyTo m (h.hash hc)
          (h.src hc) (h.correlation (Or.inl hc))]
      · rw [if_neg hg, if_neg hg]
        by_cases hj : Body.callMethod x.body = Method.join.code
        · have hid := h.correlation (Or.inr ⟨ht, hj⟩)
          rw [if_pos hj, if_pos hj]
          simp only [recvJoinCall, hid]
        · rw [if_neg hj, if_neg hj]
    · rw [if_neg ht, if_neg ht, ← h.replyMethod ht]
      by_cases hg : Body.replyMethod x.body = Method.getPeers.code
      · rw [if_pos hg, if_pos hg, recvGetPeersReply_congr os hashKey m ⟨ht, hg⟩ h]
      · rw [if_neg hg, if_neg hg]
        by_cases hj : Body.replyMethod x.body = Method.join.code
        · rw [if_pos hj, if_pos hj, recvJoinReply_effect, recvJoinReply_effect]
        · rw [if_neg hj, if_neg hj]

/-- Header decoding leaves the body bytes in front of `cbody.method` as they were received. -/
theorem decoded_byte (b : Bytes sizeofRpcMsg) (i : Nat) (hi : i < callMethodAt) :
    (decodeHeader (readMsg b)).body[i]?.getD 0 = b[bodyAt + i]?.getD 0 := by
  have hlt : i < 1032 := by simp only [callMethodAt] at hi; omega
  rw [Vector.getElem?_eq_getElem hlt, Option.getD_some, decodeHeader, Bytes.setU32,
    Bytes.getElem_write, if_neg (Nat.not_le.mpr hi), readMsg, Bytes.getElem_read]

theorem callMethod_readMsg (b : Bytes sizeofRpcMsg) :
    Body.callMethod (readMsg b).body = b.u32 (bodyAt + callMethodAt) := by
  have hfit : callMethodAt + 4 ≤ 1032 := by decide
  rw [Body.callMethod, Bytes.u32, readMsg, Bytes.read_read _ _ _ _ _ hfit, Bytes.u32]

section Views

variable {body body' : Body}

theorem decodeHash_congr (h : ∀ i, sizeofOrigin ≤ i → i < sizeofOrigin + idSize →
    body[i]?.getD 0 = body'[i]?.getD 0) : decodeHash body = decodeHash body' := by
  have hfit : sizeofOrigin + idSize ≤ maxPayloadSize := by decide
  rw [decodeHash, decodeHash, Body.callPayload, Body.callPayload, Bytes.read_read _ _ _ _ _ hfit,
    Bytes.read_read _ _ _ _ _ hfit, Nat.zero_add]
  exact Bytes.read_congr h

theorem decodeSrc_congr (h : ∀ i, i < sizeofOrigin → body[i]?.getD 0 = body'[i]?.getD 0) :
    decodeSrc body = decodeSrc body' := by
  have part (o m : Nat) (hm : o + m ≤ sizeofOrigin) :
      (Body.callPayload body).read o m = (Body.callPayload body').read o m := by
    have hfit : o + m ≤ maxPayloadSize := by simp only [sizeofOrigin, maxPayloadSize] at *; omega
    rw [Body.callPayload, Body.callPayload, Bytes.read_read _ _ _ _ _ hfit,
      Bytes.read_read _ _ _ _ _ hfit, Nat.zero_add]
    exact Bytes.read_congr fun i _ hi => h i (by omega)
  simp only [decodeSrc, readOrigin, readU16, part 0 2 (by decide),
    part (0 + 2) inetAddrstrlen (by decide)]

theorem replyPayload_byte (body : Body) (i : Nat) (hi : i < maxPayloadSize) :
    (Body.replyPayload body)[i]?.getD 0 = body[replyPayloadAt + i]?.getD 0 := by
  rw [Vector.getElem?_eq_getElem hi, Option.getD_some, Body.replyPayload, Bytes.getElem_read]

theorem replyCount_congr
    (h : body[replyPayloadAt]?.getD 0 = body'[replyPayloadAt]?.getD 0) :
    replyCount body = replyCount body' := by
  have hlt : 0 < maxPayloadSize := by decide
  rw [replyCount_eq body hlt, replyCount_eq body' hlt, Body.replyPayload, Body.replyPayload,
    Bytes.getElem_read, Bytes.getElem_read, Nat.add_zero, h]

theorem replyPeers_congr {count : Nat} (hm : count ≤ maxPeerBuckets)
    (h : ∀ i, replyPayloadAt ≤ i → i < replyPayloadAt + 1 + sizeofPeer * count →
      body[i]?.getD 0 = body'[i]?.getD 0) :
    readPeers (Body.replyPayload body) 1 count = readPeers (Body.replyPayload body') 1 count := by
  apply readPeers_congr
  intro i hi hi'
  simp only [sizeofPeer, maxPeerBuckets, replyPayloadAt] at *
  have hlt : i < maxPayloadSize := by simp only [maxPayloadSize]; omega
  rw [replyPayload_byte body i hlt, replyPayload_byte body' i hlt]
  exact h _ (by simp only [replyPayloadAt]; omega) (by simp only [replyPayloadAt]; omega)

end Views

section Agreement

variable {b b' : Bytes sizeofRpcMsg}

/-- The two buffers agree wherever `recv_rpc` reads the message in the first. -/
def AgreeOnReads (b b' : Bytes sizeofRpcMsg) : Prop :=
  ∀ i, Reads (decodeHeader (readMsg b)) i → b[i]?.getD 0 = b'[i]?.getD 0

theorem AgreeOnReads.body (lo hi : Nat)
    (h : ∀ i, lo ≤ i → i < hi → b[bodyAt + i]?.getD 0 = b'[bodyAt + i]?.getD 0)
    (hle : hi ≤ callMethodAt) : ∀ i, lo ≤ i → i < hi →
      (decodeHeader (readMsg b)).body[i]?.getD 0 = (decodeHeader (readMsg b')).body[i]?.getD 0 := by
  intro i hlo hhi
  rw [decoded_byte b i (by omega), decoded_byte b' i (by omega), h i hlo hhi]

theorem AgreeOnReads.origin (h : AgreeOnReads b b') :
    (readMsg b).origin = (readMsg b').origin := by
  have hread (o m : Nat) (hlo : msgTypeAt ≤ o) (hhi : o + m ≤ segmentNumberAt) :
      b.read o m = b'.read o m :=
    Bytes.read_congr fun i hi hi' => h i (.head ⟨by omega, by omega⟩)
  simp only [readMsg, readOrigin, readU16, hread originAt 2 (by decide) (by decide),
    hread (originAt + 2) inetAddrstrlen (by decide) (by decide)]

theorem AgreeOnReads.sameReads (h : AgreeOnReads b b') :
    SameReads (decodeHeader (readMsg b)) (decodeHeader (readMsg b')) where
  type := by
    have htype : b.u32 msgTypeAt = b'.u32 msgTypeAt := Bytes.u32_congr fun i hi hi' =>
      h i (.head ⟨hi, by simp only [msgTypeAt, segmentNumberAt] at *; omega⟩)
    simp only [decodeHeader, readMsg, htype]
  callMethod ht := by
    have hm : Body.callMethod (readMsg b).body = Body.callMethod (readMsg b').body := by
      rw [callMethod_readMsg, callMethod_readMsg]
      exact Bytes.u32_congr fun i hi hi' => h i (.callMethod ht
        ⟨hi, by simp only [bodyAt, callMethodAt, correlationIdAt] at *; omega⟩)
    rw [Body.callMethod, Body.callMethod, decodeHeader, decodeHeader, hm,
      Bytes.u32_setU32 _ _ _ (by decide), Bytes.u32_setU32 _ _ _ (by decide)]
  hash hc := decodeHash_congr (AgreeOnReads.body _ _ (fun i hi hi' => h _ (.search hc
    ⟨by omega, by omega⟩)) (by decide))
  src hc := decodeSrc_congr fun i hi => AgreeOnReads.body 0 _ (fun i _ hi' => h _ (.search hc
    ⟨by omega, by omega⟩)) (by decide) i (Nat.zero_le i) hi
  correlation hc := by
    change b.read correlationIdAt correlationIdSize = b'.read correlationIdAt correlationIdSize
    exact Bytes.read_congr fun i hi hi' => h i (.correlation hc ⟨hi, hi'⟩)
  replyMethod ht := Bytes.u32_congr (AgreeOnReads.body 0 (0 + 4) (fun i _ hi' => h _ (.replyMethod ht
    ⟨by omega, by simp only [replyStatusAt]; omega⟩)) (by decide))
  status hr := Bytes.u32_congr (AgreeOnReads.body replyStatusAt (replyStatusAt + 4)
    (fun i hi hi' => h _ (.status hr
      ⟨by omega, by simp only [replyStatusAt, replyPayloadAt] at *; omega⟩)) (by decide))
  count hr hs := replyCount_congr (AgreeOnReads.body replyPayloadAt (replyPayloadAt + 1)
    (fun i hi hi' => h _ (.peers hr hs ⟨by omega, by omega⟩)) (by decide) _ (Nat.le_refl _)
      (Nat.lt_succ_self _))
  peers hr hs hm := replyPeers_congr hm (AgreeOnReads.body _ _
    (fun i hi hi' => h _ (.peers hr hs ⟨by omega, by omega⟩)) (by
      simp only [replyPayloadAt, sizeofPeer, callMethodAt, maxPeerBuckets] at *
      omega))

end Agreement

theorem receive_shown (os : Os) (hashKey : Bytes idSize) (d : List UInt8) (s : Receiver) :
    (receive os hashKey d s).map Receiver.shown =
      (recvRpc os hashKey (readMsg (recvfrom s.msgBuffer d)) s.machine).map effect := by
  rw [receive]
  dsimp only
  cases recvRpc os hashKey (readMsg (recvfrom s.msgBuffer d)) s.machine with
  | error f => rfl
  | ok x => rfl

/-- Two buffers that agree on the bytes `recv_rpc` reads behind the end of a datagram lead to
the same table and the same datagrams. -/
theorem receive_alike (os : Os) (hashKey : Bytes idSize) (d : List UInt8) (m : Machine)
    (b b' : Bytes sizeofRpcMsg)
    (h : ∀ (i : Nat) (_ : i < sizeofRpcMsg), d.length ≤ i →
      Reads (decodeHeader (readMsg (recvfrom b d))) i → b[i] = b'[i]) :
    (receive os hashKey d ⟨b, m⟩).map Receiver.shown =
      (receive os hashKey d ⟨b', m⟩).map Receiver.shown := by
  have hagree : AgreeOnReads (recvfrom b d) (recvfrom b' d) := by
    intro i hr
    by_cases hi : i < sizeofRpcMsg
    · rw [Vector.getElem?_eq_getElem hi, Vector.getElem?_eq_getElem hi, recvfrom_getElem,
        recvfrom_getElem]
      by_cases hd : i < d.length
      · simp only [List.getElem?_eq_getElem hd, Option.getD_some]
      · rw [h i hi (Nat.not_lt.mp hd) hr]
    · rw [Vector.getElem?_eq_none (Nat.not_lt.mp hi), Vector.getElem?_eq_none (Nat.not_lt.mp hi)]
  rw [receive_shown, receive_shown]
  exact recvRpc_congr os hashKey m hagree.origin hagree.sameReads

/-- The answer of the lone peer under another correlation id. -/
def otherLoneMsg : RpcMsg := replyOf .getPeers (answerBytes [somePeer]) (Bytes.zero _) .ok

theorem otherLoneMsg_byte (i : Nat) (hi : i < correlationIdAt) :
    loneMsg.encode[i]? = otherLoneMsg.encode[i]? := by
  have hpre : (encodeLE 8 loneMsg.segmentCount.toNat ++ encodeLE 4 loneMsg.msgType.toNat ++
      encodeLE 2 loneMsg.origin.port.toNat ++ loneMsg.origin.ip.mem ++
      encodeLE 2 loneMsg.segmentNumber.toNat ++ loneMsg.body.mem).length = correlationIdAt := by
    simp [inetAddrstrlen, correlationIdAt]
  rw [← hpre] at hi
  exact (List.getElem?_append_left hi).trans (List.getElem?_append_left hi).symm

/-- A datagram that ends in front of the peers it announces, received where the same peers are
left over, once from an answer with this id and once from one with another. -/
theorem receive_alike_short :
    (receive sendingOs fileHash (loneMsg.encode.take (bodyAt + replyPayloadAt))
        ⟨recvfrom (Bytes.zero _) loneMsg.encode, aloneNode⟩).map Receiver.shown =
      (receive sendingOs fileHash (loneMsg.encode.take (bodyAt + replyPayloadAt))
        ⟨recvfrom (Bytes.zero _) otherLoneMsg.encode, aloneNode⟩).map Receiver.shown := by
  apply receive_alike
  intro i hi _ hr
  rw [recvfrom_take, readMsg_recvfrom] at hr
  have hcut : i < correlationIdAt := by
    cases hr with
    | head h => exact h.2.trans (by decide)
    | callMethod _ h => exact h.2
    | search _ h => exact h.2.trans (by decide)
    | correlation hc _ =>
      rcases hc with hc | hc
      · exact absurd loneMsg_brings.1 hc.not_reply
      · exact absurd loneMsg_brings.1 hc.not_reply
    | replyMethod _ h => exact h.2.trans (by decide)
    | status _ h => exact h.2.trans (by decide)
    | peers _ _ h =>
      rw [loneMsg_count] at h
      exact h.2.trans (by decide)
  rw [recvfrom_getElem, recvfrom_getElem, otherLoneMsg_byte i hcut]

/-- After a message that decoding does not change, an empty datagram is handled as that
message once more. -/
theorem receive_empty (os : Os) (hashKey : Bytes idSize) {msg : RpcMsg} (m : Machine)
    (hd : decodeHeader msg = msg) {s : Receiver} {m₀ : Machine} {b : Bytes sizeofRpcMsg}
    (h : receive os hashKey msg.encode ⟨b, m₀⟩ = .ok s) :
    (receive os hashKey [] ⟨s.msgBuffer, m⟩).map Receiver.shown =
      (recvRpc os hashKey msg m).map effect := by
  have hbuf : readMsg s.msgBuffer = msg := by
    obtain ⟨x, -, hs⟩ := bind_eq_ok.mp h
    obtain rfl := Except.ok.inj hs
    dsimp only
    rw [readMsg_recvfrom, hd]
    exact readMsg_recvfrom (Bytes.zero sizeofRpcMsg) msg
  rw [receive_shown, recvfrom_nil, hbuf]

theorem receive_ok {os : Os} {hashKey : Bytes idSize} {msg : RpcMsg} {m m' : Machine} {r : Int}
    (b : Bytes sizeofRpcMsg) (h : recvRpc os hashKey msg m = .ok (r, m')) :
    ∃ s, receive os hashKey msg.encode ⟨b, m⟩ = .ok s := by
  rw [receive]
  dsimp only
  rw [readMsg_recvfrom, h]
  exact ⟨_, rfl⟩

/-- An answer without peers. -/
def noPeersMsg : RpcMsg := replyOf .getPeers (answerBytes []) randomValue .ok

theorem recvRpc_noPeers (os : Os) (hashKey : Bytes idSize) (m : Machine) :
    recvRpc os hashKey noPeersMsg m = .ok (0, m) := by
  have hzero : Terminated (Bytes.zero inetAddrstrlen).mem := by decide
  have hr : IsReply (decodeHeader noPeersMsg) .getPeers := isReply_replyOf_iff.mpr rfl
  have hok : ReplyOk (decodeHeader noPeersMsg) := replyOk_replyOf_iff.mpr rfl
  have hcount : replyCount (decodeHeader noPeersMsg).body = 0 := replyCount_replyOf _ _ _ _
  rw [ReplyOk] at hok
  rw [recvRpc_reply os hashKey m hzero hr, recvGetPeersReply, if_neg (not_not.mpr hok),
    if_pos hcount]
  rfl

/-- Whether an empty datagram adds a peer to the table depends on the message before it. -/
theorem stale_peer_stored : ∃ s s',
    receive sendingOs fileHash loneMsg.encode ⟨Bytes.zero _, aloneNode⟩ = .ok s ∧
      receive sendingOs fileHash noPeersMsg.encode ⟨Bytes.zero _, aloneNode⟩ = .ok s' ∧
      (receive sendingOs fileHash [] ⟨s.msgBuffer, aloneNode⟩).map Receiver.shown ≠
        (receive sendingOs fileHash [] ⟨s'.msgBuffer, aloneNode⟩).map Receiver.shown := by
  obtain ⟨c, hstep, -, -, -, hlen, -⟩ := newClient_takes
  obtain ⟨r, m, hm, rfl⟩ := clientStep_recv.mp hstep
  obtain ⟨s, hs⟩ := receive_ok (Bytes.zero _) hm
  obtain ⟨s', hs'⟩ := receive_ok (Bytes.zero _) (recvRpc_noPeers sendingOs fileHash aloneNode)
  have hlone : decodeHeader loneMsg = loneMsg :=
    decodeHeader_replyOf _ _ _ (by rw [answerBytes_length]; decide)
  have hnone : decodeHeader noPeersMsg = noPeersMsg :=
    decodeHeader_replyOf _ _ _ (by rw [answerBytes_length]; decide)
  refine ⟨s, s', hs, hs', ?_⟩
  rw [receive_empty sendingOs fileHash aloneNode hlone hs,
    receive_empty sendingOs fileHash aloneNode hnone hs', recvRpc_noPeers]
  have hm' : recvRpc sendingOs fileHash loneMsg aloneNode = .ok (r, m) := hm
  rw [hm']
  intro he
  have htable : m.table = aloneNode.table := congrArg Prod.fst (Except.ok.inj he)
  have hempty := newClient_empty
  change homeLen m.table fileHash = 1 at hlen
  change homeLen aloneNode.table fileHash = 0 at hempty
  rw [htable, hempty] at hlen
  cases hlen

end PeerToPeer
