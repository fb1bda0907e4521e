import PeerToPeer.Peers.Invariant
import PeerToPeer.Rpc.Images
import PeerToPeer.Rpc.Receive

namespace PeerToPeer

open CLib

namespace Machine

/-- The machine after further send attempts, and nothing else. -/
def emit (m : Machine) (out : List Send) : Machine := { m with sends := m.sends ++ out }

variable (m : Machine) (out : List Send) (t : PeerTable) (w : Bool)

@[simp] theorem emit_node : (m.emit out).node = m.node := rfl
@[simp] theorem emit_neighbors : (m.emit out).sortedNeighbors = m.sortedNeighbors := rfl
@[simp] theorem emit_wait : (m.emit out).wait = m.wait := rfl
@[simp] theorem emit_sends : (m.emit out).sends = m.sends ++ out := rfl
@[simp] theorem setTable_table : (m.setTable t).node.peerTable = t := rfl
@[simp] theorem setTable_ip : (m.setTable t).node.ip = m.node.ip := rfl
@[simp] theorem setTable_port : (m.setTable t).node.port = m.node.port := rfl
@[simp] theorem setTable_neighbors : (m.setTable t).sortedNeighbors = m.sortedNeighbors := rfl
@[simp] theorem setTable_wait : (m.setTable t).wait = m.wait := rfl
@[simp] theorem setTable_sends : (m.setTable t).sends = m.sends := rfl
@[simp] theorem setWait_node : (m.setWait w).node = m.node := rfl
@[simp] theorem setWait_neighbors : (m.setWait w).sortedNeighbors = m.sortedNeighbors := rfl
@[simp] theorem setWait_wait : (m.setWait w).wait = w := rfl
@[simp] theorem setWait_sends : (m.setWait w).sends = m.sends := rfl

@[simp] theorem emit_nil : m.emit [] = m := by simp [emit]

theorem emit_emit (out' : List Send) : (m.emit out).emit out' = m.emit (out ++ out') := by
  simp [emit, List.append_assoc]

end Machine

/-- The node's own address as the origin of its messages. -/
def Node.origin (n : Node) : Origin := ⟨n.port, n.ip.norm⟩

def NodeEntry.origin (n : NodeEntry) : Origin := ⟨n.port, n.ip.norm⟩

def Peer.origin (p : Peer) : Origin := ⟨p.port, p.ip.norm⟩

/-- One attempt of `m` to send `msg`, with the outcome the socket gives it. -/
def attempt (os : Os) (m : Machine) (dest : Origin) (msg : RpcMsg) : Send :=
  ⟨dest, msg, os.sendto m.sends.length⟩

theorem callRpc_ok {os : Os} {method : Method} {payload : List UInt8} {dest host : Origin}
    {m m' : Machine} {r : Int} (h : callRpc os method payload dest host m = .ok (r, m')) :
    m' = m.emit [attempt os m dest (callOf method payload host)] := by
  obtain ⟨msg, hmsg, hs⟩ := bind_eq_ok.mp h
  obtain ⟨-, -, rfl⟩ := callMsg_ok_iff.mp hmsg
  exact (ok_pair_inj hs).2.symm

theorem callRpc_total (os : Os) (method : Method) (payload : List UInt8) (dest host : Origin)
    (m : Machine) (hl : payload.length ≤ maxPayloadSize) (hh : Terminated host.ip.mem) :
    ∃ r, callRpc os method payload dest host m =
      .ok (r, m.emit [attempt os m dest (callOf method payload host)]) := by
  rw [callRpc, callMsg_ok_iff.mpr ⟨hl, hh, rfl⟩]
  exact ⟨_, rfl⟩

theorem replyRpc_ok {os : Os} {method : Method} {payload : List UInt8} {dest : Origin}
    {id : Bytes correlationIdSize} {status : MsgStatus} {m m' : Machine} {r : Int}
    (h : replyRpc os method payload dest id status m = .ok (r, m')) :
    r = (if os.sendto m.sends.length then 0 else -1) ∧
      m' = m.emit [attempt os m dest (replyOf method payload id status)] := by
  obtain ⟨msg, hmsg, hs⟩ := bind_eq_ok.mp h
  obtain ⟨-, -, rfl⟩ := replyMsg_ok_iff.mp hmsg
  obtain ⟨rfl, rfl⟩ := ok_pair_inj hs
  exact ⟨rfl, rfl⟩

theorem replyRpc_total (os : Os) (method : Method) (payload : List UInt8) (dest : Origin)
    (id : Bytes correlationIdSize) (status : MsgStatus) (m : Machine)
    (hl : payload.length ≤ maxPayloadSize) (hi : Terminated id.mem) :
    replyRpc os method payload dest id status m =
      .ok (if os.sendto m.sends.length then 0 else -1,
        m.emit [attempt os m dest (replyOf method payload id status)]) := by
  rw [replyRpc, replyMsg_ok_iff.mpr ⟨hl, hi, rfl⟩]
  rfl

/-- The neighbour a search goes on to: the first whose address is not the caller's. -/
def nextHop (neighbors : List NodeEntry) (caller : Addr) : Option NodeEntry :=
  neighbors.find? fun n => n.addr ≠ caller

/-- The one call `get_peers` attempts, if it finds a neighbour to call. -/
def searchSends (os : Os) (infoHash : Bytes idSize) (srcAddr replyTo : Origin) (m : Machine) :
    List Send :=
  match nextHop m.sortedNeighbors.live replyTo.addr with
  | none => []
  | some n => [attempt os m n.origin (callOf .getPeers
      (getPeersPayload os.stack ⟨htons srcAddr.port, srcAddr.ip.norm⟩ infoHash).mem m.node.origin)]

theorem same_addr_iff {n : NodeEntry} {o : Origin} {c : Int}
    (h : strcmp n.ip.mem o.ip.mem = .ok c) :
    (c = 0 ∧ n.port = o.port) ↔ n.addr = o.addr := by
  rw [strcmp_eq_zero h, NodeEntry.addr, Origin.addr, Prod.mk.injEq]
  rfl

theorem getPeersLoop_ok {os : Os} {payload : List UInt8} {host replyTo : Origin}
    {l : List NodeEntry} {m m' : Machine} {r : Int}
    (h : getPeersLoop os payload host replyTo l m = .ok (r, m')) :
    m' = m.emit (match nextHop l replyTo.addr with
      | none => []
      | some n => [attempt os m n.origin (callOf .getPeers payload host)]) := by
  induction l with
  | nil => simpa [getPeersLoop, nextHop] using congrArg Prod.snd (Except.ok.inj h).symm
  | cons n rest ih =>
    obtain ⟨c, hc, h⟩ := bind_eq_ok.mp h
    by_cases heq : c = 0 ∧ n.port = replyTo.port
    · rw [if_pos heq] at h
      have ha : n.addr = replyTo.addr := (same_addr_iff hc).mp heq
      rw [nextHop, List.find?_cons_of_neg (by simp [ha])]
      exact ih h
    · rw [if_neg heq] at h
      have ha : n.addr ≠ replyTo.addr := fun e => heq ((same_addr_iff hc).mpr e)
      obtain ⟨ip, hip, h⟩ := bind_eq_ok.mp h
      obtain ⟨-, rfl⟩ := Bytes.strcpy_ok hip
      rw [nextHop, List.find?_cons_of_pos (by simp [ha])]
      exact callRpc_ok h

theorem getPeers_ok {os : Os} {infoHash : Bytes idSize} {srcAddr replyTo : Origin}
    {m m' : Machine} {r : Int} (h : getPeers os infoHash srcAddr replyTo m = .ok (r, m')) :
    m' = m.emit (searchSends os infoHash srcAddr replyTo m) := by
  obtain ⟨hostIp, hh, h⟩ := bind_eq_ok.mp h
  obtain ⟨srcIp, hs, h⟩ := bind_eq_ok.mp h
  obtain ⟨-, rfl⟩ := Bytes.strcpy_ok hh
  obtain ⟨-, rfl⟩ := Bytes.strcpy_ok hs
  exact getPeersLoop_ok h

/-- The calls `join_peers` attempts, from its k-th attempt on. -/
def joinSends (os : Os) (host : Origin) : Nat → List Peer → List Send
  | _, [] => []
  | k, p :: ps => ⟨p.origin, callOf .join [] host, os.sendto k⟩ :: joinSends os host (k + 1) ps

/-- What holds of the one message holds of all attempts. -/
theorem forall_joinSends {P : RpcMsg → Prop} {os : Os} {host : Origin} {k : Nat} {ps : List Peer}
    (h : P (callOf .join [] host)) : ∀ x ∈ joinSends os host k ps, P x.msg := by
  induction ps generalizing k with
  | nil => simp [joinSends]
  | cons p ps ih =>
    intro x hx
    rcases List.mem_cons.mp hx with rfl | hx
    · exact h
    · exact ih x hx

theorem joinPeersLoop_ok {os : Os} {host : Origin} {ps : List Peer} {m m' : Machine}
    (h : joinPeersLoop os host ps m = .ok m') :
    m' = m.emit (joinSends os host m.sends.length ps) := by
  induction ps generalizing m with
  | nil => simpa [joinPeersLoop, joinSends] using (Except.ok.inj h).symm
  | cons p ps ih =>
    obtain ⟨ip, hip, h⟩ := bind_eq_ok.mp h
    obtain ⟨-, rfl⟩ := Bytes.strcpy_ok hip
    obtain ⟨⟨r, m₁⟩, hc, h⟩ := bind_eq_ok.mp h
    have h₁ := callRpc_ok hc
    have h₂ := ih h
    subst h₁
    rw [h₂, Machine.emit_emit]
    simp [joinSends, attempt, Peer.origin]

theorem joinPeers_ok {os : Os} {infoHash : Bytes idSize} {m m' : Machine} {r : Int}
    (h : joinPeers os infoHash m = .ok (r, m')) :
    (getPeerBucket m.table infoHash.mem = .ok none ∧ r = 0 ∧ m' = m) ∨
    ∃ b, getPeerBucket m.table infoHash.mem = .ok (some b) ∧
      ((m.table[b].len = 0 ∧ r = 1 ∧ m' = m) ∨
        (m.table[b].len ≠ 0 ∧ r = 0 ∧
          m' = m.emit (joinSends os m.node.origin m.sends.length m.table[b].peers))) := by
  obtain ⟨ob, hb, h⟩ := bind_eq_ok.mp h
  cases ob with
  | none =>
    obtain ⟨rfl, rfl⟩ := ok_pair_inj h
    exact Or.inl ⟨hb, rfl, rfl⟩
  | some b =>
    refine Or.inr ⟨b, hb, ?_⟩
    dsimp only at h
    split_ifs at h with hl
    · obtain ⟨rfl, rfl⟩ := ok_pair_inj h
      exact Or.inl ⟨hl, rfl, rfl⟩
    · obtain ⟨ip, hip, h⟩ := bind_eq_ok.mp h
      obtain ⟨-, rfl⟩ := Bytes.strcpy_ok hip
      obtain ⟨m₁, h₁, h⟩ := bind_eq_ok.mp h
      obtain ⟨rfl, rfl⟩ := ok_pair_inj h
      exact Or.inr ⟨hl, rfl, joinPeersLoop_ok h₁⟩

/-- Whatever it returns, `join_peers` has called the peers of one bucket, or nobody. -/
theorem joinPeers_calls {os : Os} {infoHash : Bytes idSize} {m m' : Machine} {r : Int}
    (h : joinPeers os infoHash m = .ok (r, m')) :
    ∃ ps, (∀ p ∈ ps, ∃ b : Fin maxPeerBuckets, p ∈ m.table[b].peers) ∧
      m' = m.emit (joinSends os m.node.origin m.sends.length ps) := by
  have nobody : ∃ ps, (∀ p ∈ ps, ∃ b : Fin maxPeerBuckets, p ∈ m.table[b].peers) ∧
      m = m.emit (joinSends os m.node.origin m.sends.length ps) :=
    ⟨[], by simp, m.emit_nil.symm⟩
  rcases joinPeers_ok h with ⟨-, -, rfl⟩ | ⟨b, -, ⟨-, -, rfl⟩ | ⟨-, -, rfl⟩⟩
  · exact nobody
  · exact nobody
  · exact ⟨_, fun p hp => ⟨b, hp⟩, rfl⟩

/-- The message, its header decoded, is a call of this method. -/
def IsCall (msg : RpcMsg) (method : Method) : Prop :=
  msg.msgType = MsgType.call.code ∧ Body.callMethod msg.body = method.code

/-- The message, its header decoded, is taken for a reply of this method. -/
def IsReply (msg : RpcMsg) (method : Method) : Prop :=
  msg.msgType ≠ MsgType.call.code ∧ Body.replyMethod msg.body = method.code

/-- `recv_rpc` found status `OK` and takes the reply for an answer. -/
def ReplyOk (msg : RpcMsg) : Prop := Body.replyStatus msg.body = MsgStatus.ok.code

/-- The peers of a reply, in payload order. -/
def replyPeers (msg : RpcMsg) : List Peer :=
  readPeers (Body.replyPayload msg.body) 1 (replyCount msg.body)

/-- The peer a `JOIN` call from `replyTo` is stored as. -/
def joinedPeer (replyTo : Origin) : Peer :=
  ⟨replyTo.ip, replyTo.port, Bytes.zero 16, Bytes.zero 2, PeerState.passive.code⟩

/-- Everything one handled message can do to a machine: one constructor for each way through
`recv_rpc` that returns. `msg` has its header decoded. -/
inductive Handled (os : Os) (hashKey : Bytes idSize) (msg : RpcMsg) (replyTo : Origin)
    (m : Machine) : Int → Machine → Prop where
  | otherCall (ht : msg.msgType = MsgType.call.code) (hg : ¬ IsCall msg .getPeers)
      (hj : ¬ IsCall msg .join) : Handled os hashKey msg replyTo m 0 m
  | otherReply (r : Int) (ht : msg.msgType ≠ MsgType.call.code) (hg : ¬ IsReply msg .getPeers) :
      Handled os hashKey msg replyTo m r m
  | badReply (hr : IsReply msg .getPeers) (hs : ¬ ReplyOk msg) :
      Handled os hashKey msg replyTo m (-1) m
  | emptyReply (hr : IsReply msg .getPeers) (hs : ReplyOk msg) (hc : replyCount msg.body = 0) :
      Handled os hashKey msg replyTo m 0 m
  | noBucket (r : Int) (hc : IsCall msg .getPeers)
      (hb : getPeerBucket m.table (decodeHash msg.body).mem = .ok none) :
      Handled os hashKey msg replyTo m r
        (m.emit [attempt os m replyTo (replyOf .getPeers [0] msg.correlationId .ok)])
  | forwarded (b : Fin maxPeerBuckets) (hc : IsCall msg .getPeers)
      (hb : getPeerBucket m.table (decodeHash msg.body).mem = .ok (some b))
      (hl : m.table[b].len = 0) (hn : 0 < m.sortedNeighbors.len) :
      Handled os hashKey msg replyTo m 0
        ((m.emit (searchSends os hashKey (decodeSrc msg.body) replyTo m)).setWait true)
  | answered (b : Fin maxPeerBuckets) (hc : IsCall msg .getPeers)
      (hb : getPeerBucket m.table (decodeHash msg.body).mem = .ok (some b))
      (hn : ¬ (m.table[b].len = 0 ∧ 0 < m.sortedNeighbors.len))
      (hf : sizeofPeer * m.table[b].len + 1 ≤ maxPayloadSize) :
      Handled os hashKey msg replyTo m 0
        ((m.emit [attempt os m (decodeSrc msg.body)
          (replyOf .getPeers (answerBytes m.table[b].peers) msg.correlationId .ok)]).setWait false)
  | joinFailed (hc : IsCall msg .join) (hs : os.sendto m.sends.length = false) :
      Handled os hashKey msg replyTo m 1
        (m.emit [attempt os m replyTo (replyOf .join [] msg.correlationId .ok)])
  | joined (t : PeerTable) (hc : IsCall msg .join) (hs : os.sendto m.sends.length = true)
      (ht : setPeer m.table hashKey.mem (joinedPeer replyTo) = .ok t) :
      Handled os hashKey msg replyTo m 0
        ((m.emit [attempt os m replyTo (replyOf .join [] msg.correlationId .ok)]).setTable t)
  | unfiled (t : PeerTable) (hr : IsReply msg .getPeers) (hs : ReplyOk msg)
      (hc : replyCount msg.body ≠ 0)
      (ht : setPeers m.table ((replyPeers msg).map fun p => (hashKey.mem, p)) = .ok t)
      (hb : getPeerBucket t hashKey.mem = .ok none) (hm : replyCount msg.body ≤ maxPeerBuckets) :
      Handled os hashKey msg replyTo m (-1) (m.setTable t)
  | stored (t : PeerTable) (b : Fin maxPeerBuckets) (hr : IsReply msg .getPeers)
      (hs : ReplyOk msg) (hc : replyCount msg.body ≠ 0)
      (ht : setPeers m.table ((replyPeers msg).map fun p => (hashKey.mem, p)) = .ok t)
      (hb : getPeerBucket t hashKey.mem = .ok (some b)) (hl : t[b].len < initialCap)
      (hm : replyCount msg.body ≤ maxPeerBuckets) :
      Handled os hashKey msg replyTo m 0 (m.setTable t)
  | joining (t : PeerTable) (b : Fin maxPeerBuckets) (hr : IsReply msg .getPeers)
      (hs : ReplyOk msg) (hc : replyCount msg.body ≠ 0)
      (ht : setPeers m.table ((replyPeers msg).map fun p => (hashKey.mem, p)) = .ok t)
      (hb : getPeerBucket t hashKey.mem = .ok (some b)) (hl : initialCap ≤ t[b].len)
      (hm : replyCount msg.body ≤ maxPeerBuckets) :
      Handled os hashKey msg replyTo m 0
        (((m.setTable t).emit
          (joinSends os m.node.origin m.sends.length t[b].peers)).setWait false)

theorem recvGetPeersCall_handled {os : Os} {hashKey : Bytes idSize} {replyTo : Origin}
    {msg : RpcMsg} {m m' : Machine} {r : Int} (hc : IsCall msg .getPeers)
    (h : recvGetPeersCall os hashKey replyTo msg m = .ok (r, m')) :
    Handled os hashKey msg replyTo m r m' := by
  unfold recvGetPeersCall at h
  dsimp only at h
  obtain ⟨c, hcmp, h⟩ := bind_eq_ok.mp h
  rw [if_neg (not_lt.mpr (strcmp_empty_nonneg hcmp))] at h
  obtain ⟨ob, hb, h⟩ := bind_eq_ok.mp h
  cases ob with
  | none =>
    obtain ⟨-, rfl⟩ := replyRpc_ok h
    exact .noBucket r hc hb
  | some b =>
    dsimp only at h
    split_ifs at h with hl
    · obtain ⟨⟨r', m₁⟩, h₁, h⟩ := bind_eq_ok.mp h
      have he := Except.ok.inj h
      have hm₁ := getPeers_ok h₁
      simp only [Prod.mk.injEq] at he
      obtain ⟨rfl, rfl⟩ := he
      rw [hm₁]
      exact .forwarded b hc hb hl.1 hl.2
    · obtain ⟨buffer, hbuf, hrest⟩ := bind_eq_ok.mp h
      unfold encodeAnswer at hbuf
      split_ifs at hbuf with hf
      obtain rfl := Except.ok.inj hbuf
      obtain ⟨⟨r', m₁⟩, h₁, h⟩ := bind_eq_ok.mp hrest
      obtain ⟨rfl, rfl⟩ := ok_pair_inj h
      rw [(replyRpc_ok h₁).2]
      exact .answered b hc hb hl hf

theorem recvJoinCall_handled {os : Os} {hashKey : Bytes idSize} {replyTo : Origin}
    {msg : RpcMsg} {m m' : Machine} {r : Int} (hc : IsCall msg .join)
    (h : recvJoinCall os hashKey replyTo msg m = .ok (r, m')) :
    Handled os hashKey msg replyTo m r m' := by
  unfold recvJoinCall at h
  dsimp only at h
  obtain ⟨⟨r', m₁⟩, h₁, h⟩ := bind_eq_ok.mp h
  obtain ⟨hr', rfl⟩ := replyRpc_ok h₁
  cases hs : os.sendto m.sends.length with
  | false =>
    rw [hs] at hr'
    simp only [hr', Bool.false_eq_true, if_false] at h
    rw [if_pos (by decide)] at h
    obtain ⟨rfl, rfl⟩ := ok_pair_inj h
    exact .joinFailed hc hs
  | true =>
    rw [hs] at hr'
    simp only [hr', if_true] at h
    rw [if_neg (by decide)] at h
    obtain ⟨t, ht, h⟩ := bind_eq_ok.mp h
    obtain ⟨rfl, rfl⟩ := ok_pair_inj h
    exact .joined t hc hs ht

theorem recvGetPeersReply_handled {os : Os} {hashKey : Bytes idSize} {replyTo : Origin}
    {msg : RpcMsg} {m m' : Machine} {r : Int} (hr : IsReply msg .getPeers)
    (h : recvGetPeersReply os hashKey msg m = .ok (r, m')) :
    Handled os hashKey msg replyTo m r m' := by
  unfold recvGetPeersReply at h
  split_ifs at h with hs hc
  · obtain ⟨rfl, rfl⟩ := ok_pair_inj h
    exact .badReply hr hs
  · obtain ⟨rfl, rfl⟩ := ok_pair_inj h
    exact .emptyReply hr (not_not.mp hs) hc
  · obtain ⟨pBuf, hbuf, hrest⟩ := bind_eq_ok.mp h
    unfold readPeerBuf at hbuf
    split_ifs at hbuf with hm
    obtain rfl := Except.ok.inj hbuf
    obtain ⟨t, ht, h⟩ := bind_eq_ok.mp hrest
    obtain ⟨ob, hb, h⟩ := bind_eq_ok.mp h
    cases ob with
    | none =>
      obtain ⟨rfl, rfl⟩ := ok_pair_inj h
      exact .unfiled t hr (not_not.mp hs) hc ht hb hm
    | some b =>
      dsimp only at h
      split_ifs at h with hl
      · obtain ⟨⟨r', m₁⟩, h₁, h⟩ := bind_eq_ok.mp h
        split_ifs at h with hr'
        obtain ⟨rfl, rfl⟩ := ok_pair_inj h
        rcases joinPeers_ok h₁ with ⟨hb', -⟩ | ⟨b', hb', hj⟩
        · rw [hb] at hb'
          cases hb'
        · obtain rfl : b = b' := by
            rw [hb] at hb'
            simpa using hb'
          rcases hj with ⟨-, rfl, -⟩ | ⟨-, -, rfl⟩
          · exact absurd one_ne_zero hr'
          · exact .joining t b hr (not_not.mp hs) hc ht hb hl hm
      · obtain ⟨rfl, rfl⟩ := ok_pair_inj h
        exact .stored t b hr (not_not.mp hs) hc ht hb (not_le.mp hl) hm

/-- What `recv_rpc` runs for a message it takes for a reply to a search. -/
theorem recvRpc_reply (os : Os) (hashKey : Bytes idSize) {msg : RpcMsg} (m : Machine)
    (hip : Terminated msg.origin.ip.mem) (hr : IsReply (decodeHeader msg) .getPeers) :
    recvRpc os hashKey msg m = recvGetPeersReply os hashKey (decodeHeader msg) m := by
  rw [recvRpc, decodeOrigin_ok_iff.mpr ⟨hip, rfl⟩, ok_bind]
  dsimp only
  rw [if_neg hr.1, if_pos hr.2]

/-- The inversion rule of `recv_rpc`: every later fact about it is a case analysis on
`Handled`. -/
theorem recvRpc_handled {os : Os} {hashKey : Bytes idSize} {msgBuffer : RpcMsg}
    {m m' : Machine} {r : Int} (h : recvRpc os hashKey msgBuffer m = .ok (r, m')) :
    Terminated msgBuffer.origin.ip.mem ∧
      Handled os hashKey (decodeHeader msgBuffer)
        ⟨ntohs msgBuffer.origin.port, msgBuffer.origin.ip.norm⟩ m r m' := by
  unfold recvRpc at h
  dsimp only at h
  obtain ⟨replyTo, ho, h⟩ := bind_eq_ok.mp h
  obtain ⟨hterm, rfl⟩ := decodeOrigin_ok_iff.mp ho
  refine ⟨hterm, ?_⟩
  split_ifs at h with ht hg hj hg hj
  · exact recvGetPeersCall_handled ⟨ht, hg⟩ h
  · exact recvJoinCall_handled ⟨ht, hj⟩ h
  · obtain ⟨rfl, rfl⟩ := ok_pair_inj h
    exact .otherCall ht (fun hc => hg hc.2) (fun hc => hj hc.2)
  · exact recvGetPeersReply_handled ⟨ht, hg⟩ h
  · unfold recvJoinReply at h
    split_ifs at h <;>
    · obtain ⟨rfl, rfl⟩ := ok_pair_inj h
      exact .otherReply _ ht (fun hc => hg hc.2)
  · obtain ⟨rfl, rfl⟩ := ok_pair_inj h
    exact .otherReply 0 ht (fun hc => hg hc.2)

end PeerToPeer
