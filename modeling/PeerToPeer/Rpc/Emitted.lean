import PeerToPeer.Rpc.Outgoing

namespace PeerToPeer

open CLib

/-- A message that makes no search go on: neither a `GET_PEERS` call nor an answer to one
that carries peers. -/
def Quiet (msg : RpcMsg) : Prop :=
  ¬ IsCall (decodeHeader msg) .getPeers ∧
    (IsReply (decodeHeader msg) .getPeers → replyCount (decodeHeader msg).body = 0)

theorem quiet_callOf_join (host : Origin) : Quiet (callOf .join [] host) := by
  refine ⟨?_, fun h => absurd h not_isReply_callOf⟩
  intro h
  have hm : Method.join = .getPeers := (isCall_callOf_iff (by simp)).mp h
  cases hm

theorem quiet_replyOf {method : Method} {payload : List UInt8} {id : Bytes correlationIdSize}
    {status : MsgStatus} (h : method = .getPeers → payload.getD 0 0 = 0) :
    Quiet (replyOf method payload id status) := by
  refine ⟨not_isCall_replyOf, ?_⟩
  intro hr
  rw [replyCount_replyOf, h (isReply_replyOf_iff.mp hr)]
  rfl

theorem quiet_joinSends {os : Os} {host : Origin} {k : Nat} {ps : List Peer} :
    ∀ x ∈ joinSends os host k ps, Quiet x.msg := forall_joinSends (quiet_callOf_join host)

/-- The node passes the search on: the bucket asked for is empty, and there is a neighbour
other than the caller. -/
structure Forwards (m : Machine) (replyTo : Origin) (msg : RpcMsg) (next : NodeEntry) : Prop where
  call : IsCall msg .getPeers
  empty : ∃ b, getPeerBucket m.table (decodeHash msg.body).mem = .ok (some b) ∧ m.table[b].len = 0
  next : nextHop m.sortedNeighbors.live replyTo.addr = some next

/-- The node answers the search from bucket `b`. -/
structure Answers (m : Machine) (msg : RpcMsg) (b : Fin maxPeerBuckets) : Prop where
  call : IsCall msg .getPeers
  found : getPeerBucket m.table (decodeHash msg.body).mem = .ok (some b)
  kept : ¬ (m.table[b].len = 0 ∧ 0 < m.sortedNeighbors.len)

/-- The call by which `m` passes a search for `hash` on to `next`. -/
def searchCall (os : Os) (hash : Bytes idSize) (src : Origin) (m : Machine) : RpcMsg :=
  callOf .getPeers (getPeersPayload os.stack ⟨htons src.port, src.ip.norm⟩ hash).mem m.node.origin

/-- The send attempts of one handled message, as far as searches can notice them. -/
inductive Emitted (os : Os) (hashKey : Bytes idSize) (msg : RpcMsg) (replyTo : Origin)
    (m : Machine) : List Send → Prop where
  | quiet (out : List Send) (hq : ∀ x ∈ out, Quiet x.msg) : Emitted os hashKey msg replyTo m out
  | forwarded (next : NodeEntry) (hf : Forwards m replyTo msg next) :
      Emitted os hashKey msg replyTo m
        [attempt os m next.origin (searchCall os hashKey (decodeSrc msg.body) m)]
  | answered (b : Fin maxPeerBuckets) (ha : Answers m msg b) :
      Emitted os hashKey msg replyTo m
        [attempt os m (decodeSrc msg.body)
          (replyOf .getPeers (answerBytes m.table[b].peers) msg.correlationId .ok)]

theorem searchSends_eq (os : Os) (hash : Bytes idSize) (src replyTo : Origin) (m : Machine) :
    searchSends os hash src replyTo m =
      ((nextHop m.sortedNeighbors.live replyTo.addr).map fun next =>
        attempt os m next.origin (searchCall os hash src m)).toList := by
  unfold searchSends
  cases nextHop m.sortedNeighbors.live replyTo.addr <;> rfl

theorem Handled.emitted {os : Os} {hashKey : Bytes idSize} {msg : RpcMsg} {replyTo : Origin}
    {m m' : Machine} {r : Int} (h : Handled os hashKey msg replyTo m r m') :
    ∃ out, m'.sends = m.sends ++ out ∧ Emitted os hashKey msg replyTo m out := by
  have silent : ∃ out, m.sends = m.sends ++ out ∧ Emitted os hashKey msg replyTo m out :=
    ⟨[], (List.append_nil _).symm, .quiet [] (by simp)⟩
  have joinReply : Emitted os hashKey msg replyTo m
      [attempt os m replyTo (replyOf .join [] msg.correlationId .ok)] := by
    refine .quiet _ ?_
    intro x hx
    obtain rfl := List.mem_singleton.mp hx
    exact quiet_replyOf (fun hm => by cases hm)
  cases h with
  | otherCall => exact silent
  | otherReply => exact silent
  | badReply => exact silent
  | emptyReply => exact silent
  | unfiled => exact silent
  | stored => exact silent
  | joinFailed => exact ⟨_, rfl, joinReply⟩
  | joined => exact ⟨_, rfl, joinReply⟩
  | noBucket r hc hb =>
    refine ⟨_, rfl, .quiet _ ?_⟩
    intro x hx
    obtain rfl := List.mem_singleton.mp hx
    exact quiet_replyOf (fun _ => rfl)
  | answered b hc hb hn hf => exact ⟨_, rfl, .answered b ⟨hc, hb, hn⟩⟩
  | joining t b hr hs hc ht hb hl hm => exact ⟨_, rfl, .quiet _ quiet_joinSends⟩
  | forwarded b hc hb hl hn =>
    refine ⟨_, rfl, ?_⟩
    rw [searchSends_eq]
    cases hnext : nextHop m.sortedNeighbors.live replyTo.addr with
    | none => exact .quiet [] (by simp)
    | some next => exact .forwarded next ⟨hc, ⟨b, hb, hl⟩, hnext⟩

end PeerToPeer
