import PeerToPeer.Rpc.Handled

namespace PeerToPeer

open CLib

instance (msg : RpcMsg) (method : Method) : Decidable (IsCall msg method) :=
  inferInstanceAs (Decidable (_ ∧ _))

instance (msg : RpcMsg) (method : Method) : Decidable (IsReply msg method) :=
  inferInstanceAs (Decidable (_ ∧ _))

instance (msg : RpcMsg) : Decidable (ReplyOk msg) := inferInstanceAs (Decidable (_ = _))

theorem IsCall.not_reply {msg : RpcMsg} {method method' : Method} (h : IsCall msg method) :
    ¬ IsReply msg method' := fun h' => h'.1 h.1

/-- A message is a call of one method only. -/
theorem IsCall.method_unique {msg : RpcMsg} (h : IsCall msg .getPeers) : ¬ IsCall msg .join := by
  intro h'
  have := h.2.symm.trans h'.2
  revert this
  decide

/-- The peers a message (header decoded) adds to the bucket of the node's own file hash;
`sent` tells whether the socket takes the answer to a `JOIN`. -/
def storedPeers (sent : Bool) (replyTo : Origin) (msg : RpcMsg) : List Peer :=
  if IsCall msg .join then if sent then [joinedPeer replyTo] else []
  else if IsReply msg .getPeers ∧ ReplyOk msg then replyPeers msg
  else []

theorem storedPeers_join {sent : Bool} {replyTo : Origin} {msg : RpcMsg}
    (h : IsCall msg .join) :
    storedPeers sent replyTo msg = if sent then [joinedPeer replyTo] else [] := if_pos h

theorem storedPeers_reply {sent : Bool} {replyTo : Origin} {msg : RpcMsg}
    (h : IsReply msg .getPeers) (hs : ReplyOk msg) :
    storedPeers sent replyTo msg = replyPeers msg := by
  rw [storedPeers, if_neg (fun hc => hc.not_reply h), if_pos ⟨h, hs⟩]

theorem storedPeers_other {sent : Bool} {replyTo : Origin} {msg : RpcMsg}
    (hj : ¬ IsCall msg .join) (hr : ¬ (IsReply msg .getPeers ∧ ReplyOk msg)) :
    storedPeers sent replyTo msg = [] := by
  rw [storedPeers, if_neg hj, if_neg hr]

theorem replyPeers_length (msg : RpcMsg) : (replyPeers msg).length = replyCount msg.body := by
  simp [replyPeers, readPeers]

section

variable {os : Os} {hashKey : Bytes idSize} {msg : RpcMsg} {replyTo : Origin} {m m' : Machine}
  {r : Int}

/-- No message changes the neighbours or the address of a node. -/
theorem Handled.keeps (h : Handled os hashKey msg replyTo m r m') :
    m'.sortedNeighbors = m.sortedNeighbors ∧ m'.node.ip = m.node.ip ∧
      m'.node.port = m.node.port := by
  cases h <;> simp

/-- An answer without peers changes nothing. -/
theorem Handled.emptyAnswer (hr : IsReply msg .getPeers)
    (hc : replyCount msg.body = 0) (h : Handled os hashKey msg replyTo m r m') : m' = m := by
  cases h with
  | otherCall => rfl
  | otherReply => rfl
  | badReply => rfl
  | emptyReply => rfl
  | noBucket r hcall => exact absurd hr hcall.not_reply
  | forwarded b hcall => exact absurd hr hcall.not_reply
  | answered b hcall => exact absurd hr hcall.not_reply
  | joinFailed hcall => exact absurd hr hcall.not_reply
  | joined t hcall => exact absurd hr hcall.not_reply
  | unfiled t _ _ hne => exact absurd hc hne
  | stored t b _ _ hne => exact absurd hc hne
  | joining t b _ _ hne => exact absurd hc hne

/-- The effect of a message on the peer table: one append to the node's own bucket. -/
theorem Handled.appended (hinv : TableInv m.table)
    (h : Handled os hashKey msg replyTo m r m') :
    TableInv m'.table ∧ Appended m.table m'.table (homeOf hashKey.str)
      (storedPeers (os.sendto m.sends.length) replyTo msg) := by
  have same : TableInv m.table ∧ Appended m.table m.table (homeOf hashKey.str) [] :=
    ⟨hinv, Appended.refl _ _⟩
  cases h with
  | otherCall ht hg hj =>
    rwa [storedPeers_other hj (fun hr => hr.1.1 ht)]
  | otherReply r ht hg =>
    rwa [storedPeers_other (fun hj => ht hj.1) (fun hr => hg hr.1)]
  | badReply hr hs =>
    rwa [storedPeers_other (fun hj => hj.not_reply hr) (fun h => hs h.2)]
  | emptyReply hr hs hc =>
    have hnil : replyPeers msg = [] := List.eq_nil_of_length_eq_zero (by
      rw [replyPeers_length, hc])
    rwa [storedPeers_reply hr hs, hnil]
  | noBucket r hc hb =>
    rw [storedPeers_other hc.method_unique (fun hr => hc.not_reply hr.1)]
    exact same
  | forwarded b hc hb hl hn =>
    rw [storedPeers_other hc.method_unique (fun hr => hc.not_reply hr.1)]
    exact same
  | answered b hc hb hn hf =>
    rw [storedPeers_other hc.method_unique (fun hr => hc.not_reply hr.1)]
    exact same
  | joinFailed hc hs =>
    rw [storedPeers_join hc, hs]
    exact same
  | joined t hc hs ht =>
    obtain ⟨-, hinv', happ⟩ := setPeer_ok hinv ht
    rw [storedPeers_join hc, hs]
    exact ⟨hinv', happ⟩
  | unfiled t hr hs hc ht hb hm =>
    rw [storedPeers_reply hr hs]
    exact setPeers_key_ok hinv ht
  | stored t b hr hs hc ht hb hl hm =>
    rw [storedPeers_reply hr hs]
    exact setPeers_key_ok hinv ht
  | joining t b hr hs hc ht hb hl hm =>
    rw [storedPeers_reply hr hs]
    exact setPeers_key_ok hinv ht

end

/-- `recv_rpc` on a table of the invariant, whatever bytes it is given: if it returns, it has
appended exactly the peers of the message and left everything else of the node alone. -/
theorem recvRpc_appended {os : Os} {hashKey : Bytes idSize} {msgBuffer : RpcMsg}
    {m m' : Machine} {r : Int} (hinv : TableInv m.table)
    (h : recvRpc os hashKey msgBuffer m = .ok (r, m')) :
    TableInv m'.table ∧ Appended m.table m'.table (homeOf hashKey.str)
      (storedPeers (os.sendto m.sends.length)
        ⟨ntohs msgBuffer.origin.port, msgBuffer.origin.ip.norm⟩ (decodeHeader msgBuffer)) :=
  (recvRpc_handled h).2.appended hinv

theorem recvRpc_keeps {os : Os} {hashKey : Bytes idSize} {msgBuffer : RpcMsg}
    {m m' : Machine} {r : Int} (h : recvRpc os hashKey msgBuffer m = .ok (r, m')) :
    m'.sortedNeighbors = m.sortedNeighbors ∧ m'.node.ip = m.node.ip ∧
      m'.node.port = m.node.port :=
  (recvRpc_handled h).2.keeps

end PeerToPeer
