import PeerToPeer.Rpc.Effect

namespace PeerToPeer

open CLib

/-- Every string a process holds ends in its field. -/
structure MachineStrings (m : Machine) : Prop where
  ip : Terminated m.node.ip.mem
  neighbors : ∀ n ∈ m.sortedNeighbors.live, Terminated n.ip.mem
  peers : ∀ i : Fin maxPeerBuckets, ∀ p ∈ m.table[i].peers, Terminated p.ip.mem

/-- Peers with proper strings may be appended. -/
theorem MachineStrings.appended {m m' : Machine} {i : Fin maxPeerBuckets} {ps : List Peer}
    (hm : MachineStrings m) (hip : m'.node.ip = m.node.ip)
    (hn : m'.sortedNeighbors = m.sortedNeighbors) (happ : Appended m.table m'.table i ps)
    (hp : ∀ p ∈ ps, Terminated p.ip.mem) : MachineStrings m' := by
  refine ⟨hip ▸ hm.ip, hn ▸ hm.neighbors, ?_⟩
  intro j p hpj
  by_cases hj : j = i
  · subst hj
    rw [happ.home] at hpj
    rcases List.mem_append.mp hpj with h | h
    · exact hm.peers _ p h
    · exact hp p h
  · rw [happ.other j hj] at hpj
    exact hm.peers j p hpj

/-- Every string a received message is read for ends in its field. -/
structure MsgStrings (msg : RpcMsg) : Prop where
  origin : Terminated msg.origin.ip.mem
  id : Terminated msg.correlationId.mem
  call : IsCall (decodeHeader msg) .getPeers →
    Terminated (decodeHash (decodeHeader msg).body).mem ∧
      Terminated (decodeSrc (decodeHeader msg).body).ip.mem
  reply : IsReply (decodeHeader msg) .getPeers → ReplyOk (decodeHeader msg) →
    ∀ p ∈ replyPeers (decodeHeader msg), Terminated p.ip.mem

/-- A reply fits the local array it is copied to. -/
def CountFits (msg : RpcMsg) : Prop :=
  IsReply (decodeHeader msg) .getPeers → ReplyOk (decodeHeader msg) →
    replyCount (decodeHeader msg).body ≤ maxPeerBuckets

/-- An answer that was handled has fitted. -/
theorem Handled.count_le {os : Os} {hashKey : Bytes idSize} {msg : RpcMsg} {replyTo : Origin}
    {m m' : Machine} {r : Int} (hr : IsReply msg .getPeers) (hs : ReplyOk msg)
    (h : Handled os hashKey msg replyTo m r m') : replyCount msg.body ≤ maxPeerBuckets := by
  cases h with
  | otherCall ht => exact absurd ht hr.1
  | otherReply _ _ hg => exact absurd hr hg
  | badReply _ hbad => exact absurd hs hbad
  | emptyReply _ _ hc => exact hc.trans_le (Nat.zero_le _)
  | noBucket _ hc => exact absurd hr hc.not_reply
  | forwarded _ hc => exact absurd hr hc.not_reply
  | answered _ hc => exact absurd hr hc.not_reply
  | joinFailed hc => exact absurd hr hc.not_reply
  | joined _ hc => exact absurd hr hc.not_reply
  | unfiled _ _ _ _ _ _ hm => exact hm
  | stored _ _ _ _ _ _ _ _ hm => exact hm
  | joining _ _ _ _ _ _ _ _ hm => exact hm

theorem Peer.encode_length (p : Peer) : p.encode.length = sizeofPeer := by
  simp [Peer.encode]

/-- `1 + sizeof(peer_t) * len`. -/
theorem answerBytes_length (peers : List Peer) :
    (answerBytes peers).length = 1 + sizeofPeer * peers.length := by
  have hsum : (peers.flatMap Peer.encode).length = sizeofPeer * peers.length := by
    induction peers with
    | nil => rfl
    | cons p ps ih =>
      rw [List.flatMap_cons, List.length_append, ih, Peer.encode_length, List.length_cons]
      ring
  rw [answerBytes, List.length_cons, hsum, Nat.add_comm]

theorem strcmp_empty_total {n : Nat} (b : Bytes n) (h : Terminated b.mem) :
    ∃ c, strcmp b.mem [0] = .ok c ∧ ¬ c < 0 := by
  obtain ⟨c, hc⟩ := strcmp_terminated b.mem [0] h (by decide)
  exact ⟨c, hc, not_lt.mpr (strcmp_empty_nonneg hc)⟩

theorem getPeersLoop_total (os : Os) (payload : List UInt8) (host replyTo : Origin)
    (l : List NodeEntry) (m : Machine) (hl : payload.length ≤ maxPayloadSize)
    (hh : Terminated host.ip.mem) (hr : Terminated replyTo.ip.mem)
    (hn : ∀ n ∈ l, Terminated n.ip.mem) :
    ∃ r m', getPeersLoop os payload host replyTo l m = .ok (r, m') := by
  induction l with
  | nil => exact ⟨0, m, rfl⟩
  | cons n rest ih =>
    have hip : Terminated n.ip.mem := hn n (by simp)
    obtain ⟨c, hc⟩ := strcmp_terminated n.ip.mem replyTo.ip.mem hip hr
    rw [getPeersLoop, hc, ok_bind]
    split_ifs with heq
    · exact ih (fun x hx => hn x (List.mem_cons_of_mem _ hx))
    · obtain ⟨r, hcall⟩ := callRpc_total os .getPeers payload ⟨n.port, n.ip.norm⟩ host m hl hh
      rw [Bytes.strcpy_of_terminated hip, ok_bind, hcall]
      exact ⟨_, _, rfl⟩

theorem getPeers_total (os : Os) (infoHash : Bytes idSize) (srcAddr replyTo : Origin)
    (m : Machine) (hip : Terminated m.node.ip.mem)
    (hn : ∀ n ∈ m.sortedNeighbors.live, Terminated n.ip.mem) (hs : Terminated srcAddr.ip.mem)
    (hr : Terminated replyTo.ip.mem) :
    ∃ r m', getPeers os infoHash srcAddr replyTo m = .ok (r, m') := by
  rw [getPeers, Bytes.strcpy_of_terminated hip, ok_bind, Bytes.strcpy_of_terminated hs, ok_bind]
  exact getPeersLoop_total _ _ _ _ _ _ (by simp) (Bytes.terminated_norm hip) hr hn

theorem joinPeersLoop_total (os : Os) (host : Origin) (ps : List Peer) (m : Machine)
    (hh : Terminated host.ip.mem) (hp : ∀ p ∈ ps, Terminated p.ip.mem) :
    ∃ m', joinPeersLoop os host ps m = .ok m' := by
  induction ps generalizing m with
  | nil => exact ⟨m, rfl⟩
  | cons p ps ih =>
    obtain ⟨r, hcall⟩ := callRpc_total os .join [] ⟨p.port, p.ip.norm⟩ host m (by simp) hh
    rw [joinPeersLoop, Bytes.strcpy_of_terminated (hp p (by simp)), ok_bind, hcall, ok_bind]
    exact ih _ (fun q hq => hp q (List.mem_cons_of_mem _ hq))

/-- Over a bucket that is found and not empty, `join_peers` reaches its last return. -/
theorem joinPeers_total (os : Os) (infoHash : Bytes idSize) (m : Machine)
    (b : Fin maxPeerBuckets) (hm : MachineStrings m)
    (hb : getPeerBucket m.table infoHash.mem = .ok (some b)) (hl : m.table[b].len ≠ 0) :
    ∃ m', joinPeers os infoHash m = .ok (0, m') := by
  obtain ⟨m', hloop⟩ := joinPeersLoop_total os ⟨m.node.port, m.node.ip.norm⟩ m.table[b].peers m
    (Bytes.terminated_norm hm.ip) (hm.peers b)
  refine ⟨m', ?_⟩
  rw [joinPeers, hb, ok_bind]
  dsimp only
  rw [if_neg hl, Bytes.strcpy_of_terminated hm.ip, ok_bind, hloop, ok_bind]
  rfl

theorem recvGetPeersCall_total (os : Os) (hashKey : Bytes idSize) (replyTo : Origin)
    (msg : RpcMsg) (m : Machine) (hm : MachineStrings m) (hinv : TableInv m.table)
    (hfit : m.table[homeOf (chars (decodeHash msg.body).mem)].len ≤ 25)
    (hr : Terminated replyTo.ip.mem) (hi : Terminated msg.correlationId.mem)
    (hh : Terminated (decodeHash msg.body).mem) (hs : Terminated (decodeSrc msg.body).ip.mem) :
    ∃ r m', recvGetPeersCall os hashKey replyTo msg m = .ok (r, m') := by
  obtain ⟨c, hc, hc0⟩ := strcmp_empty_total _ hh
  unfold recvGetPeersCall
  dsimp only
  rw [hc, ok_bind, if_neg hc0, getPeerBucket_inv hinv hh, ok_bind]
  dsimp only
  split_ifs with hl
  · obtain ⟨r, m', hget⟩ := getPeers_total os hashKey (decodeSrc msg.body) replyTo m
      hm.ip hm.neighbors hs hr
    rw [hget]
    exact ⟨_, _, rfl⟩
  · have hbuf : (answerBytes m.table[homeOf (chars (decodeHash msg.body).mem)].peers).length ≤
        maxPayloadSize := by
      rw [answerBytes_length, PeerBucket.peers_length, sizeofPeer, maxPayloadSize]
      omega
    rw [encodeAnswer, if_pos (by rw [sizeofPeer, maxPayloadSize]; omega), ok_bind,
      replyRpc_total _ _ _ _ _ _ _ hbuf hi]
    exact ⟨_, _, rfl⟩

theorem recvJoinCall_total (os : Os) (hashKey : Bytes idSize) (replyTo : Origin)
    (msg : RpcMsg) (m : Machine) (hinv : TableInv m.table) (hk : Terminated hashKey.mem)
    (hl : m.table[homeOf hashKey.str].len * sizeofPeer * 2 ≤ ptrdiffMax)
    (hi : Terminated msg.correlationId.mem) :
    ∃ m', recvJoinCall os hashKey replyTo msg m =
      .ok (if os.sendto m.sends.length then 0 else 1, m') := by
  unfold recvJoinCall
  dsimp only
  rw [replyRpc_total os .join [] replyTo msg.correlationId .ok m (by simp) hi, ok_bind]
  cases hs : os.sendto m.sends.length with
  | false => exact ⟨_, rfl⟩
  | true =>
    obtain ⟨t, ht⟩ := setPeer_total hinv hk (joinedPeer replyTo) hl
    refine ⟨(m.emit [attempt os m replyTo (replyOf .join [] msg.correlationId .ok)]).setTable t, ?_⟩
    rw [if_pos rfl, if_neg (lt_irrefl 0)]
    change (setPeer m.table hashKey.mem (joinedPeer replyTo) >>= _) = _
    rw [ht]
    rfl

theorem recvGetPeersReply_total (os : Os) (hashKey : Bytes idSize) (msg : RpcMsg) (m : Machine)
    (hm : MachineStrings m) (hinv : TableInv m.table) (hk : Terminated hashKey.mem)
    (hroom : ReplyOk msg →
      (homeLen m.table hashKey + replyCount msg.body) * sizeofPeer * 2 ≤ ptrdiffMax)
    (hc : ReplyOk msg → replyCount msg.body ≤ maxPeerBuckets)
    (hp : ReplyOk msg → ∀ p ∈ replyPeers msg, Terminated p.ip.mem) :
    ∃ r m', recvGetPeersReply os hashKey msg m = .ok (r, m') := by
  unfold recvGetPeersReply
  split_ifs with hs h0
  · exact ⟨_, _, rfl⟩
  · exact ⟨_, _, rfl⟩
  · have hok : ReplyOk msg := not_not.mp hs
    have hcount := hc hok
    obtain ⟨t, ht⟩ := setPeers_key_total hinv hk (replyPeers msg) (by
      rw [replyPeers_length]
      exact hroom hok)
    obtain ⟨hinv', happ⟩ := setPeers_key_ok hinv ht
    have hm' : MachineStrings (m.setTable t) :=
      hm.appended rfl rfl happ (hp hok)
    rw [readPeerBuf, if_pos hcount, ok_bind]
    change ∃ r m', (setPeers m.table ((replyPeers msg).map fun p => (hashKey.mem, p)) >>= _) = _
    rw [ht, ok_bind]
    dsimp only
    change ∃ r m', (getPeerBucket t hashKey.mem >>= _) = _
    rw [getPeerBucket_inv hinv' hk, ok_bind]
    dsimp only
    split_ifs with hcap
    · obtain ⟨m', hj⟩ := joinPeers_total os hashKey (m.setTable t) (homeOf (chars hashKey.mem)) hm'
        (getPeerBucket_inv hinv' hk) (by
          change initialCap ≤ t[homeOf (chars hashKey.mem)].len at hcap
          change t[homeOf (chars hashKey.mem)].len ≠ 0
          rw [initialCap] at hcap
          omega)
      rw [hj]
      exact ⟨_, _, rfl⟩
    · exact ⟨_, _, rfl⟩

/-- The buckets that `recv_rpc` may read for a message: the one asked for, and its own. -/
structure BucketsFit (hashKey : Bytes idSize) (msg : RpcMsg) (m : Machine) : Prop where
  asked : IsCall (decodeHeader msg) .getPeers →
    homeLen m.table (decodeHash (decodeHeader msg).body) ≤ 25
  own : homeLen m.table hashKey ≤ 25

/-- `recv_rpc` returns: neither an exit nor a write outside a buffer is reached. -/
theorem recvRpc_total (os : Os) (hashKey : Bytes idSize) (msgBuffer : RpcMsg) (m : Machine)
    (hm : MachineStrings m) (hinv : TableInv m.table) (hk : Terminated hashKey.mem)
    (hfit : BucketsFit hashKey msgBuffer m) (hmsg : MsgStrings msgBuffer)
    (hc : CountFits msgBuffer) : ∃ r m', recvRpc os hashKey msgBuffer m = .ok (r, m') := by
  have ho : decodeOrigin msgBuffer.origin =
      .ok ⟨ntohs msgBuffer.origin.port, msgBuffer.origin.ip.norm⟩ :=
    decodeOrigin_ok_iff.mpr ⟨hmsg.origin, rfl⟩
  unfold recvRpc
  rw [ho, ok_bind]
  dsimp only
  split_ifs with ht hg hj hg hj
  · obtain ⟨hh, hs⟩ := hmsg.call ⟨ht, hg⟩
    exact recvGetPeersCall_total os hashKey _ _ m hm hinv (hfit.asked ⟨ht, hg⟩)
      (Bytes.terminated_norm hmsg.origin) hmsg.id hh hs
  · have h : m.table[homeOf hashKey.str].len ≤ 25 := hfit.own
    obtain ⟨m', hjoin⟩ := recvJoinCall_total os hashKey
      ⟨ntohs msgBuffer.origin.port, msgBuffer.origin.ip.norm⟩ (decodeHeader msgBuffer) m hinv hk
      (by rw [sizeofPeer, ptrdiffMax]; omega) hmsg.id
    exact ⟨_, m', hjoin⟩
  · exact ⟨_, _, rfl⟩
  · refine recvGetPeersReply_total os hashKey _ m hm hinv hk ?_
      (hc ⟨ht, hg⟩) (hmsg.reply ⟨ht, hg⟩)
    intro hok
    have hcount := hc ⟨ht, hg⟩ hok
    have hown := hfit.own
    rw [maxPeerBuckets] at hcount
    rw [sizeofPeer, ptrdiffMax]
    omega
  · unfold recvJoinReply
    split_ifs <;> exact ⟨_, _, rfl⟩
  · exact ⟨_, _, rfl⟩

end PeerToPeer
