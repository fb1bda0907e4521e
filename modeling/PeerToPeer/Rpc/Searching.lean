import PeerToPeer.Rpc.Emitted

namespace PeerToPeer

open CLib

/-- The hash a search asks for. -/
def askedHash (msg : RpcMsg) : Bytes idSize := decodeHash (decodeHeader msg).body

/-- Who a handler takes for the caller: the origin of the message, its port in host order. -/
def RpcMsg.replyTo (msg : RpcMsg) : Origin := ⟨ntohs msg.origin.port, msg.origin.ip.norm⟩

section SearchCall

variable (os : Os) (hash : Bytes idSize) (src : Origin) (m : Machine)

@[simp] theorem searchCall_isCall : IsCall (decodeHeader (searchCall os hash src m)) .getPeers :=
  (isCall_callOf_iff (by simp)).mpr rfl

theorem searchCall_not_reply : ¬ IsReply (decodeHeader (searchCall os hash src m)) .getPeers :=
  not_isReply_callOf

theorem searchCall_hash : decodeHash (decodeHeader (searchCall os hash src m)).body = hash :=
  decodeHash_searchCall _ _ _ _

theorem searchCall_src :
    decodeSrc (decodeHeader (searchCall os hash src m)).body = ⟨src.port, src.ip.norm⟩ := by
  rw [searchCall, decodeSrc_searchCall, ntohs_htons]

theorem searchCall_src_addr :
    (decodeSrc (decodeHeader (searchCall os hash src m)).body).addr = src.addr := by
  rw [searchCall_src, Origin.addr, Origin.addr, Bytes.str_norm]

theorem searchCall_replyTo : (searchCall os hash src m).replyTo.addr = m.node.addr := by
  show ((m.node.ip.norm.norm.norm).str, ntohs (htons m.node.port)) = m.node.addr
  rw [Bytes.str_norm, Bytes.str_norm, Bytes.str_norm, ntohs_htons, Node.addr]

end SearchCall

theorem Node.origin_addr (n : Node) : n.origin.addr = n.addr := by
  rw [Node.origin, Origin.addr, Node.addr, Bytes.str_norm]

/-- A process names itself in its `JOIN` calls. -/
theorem joinCall_replyTo (n : Node) : (callOf .join [] n.origin).replyTo = n.origin := by
  rw [RpcMsg.replyTo, callOf, ntohs_htons, Bytes.norm_norm, Node.origin, Bytes.norm_norm]

theorem NodeEntry.origin_addr (n : NodeEntry) : n.origin.addr = n.addr := by
  rw [NodeEntry.origin, Origin.addr, NodeEntry.addr, Bytes.str_norm]

theorem searchCall_strings {os : Os} {hash : Bytes idSize} {src : Origin} {m : Machine}
    (hh : Terminated hash.mem) (hs : Terminated src.ip.mem) (hm : Terminated m.node.ip.mem) :
    MsgStrings (searchCall os hash src m) := by
  have hid : Terminated randomValue.mem := by decide
  refine ⟨Bytes.terminated_norm (Bytes.terminated_norm hm), hid, ?_, ?_⟩
  · intro _
    rw [searchCall_hash, searchCall_src]
    exact ⟨hh, Bytes.terminated_norm hs⟩
  · intro hr
    exact absurd hr (searchCall_not_reply os hash src m)

theorem countFits_of_call {msg : RpcMsg} {method : Method} (h : IsCall (decodeHeader msg) method) :
    CountFits msg := fun hr _ => absurd hr h.not_reply

theorem nextHop_mem {neighbors : List NodeEntry} {caller : Addr} {next : NodeEntry}
    (h : nextHop neighbors caller = some next) : next ∈ neighbors ∧ next.addr ≠ caller :=
  ⟨List.mem_of_find?_eq_some h, by simpa using List.find?_some h⟩

theorem nextHop_pos {m : Machine} {caller : Addr} {next : NodeEntry}
    (h : nextHop m.sortedNeighbors.live caller = some next) : 0 < m.sortedNeighbors.len := by
  have hmem := (nextHop_mem h).1
  rw [← GrowArray.live_length]
  exact List.length_pos_of_mem hmem

/-- What a node sends on a search: the same question to the next neighbour, or an answer. -/
def searchOut (os : Os) (hashKey : Bytes idSize) (msg : RpcMsg) (m : Machine) : List Send :=
  if homeLen m.table (askedHash msg) = 0 ∧ 0 < m.sortedNeighbors.len then
    searchSends os hashKey (decodeSrc (decodeHeader msg).body) msg.replyTo m
  else
    [attempt os m (decodeSrc (decodeHeader msg).body)
      (replyOf .getPeers (answerBytes (homePeers m.table (askedHash msg))) msg.correlationId .ok)]

section SearchOut

variable {os : Os} {hashKey : Bytes idSize} {msg : RpcMsg} {m : Machine} {next : NodeEntry}

theorem searchOut_forward (hl : homeLen m.table (askedHash msg) = 0)
    (hn : nextHop m.sortedNeighbors.live msg.replyTo.addr = some next) :
    searchOut os hashKey msg m = [attempt os m next.origin
      (searchCall os hashKey (decodeSrc (decodeHeader msg).body) m)] := by
  rw [searchOut, if_pos ⟨hl, nextHop_pos hn⟩, searchSends_eq, hn]
  rfl

/-- The caller is the only neighbour: the search ends without a word. -/
theorem searchOut_stuck (hl : homeLen m.table (askedHash msg) = 0)
    (h0 : 0 < m.sortedNeighbors.len)
    (hn : nextHop m.sortedNeighbors.live msg.replyTo.addr = none) :
    searchOut os hashKey msg m = [] := by
  rw [searchOut, if_pos ⟨hl, h0⟩, searchSends_eq, hn]
  rfl

end SearchOut

section Handled

variable {os : Os} {hashKey : Bytes idSize} {msg : RpcMsg} {replyTo : Origin} {m m' : Machine}
  {r : Int}

/-- The ways through `recv_rpc` that a search can take. -/
theorem Handled.of_search (hc : IsCall msg .getPeers)
    (h : Handled os hashKey msg replyTo m r m') :
    (getPeerBucket m.table (decodeHash msg.body).mem = .ok none ∧
        m' = m.emit [attempt os m replyTo (replyOf .getPeers [0] msg.correlationId .ok)]) ∨
      ∃ b, getPeerBucket m.table (decodeHash msg.body).mem = .ok (some b) ∧
        ((m.table[b].len = 0 ∧ 0 < m.sortedNeighbors.len ∧
          m' = (m.emit (searchSends os hashKey (decodeSrc msg.body) replyTo m)).setWait true) ∨
        (¬ (m.table[b].len = 0 ∧ 0 < m.sortedNeighbors.len) ∧
          sizeofPeer * m.table[b].len + 1 ≤ maxPayloadSize ∧
          m' = (m.emit [attempt os m (decodeSrc msg.body) (replyOf .getPeers
            (answerBytes m.table[b].peers) msg.correlationId .ok)]).setWait false)) := by
  cases h with
  | otherCall _ hg => exact absurd hc hg
  | otherReply _ ht => exact absurd hc.1 ht
  | badReply hr => exact absurd hr hc.not_reply
  | emptyReply hr => exact absurd hr hc.not_reply
  | joinFailed hj => exact absurd hj hc.method_unique
  | joined _ hj => exact absurd hj hc.method_unique
  | unfiled _ hr => exact absurd hr hc.not_reply
  | stored _ _ hr => exact absurd hr hc.not_reply
  | joining _ _ hr => exact absurd hr hc.not_reply
  | noBucket _ _ hb => exact .inl ⟨hb, rfl⟩
  | forwarded b _ hb hl hn => exact .inr ⟨b, hb, .inl ⟨hl, hn, rfl⟩⟩
  | answered b _ hb hn hf => exact .inr ⟨b, hb, .inr ⟨hn, hf, rfl⟩⟩

/-- A node that has to pass a search on does so, whatever its memory held. -/
theorem Handled.forwards {next : NodeEntry} (hf : Forwards m replyTo msg next)
    (h : Handled os hashKey msg replyTo m r m') :
    m'.sends = m.sends ++ [attempt os m next.origin
      (searchCall os hashKey (decodeSrc msg.body) m)] := by
  obtain ⟨b, hb, hl⟩ := hf.empty
  rcases h.of_search hf.call with ⟨hb', -⟩ | ⟨b', hb', ⟨-, -, rfl⟩ | ⟨hn, -, -⟩⟩
  · cases Except.ok.inj (hb.symm.trans hb')
  · rw [Machine.setWait_sends, Machine.emit_sends, searchSends_eq, hf.next]
    rfl
  · obtain rfl := Option.some.inj (Except.ok.inj (hb.symm.trans hb'))
    exact absurd ⟨hl, nextHop_pos hf.next⟩ hn

/-- The whole effect of a search on a node. -/
theorem recvRpc_search (hinv : TableInv m.table) (hc : IsCall (decodeHeader msg) .getPeers)
    (h : recvRpc os hashKey msg m = .ok (r, m')) :
    m'.table = m.table ∧ m'.sends = m.sends ++ searchOut os hashKey msg m ∧
      homeLen m.table (askedHash msg) ≤ 25 := by
  have home {ob : Option (Fin maxPeerBuckets)}
      (hb : getPeerBucket m.table (decodeHash (decodeHeader msg).body).mem = .ok ob) :
      ob = some (homeOf (askedHash msg).str) := getPeerBucket_ok hinv hb
  rcases (recvRpc_handled h).2.of_search hc with ⟨hb, -⟩ | ⟨b, hb, ⟨hl, hn, rfl⟩ | ⟨hn, hf, rfl⟩⟩
  · cases home hb
  · obtain rfl := Option.some.inj (home hb)
    have hcond : homeLen m.table (askedHash msg) = 0 ∧ 0 < m.sortedNeighbors.len := ⟨hl, hn⟩
    refine ⟨rfl, ?_, hcond.1.trans_le (Nat.zero_le _)⟩
    rw [searchOut, if_pos hcond]
    rfl
  · obtain rfl := Option.some.inj (home hb)
    have hcond : ¬ (homeLen m.table (askedHash msg) = 0 ∧ 0 < m.sortedNeighbors.len) := hn
    have hfits : 40 * homeLen m.table (askedHash msg) + 1 ≤ 1024 := hf
    refine ⟨rfl, ?_, by omega⟩
    rw [searchOut, if_neg hcond]
    rfl

end Handled

end PeerToPeer
