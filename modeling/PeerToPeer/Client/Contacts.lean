import PeerToPeer.Client.Joining

namespace PeerToPeer

open CLib Transition

/-- The message tells its receiver of a peer at this address: its caller joins, or it lists the
peer as an answer. -/
inductive Names (msg : RpcMsg) : Addr → Prop where
  | caller (hc : IsCall (decodeHeader msg) .join) : Names msg msg.replyTo.addr
  | listed (p : Peer) (hr : IsReply (decodeHeader msg) .getPeers) (hs : ReplyOk (decodeHeader msg))
      (hp : p ∈ replyPeers (decodeHeader msg)) : Names msg p.addr

/-- What entitles the client to a send attempt: a search goes to a neighbour, a list of peers to the
source of a search that was heard, under the id of that call, a `JOIN` reply to a caller that joins,
and a `JOIN` call to a peer that a message told of. -/
inductive Warranted (neighbors : List NodeEntry) (heard : RpcMsg → Prop) (x : Send) : Prop where
  | search (n : NodeEntry) (hn : n ∈ neighbors) (hd : x.dest.addr = n.addr)
      (hx : IsCall (decodeHeader x.msg) .getPeers)
  | answer (msg : RpcMsg) (hm : heard msg) (hc : IsCall (decodeHeader msg) .getPeers)
      (hd : x.dest.addr = (decodeSrc (decodeHeader msg).body).addr) (ps : List Peer)
      (hx : x.msg = replyOf .getPeers (answerBytes ps) msg.correlationId .ok)
  | welcome (msg : RpcMsg) (hm : heard msg) (hc : IsCall (decodeHeader msg) .join)
      (hd : x.dest.addr = msg.replyTo.addr)
      (hx : x.msg = replyOf .join [] msg.correlationId .ok)
  | join (msg : RpcMsg) (hm : heard msg) (hn : Names msg x.dest.addr)
      (hx : IsCall (decodeHeader x.msg) .join)

/-- Some message that was heard tells of every peer in the table. -/
def Told (heard : RpcMsg → Prop) (t : PeerTable) : Prop :=
  ∀ (b : Fin maxPeerBuckets) (p : Peer), p ∈ t[b].peers → ∃ msg, heard msg ∧ Names msg p.addr

theorem names_of_stored {msg : RpcMsg} {sent : Bool} {p : Peer}
    (h : p ∈ storedPeers sent msg.replyTo (decodeHeader msg)) : Names msg p.addr := by
  unfold storedPeers at h
  split_ifs at h with hj hs hr
  · obtain rfl := List.mem_singleton.mp h
    exact .caller hj
  · simp at h
  · exact .listed p hr.1 hr.2 h
  · simp at h

theorem mem_joinSends {os : Os} {host : Origin} {k : Nat} {ps : List Peer} {x : Send}
    (h : x ∈ joinSends os host k ps) :
    IsCall (decodeHeader x.msg) .join ∧ ∃ p ∈ ps, x.dest.addr = p.addr := by
  induction ps generalizing k with
  | nil => simp [joinSends] at h
  | cons p ps ih =>
    rcases List.mem_cons.mp h with rfl | h
    · exact ⟨(isCall_callOf_iff (Nat.zero_le _)).mpr rfl, p, List.mem_cons_self, p.origin_addr⟩
    · obtain ⟨hx, q, hq, hd⟩ := ih h
      exact ⟨hx, q, List.mem_cons_of_mem p hq, hd⟩

section Sends

variable {neighbors : List NodeEntry} {heard : RpcMsg → Prop} {os : Os}

/-- Peers that the client was told of may be called to join. -/
theorem warranted_joins {host : Origin} {k : Nat} {t : PeerTable} {ps : List Peer}
    (ht : Told heard t) (hps : ∀ p ∈ ps, ∃ b : Fin maxPeerBuckets, p ∈ t[b].peers) :
    ∀ x ∈ joinSends os host k ps, Warranted neighbors heard x := by
  intro x hx
  obtain ⟨hjoin, p, hp, hd⟩ := mem_joinSends hx
  obtain ⟨b, hb⟩ := hps p hp
  obtain ⟨msg, hm, hn⟩ := ht b p hb
  exact .join msg hm (hd ▸ hn) hjoin

theorem warranted_search {hash : Bytes idSize} {src replyTo : Origin} {m : Machine}
    (hn : m.sortedNeighbors.live = neighbors) :
    ∀ x ∈ searchSends os hash src replyTo m, Warranted neighbors heard x := by
  intro x hx
  rw [searchSends_eq] at hx
  obtain ⟨next, hnext, rfl⟩ := Option.map_eq_some_iff.mp (Option.mem_toList.mp hx)
  exact .search next (hn ▸ (nextHop_mem hnext).1) next.origin_addr (searchCall_isCall _ _ _ _)

/-- Every send attempt of a handled message is warranted by that message, or by those that told of
the peers. -/
theorem Handled.warranted {hashKey : Bytes idSize} {msg : RpcMsg} {m m' : Machine} {r : Int}
    (hinv : TableInv m.table) (hn : m.sortedNeighbors.live = neighbors) (hm : heard msg)
    (ht : Told heard m'.table) (h : Handled os hashKey (decodeHeader msg) msg.replyTo m r m') :
    ∃ out, m'.sends = m.sends ++ out ∧ ∀ x ∈ out, Warranted neighbors heard x := by
  have silent : ∃ out, m.sends = m.sends ++ out ∧ ∀ x ∈ out, Warranted neighbors heard x :=
    ⟨[], (List.append_nil _).symm, by simp⟩
  have single {x : Send} (hx : Warranted neighbors heard x) :
      ∀ y ∈ [x], Warranted neighbors heard y := by
    intro y hy
    obtain rfl := List.mem_singleton.mp hy
    exact hx
  cases h with
  | otherCall => exact silent
  | otherReply => exact silent
  | badReply => exact silent
  | emptyReply => exact silent
  | unfiled => exact silent
  | stored => exact silent
  | noBucket _ _ hb => cases getPeerBucket_ok hinv hb
  | forwarded b hc hb hl hpos => exact ⟨_, rfl, warranted_search hn⟩
  | answered b hc => exact ⟨_, rfl, single (.answer msg hm hc rfl _ rfl)⟩
  | joinFailed hc => exact ⟨_, rfl, single (.welcome msg hm hc rfl rfl)⟩
  | joined t hc => exact ⟨_, rfl, single (.welcome msg hm hc rfl rfl)⟩
  | joining t b => exact ⟨_, rfl, warranted_joins ht fun p hp => ⟨b, hp⟩⟩

end Sends

/-- What holds of a client that contacts nobody on its own account. -/
structure Wary (neighbors : List NodeEntry) (heard : RpcMsg → Prop) (before : List Send)
    (c : Client) : Prop where
  table : TableInv c.machine.table
  live : c.machine.sortedNeighbors.live = neighbors
  told : Told heard c.machine.table
  sends : ∀ x ∈ c.machine.sends, x ∈ before ∨ Warranted neighbors heard x

theorem Wary.sends_append {neighbors : List NodeEntry} {heard : RpcMsg → Prop}
    {before out : List Send} {c : Client} {m : Machine} (h : Wary neighbors heard before c)
    (hsends : m.sends = c.machine.sends ++ out) (hout : ∀ x ∈ out, Warranted neighbors heard x) :
    ∀ x ∈ m.sends, x ∈ before ∨ Warranted neighbors heard x := by
  intro x hx
  rw [hsends] at hx
  rcases List.mem_append.mp hx with hx | hx
  · exact h.sends x hx
  · exact .inr (hout x hx)

section Step

variable {neighbors : List NodeEntry} {heard : RpcMsg → Prop} {before : List Send}
  {hashKey : Bytes idSize} {c c' : Client}

theorem Wary.timeout {os : Os} (h : Wary neighbors heard before c)
    (hstep : clientStep hashKey c (.timeout os) = some c') : Wary neighbors heard before c' := by
  obtain ⟨-, m, hjoin, rfl⟩ := clientStep_timeout.mp hstep
  obtain ⟨ps, hps, rfl⟩ := joinPeers_calls hjoin
  exact ⟨h.table, h.live, h.told, h.sends_append rfl (warranted_joins h.told hps)⟩

theorem Wary.recv {os : Os} {msg : RpcMsg} (h : Wary neighbors heard before c) (hm : heard msg)
    (hstep : clientStep hashKey c (.recv os msg) = some c') : Wary neighbors heard before c' := by
  obtain ⟨r, m, hrecv, rfl⟩ := clientStep_recv.mp hstep
  obtain ⟨htable, happ⟩ := recvRpc_appended h.table hrecv
  have htold : Told heard m.table := by
    intro b p hp
    by_cases hb : b = homeOf hashKey.str
    · subst hb
      rw [happ.home] at hp
      rcases List.mem_append.mp hp with hp | hp
      · exact h.told _ p hp
      · exact ⟨msg, hm, names_of_stored hp⟩
    · rw [happ.other b hb] at hp
      exact h.told b p hp
  obtain ⟨out, hsends, hout⟩ :=
    (recvRpc_handled hrecv).2.warranted h.table h.live hm htold
  refine ⟨htable, ?_, htold, h.sends_append hsends hout⟩
  show m.sortedNeighbors.live = neighbors
  rw [(recvRpc_keeps hrecv).1, h.live]

end Step

/-- The message was received. -/
def Received (events : List ClientEvent) (msg : RpcMsg) : Prop := ∃ os, .recv os msg ∈ events

/-- Whatever datagrams arrive, and in whatever order: every attempt that the client makes to send
something, after those it came with, is warranted by its neighbours or by a message that it
received. -/
theorem sends_warranted (hashKey : Bytes idSize) (c₀ c : Client) (events : List ClientEvent)
    (hstart : c₀.Started) (hrun : run (clientStep hashKey) c₀ events = some c) :
    ∀ x ∈ c.machine.sends, x ∈ c₀.machine.sends ∨
      Warranted c₀.machine.sortedNeighbors.live (Received events) x := by
  let Inv := Wary c₀.machine.sortedNeighbors.live (Received events) c₀.machine.sends
  have hinit : Inv c₀ := by
    refine ⟨hstart.table ▸ initPeerTable_inv, rfl, ?_, fun x hx => .inl hx⟩
    intro b p hp
    rw [hstart.table, initPeerTable_peers] at hp
    simp at hp
  have hstep : ∀ s e s', Inv s → e ∈ events → clientStep hashKey s e = some s' → Inv s' := by
    intro s e s' hs he h
    cases e with
    | timeout os => exact hs.timeout h
    | recv os msg => exact hs.recv ⟨os, he⟩ h
  exact (run_induction Inv hstep hinit (fun _ he => he) hrun).sends

/-- A client without neighbours answers another node's search. -/
theorem newClient_answers : ∃ c x, clientStep fileHash newClient (.recv sendingOs askMsg) = some c ∧
    c.machine.sends = [x] := by
  have hhash : Terminated fileHash.mem := by decide
  have hcall : IsCall (decodeHeader askMsg) .getPeers := searchCall_isCall _ _ _ _
  have hstrings : MsgStrings askMsg := searchCall_strings hhash (by decide) (by decide)
  have hfit (b : Fin maxPeerBuckets) : newClient.machine.table[b].len ≤ 25 :=
    (initPeerTable_len _ b).trans_le (Nat.zero_le 25)
  obtain ⟨r, m, hm⟩ := recvRpc_total sendingOs fileHash askMsg newClient.machine
    newClient_inv.strings newClient_inv.table hhash ⟨fun _ => hfit _, hfit _⟩ hstrings
    (countFits_of_call hcall)
  obtain ⟨-, hsends, -⟩ := recvRpc_search newClient_inv.table hcall hm
  have halone : ¬ 0 < newClient.machine.sortedNeighbors.len := Nat.lt_irrefl 0
  rw [searchOut, if_neg fun h => halone h.2] at hsends
  exact ⟨_, _, clientStep_recv.mpr ⟨r, m, hm, rfl⟩, hsends⟩

theorem sends_warranted_ask : ∃ c x,
    run (clientStep fileHash) newClient [.recv sendingOs askMsg] = some c ∧
      c.machine.sends = [x] ∧ Warranted [] (Received [.recv sendingOs askMsg]) x := by
  obtain ⟨c, x, hstep, hsends⟩ := newClient_answers
  have hrun : run (clientStep fileHash) newClient [.recv sendingOs askMsg] = some c :=
    run_cons.mpr ⟨c, hstep, rfl⟩
  have hwarrant := sends_warranted fileHash newClient c _ newClient_started hrun x
    (hsends ▸ List.mem_singleton_self x)
  exact ⟨c, x, hrun, hsends, hwarrant.resolve_left (by simp [newClient, aloneNode])⟩

end PeerToPeer
