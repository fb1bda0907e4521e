import PeerToPeer.Network.Net
import PeerToPeer.Rpc.Searching

namespace PeerToPeer

open CLib Transition

namespace Net

variable {n : Nat}

/-- What no event changes: the hashes, the addresses and the neighbours. -/
structure SameHosts (s s' : Net n) : Prop where
  hashKey : s'.hashKey = s.hashKey
  ip : ∀ i, (s'.hosts i).node.ip = (s.hosts i).node.ip
  port : ∀ i, (s'.hosts i).node.port = (s.hosts i).node.port
  neighbors : ∀ i, (s'.hosts i).sortedNeighbors = (s.hosts i).sortedNeighbors

theorem SameHosts.refl (s : Net n) : SameHosts s s :=
  ⟨rfl, fun _ => rfl, fun _ => rfl, fun _ => rfl⟩

theorem SameHosts.trans {s s' s'' : Net n} (h : SameHosts s s') (h' : SameHosts s' s'') :
    SameHosts s s'' :=
  ⟨h'.hashKey.trans h.hashKey, fun i => (h'.ip i).trans (h.ip i),
    fun i => (h'.port i).trans (h.port i), fun i => (h'.neighbors i).trans (h.neighbors i)⟩

theorem SameHosts.symm {s s' : Net n} (h : SameHosts s s') : SameHosts s' s :=
  ⟨h.hashKey.symm, fun i => (h.ip i).symm, fun i => (h.port i).symm,
    fun i => (h.neighbors i).symm⟩

theorem SameHosts.addr {s s' : Net n} (h : SameHosts s s') (i : Fin n) : s'.addr i = s.addr i := by
  rw [Net.addr, Net.addr, Node.addr, Node.addr, h.ip, h.port]

theorem moved_sameHosts {s : Net n} {i : Fin n} {m : Machine} {search : Search n}
    {rest : List (Packet n)} (hn : m.sortedNeighbors = (s.hosts i).sortedNeighbors)
    (hip : m.node.ip = (s.hosts i).node.ip) (hport : m.node.port = (s.hosts i).node.port) :
    SameHosts s (s.moved i m search rest) :=
  ⟨rfl, moved_same _ _ _ _ _ (fun x => x.node.ip) hip,
    moved_same _ _ _ _ _ (fun x => x.node.port) hport,
    moved_same _ _ _ _ _ (fun x => x.sortedNeighbors) hn⟩

/-- Everything that one event can do to a network. -/
inductive Stepped (s : Net n) : NetEvent n → Net n → Prop where
  | search (i : Fin n) (hash : Bytes idSize) (os : Os) :
      Stepped s (.search i hash os) (s.moved i ((s.hosts i).emit (searchSends os hash
        (s.hosts i).node.origin (s.hosts i).node.origin (s.hosts i))) ⟨i, hash⟩ s.flight)
  | joins (e : NetEvent n) (i : Fin n) (out : List Send) (he : e.Joins)
      (hq : ∀ x ∈ out, Quiet x.msg) :
      Stepped s e (s.moved i ((s.hosts i).emit out) ⟨i, s.hashKey i⟩ s.flight)
  | deliver (k : Nat) (j : Fin n) (dup : Bool) (os : Os) (p : Packet n) (r : Int) (m : Machine)
      (hp : s.flight[k]? = some p) (hd : p.dest.addr = s.addr j)
      (hm : recvRpc os (s.hashKey j) p.msg (s.hosts j) = .ok (r, m)) :
      Stepped s (.deliver k j dup os)
        (s.moved j m p.search (if dup then s.flight else s.flight.eraseIdx k))
  | lose (k : Nat) (hk : k < s.flight.length) :
      Stepped s (.lose k) { s with flight := s.flight.eraseIdx k }

/-- The inversion rule of `step`. -/
theorem step_inv {s s' : Net n} {e : NetEvent n} (h : s.step e = some s') : Stepped s e s' := by
  cases e with
  | search i hash os =>
    obtain ⟨r, m, hm, rfl⟩ := step_search.mp h
    obtain rfl := getPeers_ok hm
    exact .search i hash os
  | timeout i os =>
    obtain ⟨m, hm, rfl⟩ := step_timeout.mp h
    obtain ⟨ps, -, rfl⟩ := joinPeers_calls hm
    exact .joins _ i _ trivial quiet_joinSends
  | join i dest os =>
    obtain ⟨r, m, hm, rfl⟩ := step_join.mp h
    obtain rfl := callRpc_ok hm
    refine .joins _ i _ trivial ?_
    intro x hx
    obtain rfl := List.mem_singleton.mp hx
    exact quiet_callOf_join _
  | deliver k j dup os =>
    obtain ⟨p, hp, hd, r, m, hm, rfl⟩ := step_deliver.mp h
    exact .deliver k j dup os p r m hp hd hm
  | lose k =>
    obtain ⟨hk, rfl⟩ := step_lose.mp h
    exact .lose k hk

theorem mem_moved_flight {s : Net n} {i : Fin n} {m : Machine} {search : Search n}
    {rest : List (Packet n)} {out : List Send} {p : Packet n}
    (hm : m.sends = (s.hosts i).sends ++ out) (hp : p ∈ (s.moved i m search rest).flight) :
    p ∈ rest ∨ p ∈ sentPackets search out := by
  rw [moved_flight _ _ _ _ _ hm] at hp
  exact List.mem_append.mp hp

/-- Where a datagram that an event adds comes from. -/
inductive Fresh (s : Net n) : NetEvent n → Packet n → Prop where
  | started (i : Fin n) (hash : Bytes idSize) (os : Os) (next : NodeEntry)
      (hn : nextHop (s.hosts i).sortedNeighbors.live (s.hosts i).node.origin.addr = some next) :
      Fresh s (.search i hash os)
        ⟨next.origin, searchCall os hash (s.hosts i).node.origin (s.hosts i), ⟨i, hash⟩⟩
  | quiet (e : NetEvent n) (p : Packet n) (hq : Quiet p.msg) : Fresh s e p
  | forwarded (k : Nat) (q : Packet n) (hq : s.flight[k]? = some q) (j : Fin n)
      (hj : q.dest.addr = s.addr j) (dup : Bool) (os : Os) (next : NodeEntry)
      (hf : Forwards (s.hosts j) q.msg.replyTo (decodeHeader q.msg) next) :
      Fresh s (.deliver k j dup os)
        ⟨next.origin, searchCall os (s.hashKey j) (decodeSrc (decodeHeader q.msg).body)
          (s.hosts j), q.search⟩
  | answered (k : Nat) (q : Packet n) (hq : s.flight[k]? = some q) (j : Fin n) (dup : Bool)
      (os : Os) (b : Fin maxPeerBuckets) (ha : Answers (s.hosts j) (decodeHeader q.msg) b) :
      Fresh s (.deliver k j dup os)
        ⟨decodeSrc (decodeHeader q.msg).body, replyOf .getPeers
          (answerBytes (s.hosts j).table[b].peers) q.msg.correlationId .ok, q.search⟩

theorem fresh_of_search {s : Net n} {i : Fin n} {hash : Bytes idSize} {os : Os} {p : Packet n}
    (hp : p ∈ sentPackets ⟨i, hash⟩ (searchSends os hash (s.hosts i).node.origin
      (s.hosts i).node.origin (s.hosts i))) : Fresh s (.search i hash os) p := by
  obtain ⟨hs, x, hx, hd, hmsg⟩ := mem_sentPackets hp
  obtain ⟨dest, msg, search⟩ := p
  simp only at hs hd hmsg
  subst hs hd hmsg
  rw [searchSends_eq] at hx
  obtain ⟨next, hnext, rfl⟩ := Option.map_eq_some_iff.mp (Option.mem_toList.mp hx)
  exact .started i hash os next hnext

theorem fresh_of_quiet {s : Net n} {e : NetEvent n} {search : Search n} {out : List Send}
    {p : Packet n} (hq : ∀ x ∈ out, Quiet x.msg) (hp : p ∈ sentPackets search out) :
    Fresh s e p := by
  obtain ⟨-, x, hx, -, hmsg⟩ := mem_sentPackets hp
  exact .quiet e p (hmsg ▸ hq x hx)

theorem fresh_of_emitted {s : Net n} {k : Nat} {q : Packet n} {j : Fin n} {dup : Bool} {os : Os}
    {out : List Send} (hq : s.flight[k]? = some q) (hj : q.dest.addr = s.addr j)
    (h : Emitted os (s.hashKey j) (decodeHeader q.msg) q.msg.replyTo (s.hosts j) out)
    {p : Packet n} (hp : p ∈ sentPackets q.search out) : Fresh s (.deliver k j dup os) p := by
  cases h with
  | quiet _ hquiet => exact fresh_of_quiet hquiet hp
  | forwarded next hf =>
    obtain ⟨hs, x, hx, hd, hm⟩ := mem_sentPackets hp
    obtain rfl := List.mem_singleton.mp hx
    obtain ⟨dest, msg, search⟩ := p
    simp only at hs hd hm
    subst hs hd hm
    exact .forwarded k q hq j hj dup os next hf
  | answered b ha =>
    obtain ⟨hs, x, hx, hd, hm⟩ := mem_sentPackets hp
    obtain rfl := List.mem_singleton.mp hx
    obtain ⟨dest, msg, search⟩ := p
    simp only at hs hd hm
    subst hs hd hm
    exact .answered k q hq j dup os b ha

/-- What one event can do: hosts keep their place, and every datagram in flight afterwards
was there before or is fresh. -/
theorem step_flight {s s' : Net n} {e : NetEvent n} (h : s.step e = some s') :
    SameHosts s s' ∧ ∀ p ∈ s'.flight, p ∈ s.flight ∨ Fresh s e p := by
  cases step_inv h with
  | search i hash os =>
    refine ⟨moved_sameHosts rfl rfl rfl, ?_⟩
    intro p hp
    exact (mem_moved_flight rfl hp).imp_right fresh_of_search
  | joins _ i out _ hq =>
    refine ⟨moved_sameHosts rfl rfl rfl, ?_⟩
    intro p hp
    exact (mem_moved_flight rfl hp).imp_right (fresh_of_quiet hq)
  | deliver k j dup os q r m hq hd hm =>
    obtain ⟨hn, hip, hport⟩ := recvRpc_keeps hm
    obtain ⟨out, hout, hemit⟩ := (recvRpc_handled hm).2.emitted
    refine ⟨moved_sameHosts hn hip hport, ?_⟩
    intro p hp
    rcases mem_moved_flight hout hp with hp | hp
    · left
      split_ifs at hp
      · exact hp
      · exact List.mem_of_mem_eraseIdx hp
    · exact .inr (fresh_of_emitted hq hd hemit hp)
  | lose k hk =>
    exact ⟨⟨rfl, fun _ => rfl, fun _ => rfl, fun _ => rfl⟩,
      fun p hp => .inl (List.mem_of_mem_eraseIdx hp)⟩

theorem run_sameHosts {s s' : Net n} {events : List (NetEvent n)}
    (h : run step s events = some s') : SameHosts s s' :=
  run_induction (P := fun _ => True) (SameHosts s)
    (fun _ _ _ hsame _ hstep => hsame.trans (step_flight hstep).1) (SameHosts.refl s)
    (fun _ _ => trivial) h

end Net

end PeerToPeer
