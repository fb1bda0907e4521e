import PeerToPeer.Client.Loop
import PeerToPeer.Network.Ledger
import PeerToPeer.Network.Survival

namespace PeerToPeer

open CLib Transition

/-- The event delivers a datagram once, and the socket takes the answer. -/
def NetEvent.DeliversOnce {n : Nat} : NetEvent n → Prop
  | deliver _ _ dup os => dup = false ∧ ∀ k, os.sendto k = true
  | _ => False

section Handlers

variable {os : Os} {hashKey : Bytes idSize} {msg : RpcMsg} {replyTo : Origin} {m m' : Machine}
  {r : Int}

/-- A `JOIN` call is answered. -/
theorem Handled.of_join (hc : IsCall msg .join) (hs : os.sendto m.sends.length = true)
    (h : Handled os hashKey msg replyTo m r m') :
    m'.sends = m.sends ++ [attempt os m replyTo (replyOf .join [] msg.correlationId .ok)] := by
  cases h with
  | otherCall ht hg hj => exact absurd hc hj
  | otherReply _ ht => exact absurd hc.1 ht
  | badReply hr => exact absurd hc.1 hr.1
  | emptyReply hr => exact absurd hc.1 hr.1
  | noBucket _ hg => exact absurd hc hg.method_unique
  | forwarded _ hg => exact absurd hc hg.method_unique
  | answered _ hg => exact absurd hc hg.method_unique
  | joinFailed _ hf =>
    rw [hs] at hf
    cases hf
  | joined => rfl
  | unfiled _ hr => exact absurd hc.1 hr.1
  | stored _ _ hr => exact absurd hc.1 hr.1
  | joining _ _ hr => exact absurd hc.1 hr.1

/-- The answer to a `JOIN` call changes nothing. -/
theorem Handled.of_joinReply (hg : ¬ IsCall msg .getPeers) (hj : ¬ IsCall msg .join)
    (hr : ¬ IsReply msg .getPeers) (h : Handled os hashKey msg replyTo m r m') : m' = m := by
  cases h with
  | otherCall => rfl
  | otherReply => rfl
  | badReply hr' => exact absurd hr' hr
  | emptyReply hr' => exact absurd hr' hr
  | noBucket _ hg' => exact absurd hg' hg
  | forwarded _ hg' => exact absurd hg' hg
  | answered _ hg' => exact absurd hg' hg
  | joinFailed hj' => exact absurd hj' hj
  | joined _ hj' => exact absurd hj' hj
  | unfiled _ hr' => exact absurd hr' hr
  | stored _ _ hr' => exact absurd hr' hr
  | joining _ _ hr' => exact absurd hr' hr

end Handlers

theorem news_joinCall (n : Node) : (callOf .join [] n.origin).news = [joinedPeer n.origin] := by
  have hcall : IsCall (decodeHeader (callOf .join [] n.origin)) .join :=
    (isCall_callOf_iff (Nat.zero_le _)).mpr rfl
  rw [RpcMsg.news, storedPeers_join hcall, if_pos rfl, joinCall_replyTo]

theorem news_joinReply (id : Bytes correlationIdSize) :
    (replyOf .join [] id .ok).news = [] := by
  refine storedPeers_other not_isCall_replyOf ?_
  intro hr
  cases isReply_replyOf_iff.mp hr.1

theorem joinSends_eq {os : Os} (hos : ∀ k, os.sendto k = true) (host : Origin) (k : Nat)
    (ps : List Peer) :
    joinSends os host k ps = ps.map fun p => ⟨p.origin, callOf .join [] host, true⟩ := by
  induction ps generalizing k with
  | nil => rfl
  | cons p ps ih => rw [joinSends, hos, ih, List.map_cons]

/-- Each peer at an address is told of the caller once. -/
theorem postedTo_joinSends {os : Os} (hos : ∀ k, os.sendto k = true) (a : Addr) (n : Node) (k : Nat)
    (ps : List Peer) : postedTo a (joinSends os n.origin k ps) =
      List.replicate (ps.countP fun p => p.addr = a) (joinedPeer n.origin) := by
  have hall : postedTo a (joinSends os n.origin k ps) =
      ps.flatMap fun p => if p.addr = a then [joinedPeer n.origin] else [] := by
    simp [joinSends_eq hos, postedTo, newsFor, news_joinCall, Peer.origin_addr, List.flatMap_map,
      List.filter_map, Function.comp_def]
  rw [hall]
  clear hall
  induction ps with
  | nil => rfl
  | cons p ps ih =>
    rw [List.flatMap_cons, ih]
    by_cases hp : p.addr = a
    · rw [if_pos hp, List.countP_cons_of_pos (by simpa using hp), List.replicate_succ]
      rfl
    · rw [if_neg hp, List.countP_cons_of_neg (by simpa using hp), List.nil_append]

/-- A call counts for itself and for its answer. -/
def Packet.weight {n : Nat} (p : Packet n) : Nat :=
  if IsCall (decodeHeader p.msg) .join then 2 else 1

theorem Packet.weight_call {n : Nat} {p : Packet n} {node : Node}
    (h : p.msg = callOf .join [] node.origin) : p.weight = 2 := by
  rw [weight, h]
  exact if_pos ((isCall_callOf_iff (Nat.zero_le _)).mpr rfl)

theorem Packet.weight_reply {n : Nat} {p : Packet n} {id : Bytes correlationIdSize}
    (h : p.msg = replyOf .join [] id .ok) : p.weight = 1 := by
  rw [weight, h]
  exact if_neg not_isCall_replyOf

namespace Net

variable {n : Nat}

theorem sentPackets_joinSends {os : Os} (hos : ∀ k, os.sendto k = true) (search : Search n)
    (host : Origin) (k : Nat) (ps : List Peer) : sentPackets search (joinSends os host k ps) =
      ps.map fun p => ⟨p.origin, callOf .join [] host, search⟩ := by
  simp [joinSends_eq hos, sentPackets, List.filter_map, Function.comp_def]

theorem weight_joinSends {os : Os} (hos : ∀ k, os.sendto k = true) (search : Search n)
    (node : Node) (k : Nat) (ps : List Peer) :
    ((sentPackets search (joinSends os node.origin k ps)).map Packet.weight).sum =
      2 * ps.length := by
  rw [sentPackets_joinSends hos]
  induction ps with
  | nil => rfl
  | cons p ps ih =>
    have hcall (dest : Origin) :
        Packet.weight ⟨dest, callOf .join [] node.origin, search⟩ = 2 := Packet.weight_call rfl
    rw [List.map_cons, List.map_cons, List.sum_cons, ih, hcall, List.length_cons]
    omega

/-- A datagram of a round of joins: a `JOIN` call of process `i` to one of the peers, or the
answer to one. -/
inductive RoundPacket (s : Net n) (i : Fin n) (ps : List Peer) (p : Packet n) : Prop where
  | call (peer : Peer) (hp : peer ∈ ps) (hd : p.dest = peer.origin)
      (hmsg : p.msg = callOf .join [] (s.hosts i).node.origin)
  | reply (id : Bytes correlationIdSize) (hid : Terminated id.mem) (hd : p.dest.addr = s.addr i)
      (hmsg : p.msg = replyOf .join [] id .ok)

theorem RoundPacket.readable {s : Net n} {i : Fin n} {ps : List Peer} {p : Packet n}
    (hs : s.Sound) (h : RoundPacket s i ps p) : Readable p.msg := by
  cases h with
  | call peer hp hd hmsg =>
    rw [hmsg]
    exact readable_joinCall (Bytes.terminated_norm (hs.strings i).ip)
  | reply id hid hd hmsg =>
    rw [hmsg]
    exact readable_joinReply hid

/-- The deliveries that the datagrams in flight can lead to. -/
def weight (s : Net n) : Nat := (s.flight.map Packet.weight).sum

theorem weight_eraseIdx {s : Net n} {k : Nat} {p : Packet n} (hp : s.flight[k]? = some p) :
    ((s.flight.eraseIdx k).map Packet.weight).sum + p.weight = s.weight := by
  obtain ⟨hlt, rfl⟩ := List.getElem?_eq_some_iff.mp hp
  have hperm := ((List.getElem_cons_eraseIdx_perm hlt).map Packet.weight).sum_eq
  rw [List.map_cons, List.sum_cons] at hperm
  rw [weight, ← hperm, Nat.add_comm]

/-- The peer that process `i` is listed as. -/
def self (s : Net n) (i : Fin n) : Peer := joinedPeer (s.hosts i).node.origin

/-- A round of joins of process `i`, on its way from `s`: each process has been told of `i`, or is
being told, once for each time that the list names it. -/
structure Round (s : Net n) (i : Fin n) (ps : List Peer) (t : Net n) : Prop where
  same : SameHosts s t
  sound : t.Sound
  flight : ∀ p ∈ t.flight, RoundPacket s i ps p
  grown : ∀ q, homePeers (s.hosts q).table (s.hashKey q) <+:
    homePeers (t.hosts q).table (s.hashKey q)
  told : ∀ q, (homePeers (t.hosts q).table (s.hashKey q) : Multiset Peer) + t.due q t.flight =
    homePeers (s.hosts q).table (s.hashKey q) +
      Multiset.replicate (ps.countP fun p => p.addr = s.addr q) (s.self i)

/-- A datagram of a round is answered by one that counts less, or by none. -/
theorem RoundPacket.handled {s t : Net n} {i q : Fin n} {ps : List Peer} {p : Packet n} {os : Os}
    {r : Int} {m : Machine} (hs : s.Sound) (hos : ∀ k, os.sendto k = true)
    (hp : RoundPacket s i ps p)
    (hm : recvRpc os (t.hashKey q) p.msg (t.hosts q) = .ok (r, m)) :
    ∃ out, m.sends = (t.hosts q).sends ++ out ∧ (∀ a, postedTo a out = []) ∧
      (∀ x ∈ sentPackets p.search out, RoundPacket s i ps x) ∧
      ((sentPackets p.search out).map Packet.weight).sum < p.weight := by
  have hread := hp.readable hs
  obtain ⟨-, hh⟩ := recvRpc_handled hm
  cases hp with
  | call peer hpeer hd hmsg =>
    have hcall : IsCall (decodeHeader p.msg) .join := by
      rw [hmsg]
      exact (isCall_callOf_iff (Nat.zero_le _)).mpr rfl
    have hreplyTo : p.msg.replyTo.addr = s.addr i := by
      rw [hmsg, joinCall_replyTo]
      exact Node.origin_addr _
    refine ⟨_, hh.of_join hcall (hos _), ?_, ?_, ?_⟩
    · intro a
      simp [postedTo, attempt, newsFor, news_joinReply]
    · intro x hx
      rw [sentPackets_attempt hos] at hx
      obtain rfl := List.mem_singleton.mp hx
      exact .reply _ hread.strings.id hreplyTo rfl
    · rw [sentPackets_attempt hos, p.weight_call hmsg, List.map_singleton, List.sum_singleton,
        Packet.weight_reply rfl]
      decide
  | reply id hid hd hmsg =>
    have hsilent : m = t.hosts q := by
      rw [hmsg] at hh
      exact hh.of_joinReply not_isCall_replyOf not_isCall_replyOf
        (fun hr => by cases isReply_replyOf_iff.mp hr)
    refine ⟨[], by rw [hsilent, List.append_nil], fun _ => rfl, by simp [sentPackets], ?_⟩
    rw [p.weight_reply hmsg]
    exact Nat.zero_lt_one

/-- One delivery of a round. -/
theorem Round.step {s t t' : Net n} {i : Fin n} {ps : List Peer} {e : NetEvent n}
    (hs : s.Sound) (hr : Round s i ps t) (he : e.DeliversOnce) (h : t.step e = some t') :
    Round s i ps t' ∧ t'.weight < t.weight := by
  cases e with
  | search _ _ _ => exact he.elim
  | timeout _ _ => exact he.elim
  | join _ _ _ => exact he.elim
  | lose _ => exact he.elim
  | deliver k q dup os =>
    obtain ⟨rfl, hos⟩ := he
    have hsame := (step_flight h).1
    have hsound := hr.sound.step (fun p hp => ((hr.flight p hp).readable hs).strings) h
    obtain ⟨p, hp, hd, r, m, hm, rfl⟩ := step_deliver.mp h
    obtain ⟨out, hout, hposted, hfresh, hweight⟩ :=
      (hr.flight p (List.mem_of_getElem? hp)).handled hs hos hm
    have hflight := moved_flight t q m p.search (t.flight.eraseIdx k) hout
    refine ⟨⟨hr.same.trans hsame, hsound, ?_, ?_, ?_⟩, ?_⟩
    · intro x hx
      rcases List.mem_append.mp (hflight ▸ hx) with hx | hx
      · exact hr.flight x (List.mem_of_mem_eraseIdx hx)
      · exact hfresh x hx
    · intro q'
      have hgrown := (step_appended hr.sound.tables h q').2.home
      rw [hr.same.hashKey] at hgrown
      exact (hr.grown q').trans ⟨_, hgrown.symm⟩
    · intro q'
      have hbalance := step_balance (e := .deliver k q false os) hr.sound.tables
        hr.sound.distinct hos h q'
      rw [posted_moved hout hsame, hposted, hr.same.hashKey] at hbalance
      simp only [lost, repeated, Bool.false_eq_true, if_false, Multiset.coe_nil, add_zero]
        at hbalance
      rw [← hr.told q']
      exact add_right_cancel hbalance
    · have hsum := weight_eraseIdx hp
      have hadd : (t.moved q m p.search (t.flight.eraseIdx k)).weight =
          ((t.flight.eraseIdx k).map Packet.weight).sum +
            ((sentPackets p.search out).map Packet.weight).sum := by
        rw [weight, hflight, List.map_append, List.sum_append]
      rw [if_neg (by decide), hadd]
      omega

/-- The peers of a process's own file. -/
def listed (s : Net n) (i : Fin n) : List Peer := homePeers (s.hosts i).table (s.hashKey i)

/-- At a timeout a process calls all peers of its list. -/
theorem timeout_calls {s s₁ : Net n} {i : Fin n} {os : Os} (hs : s.Sound)
    (h : s.step (.timeout i os) = some s₁) :
    s₁ = s.moved i ((s.hosts i).emit (joinSends os (s.hosts i).node.origin
      (s.hosts i).sends.length (s.listed i))) ⟨i, s.hashKey i⟩ s.flight := by
  obtain ⟨m, hm, rfl⟩ := step_timeout.mp h
  have hbucket := getPeerBucket_inv (hs.tables i) (hs.keys i)
  rcases joinPeers_ok hm with ⟨hnone, -⟩ | ⟨b, hb, hcases⟩
  · cases hbucket.symm.trans hnone
  · obtain rfl := Option.some.inj (Except.ok.inj (hbucket.symm.trans hb))
    rcases hcases with ⟨-, hexit, -⟩ | ⟨-, -, rfl⟩
    · exact absurd hexit (by decide)
    · rfl

theorem Round.start {s s₁ : Net n} {i : Fin n} {os : Os} (hs : s.Sound) (hflight : s.flight = [])
    (hos : ∀ k, os.sendto k = true) (h : s.step (.timeout i os) = some s₁) :
    Round s i (s.listed i) s₁ ∧ s₁.weight = 2 * (s.listed i).length := by
  have hsame := (step_flight h).1
  obtain rfl := timeout_calls hs h
  have htab (q : Fin n) := moved_same s i ((s.hosts i).emit (joinSends os (s.hosts i).node.origin
    (s.hosts i).sends.length (s.listed i))) ⟨i, s.hashKey i⟩ s.flight Machine.table rfl q
  have hout := moved_flight s i ((s.hosts i).emit (joinSends os (s.hosts i).node.origin
    (s.hosts i).sends.length (s.listed i))) ⟨i, s.hashKey i⟩ s.flight rfl
  rw [hflight, List.nil_append] at hout
  refine ⟨⟨hsame, hs.of_same hsame htab, ?_, ?_, ?_⟩, ?_⟩
  · intro p hp
    rw [hflight, hout, sentPackets_joinSends hos] at hp
    obtain ⟨peer, hpeer, rfl⟩ := List.mem_map.mp hp
    exact .call peer hpeer rfl rfl
  · intro q
    rw [htab q]
  · intro q
    rw [htab q, due_same hsame, hflight, hout, due_sentPackets, postedTo_joinSends hos]
    rfl
  · rw [weight, hflight, hout]
    exact weight_joinSends hos _ _ _ _

/-- Every datagram of a round can be delivered. -/
theorem Round.deliverable {s t : Net n} {i : Fin n} {ps : List Peer} (hs : s.Sound)
    (hr : Round s i ps t) (hmembers : ∀ p ∈ ps, ∃ q, p.addr = s.addr q)
    (hroom : ∀ q, s.held q (s.hashKey q) + (ps.countP fun p => p.addr = s.addr q) ≤ 25) {k : Nat}
    (hk : k < t.flight.length) :
    ∃ q, ∀ os, ∃ t', t.step (.deliver k q false os) = some t' := by
  have hp := hr.flight t.flight[k] (List.getElem_mem hk)
  have hread := hp.readable hs
  have hget : t.flight[k]? = some t.flight[k] := List.getElem?_eq_getElem hk
  have hquiet : ¬ IsCall (decodeHeader t.flight[k].msg) .getPeers := by
    cases hp with
    | call _ _ _ hmsg =>
      rw [hmsg]
      exact (quiet_callOf_join _).1
    | reply _ _ _ hmsg =>
      rw [hmsg]
      exact not_isCall_replyOf
  have hfit (q : Fin n) : BucketsFit (t.hashKey q) t.flight[k].msg (t.hosts q) := by
    refine ⟨fun hc => absurd hc hquiet, ?_⟩
    have hcard := congrArg Multiset.card (hr.told q)
    rw [Multiset.card_add, Multiset.card_add, Multiset.coe_card, Multiset.coe_card,
      Multiset.coe_card, Multiset.card_replicate, homePeers_length, homePeers_length] at hcard
    rw [hr.same.hashKey]
    have hle := hroom q
    rw [held] at hle
    omega
  have hdest : ∃ q, t.flight[k].dest.addr = t.addr q := by
    cases hp with
    | call peer hpeer hd _ =>
      obtain ⟨q, hq⟩ := hmembers peer hpeer
      exact ⟨q, by rw [hd, Peer.origin_addr, hq, hr.same.addr]⟩
    | reply _ _ hd _ => exact ⟨i, hd.trans (hr.same.addr i).symm⟩
  obtain ⟨q, hd⟩ := hdest
  exact ⟨q, fun os => hr.sound.deliver false os hget hd hread.strings hread.count (hfit q)⟩

/-- However far a round has come, it can be brought to its end. -/
theorem Round.ends {s t : Net n} {i : Fin n} {ps : List Peer} (hs : s.Sound)
    (hmembers : ∀ p ∈ ps, ∃ q, p.addr = s.addr q)
    (hroom : ∀ q, s.held q (s.hashKey q) + (ps.countP fun p => p.addr = s.addr q) ≤ 25)
    (hr : Round s i ps t) :
    ∃ events t', (∀ e ∈ events, NetEvent.DeliversOnce e) ∧ run Net.step t events = some t' ∧
      t'.flight = [] := by
  induction hw : t.weight using Nat.strong_induction_on generalizing t with
  | _ w ih =>
    by_cases hempty : t.flight = []
    · exact ⟨[], t, by simp, rfl, hempty⟩
    · have hpos : 0 < t.flight.length := List.length_pos_of_ne_nil hempty
      obtain ⟨q, hq⟩ := hr.deliverable hs hmembers hroom hpos
      obtain ⟨t₁, h₁⟩ := hq sendingOs
      have honce : (NetEvent.deliver 0 q false sendingOs).DeliversOnce := ⟨rfl, fun _ => rfl⟩
      obtain ⟨hr₁, hlt⟩ := hr.step hs honce h₁
      obtain ⟨events, t', hevents, hrun, hend⟩ := ih t₁.weight (hw ▸ hlt) hr₁ rfl
      refine ⟨_ :: events, t', ?_, run_cons.mpr ⟨t₁, h₁, hrun⟩, hend⟩
      intro e he
      rcases List.mem_cons.mp he with rfl | he
      · exact honce
      · exact hevents e he

/-- A newcomer that joins comes to be listed by all it knows: after its timeout, in whatever order
the datagrams are delivered, no more than two for each peer of its list are needed, each of them
can be delivered, and once none is under way every process lists the newcomer, behind the peers
that it listed before, once for each time that the newcomer lists it. -/
theorem joins_reach_all (s s₁ t : Net n) (i : Fin n) (os : Os) (events : List (NetEvent n))
    (hs : s.Sound) (hflight : s.flight = []) (hos : ∀ k, os.sendto k = true)
    (hmembers : ∀ p ∈ s.listed i, ∃ q, p.addr = s.addr q)
    (hroom : ∀ q, s.held q (s.hashKey q) +
      ((s.listed i).countP fun p => p.addr = s.addr q) ≤ 25)
    (hstep : s.step (.timeout i os) = some s₁) (hevents : ∀ e ∈ events, e.DeliversOnce)
    (hrun : run step s₁ events = some t) :
    t.weight + events.length ≤ 2 * (s.listed i).length ∧
      (∀ k < t.flight.length, ∃ q, ∀ os', ∃ t', t.step (.deliver k q false os') = some t') ∧
      (t.flight = [] → ∀ q, t.listed q = s.listed q ++
        List.replicate ((s.listed i).countP fun p => p.addr = s.addr q) (s.self i)) := by
  obtain ⟨hround, hweight⟩ := Round.start hs hflight hos hstep
  obtain ⟨hend, hlen⟩ := run_descent (Round s i (s.listed i)) weight
    (fun _ _ _ hr he h => hr.step hs he h) hround hevents hrun
  refine ⟨hweight ▸ hlen, fun k hk => hend.deliverable hs hmembers hroom hk, ?_⟩
  intro hquiet q
  obtain ⟨rest, hrest⟩ := hend.grown q
  have htold := hend.told q
  have hdue : t.due q t.flight = [] := by
    rw [hquiet]
    rfl
  rw [← hrest, hdue, Multiset.coe_nil, add_zero, ← Multiset.coe_add] at htold
  have hadded : (rest : Multiset Peer) = Multiset.replicate
      ((s.listed i).countP fun p => p.addr = s.addr q) (s.self i) := add_left_cancel htold
  rw [← Multiset.coe_replicate, Multiset.coe_eq_coe, List.perm_replicate] at hadded
  rw [listed, hend.same.hashKey, ← hrest, hadded]
  rfl

end Net

theorem two_small : 2 ≤ 1000 := by decide

/-- The pair, with a table of its own for process 1. -/
def toldNet (t : PeerTable) : LocalNet 2 where
  small := two_small
  links := pairNet.links
  short := pairNet.short
  others := pairNet.others
  tables := fun i => if i = 1 then t else emptyTable
  hashKey := pairNet.hashKey

section Told

variable {t : PeerTable} (happ : Appended emptyTable t (homeOf fileHash.str) [pairNet.net.self 0])
include happ

theorem toldNet_sound (hinv : TableInv t) : (toldNet t).net.Sound := by
  refine (toldNet t).sound ?_ ?_ (fun _ => by show Terminated fileHash.mem; decide)
  · intro i
    show TableInv (if i = 1 then t else emptyTable)
    split_ifs
    · exact hinv
    · exact initPeerTable_inv
  · intro i
    show ∀ b : Fin maxPeerBuckets, ∀ p ∈ (if i = 1 then t else emptyTable)[b].peers,
      Terminated p.ip.mem
    split_ifs
    · intro b p hp
      by_cases hb : b = homeOf fileHash.str
      · have hnil : emptyTable[homeOf fileHash.str].peers = [] := initPeerTable_peers _ _
        rw [hb, happ.home, hnil, List.nil_append] at hp
        obtain rfl := List.mem_singleton.mp hp
        exact Bytes.terminated_norm LocalNet.localIp_terminated
      · rw [happ.other b hb] at hp
        exact emptyTable_strings b p hp
    · exact emptyTable_strings

theorem toldNet_listed (q : Fin 2) :
    (toldNet t).net.listed q = if q = 1 then [(toldNet t).net.self 0] else [] := by
  show homePeers (if q = 1 then t else emptyTable) fileHash = _
  split_ifs
  · have hnil : emptyTable[homeOf fileHash.str].peers = [] := initPeerTable_peers _ _
    rw [homePeers, happ.home, hnil]
    rfl
  · exact initPeerTable_peers _ _

end Told

/-- Process 1 joins process 0, which it lists. -/
theorem joins_reach_all_pair : ∃ s s₁ t : Net 2, ∃ events,
    s.step (.timeout 1 sendingOs) = some s₁ ∧ run Net.step s₁ events = some t ∧
      events.length ≤ 2 ∧ t.listed 0 = [s.self 1] := by
  have hhash : Terminated fileHash.mem := by decide
  obtain ⟨table, htable⟩ := setPeer_total initPeerTable_inv hhash (pairNet.net.self 0) (by
    rw [initPeerTable_len]
    exact Nat.zero_le _)
  obtain ⟨-, hinv, happ⟩ := setPeer_ok initPeerTable_inv htable
  have hs := toldNet_sound happ hinv
  have hone : (toldNet table).net.listed 1 = [(toldNet table).net.self 0] := toldNet_listed happ 1
  have hnone : (toldNet table).net.listed 0 = [] := toldNet_listed happ 0
  have haddr : ((toldNet table).net.self 0).addr = (toldNet table).net.addr 0 := rfl
  have hmembers : ∀ p ∈ (toldNet table).net.listed 1, ∃ q, p.addr = (toldNet table).net.addr q := by
    rw [hone]
    intro p hp
    obtain rfl := List.mem_singleton.mp hp
    exact ⟨0, haddr⟩
  have hroom : ∀ q, (toldNet table).net.held q ((toldNet table).net.hashKey q) +
      (((toldNet table).net.listed 1).countP fun p => p.addr = (toldNet table).net.addr q) ≤
        25 := by
    intro q
    have hheld : (toldNet table).net.held q ((toldNet table).net.hashKey q) =
        ((toldNet table).net.listed q).length := (homePeers_length _ _).symm
    have hle : ((toldNet table).net.listed q).length ≤ 1 := by
      rw [toldNet_listed happ]
      split_ifs <;> simp
    have hcount := List.countP_le_length
      (p := fun p : Peer => p.addr = (toldNet table).net.addr q) (l := [(toldNet table).net.self 0])
    rw [List.length_singleton] at hcount
    rw [hheld, hone]
    omega
  have hnonempty : homeLen ((toldNet table).net.hosts 1).table fileHash ≠ 0 := by
    rw [← homePeers_length]
    show ((toldNet table).net.listed 1).length ≠ 0
    simp [hone]
  obtain ⟨m, hm⟩ := joinPeers_total sendingOs fileHash _ _ (hs.strings 1)
    (getPeerBucket_inv (hs.tables 1) hhash) hnonempty
  obtain ⟨s₁, hstep⟩ : ∃ s₁, (toldNet table).net.step (.timeout 1 sendingOs) = some s₁ :=
    ⟨_, Net.step_timeout.mpr ⟨m, hm, rfl⟩⟩
  obtain ⟨hround, -⟩ := Net.Round.start hs rfl (fun _ => rfl) hstep
  obtain ⟨events, t, hevents, hrun, hend⟩ := hround.ends hs hmembers hroom
  obtain ⟨hlen, -, hlisted⟩ := Net.joins_reach_all _ s₁ t 1 sendingOs events hs rfl (fun _ => rfl)
    hmembers hroom hstep hevents hrun
  refine ⟨_, s₁, t, events, hstep, hrun, ?_, ?_⟩
  · rw [hone, List.length_singleton] at hlen
    omega
  · rw [hlisted hend 0, hnone, hone, List.countP_singleton, if_pos (by simpa using haddr)]
    rfl

end PeerToPeer
