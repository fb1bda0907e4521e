import PeerToPeer.Network.Answering
import PeerToPeer.Swarm.Safety

namespace PeerToPeer

open CLib Transition Relation

/-- What the bytes of a message ask of its receiver, or tell it. -/
def RpcMsg.note (msg : RpcMsg) : Swarm.Note (Bytes idSize) Addr Peer :=
  let m := decodeHeader msg
  if IsCall m .getPeers then .ask (decodeHash m.body) (decodeSrc m.body).addr msg.replyTo.addr
  else if IsCall m .join then .join (joinedPeer msg.replyTo)
  else if IsReply m .getPeers ∧ ReplyOk m then .tell (replyPeers m)
  else .other

def letterOf (dest : Origin) (msg : RpcMsg) : Swarm.Letter (Bytes idSize) Addr Peer :=
  ⟨dest.addr, msg.note⟩

section Notes

theorem note_ask {msg : RpcMsg} (h : IsCall (decodeHeader msg) .getPeers) :
    msg.note = .ask (askedHash msg) (decodeSrc (decodeHeader msg).body).addr msg.replyTo.addr :=
  if_pos h

theorem note_join {msg : RpcMsg} (h : IsCall (decodeHeader msg) .join) :
    msg.note = .join (joinedPeer msg.replyTo) := by
  rw [RpcMsg.note]
  rw [if_neg (fun hg => IsCall.method_unique hg h), if_pos h]

theorem note_tell {msg : RpcMsg} (h : IsReply (decodeHeader msg) .getPeers)
    (hs : ReplyOk (decodeHeader msg)) : msg.note = .tell (replyPeers (decodeHeader msg)) := by
  rw [RpcMsg.note]
  rw [if_neg (fun hc => hc.not_reply h), if_neg (fun hc => hc.not_reply h), if_pos ⟨h, hs⟩]

theorem note_join_iff {msg : RpcMsg} :
    (∃ r, msg.note = .join r) ↔ IsCall (decodeHeader msg) .join := by
  constructor
  · intro ⟨r, h⟩
    rw [RpcMsg.note] at h
    split_ifs at h with hg hj hr
    exact hj
  · exact fun h => ⟨_, note_join h⟩

theorem note_searchCall (os : Os) (hash : Bytes idSize) (src : Origin) (m : Machine) :
    (searchCall os hash src m).note = .ask hash src.addr m.node.addr := by
  rw [note_ask (searchCall_isCall _ _ _ _), askedHash, searchCall_hash, searchCall_src_addr,
    searchCall_replyTo]

theorem note_joinCall (m : Machine) :
    (callOf .join [] m.node.origin).note = .join (joinedPeer m.node.origin) := by
  have hcall : IsCall (decodeHeader (callOf .join [] m.node.origin)) .join :=
    (isCall_callOf_iff (Nat.zero_le _)).mpr rfl
  rw [note_join hcall, joinCall_replyTo]

/-- A list that fits its answer is told as it is. -/
theorem note_answer {ps : List Peer} (h : ps.length ≤ 25) (id : Bytes correlationIdSize) :
    (replyOf .getPeers (answerBytes ps) id .ok).note = .tell ps := by
  have hcount : ((answerBytes ps).getD 0 0).toNat ≤ 25 := by
    rw [answerBytes, List.getD_cons_zero, UInt8.toNat_ofNat']
    omega
  rw [note_tell (isReply_replyOf_iff.mpr rfl) (replyOk_replyOf_iff.mpr rfl),
    replyPeers_replyOf hcount, payloadPeers_answerBytes h]

theorem note_joinReply (id : Bytes correlationIdSize) (status : MsgStatus) :
    (replyOf .join [] id status).note = .other := by
  have hr : ¬ IsReply (decodeHeader (replyOf .join [] id status)) .getPeers :=
    fun h => by cases isReply_replyOf_iff.mp h
  rw [RpcMsg.note]
  rw [if_neg not_isCall_replyOf, if_neg not_isCall_replyOf, if_neg (fun h => hr h.1)]

end Notes

namespace Net

variable {n : Nat}

/-- The fixed part of the swarm that the processes form. -/
def setup (s : Net n) : Swarm.Setup (Fin n) (Bytes idSize) Addr (Fin maxPeerBuckets) Peer where
  addr := s.addr
  key := s.hashKey
  shelf := fun hash => homeOf hash.str
  next := fun i caller => (nextHop (s.hosts i).sortedNeighbors.live caller).map NodeEntry.addr
  self := fun i => joinedPeer (s.hosts i).node.origin

/-- What a swarm has of a network: the buckets, the datagrams, and who attempted a `JOIN` call. -/
def swarm (s : Net n) : Swarm.State (Fin n) (Bytes idSize) Addr (Fin maxPeerBuckets) Peer where
  lists := fun i b => (s.hosts i).table[b].peers
  letters := {l | ∃ p ∈ s.flight, letterOf p.dest p.msg = l}
  joiners := {i | ∃ x ∈ (s.hosts i).sends, IsCall (decodeHeader x.msg) .join}

theorem SameHosts.setup {s s' : Net n} (h : SameHosts s s') : s'.setup = s.setup := by
  have haddr : s'.addr = s.addr := funext h.addr
  simp [Net.setup, haddr, h.hashKey, h.neighbors, Node.origin, h.ip, h.port]

/-- What a process may send in the protocol. -/
def MaySend (s : Net n) (j : Fin n) (out : List Send) : Prop :=
  ∀ x ∈ out, Swarm.Writes s.setup s.swarm j (letterOf x.dest x.msg)

theorem maySend_nil (s : Net n) (j : Fin n) : s.MaySend j [] := by
  intro x hx
  simp at hx

theorem maySend_single {s : Net n} {j : Fin n} {os : Os} {m : Machine} {dest : Origin}
    {msg : RpcMsg} (h : Swarm.Writes s.setup s.swarm j (letterOf dest msg)) :
    s.MaySend j [attempt os m dest msg] := by
  intro x hx
  obtain rfl := List.mem_singleton.mp hx
  exact h

theorem maySend_joins (s : Net n) (j : Fin n) (os : Os) (k : Nat) (ps : List Peer) :
    s.MaySend j (joinSends os (s.hosts j).node.origin k ps) := by
  induction ps generalizing k with
  | nil => exact s.maySend_nil j
  | cons p ps ih =>
    intro x hx
    rcases List.mem_cons.mp hx with rfl | hx
    · rw [letterOf, note_joinCall]
      exact .join _
    · exact ih (k + 1) x hx

/-- One process moves: what it sends and stores is a turn of the protocol. -/
theorem reach_moved {s : Net n} {j : Fin n} {m : Machine} {search : Search n}
    {rest : List (Packet n)} {out : List Send} {added : List Peer}
    (hsends : m.sends = (s.hosts j).sends ++ out)
    (happ : Appended (s.hosts j).table m.table (homeOf (s.hashKey j).str) added)
    (hout : s.MaySend j out) (htake : added ≠ [] → Swarm.Takes s.setup s.swarm j added)
    (hrest : ∀ p ∈ rest, p ∈ s.flight) :
    ReflTransGen (Swarm.Step s.setup) s.swarm (s.moved j m search rest).swarm := by
  let letters := out.map fun x => letterOf x.dest x.msg
  have hwrites : ∀ l ∈ letters, Swarm.Writes s.setup s.swarm j l := by
    intro l hl
    obtain ⟨x, hx, rfl⟩ := List.mem_map.mp hl
    exact hout x hx
  have hgrown : Swarm.Grown s.setup s.swarm.lists (s.moved j m search rest).swarm.lists j
      added := by
    constructor
    · simp only [swarm, moved_host]
      exact happ.home
    · intro i b hb
      simp only [swarm]
      by_cases hi : i = j
      · subst hi
        rw [moved_host, happ.other b (hb.resolve_left (not_not.mpr rfl))]
      · rw [moved_host_ne _ _ _ _ _ hi]
  have hsub : (s.moved j m search rest).swarm.letters ⊆ s.swarm.letters ∪ {l | l ∈ letters} := by
    intro l hl
    obtain ⟨p, hp, rfl⟩ := hl
    rcases mem_moved_flight hsends hp with hp | hp
    · exact .inl ⟨p, hrest p hp, rfl⟩
    · obtain ⟨-, x, hx, hd, hmsg⟩ := mem_sentPackets hp
      exact .inr (List.mem_map.mpr ⟨x, hx, by rw [hd, hmsg]⟩)
  have hturn := Swarm.reach_turn letters added _ _ hwrites htake hgrown hsub
  have hjoiners : (s.moved j m search rest).swarm.joiners =
      s.swarm.joiners ∪ {i | ∃ l ∈ letters, i ∈ l.joiner j} := by
    ext i
    have hnew : (∃ l ∈ letters, i ∈ l.joiner j) ↔
        i = j ∧ ∃ x ∈ out, IsCall (decodeHeader x.msg) .join := by
      simp only [letters, List.mem_map, Swarm.Letter.joiner, Set.mem_ofPred_eq,
        exists_exists_and_eq_and, letterOf, note_join_iff]
      tauto
    simp only [swarm, Set.mem_union, Set.mem_ofPred_eq, hnew]
    by_cases hi : i = j
    · subst hi
      simp [hsends, or_and_right, exists_or]
    · simp [moved_host_ne _ _ _ _ _ hi, hi]
  rw [← hjoiners] at hturn
  exact hturn

section Deliver

variable {s : Net n} {j : Fin n} {p : Packet n} {os : Os} {r : Int} {m : Machine}

theorem letter_delivered (hp : p ∈ s.flight) (hd : p.dest.addr = s.addr j) :
    ⟨s.setup.addr j, p.msg.note⟩ ∈ s.swarm.letters := ⟨p, hp, by rw [letterOf, hd]; rfl⟩

/-- Everything that a handled datagram makes a process send, it may send. -/
theorem handled_maySend (hp : p ∈ s.flight) (hd : p.dest.addr = s.addr j) (htab : s.Tables)
    (h : Handled os (s.hashKey j) (decodeHeader p.msg) p.msg.replyTo (s.hosts j) r m) :
    ∃ out, m.sends = (s.hosts j).sends ++ out ∧ s.MaySend j out := by
  have hletter := letter_delivered hp hd
  have silent : ∃ out, (s.hosts j).sends = (s.hosts j).sends ++ out ∧ s.MaySend j out :=
    ⟨[], (List.append_nil _).symm, s.maySend_nil j⟩
  have joinReply (dest : Origin) : s.MaySend j [attempt os (s.hosts j) dest
      (replyOf .join [] (decodeHeader p.msg).correlationId .ok)] := by
    apply maySend_single
    rw [letterOf, note_joinReply]
    exact .chat _
  cases h with
  | otherCall => exact silent
  | otherReply => exact silent
  | badReply => exact silent
  | emptyReply => exact silent
  | unfiled => exact silent
  | stored => exact silent
  | noBucket _ _ hb => cases getPeerBucket_ok (htab j) hb
  | joinFailed => exact ⟨_, rfl, joinReply _⟩
  | joined => exact ⟨_, rfl, joinReply _⟩
  | joining => exact ⟨_, rfl, s.maySend_joins j os _ _⟩
  | forwarded b hc hb hl hn =>
    obtain rfl := Option.some.inj (getPeerBucket_ok (htab j) hb)
    rw [note_ask hc] at hletter
    have hempty : s.swarm.lists j (s.setup.shelf (askedHash p.msg)) = [] :=
      List.eq_nil_of_length_eq_zero ((PeerBucket.peers_length _).trans hl)
    refine ⟨_, rfl, ?_⟩
    rw [searchSends_eq]
    cases hnext : nextHop (s.hosts j).sortedNeighbors.live p.msg.replyTo.addr with
    | none => exact s.maySend_nil j
    | some next =>
      apply maySend_single
      rw [letterOf, note_searchCall, NodeEntry.origin_addr]
      exact .forward _ _ _ _ hletter hempty (by simp [setup, hnext])
  | answered b hc hb hn hf =>
    obtain rfl := Option.some.inj (getPeerBucket_ok (htab j) hb)
    rw [note_ask hc] at hletter
    refine ⟨_, rfl, maySend_single ?_⟩
    rw [letterOf, note_answer]
    · exact .answer _ _ _ hletter
    · rw [PeerBucket.peers_length]
      rw [sizeofPeer, maxPayloadSize] at hf
      omega

/-- Everything it makes a process store, it was told, or asked to. -/
theorem storedPeers_takes (sent : Bool) (hp : p ∈ s.flight) (hd : p.dest.addr = s.addr j)
    (hne : storedPeers sent p.msg.replyTo (decodeHeader p.msg) ≠ []) :
    Swarm.Takes s.setup s.swarm j (storedPeers sent p.msg.replyTo (decodeHeader p.msg)) := by
  have hletter := letter_delivered hp hd
  unfold storedPeers at hne ⊢
  split_ifs at hne ⊢ with hj hs hr
  · rw [note_join hj] at hletter
    exact .enrol _ hletter
  · exact absurd rfl hne
  · rw [note_tell hr.1 hr.2] at hletter
    exact .store _ hletter
  · exact absurd rfl hne

end Deliver

/-- One event of the network is a few steps of the protocol. -/
theorem step_refines {s s' : Net n} {e : NetEvent n} (htab : s.Tables) (h : s.step e = some s') :
    ReflTransGen (Swarm.Step s.setup) s.swarm s'.swarm := by
  have unmoved (j : Fin n) (out : List Send) (search : Search n) (hout : s.MaySend j out) :
      ReflTransGen (Swarm.Step s.setup) s.swarm
        (s.moved j ((s.hosts j).emit out) search s.flight).swarm :=
    reach_moved rfl (Appended.refl _ _) hout (fun hne => absurd rfl hne) fun _ hp => hp
  cases e with
  | search i hash os =>
    obtain ⟨r, m, hm, rfl⟩ := step_search.mp h
    obtain rfl := getPeers_ok hm
    apply unmoved
    rw [searchSends_eq, Node.origin_addr]
    cases hnext : nextHop (s.hosts i).sortedNeighbors.live (s.hosts i).node.addr with
    | none => exact s.maySend_nil i
    | some next =>
      apply maySend_single
      rw [letterOf, note_searchCall, NodeEntry.origin_addr, Node.origin_addr]
      exact .search _ _ (by simp [setup, addr, hnext])
  | timeout i os =>
    obtain ⟨m, hm, rfl⟩ := step_timeout.mp h
    obtain ⟨ps, -, rfl⟩ := joinPeers_calls hm
    exact unmoved i _ _ (s.maySend_joins i os _ ps)
  | join i dest os =>
    obtain ⟨r, m, hm, rfl⟩ := step_join.mp h
    obtain rfl := callRpc_ok hm
    apply unmoved
    apply maySend_single
    rw [letterOf, note_joinCall]
    exact .join _
  | deliver k j dup os =>
    obtain ⟨p, hp, hd, r, m, hm, rfl⟩ := step_deliver.mp h
    have hmem := List.mem_of_getElem? hp
    obtain ⟨out, hout, hmay⟩ := handled_maySend hmem hd htab (recvRpc_handled hm).2
    refine reach_moved hout (recvRpc_appended (htab j) hm).2 hmay (storedPeers_takes _ hmem hd) ?_
    intro q hq
    split_ifs at hq
    · exact hq
    · exact List.mem_of_mem_eraseIdx hq
  | lose k =>
    obtain ⟨-, rfl⟩ := step_lose.mp h
    refine .single (.lose _ ?_)
    rintro l ⟨p, hp, hl⟩
    exact ⟨p, List.mem_of_mem_eraseIdx hp, hl⟩

/-- Whatever the events of a run, and whatever bytes the datagrams of its start consist of, the
run of the processes is a run of the protocol. -/
theorem run_refines (s₀ s : Net n) (events : List (NetEvent n)) (htab : s₀.Tables)
    (hrun : run step s₀ events = some s) :
    ReflTransGen (Swarm.Step s₀.setup) s₀.swarm s.swarm := by
  let Inv (t : Net n) : Prop := t.Tables ∧ SameHosts s₀ t
  have hstep : ∀ t e t', Inv t → step t e = some t' →
      Inv t' ∧ ReflTransGen (Swarm.Step s₀.setup) t.swarm t'.swarm := by
    intro t e t' ⟨htab, hsame⟩ h
    refine ⟨⟨fun j => (step_appended htab h j).1, hsame.trans (step_flight h).1⟩, ?_⟩
    rw [← hsame.setup]
    exact step_refines htab h
  exact (run_reach Inv hstep ⟨htab, SameHosts.refl s₀⟩ hrun).2

end Net

/-- The `JOIN` call of process 0 of the pair, delivered once, puts it on the list of process 1. -/
theorem pairNet_enrols : ∃ s, run Net.step pairNet.net
      [.join 0 (localEntry (1 : Fin 2)).origin sendingOs, .deliver 0 1 false sendingOs] = some s ∧
    homePeers (s.hosts 1).table fileHash = [joinedPeer pairJoin.replyTo] := by
  obtain ⟨s₁, p, hstep₁, hflight, hmsg, hdest, hsound₁, htab⟩ := pairNet_joins
  have hempty : homePeers (s₁.hosts 1).table fileHash = [] := by
    rw [htab]
    exact initPeerTable_peers _ _
  have hkey : s₁.hashKey 1 = fileHash := congrFun (Net.step_flight hstep₁).1.hashKey 1
  obtain ⟨s₂, hstep₂, hhome⟩ := pairJoin_listed hsound₁ hkey (Net.flight_head hflight) hmsg hdest
    (by simp [hempty]) false
  rw [hempty] at hhome
  exact ⟨s₂, run_cons.mpr ⟨s₁, hstep₁, run_cons.mpr ⟨s₂, hstep₂, rfl⟩⟩, hhome⟩

theorem run_refines_join : ∃ s, run Net.step pairNet.net
      [.join 0 (localEntry (1 : Fin 2)).origin sendingOs, .deliver 0 1 false sendingOs] = some s ∧
    ReflTransGen (Swarm.Step pairNet.net.setup) pairNet.net.swarm s.swarm := by
  obtain ⟨s, hrun, -⟩ := pairNet_enrols
  exact ⟨s, hrun, pairNet.net.run_refines s _ pairNet_sound.tables hrun⟩

namespace Net

variable {n : Nat}

theorem swarm_quiet {s : Net n} (h : s.flight = []) : s.swarm.letters = ∅ := by
  simp [swarm, h]

/-- Whatever is lost, delivered again or overtaken: every entry of every bucket was in a bucket at
the start, or is a process of the network that attempted a `JOIN` call, stored as it is. -/
theorem listed_joined (s₀ s : Net n) (events : List (NetEvent n)) (htab : s₀.Tables)
    (hflight : s₀.flight = []) (hrun : run step s₀ events = some s) (j : Fin n)
    (b : Fin maxPeerBuckets) (p : Peer) (hp : p ∈ (s.hosts j).table[b].peers) :
    (∃ (i : Fin n) (b' : Fin maxPeerBuckets), p ∈ (s₀.hosts i).table[b'].peers) ∨
      ∃ i, p = joinedPeer (s₀.hosts i).node.origin ∧
        ∃ x ∈ (s.hosts i).sends, IsCall (decodeHeader x.msg) .join := by
  have hreach := s₀.run_refines s events htab hrun
  have hknown := (Swarm.reach_honest (swarm_quiet hflight) hreach).lists j b p hp
  exact hknown.imp_right fun ⟨i, hi, hself⟩ => ⟨i, hself, hi⟩

end Net

theorem listed_joined_pair : ∃ s, run Net.step pairNet.net
      [.join 0 (localEntry (1 : Fin 2)).origin sendingOs, .deliver 0 1 false sendingOs] = some s ∧
    ((∃ (i : Fin 2) (b : Fin maxPeerBuckets),
        joinedPeer pairJoin.replyTo ∈ (pairNet.net.hosts i).table[b].peers) ∨
      ∃ i, joinedPeer pairJoin.replyTo = joinedPeer (pairNet.net.hosts i).node.origin ∧
        ∃ x ∈ (s.hosts i).sends, IsCall (decodeHeader x.msg) .join) := by
  obtain ⟨s, hrun, hhome⟩ := pairNet_enrols
  refine ⟨s, hrun, pairNet.net.listed_joined s _ pairNet_sound.tables rfl hrun 1
    (homeOf fileHash.str) _ ?_⟩
  show joinedPeer pairJoin.replyTo ∈ homePeers (s.hosts 1).table fileHash
  rw [hhome]
  exact List.mem_singleton_self _

namespace Net

variable {n : Nat}

/-- Every answer in flight is how the bucket of some process begins, and every search call in
flight names the process it comes from, which has its receiver for a neighbour, and some process
as its source. -/
theorem flight_current (s₀ s : Net n) (events : List (NetEvent n)) (htab : s₀.Tables)
    (hflight : s₀.flight = []) (hrun : run step s₀ events = some s) (p : Packet n)
    (hp : p ∈ s.flight) :
    (IsReply (decodeHeader p.msg) .getPeers → ReplyOk (decodeHeader p.msg) →
      ∃ (i : Fin n) (b : Fin maxPeerBuckets),
        replyPeers (decodeHeader p.msg) <+: (s.hosts i).table[b].peers) ∧
    (IsCall (decodeHeader p.msg) .getPeers →
      (∃ i, (decodeSrc (decodeHeader p.msg).body).addr = s₀.addr i) ∧
        ∃ u, p.msg.replyTo.addr = s₀.addr u ∧
          ∃ e ∈ (s₀.hosts u).sortedNeighbors.live, e.addr = p.dest.addr) := by
  have hcurrent := Swarm.reach_current (swarm_quiet hflight) (s₀.run_refines s events htab hrun)
  have hletter : ⟨p.dest.addr, p.msg.note⟩ ∈ s.swarm.letters := ⟨p, hp, rfl⟩
  constructor
  · intro hr hs
    rw [note_tell hr hs] at hletter
    exact hcurrent.told _ _ hletter
  · intro hc
    rw [note_ask hc] at hletter
    obtain ⟨hsource, u, t, hu, hnext⟩ := hcurrent.asked _ _ _ _ hletter
    obtain ⟨e, he, hdest⟩ := Option.map_eq_some_iff.mp hnext
    exact ⟨hsource, u, hu, e, (nextHop_mem he).1, hdest⟩

end Net

/-- The call that the middle of the chain passed on. -/
theorem flight_current_chain : ∃ s p, run Net.step (chainNet fileHash).net
      [.search 0 fileHash sendingOs, .deliver 0 1 false sendingOs] = some s ∧ s.flight = [p] ∧
    (∃ i, (decodeSrc (decodeHeader p.msg).body).addr = (chainNet fileHash).net.addr i) ∧
    ∃ u, p.msg.replyTo.addr = (chainNet fileHash).net.addr u ∧
      ∃ e ∈ ((chainNet fileHash).net.hosts u).sortedNeighbors.live, e.addr = p.dest.addr := by
  have hhash : Terminated fileHash.mem := by decide
  obtain ⟨s₁, s₂, p₁, p₂, h⟩ := chainNet_run hhash
  have hmem : p₂ ∈ s₂.flight := by simp [h.forwarded]
  exact ⟨s₂, p₂, h.run, h.forwarded, (Net.flight_current _ s₂ _ (chainNet_sound hhash).tables rfl
    h.run p₂ hmem).2 h.onward.call⟩

end PeerToPeer
