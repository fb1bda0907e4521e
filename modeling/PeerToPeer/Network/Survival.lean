import PeerToPeer.Network.Answering

namespace PeerToPeer

open CLib Transition

/-- A message that any process can read: its strings end, and its count fits the receiver. -/
structure Readable (msg : RpcMsg) : Prop where
  strings : MsgStrings msg
  count : CountFits msg

theorem Outgoing.Clean.readable {out : Outgoing} {msg : RpcMsg} (hc : out.Clean)
    (h : out.build = .ok msg) : Readable msg := ⟨hc.strings h, hc.count h⟩

theorem readable_joinCall {host : Origin} (h : Terminated host.ip.mem) :
    Readable (callOf .join [] host) := by
  have hclean : (Outgoing.call .join [] host).Clean := ⟨h, fun hm => by cases hm⟩
  exact hclean.readable (callMsg_ok_iff.mpr ⟨Nat.zero_le _, h, rfl⟩)

theorem readable_joinReply {id : Bytes correlationIdSize} (h : Terminated id.mem) :
    Readable (replyOf .join [] id .ok) := by
  have hclean : (Outgoing.reply .join [] id .ok).Clean := ⟨h, fun hm => by cases hm⟩
  exact hclean.readable (replyMsg_ok_iff.mpr ⟨Nat.zero_le _, h, rfl⟩)

theorem readable_answer {ps : List Peer} {id : Bytes correlationIdSize} (h : Terminated id.mem)
    (hlen : ps.length ≤ maxPeerBuckets) (hps : ∀ p ∈ ps, Terminated p.ip.mem) :
    Readable (replyOf .getPeers (answerBytes ps) id .ok) := by
  have hlen' : ps.length ≤ 10 := hlen
  have hcount : ((answerBytes ps).getD 0 0).toNat = ps.length := by
    rw [answerBytes, List.getD_cons_zero, UInt8.toNat_ofNat']
    omega
  have hclean : (Outgoing.reply .getPeers (answerBytes ps) id .ok).Clean := by
    refine ⟨h, fun _ _ => ⟨hcount.trans_le hlen, ?_⟩⟩
    rwa [payloadPeers_answerBytes (by omega)]
  refine hclean.readable (replyMsg_ok_iff.mpr ⟨?_, h, rfl⟩)
  rw [answerBytes_length, sizeofPeer, maxPayloadSize]
  omega

theorem readable_searchCall {os : Os} {hash : Bytes idSize} {src : Origin} {m : Machine}
    (hh : Terminated hash.mem) (hs : Terminated src.ip.mem) (hm : Terminated m.node.ip.mem) :
    Readable (searchCall os hash src m) :=
  ⟨searchCall_strings hh hs hm, countFits_of_call (searchCall_isCall _ _ _ _)⟩

theorem readable_searchSends {os : Os} {hash : Bytes idSize} {src replyTo : Origin} {m : Machine}
    (hh : Terminated hash.mem) (hs : Terminated src.ip.mem) (hm : Terminated m.node.ip.mem) :
    ∀ x ∈ searchSends os hash src replyTo m, Readable x.msg := by
  intro x hx
  rw [searchSends_eq] at hx
  obtain ⟨next, -, rfl⟩ := Option.map_eq_some_iff.mp (Option.mem_toList.mp hx)
  exact readable_searchCall hh hs hm

theorem readable_joinSends {os : Os} {host : Origin} {k : Nat} {ps : List Peer}
    (h : Terminated host.ip.mem) : ∀ x ∈ joinSends os host k ps, Readable x.msg :=
  forall_joinSends (readable_joinCall h)

/-- A process with short buckets sends only what others can read. -/
theorem Handled.readable {os : Os} {hashKey : Bytes idSize} {msg : RpcMsg} {replyTo : Origin}
    {m m' : Machine} {r : Int} (hm : MachineStrings m) (hinv : TableInv m.table)
    (hk : Terminated hashKey.mem) (hid : Terminated msg.correlationId.mem)
    (hsrc : IsCall msg .getPeers → Terminated (decodeSrc msg.body).ip.mem)
    (hsmall : ∀ b : Fin maxPeerBuckets, m.table[b].len ≤ maxPeerBuckets)
    (h : Handled os hashKey msg replyTo m r m') :
    ∃ out, m'.sends = m.sends ++ out ∧ ∀ x ∈ out, Readable x.msg := by
  have silent : ∃ out, m.sends = m.sends ++ out ∧ ∀ x ∈ out, Readable x.msg :=
    ⟨[], (List.append_nil _).symm, by simp⟩
  have single {dest : Origin} {msg' : RpcMsg} (hread : Readable msg') :
      ∀ x ∈ [attempt os m dest msg'], Readable x.msg := by
    intro x hx
    obtain rfl := List.mem_singleton.mp hx
    exact hread
  cases h with
  | otherCall => exact silent
  | otherReply => exact silent
  | badReply => exact silent
  | emptyReply => exact silent
  | unfiled => exact silent
  | stored => exact silent
  | noBucket _ _ hb => cases getPeerBucket_ok hinv hb
  | joinFailed => exact ⟨_, rfl, single (readable_joinReply hid)⟩
  | joined => exact ⟨_, rfl, single (readable_joinReply hid)⟩
  | joining => exact ⟨_, rfl, readable_joinSends (Bytes.terminated_norm hm.ip)⟩
  | forwarded b hc => exact ⟨_, rfl, readable_searchSends hk (hsrc hc) hm.ip⟩
  | answered b =>
    refine ⟨_, rfl, single (readable_answer hid ?_ (hm.peers b))⟩
    rw [PeerBucket.peers_length]
    exact hsmall b

/-- Searches ask for a C string. -/
def NetEvent.AsksString {n : Nat} : NetEvent n → Prop
  | search _ hash _ => Terminated hash.mem
  | _ => True

namespace Net

variable {n : Nat}

/-- No bucket lists more peers than an answer may carry. -/
def Small (s : Net n) : Prop :=
  ∀ (i : Fin n) (b : Fin maxPeerBuckets), (s.hosts i).table[b].len ≤ maxPeerBuckets

/-- The event can happen, and is none at which the program means to exit: a datagram is lost or
delivered only while it is in flight, and only to the process it is addressed to; a process that
times out has peers to join. -/
def Possible (s : Net n) : NetEvent n → Prop
  | .timeout i _ => s.held i (s.hashKey i) ≠ 0
  | .deliver k j _ _ => ∃ p, s.flight[k]? = some p ∧ p.dest.addr = s.addr j
  | .lose k => k < s.flight.length
  | _ => True

/-- A sound network in which every datagram can be read. -/
structure Healthy (s : Net n) : Prop where
  sound : s.Sound
  flight : ∀ p ∈ s.flight, Readable p.msg

theorem readable_moved {s : Net n} {i : Fin n} {m : Machine} {search : Search n}
    {rest : List (Packet n)} {out : List Send} (hsends : m.sends = (s.hosts i).sends ++ out)
    (hout : ∀ x ∈ out, Readable x.msg) (hrest : ∀ p ∈ rest, Readable p.msg) :
    ∀ p ∈ (s.moved i m search rest).flight, Readable p.msg := by
  intro p hp
  rcases mem_moved_flight hsends hp with hp | hp
  · exact hrest p hp
  · obtain ⟨-, x, hx, -, hmsg⟩ := mem_sentPackets hp
    exact hmsg ▸ hout x hx

theorem Healthy.step {s s' : Net n} {e : NetEvent n} (hs : s.Healthy) (hsmall : s.Small)
    (he : e.AsksString) (h : s.step e = some s') : s'.Healthy := by
  refine ⟨hs.sound.step (fun p hp => (hs.flight p hp).strings) h, ?_⟩
  have hip (i : Fin n) := (hs.sound.strings i).ip
  cases e with
  | search i hash os =>
    obtain ⟨r, m, hm, rfl⟩ := step_search.mp h
    obtain rfl := getPeers_ok hm
    exact readable_moved rfl
      (readable_searchSends he (Bytes.terminated_norm (hip i)) (hip i)) hs.flight
  | timeout i os =>
    obtain ⟨m, hm, rfl⟩ := step_timeout.mp h
    obtain ⟨ps, -, rfl⟩ := joinPeers_calls hm
    exact readable_moved rfl (readable_joinSends (Bytes.terminated_norm (hip i))) hs.flight
  | join i dest os =>
    obtain ⟨r, m, hm, rfl⟩ := step_join.mp h
    obtain rfl := callRpc_ok hm
    refine readable_moved rfl ?_ hs.flight
    intro x hx
    obtain rfl := List.mem_singleton.mp hx
    exact readable_joinCall (Bytes.terminated_norm (hip i))
  | deliver k j dup os =>
    obtain ⟨p, hp, hd, r, m, hm, rfl⟩ := step_deliver.mp h
    have hmsg := (hs.flight p (List.mem_of_getElem? hp)).strings
    have hid : Terminated (decodeHeader p.msg).correlationId.mem := hmsg.id
    obtain ⟨-, hh⟩ := recvRpc_handled hm
    obtain ⟨out, hout, hread⟩ := hh.readable (hs.sound.strings j) (hs.sound.tables j)
      (hs.sound.keys j) hid (fun hc => (hmsg.call hc).2) (hsmall j)
    refine readable_moved hout hread ?_
    intro q hq
    split_ifs at hq
    · exact hs.flight q hq
    · exact hs.flight q (List.mem_of_mem_eraseIdx hq)
  | lose k =>
    obtain ⟨-, rfl⟩ := step_lose.mp h
    exact fun q hq => hs.flight q (List.mem_of_mem_eraseIdx hq)

/-- No handler ends its process, and no timeout ends one that has peers to join. -/
theorem Healthy.possible {s : Net n} {e : NetEvent n} (hs : s.Healthy) (hsmall : s.Small)
    (hp : Possible s e) : ∃ s', s.step e = some s' := by
  cases e with
  | search i hash os =>
    have hip := (hs.sound.strings i).ip
    obtain ⟨r, m, hm⟩ := getPeers_total os hash (s.hosts i).node.origin (s.hosts i).node.origin
      (s.hosts i) hip (hs.sound.strings i).neighbors (Bytes.terminated_norm hip)
      (Bytes.terminated_norm hip)
    exact ⟨_, step_search.mpr ⟨r, m, hm, rfl⟩⟩
  | timeout i os =>
    obtain ⟨m, hm⟩ := joinPeers_total os (s.hashKey i) (s.hosts i) _ (hs.sound.strings i)
      (getPeerBucket_inv (hs.sound.tables i) (hs.sound.keys i)) hp
    exact ⟨_, step_timeout.mpr ⟨m, hm, rfl⟩⟩
  | join i dest os =>
    obtain ⟨r, hcall⟩ := callRpc_total os .join [] dest (s.hosts i).node.origin (s.hosts i)
      (Nat.zero_le _) (Bytes.terminated_norm (hs.sound.strings i).ip)
    exact ⟨_, step_join.mpr ⟨r, _, hcall, rfl⟩⟩
  | deliver k j dup os =>
    obtain ⟨p, hk, hd⟩ := hp
    have hread := hs.flight p (List.mem_of_getElem? hk)
    have hfit (b : Fin maxPeerBuckets) : (s.hosts j).table[b].len ≤ 25 :=
      (hsmall j b).trans (by decide)
    exact hs.sound.deliver dup os hk hd hread.strings hread.count ⟨fun _ => hfit _, hfit _⟩
  | lose k => exact ⟨_, step_lose.mpr ⟨hp, rfl⟩⟩

/-- As long as no bucket of the network lists more peers than an answer may carry, nothing that
can happen ends a process, but a timeout with nobody to join: no order of events, loss or
repetition leads to a write outside a buffer or to another exit. -/
theorem nobody_crashes (s₀ s : Net n) (events : List (NetEvent n)) (hs : s₀.Sound)
    (hflight : s₀.flight = []) (hstrings : ∀ e ∈ events, e.AsksString)
    (hsmall : AllStates step Small s₀ events) (hrun : run step s₀ events = some s)
    (e : NetEvent n) (he : Possible s e) : ∃ s', s.step e = some s' := by
  have hinit : s₀.Healthy := ⟨hs, by simp [hflight]⟩
  obtain ⟨hhealthy, hsmall'⟩ := run_within Healthy
    (fun _ _ _ hh hsm ha h => hh.step hsm ha h) hinit hsmall hstrings hrun
  exact hhealthy.possible hsmall' he

theorem small_of_empty {s : Net n} (h : ∀ i, (s.hosts i).table = emptyTable) : s.Small := by
  intro i b
  have hnil : (s.hosts i).table[b].peers = [] := by
    rw [h i]
    exact initPeerTable_peers _ _
  rw [← PeerBucket.peers_length, hnil]
  exact Nat.zero_le _

end Net

/-- A `JOIN` call that was sent can be delivered. -/
theorem nobody_crashes_join : ∃ s s',
    run Net.step pairNet.net [.join 0 (localEntry (1 : Fin 2)).origin sendingOs] = some s ∧
      s.step (.deliver 0 1 false sendingOs) = some s' := by
  obtain ⟨s, p, hstep, hflight, -, hdest, -, htab⟩ := pairNet_joins
  have hrun : run Net.step pairNet.net [.join 0 (localEntry (1 : Fin 2)).origin sendingOs] =
      some s := run_cons.mpr ⟨s, hstep, rfl⟩
  have hsmall : AllStates Net.step Net.Small pairNet.net
      [.join 0 (localEntry (1 : Fin 2)).origin sendingOs] := by
    refine ⟨Net.small_of_empty fun _ => rfl, ?_⟩
    intro s' hs'
    obtain rfl := Option.some.inj (hstep.symm.trans hs')
    exact Net.small_of_empty htab
  have hpossible : Net.Possible s (.deliver 0 1 false sendingOs) :=
    ⟨p, Net.flight_head hflight, hdest⟩
  obtain ⟨s', hs'⟩ := pairNet.net.nobody_crashes s _ pairNet_sound rfl
    (by simp [NetEvent.AsksString])
    hsmall hrun _ hpossible
  exact ⟨s, s', hrun, hs'⟩

end PeerToPeer
