import PeerToPeer.Client.Joining
import Mathlib.Data.List.Nodup

namespace PeerToPeer

open CLib Transition

/-- The addresses of the `JOIN` calls among the attempts, in order. -/
def joinLog (out : List Send) : List Addr :=
  (out.filter fun x => IsCall (decodeHeader x.msg) .join).map fun x => x.dest.addr

theorem joinLog_append (out out' : List Send) :
    joinLog (out ++ out') = joinLog out ++ joinLog out' := by
  rw [joinLog, List.filter_append, List.map_append]
  rfl

theorem NoJoin.joinLog {out : List Send} (h : NoJoin out) : joinLog out = [] := by
  rw [PeerToPeer.joinLog, List.filter_eq_nil_iff.mpr fun x hx => by simpa using h x hx]
  rfl

/-- `join_peers` calls every peer of its list, in order. -/
theorem joinLog_joinSends (os : Os) (host : Origin) (k : Nat) (ps : List Peer) :
    joinLog (joinSends os host k ps) = ps.map Peer.addr := by
  induction ps generalizing k with
  | nil => rfl
  | cons p ps ih =>
    have hj : IsCall (decodeHeader (callOf .join [] host)) .join :=
      (isCall_callOf_iff (Nat.zero_le _)).mpr rfl
    have htail := ih (k + 1)
    rw [joinLog] at htail
    rw [joinSends, joinLog, List.filter_cons_of_pos (by simpa using hj), List.map_cons, htail,
      p.origin_addr]
    rfl

instance (msg : RpcMsg) : Decidable (BringsPeers msg) := inferInstanceAs (Decidable (_ ∧ _ ∧ _))

/-- The lists `join_peers` is called on in one turn of the loop: the whole bucket at a timeout,
and the whole new bucket at an answer that fills it up to the threshold. -/
def walk (hashKey : Bytes idSize) (c : Client) : ClientEvent → List (List Peer)
  | .timeout _ => [homePeers c.machine.table hashKey]
  | .recv _ msg =>
      if BringsPeers msg ∧
          initialCap ≤ homeLen c.machine.table hashKey + replyCount (decodeHeader msg).body then
        [homePeers c.machine.table hashKey ++ replyPeers (decodeHeader msg)]
      else []

/-- The lists `join_peers` is called on in a run of the loop. -/
def walks (hashKey : Bytes idSize) (c : Client) (events : List ClientEvent) : List (List Peer) :=
  collect (clientStep hashKey) (walk hashKey) c events

/-- What one turn does for joining. -/
structure TurnEffect (hashKey : Bytes idSize) (c c' : Client) (e : ClientEvent) : Prop where
  table : TableInv c'.machine.table
  grown : homePeers c.machine.table hashKey <+: homePeers c'.machine.table hashKey
  log : joinLog c'.machine.sends =
    joinLog c.machine.sends ++ (walk hashKey c e).flatMap (List.map Peer.addr)
  walked : ∀ w ∈ walk hashKey c e, w = homePeers c'.machine.table hashKey ∧ w ≠ []

section Turn

variable {hashKey : Bytes idSize} {c : Client} {os : Os} {msg : RpcMsg}

theorem walk_quiet (h : ¬ BringsPeers msg) : walk hashKey c (.recv os msg) = [] :=
  if_neg fun hb => h hb.1

/-- Below the threshold nobody is joined. -/
theorem walk_short (h : homeLen c.machine.table hashKey +
    replyCount (decodeHeader msg).body < initialCap) : walk hashKey c (.recv os msg) = [] :=
  if_neg fun hb => absurd hb.2 (Nat.not_le.mpr h)

theorem homePeers_brings {m' : Machine} {r : Int} (hinv : TableInv c.machine.table)
    (hb : BringsPeers msg) (h : recvRpc os hashKey msg c.machine = .ok (r, m')) :
    homePeers m'.table hashKey =
      homePeers c.machine.table hashKey ++ replyPeers (decodeHeader msg) := by
  rw [home_grown hinv h, storedPeers_reply hb.1 hb.2.1]

theorem recv_turn {m' : Machine} {r : Int} (hinv : TableInv c.machine.table)
    (h : recvRpc os hashKey msg c.machine = .ok (r, m')) :
    TurnEffect hashKey c ⟨m', c.taken ++ takenPeers msg⟩ (.recv os msg) := by
  have happ := recvRpc_appended hinv h
  have quiet (out : List Send) (hsends : m'.sends = c.machine.sends ++ out) (hout : NoJoin out)
      (hw : walk hashKey c (.recv os msg) = []) :
      TurnEffect hashKey c ⟨m', c.taken ++ takenPeers msg⟩ (.recv os msg) := by
    refine ⟨happ.1, happ.2.grows _, ?_, ?_⟩
    · rw [hw, hsends, joinLog_append, hout.joinLog]
      rfl
    · intro w hmem
      rw [hw] at hmem
      simp at hmem
  cases recvRpc_loopEffect hinv h with
  | passed out hsends hout hwait hc ha =>
    exact quiet out hsends hout (walk_quiet fun hb => hc.not_reply hb.1)
  | answered out hsends hout hwait ha =>
    exact quiet out hsends hout (walk_quiet fun hb => ha.1.not_reply hb.1)
  | other out hsends hout hwait hc hb => exact quiet out hsends hout (walk_quiet hb)
  | stored hsends hwait hb hl =>
    have hnone : NoJoin [] := by
      intro x hx
      simp at hx
    rw [homeLen_brings hinv hb h] at hl
    exact quiet [] (hsends.trans (List.append_nil _).symm) hnone
      (walk_short hl)
  | joining host k hwait hb hl hsends =>
    have hhome := homePeers_brings hinv hb h
    have hw : walk hashKey c (.recv os msg) = [homePeers m'.table hashKey] := by
      rw [homeLen_brings hinv hb h] at hl
      rw [walk, if_pos ⟨hb, hl⟩, hhome]
    refine ⟨happ.1, happ.2.grows _, ?_, ?_⟩
    · rw [hw, hsends, joinLog_append, joinLog_joinSends, List.flatMap_singleton]
    · intro w hmem
      rw [hw] at hmem
      obtain rfl := List.mem_singleton.mp hmem
      refine ⟨rfl, ?_⟩
      intro hnil
      have hzero : homeLen m'.table hashKey = 0 := by
        rw [← homePeers_length, hnil]
        rfl
      rw [hzero] at hl
      exact absurd hl (by decide)

/-- One turn of the loop: the `JOIN` calls are those of its walk. -/
theorem clientStep_turn {c' : Client} {e : ClientEvent} (hinv : TableInv c.machine.table)
    (h : clientStep hashKey c e = some c') : TurnEffect hashKey c c' e := by
  cases e with
  | timeout os =>
    obtain ⟨hw, m, hm, rfl⟩ := clientStep_timeout.mp h
    rcases joinPeers_ok hm with ⟨hb, -⟩ | ⟨b, hb, ⟨-, h1, -⟩ | ⟨hl, -, rfl⟩⟩
    · cases getPeerBucket_ok hinv hb
    · cases h1
    · obtain rfl := Option.some.inj (getPeerBucket_ok hinv hb)
      refine ⟨hinv, List.prefix_rfl, ?_, ?_⟩
      · rw [walk, List.flatMap_singleton, Machine.emit_sends, joinLog_append, joinLog_joinSends]
        rfl
      · intro w hmem
        obtain rfl := List.mem_singleton.mp hmem
        refine ⟨rfl, fun hnil => hl ?_⟩
        rw [← PeerBucket.peers_length]
        exact congrArg List.length hnil
  | recv os msg =>
    obtain ⟨r, m, hm, rfl⟩ := clientStep_recv.mp h
    exact recv_turn hinv hm

end Turn

/-- The `JOIN` calls of a run are those of its walks, in order. -/
theorem joinLog_run {hashKey : Bytes idSize} {c c' : Client} {events : List ClientEvent}
    (hinv : TableInv c.machine.table) (hsends : NoJoin c.machine.sends)
    (hrun : run (clientStep hashKey) c events = some c') :
    joinLog c'.machine.sends = (walks hashKey c events).flatMap (List.map Peer.addr) := by
  have hlog := (run_collect (fun c : Client => TableInv c.machine.table)
    (fun c => joinLog c.machine.sends)
    (fun c e c' hinv h => ⟨(clientStep_turn hinv h).table, (clientStep_turn hinv h).log⟩)
    hinv hrun).2
  rw [hlog, hsends.joinLog, List.nil_append, collect_flatMap]
  rfl

/-- Every walk goes over a bucket that has only grown since. -/
theorem walks_extend {hashKey : Bytes idSize} {c c' : Client} {events : List ClientEvent}
    (hinv : TableInv c.machine.table) (hrun : run (clientStep hashKey) c events = some c') :
    (∀ w ∈ walks hashKey c events, homePeers c.machine.table hashKey <+: w ∧ w ≠ []) ∧
      (walks hashKey c events).Pairwise (· <+: ·) := by
  induction events generalizing c with
  | nil => exact ⟨fun w hw => by simp [walks, collect] at hw, List.Pairwise.nil⟩
  | cons e es ih =>
    obtain ⟨c₁, hstep, hrest⟩ := run_cons.mp hrun
    have hturn := clientStep_turn hinv hstep
    obtain ⟨hlater, hpairs⟩ := ih hturn.table hrest
    have hwalks : walks hashKey c (e :: es) = walk hashKey c e ++ walks hashKey c₁ es := by
      rw [walks, collect, hstep]
      rfl
    rw [hwalks]
    constructor
    · intro w hw
      rcases List.mem_append.mp hw with hw | hw
      · obtain ⟨rfl, hne⟩ := hturn.walked w hw
        exact ⟨hturn.grown, hne⟩
      · exact ⟨hturn.grown.trans (hlater w hw).1, (hlater w hw).2⟩
    · refine List.pairwise_append.mpr ⟨?_, hpairs, ?_⟩
      · apply List.pairwise_of_forall_mem_list
        intro w hw v hv
        have heq : w = v := (hturn.walked w hw).1.trans (hturn.walked v hv).1.symm
        exact heq ▸ List.prefix_refl w
      · intro w hw v hv
        rw [(hturn.walked w hw).1]
        exact (hlater v hv).1

/-- Two walks over one bucket, the second an extension of the first, repeat an address. -/
theorem walks_nodup_iff {ws : List (List Peer)} (hne : ∀ w ∈ ws, w ≠ [])
    (hext : ws.Pairwise (· <+: ·)) :
    (ws.flatMap (List.map Peer.addr)).Nodup ↔
      ws.length ≤ 1 ∧ ∀ w ∈ ws, (w.map Peer.addr).Nodup := by
  cases ws with
  | nil => simp
  | cons w rest =>
    cases rest with
    | nil => simp
    | cons v rest =>
      refine iff_of_false ?_ (fun h => absurd h.1 (by simp))
      intro hnd
      obtain ⟨p, hp⟩ := List.exists_mem_of_ne_nil w (hne w (by simp))
      have hpv : p ∈ v := (List.rel_of_pairwise_cons hext (by simp)).subset hp
      have hdis := List.rel_of_pairwise_cons (List.nodup_flatMap.mp hnd).2
        (show v ∈ v :: rest by simp)
      exact hdis (List.mem_map_of_mem hp) (List.mem_map_of_mem hpv)

/-- A client that has joined nobody yet sends a `JOIN` call to every peer of every walk, and
so at most one to each address exactly when it makes at most one walk, over a bucket without
repeated addresses. -/
theorem joins_at_most_once (hashKey : Bytes idSize) (c c' : Client) (events : List ClientEvent)
    (hinv : TableInv c.machine.table) (hsends : NoJoin c.machine.sends)
    (hrun : run (clientStep hashKey) c events = some c') :
    joinLog c'.machine.sends = (walks hashKey c events).flatMap (List.map Peer.addr) ∧
      ((∀ a, (joinLog c'.machine.sends).count a ≤ 1) ↔
        (walks hashKey c events).length ≤ 1 ∧
          ∀ w ∈ walks hashKey c events, (w.map Peer.addr).Nodup) := by
  have hlog := joinLog_run hinv hsends hrun
  obtain ⟨hext, hpairs⟩ := walks_extend hinv hrun
  refine ⟨hlog, ?_⟩
  rw [hlog, ← List.nodup_iff_count_le_one]
  exact walks_nodup_iff (fun w hw => (hext w hw).2) hpairs

/-- The client of a lone peer still waits. -/
theorem newClient_lone : ∃ c, clientStep fileHash newClient (.recv sendingOs loneMsg) = some c ∧
    NodeInv c.machine ∧ c.machine.wait = true ∧
      homePeers c.machine.table fileHash = [somePeer] := by
  obtain ⟨c, hstep, hinv, htaken, hsends, hlen, -⟩ := newClient_takes
  have hstep' := hstep
  obtain ⟨r, m, hm, rfl⟩ := clientStep_recv.mp hstep'
  have hmem : somePeer ∈ homePeers m.table fileHash := by
    have hstart : ClientInv fileHash newClient := newClient_started.inv
    have hnone : m.sends = newClient.machine.sends ++ [] := hsends.trans (List.append_nil _).symm
    have hturn := hstart.recv hm hnone (fun _ x hx => by simp at hx)
    apply hturn.taken
    rw [htaken]
    exact List.mem_singleton_self _
  refine ⟨_, hstep, hinv, ?_, ?_⟩
  · cases recvRpc_loopEffect newClient_inv.table hm with
    | passed _ _ _ _ hc => exact absurd loneMsg_brings.1 hc.not_reply
    | answered _ _ _ _ ha => exact absurd loneMsg_brings.1 ha.1.not_reply
    | joining _ _ _ _ hl =>
      have hone : homeLen m.table fileHash = 1 := hlen
      rw [hone] at hl
      exact absurd hl (by decide)
    | stored _ hwait => exact hwait
    | other _ _ _ _ _ hb => exact absurd loneMsg_brings hb
  · have hone : (homePeers m.table fileHash).length = 1 := (homePeers_length _ _).trans hlen
    obtain ⟨q, hq⟩ := List.length_eq_one_iff.mp hone
    show homePeers m.table fileHash = [somePeer]
    rw [hq] at hmem ⊢
    rw [List.mem_singleton.mp hmem]

/-- A client with one peer joins that peer at a timeout. -/
theorem lone_timeout {c : Client} (hinv : NodeInv c.machine) (hw : c.machine.wait = true)
    (hhome : homePeers c.machine.table fileHash = [somePeer]) :
    ∃ c', clientStep fileHash c (.timeout sendingOs) = some c' ∧ NodeInv c'.machine ∧
      c'.machine.wait = true ∧ homePeers c'.machine.table fileHash = [somePeer] ∧
      joinLog c'.machine.sends = joinLog c.machine.sends ++ [somePeer.addr] := by
  have hhash : Terminated fileHash.mem := by decide
  have hne : c.machine.table[homeOf fileHash.str].len ≠ 0 := by
    rw [← PeerBucket.peers_length]
    intro h0
    have hnil : homePeers c.machine.table fileHash = [] := List.eq_nil_of_length_eq_zero h0
    rw [hhome] at hnil
    cases hnil
  have hbucket := getPeerBucket_inv hinv.table hhash
  obtain ⟨m, hm⟩ := joinPeers_total sendingOs fileHash c.machine _ hinv.strings hbucket hne
  have hstep : clientStep fileHash c (.timeout sendingOs) = some ⟨m, c.taken⟩ :=
    clientStep_timeout.mpr ⟨hw, m, hm, rfl⟩
  have hlog := (clientStep_turn hinv.table hstep).log
  rw [walk, hhome] at hlog
  refine ⟨⟨m, c.taken⟩, hstep, ?_⟩
  obtain ⟨ps, -, rfl⟩ := joinPeers_calls hm
  exact ⟨⟨hinv.table, hinv.strings.ip, hinv.strings.neighbors, hinv.strings.peers⟩, hw, hhome,
    hlog⟩

/-- The client of a lone peer, which has called nobody, at its first timeout. -/
theorem newClient_joins : ∃ c₁ c₂,
    clientStep fileHash newClient (.recv sendingOs loneMsg) = some c₁ ∧
      clientStep fileHash c₁ (.timeout sendingOs) = some c₂ ∧ NodeInv c₂.machine ∧
      c₂.machine.wait = true ∧ homePeers c₂.machine.table fileHash = [somePeer] ∧
      joinLog c₂.machine.sends = [somePeer.addr] := by
  obtain ⟨c₁, hstep₁, hinv₁, hw₁, hhome₁⟩ := newClient_lone
  obtain ⟨c₂, hstep₂, hinv₂, hw₂, hhome₂, hlog₂⟩ := lone_timeout hinv₁ hw₁ hhome₁
  have hshort : homeLen newClient.machine.table fileHash +
      replyCount (decodeHeader loneMsg).body < initialCap := by
    rw [newClient_empty, loneMsg_count]
    decide
  have hlog₁ := (clientStep_turn newClient_inv.table hstep₁).log
  rw [walk_short hshort, newClient_started.sends.joinLog] at hlog₁
  rw [hlog₁] at hlog₂
  exact ⟨c₁, c₂, hstep₁, hstep₂, hinv₂, hw₂, hhome₂, hlog₂⟩

theorem joins_at_most_once_lone : ∃ c,
    run (clientStep fileHash) newClient [.recv sendingOs loneMsg, .timeout sendingOs] = some c ∧
      joinLog c.machine.sends = [somePeer.addr] ∧
      joinLog c.machine.sends = (walks fileHash newClient
        [.recv sendingOs loneMsg, .timeout sendingOs]).flatMap (List.map Peer.addr) ∧
      (walks fileHash newClient [.recv sendingOs loneMsg, .timeout sendingOs]).length ≤ 1 := by
  obtain ⟨c₁, c₂, hstep₁, hstep₂, -, -, -, hlog⟩ := newClient_joins
  have hrun : run (clientStep fileHash) newClient [.recv sendingOs loneMsg, .timeout sendingOs] =
      some c₂ := run_cons.mpr ⟨c₁, hstep₁, run_cons.mpr ⟨c₂, hstep₂, rfl⟩⟩
  obtain ⟨hjoins, honce⟩ := joins_at_most_once fileHash newClient c₂ _ newClient_inv.table
    newClient_started.sends hrun
  have hone : ∀ a, (joinLog c₂.machine.sends).count a ≤ 1 := by
    rw [hlog, ← List.nodup_iff_count_le_one]
    exact List.nodup_singleton _
  exact ⟨c₂, hrun, hlog, hjoins, (honce.mp hone).1⟩

/-- A client whose only answer brought one peer calls that peer at every timeout. -/
theorem peer_joined_twice : newClient.Started ∧ ∃ c',
    run (clientStep fileHash) newClient
        [.recv sendingOs loneMsg, .timeout sendingOs, .timeout sendingOs] = some c' ∧
      (joinLog c'.machine.sends).count somePeer.addr = 2 := by
  obtain ⟨c₁, c₂, hstep₁, hstep₂, hinv₂, hw₂, hhome₂, hlog₂⟩ := newClient_joins
  obtain ⟨c₃, hstep₃, -, -, -, hlog₃⟩ := lone_timeout hinv₂ hw₂ hhome₂
  rw [hlog₂] at hlog₃
  refine ⟨newClient_started, c₃, run_cons.mpr ⟨c₁, hstep₁, run_cons.mpr ⟨c₂, hstep₂,
    run_cons.mpr ⟨c₃, hstep₃, rfl⟩⟩⟩, ?_⟩
  rw [hlog₃]
  simp

end PeerToPeer
