import PeerToPeer.Client.Loop

namespace PeerToPeer

open CLib Transition

/-- Every peer taken from an answer was sent a `JOIN` call. -/
def AllJoined (c : Client) : Prop := ∀ p ∈ c.taken, Joined c.machine.sends p

/-- The client waits as long as a peer is unjoined. -/
def Settled (c : Client) : Prop := c.machine.wait = false → AllJoined c

/-- The client answers no search while a peer is unjoined, and takes a lone first peer only while
it waits. -/
def Guarded (hashKey : Bytes idSize) (c : Client) : ClientEvent → Prop
  | .timeout _ => True
  | .recv _ msg =>
      (AnswersCall c.machine msg → AllJoined c) ∧
        (BringsPeers msg → homeLen c.machine.table hashKey = 0 →
          replyCount (decodeHeader msg).body = 1 → c.machine.wait = true)

/-- What holds of the client at every turn of the loop. -/
structure ClientInv (hashKey : Bytes idSize) (c : Client) : Prop where
  table : TableInv c.machine.table
  taken : ∀ p ∈ c.taken, p ∈ homePeers c.machine.table hashKey
  unjoined : homeLen c.machine.table hashKey = 0 → NoJoin c.machine.sends

/-- The client as it enters the loop. -/
structure Client.Started (c : Client) : Prop where
  table : c.machine.table = initPeerTable fun _ => .zeroed
  wait : c.machine.wait = true
  sends : NoJoin c.machine.sends
  taken : c.taken = []

theorem Client.Started.inv {hashKey : Bytes idSize} {c : Client} (h : c.Started) :
    ClientInv hashKey c := by
  refine ⟨h.table ▸ initPeerTable_inv, ?_, fun _ => h.sends⟩
  intro p hp
  rw [h.taken] at hp
  simp at hp

theorem Client.Started.settled {c : Client} (h : c.Started) : Settled c := by
  intro hw
  rw [h.wait] at hw
  cases hw

theorem takenPeers_of_brings {msg : RpcMsg} (h : BringsPeers msg) :
    takenPeers msg = replyPeers (decodeHeader msg) := if_pos ⟨h.1, h.2.1⟩

theorem takenPeers_eq_nil {msg : RpcMsg} (h : ¬ BringsPeers msg) : takenPeers msg = [] := by
  unfold takenPeers
  split_ifs with hr
  · apply List.eq_nil_of_length_eq_zero
    rw [replyPeers_length]
    by_contra hc
    exact h ⟨hr.1, hr.2, hc⟩
  · rfl

theorem takenPeers_subset {msg : RpcMsg} {sent : Bool} {replyTo : Origin} {p : Peer}
    (h : p ∈ takenPeers msg) : p ∈ storedPeers sent replyTo (decodeHeader msg) := by
  unfold takenPeers at h
  split_ifs at h with hr
  · rwa [storedPeers_reply hr.1 hr.2]
  · simp at h

section Step

variable {hashKey : Bytes idSize} {c : Client} {m' : Machine} {os : Os} {msg : RpcMsg} {r : Int}

theorem home_grown (hinv : TableInv c.machine.table)
    (h : recvRpc os hashKey msg c.machine = .ok (r, m')) :
    homePeers m'.table hashKey = homePeers c.machine.table hashKey ++
      storedPeers (os.sendto c.machine.sends.length)
        ⟨ntohs msg.origin.port, msg.origin.ip.norm⟩ (decodeHeader msg) :=
  (recvRpc_appended hinv h).2.home

theorem homeLen_brings (hinv : TableInv c.machine.table) (hb : BringsPeers msg)
    (h : recvRpc os hashKey msg c.machine = .ok (r, m')) :
    homeLen m'.table hashKey =
      homeLen c.machine.table hashKey + replyCount (decodeHeader msg).body := by
  have hlen := congrArg List.length (home_grown hinv h)
  rwa [storedPeers_reply hb.1 hb.2.1, List.length_append, homePeers_length, homePeers_length,
    replyPeers_length] at hlen

/-- Handling a message keeps the invariant, if it joins nobody while there are no peers. -/
theorem ClientInv.recv {out : List Send} (hinv : ClientInv hashKey c)
    (h : recvRpc os hashKey msg c.machine = .ok (r, m'))
    (hsends : m'.sends = c.machine.sends ++ out)
    (hout : homeLen m'.table hashKey = 0 → NoJoin out) :
    ClientInv hashKey ⟨m', c.taken ++ takenPeers msg⟩ := by
  have happ := recvRpc_appended hinv.table h
  have hhome := home_grown hinv.table h
  refine ⟨happ.1, ?_, ?_⟩
  · intro p hp
    rw [hhome]
    rcases List.mem_append.mp hp with hp | hp
    · exact List.mem_append_left _ (hinv.taken p hp)
    · exact List.mem_append_right _ (takenPeers_subset hp)
  · intro h0
    have hgrown : homeLen c.machine.table hashKey ≤ homeLen m'.table hashKey :=
      happ.2.homeLen_le hashKey
    have h0' : homeLen m'.table hashKey = 0 := h0
    show NoJoin m'.sends
    intro x hx
    rw [hsends] at hx
    rcases List.mem_append.mp hx with hx | hx
    · exact hinv.unjoined (by omega) x hx
    · exact hout h0' x hx

/-- Without peers taken or joined, nothing changes. -/
theorem allJoined_quiet_iff {out : List Send} (hsends : m'.sends = c.machine.sends ++ out)
    (hout : NoJoin out) (hb : ¬ BringsPeers msg) :
    AllJoined ⟨m', c.taken ++ takenPeers msg⟩ ↔ AllJoined c := by
  rw [takenPeers_eq_nil hb, List.append_nil]
  refine forall₂_congr ?_
  intro p _
  show Joined m'.sends p ↔ _
  rw [hsends, joined_append_iff hout]

/-- The first peers are unjoined as long as nothing is sent. -/
theorem ClientInv.lone_unjoined (hinv : ClientInv hashKey c)
    (h0 : homeLen c.machine.table hashKey = 0) (hb : BringsPeers msg)
    (hsends : m'.sends = c.machine.sends) : ¬ AllJoined ⟨m', c.taken ++ takenPeers msg⟩ := by
  have hpos : 0 < (replyPeers (decodeHeader msg)).length := by
    rw [replyPeers_length]
    exact Nat.pos_of_ne_zero hb.2.2
  obtain ⟨p, hp⟩ := List.exists_mem_of_length_pos hpos
  intro hall
  have hmem : p ∈ c.taken ++ takenPeers msg := by
    rw [takenPeers_of_brings hb]
    exact List.mem_append_right _ hp
  have hjoined : Joined m'.sends p := hall p hmem
  rw [hsends] at hjoined
  exact (hinv.unjoined h0).not_joined hjoined

/-- One handled message: the client stays settled exactly when it was guarded against it. -/
theorem recv_settled_iff (hinv : ClientInv hashKey c) (hsettled : Settled c)
    (hos : ∀ k, os.sendto k = true) (h : recvRpc os hashKey msg c.machine = .ok (r, m')) :
    ClientInv hashKey ⟨m', c.taken ++ takenPeers msg⟩ ∧
      (Settled ⟨m', c.taken ++ takenPeers msg⟩ ↔ Guarded hashKey c (.recv os msg)) := by
  cases recvRpc_loopEffect hinv.table h with
  | passed out hsends hout hwait hc ha =>
    refine ⟨hinv.recv h hsends fun _ => hout, iff_of_true ?_ ⟨fun h => absurd h ha,
      fun hb => absurd hb.1 hc.not_reply⟩⟩
    intro hw
    rw [show m'.wait = false from hw] at hwait
    cases hwait
  | answered out hsends hout hwait ha =>
    have hquiet : ¬ BringsPeers msg := fun hb => ha.1.not_reply hb.1
    have hjoined := allJoined_quiet_iff hsends hout hquiet
    exact ⟨hinv.recv h hsends fun _ => hout,
      fun hs => ⟨fun _ => hjoined.mp (hs hwait), fun hb => absurd hb hquiet⟩,
      fun hg _ => hjoined.mpr (hg.1 ha)⟩
  | joining host k hwait hb hl hsends =>
    have hl' : 2 ≤ homeLen m'.table hashKey := hl
    have hinv' : ClientInv hashKey ⟨m', c.taken ++ takenPeers msg⟩ :=
      hinv.recv h hsends fun h0 => by omega
    refine ⟨hinv', iff_of_true ?_ ⟨fun ha => absurd hb.1 ha.1.not_reply,
      ?_⟩⟩
    · intro _ p hp
      obtain ⟨x, hx, hj⟩ := joined_joinSends hos (hinv'.taken p hp)
      show Joined m'.sends p
      rw [hsends]
      exact ⟨x, List.mem_append_right _ hx, hj⟩
    · intro _ h0 h1
      have hlen := homeLen_brings hinv.table hb h
      omega
  | stored hsends hwait hb hl =>
    have hl' : homeLen m'.table hashKey < 2 := hl
    have hlen := homeLen_brings hinv.table hb h
    have hpos : replyCount (decodeHeader msg).body ≠ 0 := hb.2.2
    have h0 : homeLen c.machine.table hashKey = 0 := by omega
    have h1 : replyCount (decodeHeader msg).body = 1 := by omega
    have hnone : NoJoin [] := by
      intro x hx
      simp at hx
    refine ⟨hinv.recv h (hsends.trans (List.append_nil _).symm) fun _ => hnone, ?_, ?_⟩
    · intro hs
      refine ⟨fun ha => absurd hb.1 ha.1.not_reply, ?_⟩
      intro _ _ _
      by_contra hw
      have hwait' : m'.wait = false := hwait.trans (Bool.eq_false_iff.mpr hw)
      exact hinv.lone_unjoined h0 hb hsends (hs hwait')
    · intro hg hw
      have hwait' : c.machine.wait = false := hwait.symm.trans hw
      rw [hg.2 hb h0 h1] at hwait'
      cases hwait'
  | other out hsends hout hwait hc hb =>
    refine ⟨hinv.recv h hsends fun _ => hout, iff_of_true ?_
      ⟨fun ha => absurd ha.1 hc, fun h => absurd h hb⟩⟩
    intro hw
    exact (allJoined_quiet_iff hsends hout hb).mpr (hsettled (hwait.symm.trans hw))

end Step

/-- One turn of the loop. -/
theorem clientStep_settled_iff {hashKey : Bytes idSize} {c c' : Client} {e : ClientEvent}
    (hinv : ClientInv hashKey c) (hsettled : Settled c) (he : e.Sends)
    (h : clientStep hashKey c e = some c') :
    ClientInv hashKey c' ∧ (Settled c' ↔ Guarded hashKey c e) := by
  cases e with
  | timeout os =>
    obtain ⟨hw, m, hm, rfl⟩ := clientStep_timeout.mp h
    rcases joinPeers_ok hm with ⟨hb, -⟩ | ⟨b, hb, ⟨-, h1, -⟩ | ⟨hl, -, rfl⟩⟩
    · cases getPeerBucket_ok hinv.table hb
    · cases h1
    · obtain rfl := Option.some.inj (getPeerBucket_ok hinv.table hb)
      refine ⟨⟨hinv.table, hinv.taken, fun h0 => absurd h0 hl⟩, iff_of_true ?_ trivial⟩
      intro hw'
      have hwait : c.machine.wait = false := hw'
      rw [hw] at hwait
      cases hwait
  | recv os msg =>
    obtain ⟨r, m, hm, rfl⟩ := clientStep_recv.mp h
    exact recv_settled_iff hinv hsettled he hm

/-- In a run of the event loop the client always waits for its unjoined peers exactly when every
turn is guarded. -/
theorem settled_iff_guarded (hashKey : Bytes idSize) (c : Client) (events : List ClientEvent)
    (hstart : c.Started) (hsends : ∀ e ∈ events, e.Sends) :
    AllStates (clientStep hashKey) Settled c events ↔
      AllSteps (clientStep hashKey) (fun c e _ => Guarded hashKey c e) c events :=
  allStates_iff_allSteps (P := ClientEvent.Sends) (ClientInv hashKey)
    (fun _ _ _ hinv hsettled he h => clientStep_settled_iff hinv hsettled he h) hstart.inv
    hstart.settled hsends

/-- A client without neighbours. -/
def newClient : Client := ⟨aloneNode, []⟩

theorem newClient_started : newClient.Started :=
  ⟨rfl, rfl, fun x hx => by simp [newClient, aloneNode] at hx, rfl⟩

theorem newClient_inv : NodeInv newClient.machine :=
  Booted.inv ⟨rfl, by decide, by simp [newClient, aloneNode]⟩

theorem newClient_empty : homeLen newClient.machine.table fileHash = 0 := initPeerTable_len _ _

/-- An answer with one peer. -/
def loneAnswer : Outgoing := .reply .getPeers (answerBytes [somePeer]) randomValue .ok

def loneMsg : RpcMsg := replyOf .getPeers (answerBytes [somePeer]) randomValue .ok

theorem loneAnswer_clean : loneAnswer.Clean := by
  have hid : Terminated randomValue.mem := by decide
  refine ⟨hid, fun _ _ => ⟨by decide, ?_⟩⟩
  intro p hp
  rw [payloadPeers_answerBytes (by decide)] at hp
  obtain rfl := List.mem_singleton.mp hp
  decide

theorem loneAnswer_build : loneAnswer.build = .ok loneMsg := by
  have hid : Terminated randomValue.mem := by decide
  exact replyMsg_ok_iff.mpr ⟨by rw [answerBytes_length]; decide, hid, rfl⟩

theorem loneMsg_count : replyCount (decodeHeader loneMsg).body = 1 := replyCount_replyOf _ _ _ _

theorem loneMsg_brings : BringsPeers loneMsg := by
  refine ⟨isReply_replyOf_iff.mpr rfl, replyOk_replyOf_iff.mpr rfl, ?_⟩
  rw [loneMsg_count]
  decide

theorem settled_iff_guarded_lone :
    AllStates (clientStep fileHash) Settled newClient [.recv sendingOs loneMsg] := by
  refine (settled_iff_guarded fileHash newClient [.recv sendingOs loneMsg] newClient_started
    ?_).mpr fun c' _ => ⟨⟨?_, fun _ _ _ => rfl⟩, trivial⟩
  · intro e he
    obtain rfl := List.mem_singleton.mp he
    exact fun _ => rfl
  · intro ha
    exact absurd loneMsg_brings.1 ha.1.not_reply

/-- The lone peer of the first answer is stored, and nobody joined. -/
theorem newClient_takes : ∃ c, clientStep fileHash newClient (.recv sendingOs loneMsg) = some c ∧
    NodeInv c.machine ∧ c.taken = [somePeer] ∧ c.machine.sends = [] ∧
      homeLen c.machine.table fileHash = 1 ∧
      ∀ b : Fin maxPeerBuckets, c.machine.table[b].len ≤ 25 := by
  have hfit : ∀ b : Fin maxPeerBuckets, newClient.machine.table[b].len ≤ 25 := by
    intro b
    have h0 : newClient.machine.table[b].len = 0 := initPeerTable_len _ b
    omega
  obtain ⟨r, m, hm, happ⟩ := newClient_inv.recvRpc_ok sendingOs fileHash hfit (by decide)
    loneAnswer_clean loneAnswer_build
  have hlen := homeLen_brings newClient_inv.table loneMsg_brings hm
  rw [newClient_empty, loneMsg_count] at hlen
  have hone : payloadPeers (answerBytes [somePeer]) = [somePeer] :=
    payloadPeers_answerBytes (Nat.le_add_left 1 24)
  have htaken : newClient.taken ++ takenPeers loneMsg = [somePeer] := by
    have hcount : ((answerBytes [somePeer]).getD 0 0).toNat ≤ 25 := by decide
    rw [takenPeers_of_brings loneMsg_brings, loneMsg, replyPeers_replyOf hcount, hone]
    rfl
  have hinv : NodeInv m := nodeStep_inv (e := .recv sendingOs fileHash loneMsg) newClient_inv
    ⟨loneAnswer, loneAnswer_clean, loneAnswer_build⟩ (nodeStep_recv.mpr ⟨r, hm⟩)
  have hsends : m.sends = [] := by
    cases recvRpc_loopEffect newClient_inv.table hm with
    | passed _ _ _ _ hc => exact absurd loneMsg_brings.1 hc.not_reply
    | answered _ _ _ _ ha => exact absurd loneMsg_brings.1 ha.1.not_reply
    | joining _ _ _ _ hl =>
      rw [hlen] at hl
      exact absurd hl (by decide)
    | stored hs => exact hs
    | other _ _ _ _ _ hb => exact absurd loneMsg_brings hb
  refine ⟨_, clientStep_recv.mpr ⟨r, m, hm, rfl⟩, hinv, htaken, hsends, hlen, ?_⟩
  intro b
  have hstores : loneAnswer.stores (sendingOs.sendto newClient.machine.sends.length) =
      [somePeer] := hone
  have hgrown := happ.len_le b
  have h0 : newClient.machine.table[b].len = 0 := initPeerTable_len _ b
  rw [hstores, List.length_singleton, h0] at hgrown
  exact hgrown.trans (by decide)

/-- Another node's search for the file, as the client receives it. -/
def askMsg : RpcMsg := searchCall sendingOs fileHash ⟨3002, Bytes.zero 16⟩ aloneNode

/-- A lone peer arrives, then another node's search is answered: the client stops waiting, and
the peer was never sent a `JOIN` call. -/
theorem peer_left_unjoined : newClient.Started ∧ ∃ c, run (clientStep fileHash) newClient
      [.recv sendingOs loneMsg, .recv sendingOs askMsg] = some c ∧
    c.machine.wait = false ∧ somePeer ∈ c.taken ∧ ¬ Joined c.machine.sends somePeer := by
  obtain ⟨c₁, hstep₁, hinv₁, htaken₁, hsends₁, hlen₁, hfit₁⟩ := newClient_takes
  have hhash : Terminated fileHash.mem := by decide
  have hask : AnswersCall c₁.machine askMsg := by
    refine ⟨searchCall_isCall _ _ _ _, ?_⟩
    intro h
    have hasked : askedHash askMsg = fileHash := searchCall_hash _ _ _ _
    rw [hasked, hlen₁] at h
    exact absurd h.1 one_ne_zero
  have hstrings : MsgStrings askMsg := searchCall_strings hhash (by decide) (by decide)
  obtain ⟨r, m, hm⟩ := recvRpc_total sendingOs fileHash askMsg c₁.machine hinv₁.strings
    hinv₁.table hhash ⟨fun _ => hfit₁ _, hfit₁ _⟩ hstrings (countFits_of_call hask.1)
  refine ⟨newClient_started, _,
    run_cons.mpr ⟨c₁, hstep₁, run_cons.mpr ⟨_, clientStep_recv.mpr ⟨r, m, hm, rfl⟩, rfl⟩⟩, ?_⟩
  cases recvRpc_loopEffect hinv₁.table hm with
  | passed _ _ _ _ _ ha => exact absurd hask ha
  | joining _ _ _ hb => exact absurd hb.1 hask.1.not_reply
  | stored _ _ hb => exact absurd hb.1 hask.1.not_reply
  | other _ _ _ _ hc => exact absurd hask.1 hc
  | answered out hsends hout hwait =>
    refine ⟨hwait, ?_, ?_⟩
    · rw [htaken₁]
      exact List.mem_append_left _ List.mem_cons_self
    · show ¬ Joined m.sends somePeer
      rw [hsends, hsends₁, List.nil_append]
      exact hout.not_joined

end PeerToPeer
