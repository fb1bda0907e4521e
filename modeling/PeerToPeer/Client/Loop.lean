import PeerToPeer.Nodes.Runs
import PeerToPeer.Rpc.Searching

namespace PeerToPeer

open CLib Transition

/-- The client process: its node, and every peer that an answer has brought it. -/
structure Client where
  machine : Machine
  taken : List Peer

inductive ClientEvent where
  | timeout (os : Os)
  | recv (os : Os) (msg : RpcMsg)

/-- The socket takes everything that is sent. -/
def ClientEvent.Sends : ClientEvent → Prop
  | timeout os => ∀ k, os.sendto k = true
  | recv os _ => ∀ k, os.sendto k = true

/-- The peers that a message brings as an answer to a search. -/
def takenPeers (msg : RpcMsg) : List Peer :=
  if IsReply (decodeHeader msg) .getPeers ∧ ReplyOk (decodeHeader msg) then
    replyPeers (decodeHeader msg)
  else []

/-- One turn of the event loop: only a waiting client times out, and it exits when it has no
peers to join. -/
def clientStep (hashKey : Bytes idSize) (c : Client) : ClientEvent → Option Client
  | .timeout os =>
      if c.machine.wait then
        (joinPeers os hashKey c.machine).toOption.bind fun r =>
          if r.1 = 0 then some { c with machine := r.2 } else none
      else none
  | .recv os msg =>
      (recvRpc os hashKey msg c.machine).toOption.map fun r => ⟨r.2, c.taken ++ takenPeers msg⟩

section Step

variable {hashKey : Bytes idSize} {c c' : Client} {os : Os} {msg : RpcMsg}

theorem clientStep_timeout : clientStep hashKey c (.timeout os) = some c' ↔
    c.machine.wait = true ∧ ∃ m, joinPeers os hashKey c.machine = .ok (0, m) ∧
      ⟨m, c.taken⟩ = c' := by
  simp only [clientStep, Option.ite_none_right_eq_some, Option.bind_eq_some_iff, toOption_eq_some,
    Prod.exists, Option.some.injEq]
  refine and_congr_right fun _ => ⟨?_, ?_⟩
  · rintro ⟨r, m, hm, rfl, rfl⟩
    exact ⟨m, hm, rfl⟩
  · rintro ⟨m, hm, rfl⟩
    exact ⟨0, m, hm, rfl, rfl⟩

theorem clientStep_recv : clientStep hashKey c (.recv os msg) = some c' ↔
    ∃ r m, recvRpc os hashKey msg c.machine = .ok (r, m) ∧
      ⟨m, c.taken ++ takenPeers msg⟩ = c' := by
  simp only [clientStep, Option.map_eq_some_iff, toOption_eq_some, Prod.exists]

end Step

/-- No `JOIN` call is among the attempts. -/
def NoJoin (out : List Send) : Prop := ∀ x ∈ out, ¬ IsCall (decodeHeader x.msg) .join

/-- The peer was sent a `JOIN` call. -/
def Joined (out : List Send) (p : Peer) : Prop :=
  ∃ x ∈ out, x.dest.addr = p.addr ∧ x.sent = true ∧ IsCall (decodeHeader x.msg) .join

theorem Joined.append {out out' : List Send} {p : Peer} (h : Joined out p) :
    Joined (out ++ out') p := by
  obtain ⟨x, hx, hj⟩ := h
  exact ⟨x, List.mem_append_left out' hx, hj⟩

theorem joined_append_iff {out out' : List Send} {p : Peer} (h : NoJoin out') :
    Joined (out ++ out') p ↔ Joined out p := by
  refine ⟨?_, Joined.append⟩
  rintro ⟨x, hx, hd, hs, hj⟩
  rcases List.mem_append.mp hx with hx | hx
  · exact ⟨x, hx, hd, hs, hj⟩
  · exact absurd hj (h x hx)

theorem NoJoin.not_joined {out : List Send} {p : Peer} (h : NoJoin out) : ¬ Joined out p := by
  rintro ⟨x, hx, -, -, hj⟩
  exact h x hx hj

theorem Peer.origin_addr (p : Peer) : p.origin.addr = p.addr := by
  rw [Peer.origin, Origin.addr, Peer.addr, Bytes.str_norm]

theorem joined_joinSends {os : Os} {host : Origin} {k : Nat} {ps : List Peer}
    (hos : ∀ k, os.sendto k = true) {p : Peer} (hp : p ∈ ps) :
    Joined (joinSends os host k ps) p := by
  induction ps generalizing k with
  | nil => simp at hp
  | cons q ps ih =>
    rcases List.mem_cons.mp hp with rfl | hp
    · exact ⟨_, List.mem_cons_self, p.origin_addr, hos k, (isCall_callOf_iff (Nat.zero_le _)).mpr rfl⟩
    · obtain ⟨x, hx, hj⟩ := ih (k := k + 1) hp
      exact ⟨x, List.mem_cons_of_mem _ hx, hj⟩

theorem noJoin_reply {os : Os} {m : Machine} {dest : Origin} {method : Method}
    {payload : List UInt8} {id : Bytes correlationIdSize} {status : MsgStatus} :
    NoJoin [attempt os m dest (replyOf method payload id status)] := by
  intro x hx
  obtain rfl := List.mem_singleton.mp hx
  exact not_isCall_replyOf

theorem noJoin_searchSends {os : Os} {hash : Bytes idSize} {src replyTo : Origin} {m : Machine} :
    NoJoin (searchSends os hash src replyTo m) := by
  intro x hx
  rw [searchSends_eq] at hx
  obtain ⟨next, -, rfl⟩ := Option.map_eq_some_iff.mp (Option.mem_toList.mp hx)
  intro hj
  have hm : Method.getPeers = .join := (isCall_callOf_iff (by simp)).mp hj
  cases hm

/-- The client answers a search, rather than pass it on. -/
def AnswersCall (m : Machine) (msg : RpcMsg) : Prop :=
  IsCall (decodeHeader msg) .getPeers ∧
    ¬ (homeLen m.table (askedHash msg) = 0 ∧ 0 < m.sortedNeighbors.len)

/-- The message is an answer that brings peers. -/
def BringsPeers (msg : RpcMsg) : Prop :=
  IsReply (decodeHeader msg) .getPeers ∧ ReplyOk (decodeHeader msg) ∧
    replyCount (decodeHeader msg).body ≠ 0

/-- What a handled message does to waiting and joining. -/
inductive LoopEffect (os : Os) (hashKey : Bytes idSize) (msg : RpcMsg) (m m' : Machine) : Prop where
  | passed (out : List Send) (hsends : m'.sends = m.sends ++ out) (hout : NoJoin out)
      (hwait : m'.wait = true) (hc : IsCall (decodeHeader msg) .getPeers)
      (ha : ¬ AnswersCall m msg)
  | answered (out : List Send) (hsends : m'.sends = m.sends ++ out) (hout : NoJoin out)
      (hwait : m'.wait = false) (ha : AnswersCall m msg)
  | joining (host : Origin) (k : Nat) (hwait : m'.wait = false) (hb : BringsPeers msg)
      (hl : initialCap ≤ homeLen m'.table hashKey)
      (hsends : m'.sends = m.sends ++ joinSends os host k (homePeers m'.table hashKey))
  | stored (hsends : m'.sends = m.sends) (hwait : m'.wait = m.wait) (hb : BringsPeers msg)
      (hl : homeLen m'.table hashKey < initialCap)
  | other (out : List Send) (hsends : m'.sends = m.sends ++ out) (hout : NoJoin out)
      (hwait : m'.wait = m.wait) (hc : ¬ IsCall (decodeHeader msg) .getPeers)
      (hb : ¬ BringsPeers msg)

theorem recvRpc_loopEffect {os : Os} {hashKey : Bytes idSize} {msg : RpcMsg} {m m' : Machine}
    {r : Int} (hinv : TableInv m.table) (h : recvRpc os hashKey msg m = .ok (r, m')) :
    LoopEffect os hashKey msg m m' := by
  have silent : m.sends = m.sends ++ [] := (List.append_nil _).symm
  have hnil : NoJoin [] := by
    intro x hx
    simp at hx
  cases (recvRpc_handled h).2 with
  | otherCall ht hg hj => exact .other [] silent hnil rfl hg fun hb => hb.1.1 ht
  | otherReply _ ht hg => exact .other [] silent hnil rfl (fun hc => ht hc.1) fun hb => hg hb.1
  | badReply hr hs =>
    exact .other [] silent hnil rfl (fun hc => hc.not_reply hr) fun hb => hs hb.2.1
  | emptyReply hr hs hc =>
    exact .other [] silent hnil rfl (fun hc => hc.not_reply hr) fun hb => hb.2.2 hc
  | noBucket _ hc hb => cases getPeerBucket_ok hinv hb
  | forwarded b hc hb hl hn =>
    obtain rfl := Option.some.inj (getPeerBucket_ok hinv hb)
    exact .passed _ rfl noJoin_searchSends rfl hc fun ha => ha.2 ⟨hl, hn⟩
  | answered b hc hb hn hf =>
    obtain rfl := Option.some.inj (getPeerBucket_ok hinv hb)
    exact .answered _ rfl noJoin_reply rfl ⟨hc, hn⟩
  | joinFailed hc hs =>
    exact .other _ rfl noJoin_reply rfl (fun hg => hg.method_unique hc)
      fun hb => hc.not_reply hb.1
  | joined t hc hs ht =>
    exact .other _ rfl noJoin_reply rfl (fun hg => hg.method_unique hc)
      fun hb => hc.not_reply hb.1
  | unfiled t hr hs hc ht hb hm =>
    cases getPeerBucket_ok (setPeers_key_ok hinv ht).1 hb
  | stored t b hr hs hc ht hb hl hm =>
    obtain rfl := Option.some.inj (getPeerBucket_ok (setPeers_key_ok hinv ht).1 hb)
    exact .stored rfl rfl ⟨hr, hs, hc⟩ hl
  | joining t b hr hs hc ht hb hl hm =>
    obtain rfl := Option.some.inj (getPeerBucket_ok (setPeers_key_ok hinv ht).1 hb)
    exact .joining m.node.origin m.sends.length rfl ⟨hr, hs, hc⟩ hl rfl

end PeerToPeer
