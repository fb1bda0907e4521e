import PeerToPeer.Nodes.Runs
import PeerToPeer.Peers.Probing
import PeerToPeer.Rpc.Searching

namespace PeerToPeer

open CLib

/-- A search, its header decoded, for the empty string. -/
def EmptySearch (msg : RpcMsg) : Prop := IsCall msg .getPeers ∧ (decodeHash msg.body).str = []

instance (msg : RpcMsg) : Decidable (EmptySearch msg) := inferInstanceAs (Decidable (_ ∧ _))

/-- The messages, their header decoded, that `recv_rpc` has no business with. -/
inductive Invalid (msg : RpcMsg) : Prop where
  | type (hc : msg.msgType ≠ MsgType.call.code) (hr : msg.msgType ≠ MsgType.reply.code)
  | method (ht : msg.msgType = MsgType.call.code) (hg : ¬ IsCall msg .getPeers)
      (hj : ¬ IsCall msg .join)
  | hash (h : EmptySearch msg)
  | status (ht : msg.msgType = MsgType.reply.code) (hs : ¬ ReplyOk msg)

/-- The message was turned away: a search for the empty string with one reply of status `ERR` to
the caller, all others without a word. -/
structure Rejected (os : Os) (msg : RpcMsg) (replyTo : Origin) (m m' : Machine) : Prop where
  table : m'.table = m.table
  wait : m'.wait = m.wait
  sends : if EmptySearch msg then
      ∃ payload, m'.sends = m.sends ++
        [attempt os m replyTo (replyOf .getPeers payload msg.correlationId .err)]
    else m'.sends = m.sends

/-- A message of unknown type that is taken for an answer with peers. -/
structure Mistaken (msg : RpcMsg) : Prop where
  type : msg.msgType ≠ MsgType.reply.code
  reply : IsReply msg .getPeers
  ok : ReplyOk msg
  peers : replyCount msg.body ≠ 0

/-- The peers of an answer come to nothing: they are dropped, and no bucket is joined. -/
structure Harmless (hashKey : Bytes idSize) (msg : RpcMsg) (t : PeerTable) : Prop where
  count : replyCount msg.body ≤ maxPeerBuckets
  drops : Drops t hashKey.mem
  small : t[homeOf hashKey.str].key.toNat ≤ (homeOf hashKey.str).val ∨
    t[homeOf hashKey.str].key.toNat = 4294967295 → t[homeOf hashKey.str].len < initialCap

section Reject

variable {os : Os} {hashKey : Bytes idSize} {msg : RpcMsg} {m : Machine}

theorem rejected_self {replyTo : Origin} (h : ¬ EmptySearch msg) : Rejected os msg replyTo m m := by
  refine ⟨rfl, rfl, ?_⟩
  rw [if_neg h]

/-- No search is turned away, whatever it asks for. -/
theorem search_not_rejected {replyTo : Origin} {m' : Machine} {r : Int} (he : EmptySearch msg)
    (h : Handled os hashKey msg replyTo m r m') : ¬ Rejected os msg replyTo m m' := by
  intro hrej
  have hsends := hrej.sends
  rw [if_pos he] at hsends
  obtain ⟨payload, hsends⟩ := hsends
  have good {dest : Origin} {bytes : List UInt8}
      (hm : m.sends ++ [attempt os m dest (replyOf .getPeers bytes msg.correlationId .ok)] =
        m.sends ++ [attempt os m replyTo (replyOf .getPeers payload msg.correlationId .err)]) :
      False := by
    have hlast := List.cons.inj (List.append_cancel_left hm)
    have hmsg : replyOf .getPeers bytes msg.correlationId .ok =
        replyOf .getPeers payload msg.correlationId .err := congrArg Send.msg hlast.1
    have hok : ReplyOk (decodeHeader (replyOf .getPeers bytes msg.correlationId .ok)) :=
      replyOk_replyOf_iff.mpr rfl
    rw [hmsg, replyOk_replyOf_iff] at hok
    cases hok
  rcases h.of_search he.1 with ⟨-, rfl⟩ | ⟨b, -, ⟨-, -, rfl⟩ | ⟨-, -, rfl⟩⟩
  · exact good hsends
  · rw [Machine.setWait_sends, Machine.emit_sends, searchSends_eq] at hsends
    cases hn : nextHop m.sortedNeighbors.live replyTo.addr with
    | none => simp [hn] at hsends
    | some next =>
      rw [hn] at hsends
      have hlast := List.cons.inj (List.append_cancel_left hsends)
      have hmsg : searchCall os hashKey (decodeSrc msg.body) m =
          replyOf .getPeers payload msg.correlationId .err := congrArg Send.msg hlast.1
      have hcall : IsCall (decodeHeader (searchCall os hashKey (decodeSrc msg.body) m)) .getPeers :=
        searchCall_isCall _ _ _ _
      rw [hmsg] at hcall
      exact not_isCall_replyOf hcall
  · exact good hsends

/-- The ways through `recv_rpc` that an answer with peers can take. -/
theorem Handled.of_answer {replyTo : Origin} {m' : Machine} {r : Int} (hr : IsReply msg .getPeers)
    (hs : ReplyOk msg) (hc : replyCount msg.body ≠ 0)
    (h : Handled os hashKey msg replyTo m r m') : ∃ t,
      setPeers m.table ((replyPeers msg).map fun p => (hashKey.mem, p)) = .ok t ∧
        replyCount msg.body ≤ maxPeerBuckets ∧ m'.table = t ∧
        ∀ b, getPeerBucket t hashKey.mem = .ok (some b) → initialCap ≤ t[b].len →
          m'.sends = m.sends ++ joinSends os m.node.origin m.sends.length t[b].peers := by
  have unique {t : PeerTable} {b b' : Fin maxPeerBuckets}
      (hb : getPeerBucket t hashKey.mem = .ok (some b))
      (hb' : getPeerBucket t hashKey.mem = .ok (some b')) : b = b' :=
    Option.some.inj (Except.ok.inj (hb.symm.trans hb'))
  cases h with
  | otherCall ht => exact absurd ht hr.1
  | otherReply _ _ hg => exact absurd hr hg
  | badReply _ hs' => exact absurd hs hs'
  | emptyReply _ _ hc' => exact absurd hc' hc
  | noBucket _ hc' => exact absurd hr hc'.not_reply
  | forwarded _ hc' => exact absurd hr hc'.not_reply
  | answered _ hc' => exact absurd hr hc'.not_reply
  | joinFailed hc' => exact absurd hr hc'.not_reply
  | joined _ hc' => exact absurd hr hc'.not_reply
  | unfiled t _ _ _ ht hb hm =>
    refine ⟨t, ht, hm, rfl, ?_⟩
    intro b hb'
    cases Except.ok.inj (hb.symm.trans hb')
  | stored t b _ _ _ ht hb hl hm =>
    refine ⟨t, ht, hm, rfl, ?_⟩
    intro b' hb' hl'
    obtain rfl := unique hb hb'
    exact absurd hl' (not_le.mpr hl)
  | joining t b _ _ _ ht hb hl hm =>
    refine ⟨t, ht, hm, rfl, ?_⟩
    intro b' hb' _
    obtain rfl := unique hb hb'
    rfl

/-- What becomes of a message of unknown type that is taken for an answer with peers. -/
theorem mistaken_rejected_iff (hip : Terminated msg.origin.ip.mem)
    (hm : Mistaken (decodeHeader msg)) :
    (∃ r m', recvRpc os hashKey msg m = .ok (r, m') ∧
      Rejected os (decodeHeader msg) msg.replyTo m m') ↔
        Harmless hashKey (decodeHeader msg) m.table := by
  have hne : ¬ EmptySearch (decodeHeader msg) := fun h => h.1.not_reply hm.reply
  have hpeers : replyPeers (decodeHeader msg) ≠ [] := by
    intro hnil
    have hlen := replyPeers_length (decodeHeader msg)
    rw [hnil] at hlen
    exact hm.peers hlen.symm
  have hset := @setPeers_unchanged_iff m.table hashKey.mem _ hpeers
  constructor
  · rintro ⟨r, m', h, hrej⟩
    have hsends := hrej.sends
    rw [if_neg hne] at hsends
    obtain ⟨t, ht, hcount, rfl, hjoin⟩ :=
      (recvRpc_handled h).2.of_answer hm.reply hm.ok hm.peers
    rw [hrej.table] at ht hjoin
    have hdrops := hset.mp ht
    refine ⟨hcount, hdrops, ?_⟩
    intro hkey
    by_contra hlen
    have hget : getPeerBucket m.table hashKey.mem = .ok (some (homeOf hashKey.str)) :=
      (getPeerBucket_eq m.table hdrops.collision.string).trans (congrArg _ (if_pos hkey))
    have hcalls := hjoin _ hget (not_lt.mp hlen)
    rw [hsends] at hcalls
    cases hp : m.table[homeOf hashKey.str].peers with
    | nil =>
      have hzero : m.table[homeOf hashKey.str].len = 0 := by
        rw [← PeerBucket.peers_length, hp]
        rfl
      exact hlen (hzero.trans_lt (by decide))
    | cons p ps =>
      rw [hp, joinSends, List.self_eq_append_right] at hcalls
      cases hcalls
  · intro hh
    have hstatus : Body.replyStatus (decodeHeader msg).body = MsgStatus.ok.code := hm.ok
    have hget := getPeerBucket_eq m.table hh.drops.collision.string
    rw [recvRpc_reply os hashKey m hip hm.reply]
    unfold recvGetPeersReply
    rw [if_neg (not_not.mpr hstatus), if_neg hm.peers, readPeerBuf, if_pos hh.count, ok_bind]
    change ∃ r m', (setPeers m.table ((replyPeers (decodeHeader msg)).map
      fun p => (hashKey.mem, p)) >>= _) = _ ∧ _
    rw [hset.mpr hh.drops, ok_bind]
    change ∃ r m', (getPeerBucket m.table hashKey.mem >>= _) = _ ∧ _
    rw [hget, ok_bind]
    split_ifs with hkey
    · have hsmall : ¬ initialCap ≤ (m.setTable m.table).table[homeOf (chars hashKey.mem)].len :=
        not_le.mpr (hh.small hkey)
      dsimp only
      rw [if_neg hsmall]
      exact ⟨0, m, rfl, rejected_self hne⟩
    · exact ⟨-1, m, rfl, rejected_self hne⟩

/-- An answer without peers, or with a bad status, is passed over. -/
theorem recvGetPeersReply_idle (h : ¬ ReplyOk msg ∨ replyCount msg.body = 0) :
    ∃ r, recvGetPeersReply os hashKey msg m = .ok (r, m) := by
  unfold recvGetPeersReply
  by_cases hs : Body.replyStatus msg.body = MsgStatus.ok.code
  · rw [if_neg (not_not.mpr hs), if_pos (h.resolve_left (not_not.mpr hs))]
    exact ⟨0, rfl⟩
  · rw [if_pos hs]
    exact ⟨-1, rfl⟩

end Reject

/-- When an invalid message is turned away. -/
structure Rejectable (hashKey : Bytes idSize) (msg : RpcMsg) (m : Machine) : Prop where
  origin : Terminated msg.origin.ip.mem
  hash : ¬ EmptySearch (decodeHeader msg)
  type : Mistaken (decodeHeader msg) → Harmless hashKey (decodeHeader msg) m.table

theorem invalid_idle (os : Os) (hashKey : Bytes idSize) {msg : RpcMsg} (m : Machine)
    (hip : Terminated msg.origin.ip.mem) (h : Invalid (decodeHeader msg))
    (he : ¬ EmptySearch (decodeHeader msg)) (hm : ¬ Mistaken (decodeHeader msg)) :
    ∃ r, recvRpc os hashKey msg m = .ok (r, m) := by
  unfold recvRpc
  rw [decodeOrigin_ok_iff.mpr ⟨hip, rfl⟩, ok_bind]
  dsimp only
  split_ifs with ht hg hj hg hj
  · cases h with
    | type hc => exact absurd ht hc
    | method _ hg' => exact absurd ⟨ht, hg⟩ hg'
    | hash h => exact absurd h he
    | status ht' => exact absurd (ht.symm.trans ht') (by decide)
  · cases h with
    | type hc => exact absurd ht hc
    | method _ _ hj' => exact absurd ⟨ht, hj⟩ hj'
    | hash h => exact absurd h he
    | status ht' => exact absurd (ht.symm.trans ht') (by decide)
  · exact ⟨0, rfl⟩
  · apply recvGetPeersReply_idle
    cases h with
    | type hc hr =>
      by_contra hno
      rw [not_or, not_not] at hno
      exact hm ⟨hr, ⟨ht, hg⟩, hno.1, hno.2⟩
    | method ht' => exact absurd ht' ht
    | hash h => exact absurd h he
    | status _ hs => exact Or.inl hs
  · unfold recvJoinReply
    split_ifs <;> exact ⟨_, rfl⟩
  · exact ⟨0, rfl⟩

/-- Exactly which invalid messages are turned away: none that asks for the empty string, and
those of unknown type unless they are taken for an answer with peers that has an effect. -/
theorem invalid_rejected_iff (os : Os) (hashKey : Bytes idSize) (msg : RpcMsg) (m : Machine)
    (h : Invalid (decodeHeader msg)) :
    (∃ r m', recvRpc os hashKey msg m = .ok (r, m') ∧
      Rejected os (decodeHeader msg) msg.replyTo m m') ↔ Rejectable hashKey msg m := by
  constructor
  · rintro ⟨r, m', hrun, hrej⟩
    obtain ⟨hip, hhandled⟩ := recvRpc_handled hrun
    refine ⟨hip, ?_, ?_⟩
    · intro he
      exact search_not_rejected he hhandled hrej
    · intro hm
      exact (mistaken_rejected_iff hip hm).mp ⟨r, m', hrun, hrej⟩
  · intro hr
    by_cases hm : Mistaken (decodeHeader msg)
    · exact (mistaken_rejected_iff hr.origin hm).mpr (hr.type hm)
    · obtain ⟨r, hrun⟩ := invalid_idle os hashKey m hr.origin h hr.hash hm
      exact ⟨r, m, hrun, rejected_self hr.hash⟩

/-- A call of the method `LEECH`, which no handler takes. -/
def leechCall : RpcMsg := callOf .leech [] ⟨3002, Bytes.zero inetAddrstrlen⟩

theorem leech_call_rejected : ∃ r m', recvRpc sendingOs fileHash leechCall aloneNode =
    .ok (r, m') ∧ Rejected sendingOs (decodeHeader leechCall) leechCall.replyTo aloneNode m' := by
  have hmethod (method : Method) (hm : IsCall (decodeHeader leechCall) method) : .leech = method :=
    (isCall_callOf_iff (by simp)).mp hm
  have hg : ¬ IsCall (decodeHeader leechCall) .getPeers := by
    intro hc
    cases hmethod _ hc
  have hj : ¬ IsCall (decodeHeader leechCall) .join := by
    intro hc
    cases hmethod _ hc
  have ht : (decodeHeader leechCall).msgType = MsgType.call.code := decodeHeader_callOf_type _ _ _
  have hzero : Terminated (Bytes.zero inetAddrstrlen).mem := by decide
  refine (invalid_rejected_iff sendingOs fileHash leechCall aloneNode (.method ht hg hj)).mpr
    ⟨Bytes.terminated_norm hzero, fun he => hg he.1, ?_⟩
  intro hm
  exact absurd ht hm.reply.1

/-- A search for the empty string, as `get_peers` sends it. -/
def emptySearch : RpcMsg :=
  searchCall sendingOs (Bytes.zero idSize) ⟨3002, Bytes.zero inetAddrstrlen⟩ aloneNode

/-- The answer of a peer, with 2 for its type. -/
def strangeAnswer : RpcMsg :=
  { replyOf .getPeers (answerBytes [somePeer]) randomValue .ok with msgType := swapLow 2 }

theorem strangeAnswer_mistaken : Mistaken (decodeHeader strangeAnswer) := by
  have hr : IsReply (decodeHeader (replyOf .getPeers (answerBytes [somePeer]) randomValue .ok))
      .getPeers := isReply_replyOf_iff.mpr rfl
  have hs : ReplyOk (decodeHeader (replyOf .getPeers (answerBytes [somePeer]) randomValue .ok)) :=
    replyOk_replyOf_iff.mpr rfl
  have hcount := replyCount_replyOf .getPeers (answerBytes [somePeer]) randomValue .ok
  have ht : (decodeHeader strangeAnswer).msgType = 2 := by
    change swapLow (swapLow 2) = 2
    decide
  refine ⟨?_, ⟨?_, hr.2⟩, hs, ?_⟩
  · rw [ht]
    decide
  · rw [ht]
    decide
  · exact hcount.trans_ne (by decide)

/-- A booted node answers the search for the empty string, and it stores the peer of the answer
of unknown type. -/
theorem invalid_not_rejected :
    (Invalid (decodeHeader emptySearch) ∧
      ¬ ∃ r m', recvRpc sendingOs fileHash emptySearch aloneNode = .ok (r, m') ∧
        Rejected sendingOs (decodeHeader emptySearch) emptySearch.replyTo aloneNode m') ∧
    (Invalid (decodeHeader strangeAnswer) ∧
      ¬ ∃ r m', recvRpc sendingOs fileHash strangeAnswer aloneNode = .ok (r, m') ∧
        Rejected sendingOs (decodeHeader strangeAnswer) strangeAnswer.replyTo aloneNode m') := by
  constructor
  · have hempty : EmptySearch (decodeHeader emptySearch) := by
      refine ⟨searchCall_isCall _ _ _ _, ?_⟩
      rw [emptySearch, searchCall_hash]
      decide
    refine ⟨.hash hempty, ?_⟩
    rintro ⟨r, m', hrun, hrej⟩
    exact search_not_rejected hempty (recvRpc_handled hrun).2 hrej
  · have hm := strangeAnswer_mistaken
    have hip : Terminated strangeAnswer.origin.ip.mem :=
      (by decide : Terminated (Bytes.zero inetAddrstrlen).mem)
    refine ⟨.type hm.reply.1 hm.type, ?_⟩
    rw [mistaken_rejected_iff hip hm]
    intro hh
    have hactive := hh.drops.collision.active
    rw [show aloneNode.table = initPeerTable fun _ => .zeroed from rfl,
      (initPeerTable_flags _ _).1] at hactive
    cases hactive

end PeerToPeer
