import PeerToPeer.Nodes.Runs
import PeerToPeer.Rpc.Emitted

namespace PeerToPeer

open CLib Transition

/-- The answer made from a bucket stays inside both payload buffers, and its count byte is
the length of the bucket. -/
structure AnswerFits (bucket : PeerBucket) : Prop where
  size : 1 + sizeofPeer * bucket.len ≤ maxPayloadSize
  encoded : encodeAnswer bucket = .ok (answerBytes bucket.peers)
  copied : ∀ body, ∃ body', copyPayload body replyPayloadAt (answerBytes bucket.peers) = .ok body'
  count : ((answerBytes bucket.peers).getD 0 0).toNat = bucket.len

theorem answerFits_iff (bucket : PeerBucket) : AnswerFits bucket ↔ bucket.len ≤ 25 := by
  constructor
  · intro h
    have hs := h.size
    rw [sizeofPeer, maxPayloadSize] at hs
    omega
  · intro h
    have hs : 1 + sizeofPeer * bucket.len ≤ maxPayloadSize := by
      rw [sizeofPeer, maxPayloadSize]
      omega
    refine ⟨hs, if_pos (Nat.add_comm _ _ ▸ hs), fun body => ⟨_, if_pos ?_⟩, ?_⟩
    · rwa [answerBytes_length, PeerBucket.peers_length]
    · rw [answerBytes, List.getD_cons_zero, PeerBucket.peers_length, UInt8.toNat_ofNat']
      exact Nat.mod_eq_of_lt (by omega)

/-- Whatever `GET_PEERS` call comes next, its answer fits. -/
def AnswersFit (m : Machine) : Prop := ∀ msg b, Answers m (decodeHeader msg) b → AnswerFits m.table[b]

/-- An answer that does not fit ends the handler outside its buffer. -/
theorem recvRpc_overflow {os : Os} {hashKey : Bytes idSize} {msg : RpcMsg} {m : Machine}
    {b : Fin maxPeerBuckets} (ho : Terminated msg.origin.ip.mem) (h : Answers m (decodeHeader msg) b)
    (hl : 25 < m.table[b].len) : recvRpc os hashKey msg m = .error .outOfBounds := by
  obtain ⟨i, hi, -⟩ := bind_eq_ok.mp h.found
  obtain ⟨c, hc, hc0⟩ := strcmp_empty_total _ (hash_ok hi).1
  have hbig : ¬ sizeofPeer * m.table[b].len + 1 ≤ maxPayloadSize := by
    rw [sizeofPeer, maxPayloadSize]
    omega
  rw [recvRpc, decodeOrigin_ok_iff.mpr ⟨ho, rfl⟩, ok_bind]
  dsimp only
  rw [if_pos h.call.1, if_pos h.call.2, recvGetPeersCall]
  dsimp only
  rw [hc, ok_bind, if_neg hc0, h.found, ok_bind]
  dsimp only
  rw [if_neg h.kept, encodeAnswer, if_neg hbig, error_bind]

/-- How far calls with one key can fill a table, whatever memory it was set up in: `n` more
peers in the home bucket, and elsewhere the one peer of a probed bucket. -/
structure GrownBy (t t' : PeerTable) (b : Fin maxPeerBuckets) (n : Nat) : Prop where
  home : t'[b].len ≤ t[b].len + n
  other : ∀ i : Fin maxPeerBuckets, i ≠ b → t'[i].len ≤ max t[i].len 1

theorem GrownBy.refl (t : PeerTable) (b : Fin maxPeerBuckets) (n : Nat) :
    GrownBy t t b n := ⟨Nat.le_add_right _ _, fun _ _ => Nat.le_max_left _ _⟩

theorem GrownBy.trans {t t' t'' : PeerTable} {b : Fin maxPeerBuckets} {n n' : Nat}
    (h : GrownBy t t' b n) (h' : GrownBy t' t'' b n') : GrownBy t t'' b (n + n') := by
  constructor
  · have h₁ := h.home
    have h₂ := h'.home
    omega
  · intro i hi
    have h₁ := h.other i hi
    have h₂ := h'.other i hi
    omega

theorem Appended.grownBy {t t' : PeerTable} {b : Fin maxPeerBuckets} {ps : List Peer}
    (h : Appended t t' b ps) : GrownBy t t' b ps.length :=
  ⟨h.len_le b, fun i hi => h.other i hi ▸ Nat.le_max_left _ _⟩

theorem setPeer_grownBy {t t' : PeerTable} {key : List UInt8} {p : Peer}
    (h : setPeer t key p = .ok t') : GrownBy t t' (homeOf (chars key)) 1 := by
  obtain ⟨i, hi, h⟩ := bind_eq_ok.mp h
  obtain ⟨-, rfl⟩ := hash_ok hi
  dsimp only at h
  split_ifs at h with ha hk hlast hfree
  · exact (putPeer_ok h).1.grownBy
  · have happ := (putPeer_ok h).1
    have hne : homeOf (chars key) ≠ ⟨(homeOf (chars key)).val + 1, hlast⟩ :=
      fun e => absurd (congrArg Fin.val e) (Nat.ne_of_lt (Nat.lt_succ_self _))
    refine ⟨by rw [happ.other _ hne]; exact Nat.le_succ _, ?_⟩
    intro i hi
    have hi := happ.len_le i
    by_cases hp : i = ⟨(homeOf (chars key)).val + 1, hlast⟩
    · subst hp
      have hzero := hfree.1
      simp only [List.length_singleton] at hi
      omega
    · rw [happ.other i hp]
      exact Nat.le_max_left _ _
  · obtain rfl := Except.ok.inj h
    exact GrownBy.refl _ _ _
  · exact (putPeer_ok h).1.grownBy
  · exact (putPeer_ok h).1.grownBy

theorem setPeers_grownBy {t t' : PeerTable} {key : List UInt8} {ps : List Peer}
    (h : setPeers t (ps.map fun p => (key, p)) = .ok t') :
    GrownBy t t' (homeOf (chars key)) ps.length := by
  induction ps generalizing t with
  | nil =>
    obtain rfl := Except.ok.inj h
    exact GrownBy.refl _ _ _
  | cons p ps ih =>
    obtain ⟨t₁, h₁, h₂⟩ := bind_eq_ok.mp h
    rw [List.length_cons, Nat.add_comm]
    exact (setPeer_grownBy h₁).trans (ih h₂)

theorem Handled.grownBy {os : Os} {hashKey : Bytes idSize} {msg : RpcMsg} {replyTo : Origin}
    {m m' : Machine} {r : Int} (h : Handled os hashKey msg replyTo m r m') :
    GrownBy m.table m'.table (homeOf hashKey.str)
      (storedPeers (os.sendto m.sends.length) replyTo msg).length := by
  cases h with
  | joined t hc hs ht =>
    rw [storedPeers_join hc, hs]
    exact setPeer_grownBy ht
  | unfiled t hr hs hc ht hb hm =>
    rw [storedPeers_reply hr hs]
    exact setPeers_grownBy ht
  | stored t b hr hs hc ht hb hl hm =>
    rw [storedPeers_reply hr hs]
    exact setPeers_grownBy ht
  | joining t b hr hs hc ht hb hl hm =>
    rw [storedPeers_reply hr hs]
    exact setPeers_grownBy ht
  | otherCall => exact GrownBy.refl _ _ _
  | otherReply => exact GrownBy.refl _ _ _
  | badReply => exact GrownBy.refl _ _ _
  | emptyReply => exact GrownBy.refl _ _ _
  | noBucket => exact GrownBy.refl _ _ _
  | forwarded => exact GrownBy.refl _ _ _
  | answered => exact GrownBy.refl _ _ _
  | joinFailed => exact GrownBy.refl _ _ _

/-- The home bucket of the event's key. -/
def NodeEvent.home : NodeEvent → Fin maxPeerBuckets
  | set key _ => homeOf key.chars
  | recv _ hashKey _ => homeOf hashKey.str

/-- The number of peers an event brings to `m`. -/
def NodeEvent.carried (m : Machine) : NodeEvent → Nat
  | set _ _ => 1
  | recv os _ msg => (storedPeers (os.sendto m.sends.length)
      ⟨ntohs msg.origin.port, msg.origin.ip.norm⟩ (decodeHeader msg)).length

/-- After the event the home bucket of its key still fits one answer. -/
def HasRoom (m : Machine) (e : NodeEvent) : Prop := m.table[e.home].len + e.carried m ≤ 25

theorem nodeStep_grownBy {m m' : Machine} {e : NodeEvent} (h : nodeStep m e = some m') :
    GrownBy m.table m'.table e.home (e.carried m) := by
  cases e with
  | set key data =>
    obtain ⟨t, ht, rfl⟩ := nodeStep_set.mp h
    have hg := setPeer_grownBy ht
    rwa [key.chars_mem] at hg
  | recv os hashKey msg =>
    obtain ⟨r, hr⟩ := nodeStep_recv.mp h
    exact (recvRpc_handled hr).2.grownBy

/-- Every bucket fits one answer. -/
def AllFit (m : Machine) : Prop := ∀ i : Fin maxPeerBuckets, m.table[i].len ≤ 25

theorem nodeStep_allFit {m m' : Machine} {e : NodeEvent} (hfit : AllFit m) (hroom : HasRoom m e)
    (h : nodeStep m e = some m') : AllFit m' := by
  have hg := nodeStep_grownBy h
  intro i
  by_cases hi : i = e.home
  · subst hi
    exact hg.home.trans hroom
  · have h₁ := hg.other i hi
    have h₂ := hfit i
    omega

/-- Answers fit exactly as long as the buckets they are made from hold at most 25 peers, and
a run in which no event fills a bucket further never makes one that does not fit. -/
theorem answers_fit (mem : Fin maxPeerBuckets → BucketMemory) (m₀ m : Machine)
    (events : List NodeEvent) (hinit : m₀.table = initPeerTable mem)
    (hrun : run nodeStep m₀ events = some m) :
    (AllSteps nodeStep (fun s e _ => HasRoom s e) m₀ events → AnswersFit m) ∧
      (AnswersFit m ↔ ∀ msg b, Answers m (decodeHeader msg) b → m.table[b].len ≤ 25) := by
  constructor
  · intro hroom msg b _
    have hfit₀ : AllFit m₀ := fun i => by
      rw [hinit, initPeerTable_len]
      exact Nat.zero_le _
    have hfit : AllFit m := run_invariant (Q := fun s e _ => HasRoom s e) AllFit
      (fun _ _ _ hf hr hs => nodeStep_allFit hf hr hs) hfit₀ hroom hrun
    exact (answerFits_iff _).mpr (hfit b)
  · exact forall_congr' fun msg => forall_congr' fun b => imp_congr_right fun _ =>
      answerFits_iff _

/-- A `JOIN` call from port 3002. -/
def joinEvent : NodeEvent := .recv sendingOs fileHash (callOf .join [] ⟨3002, Bytes.zero 16⟩)

/-- A `GET_PEERS` call for the file hash. -/
def searchMsg : RpcMsg := searchCall sendingOs fileHash ⟨0, Bytes.zero 16⟩ aloneNode

theorem join_appends {m : Machine} (hinv : NodeInv m) (hfit : AllFit m) :
    ∃ m', nodeStep m joinEvent = some m' ∧ NodeInv m' ∧
      m'.table[homeOf fileHash.str].len = m.table[homeOf fileHash.str].len + 1 ∧
      ∀ i : Fin maxPeerBuckets, i ≠ homeOf fileHash.str → m'.table[i].len = m.table[i].len := by
  have hclean : (Outgoing.call .join [] ⟨3002, Bytes.zero 16⟩).Clean := ⟨by decide, by simp⟩
  have hmsg : (Outgoing.call .join [] ⟨3002, Bytes.zero 16⟩).build =
      .ok (callOf .join [] ⟨3002, Bytes.zero 16⟩) :=
    callMsg_ok_iff.mpr ⟨by decide, by decide, rfl⟩
  obtain ⟨r, m', hr, happ⟩ := hinv.recvRpc_ok sendingOs fileHash hfit (by decide) hclean hmsg
  have hstep : nodeStep m joinEvent = some m' := nodeStep_recv.mpr ⟨r, hr⟩
  refine ⟨m', hstep, nodeStep_inv (e := joinEvent) hinv ⟨_, hclean, hmsg⟩ hstep, ?_, ?_⟩
  · have hlen := congrArg List.length happ.home
    rwa [List.length_append, PeerBucket.peers_length, PeerBucket.peers_length] at hlen
  · intro i hi
    rw [happ.other i hi]

/-- Up to 26 `JOIN` calls are all accepted. -/
theorem joins_run (n : Nat) (hn : n ≤ 26) :
    ∃ m, run nodeStep aloneNode (List.replicate n joinEvent) = some m ∧ NodeInv m ∧
      m.table[homeOf fileHash.str].len = n ∧
      ∀ i : Fin maxPeerBuckets, i ≠ homeOf fileHash.str → m.table[i].len = 0 := by
  induction n with
  | zero =>
    refine ⟨aloneNode, rfl, Booted.inv ⟨rfl, by decide, by simp [aloneNode]⟩, ?_, ?_⟩
    · exact initPeerTable_len _ _
    · intro i _
      exact initPeerTable_len _ _
  | succ n ih =>
    obtain ⟨m, hrun, hinv, hhome, hother⟩ := ih (by omega)
    have hfit : AllFit m := fun i => by
      by_cases hi : i = homeOf fileHash.str
      · subst hi
        omega
      · rw [hother i hi]
        omega
    obtain ⟨m', hstep, hinv', hhome', hother'⟩ := join_appends hinv hfit
    refine ⟨m', ?_, hinv', by omega, fun i hi => (hother' i hi).trans (hother i hi)⟩
    rw [List.replicate_succ', run_append]
    exact ⟨m, hrun, run_cons.mpr ⟨m', hstep, rfl⟩⟩

theorem hasRoom_recv {m : Machine} {os : Os} {hashKey : Bytes idSize} {msg : RpcMsg}
    (hl : m.table[homeOf hashKey.str].len ≤ 24)
    (hc : ∀ sent replyTo, (storedPeers sent replyTo (decodeHeader msg)).length ≤ 1) :
    HasRoom m (.recv os hashKey msg) :=
  Nat.add_le_add hl (hc _ _)

theorem joinEvent_hasRoom : HasRoom aloneNode joinEvent := by
  refine hasRoom_recv ((initPeerTable_len _ _).trans_le (Nat.zero_le _))
    ?_
  intro sent replyTo
  rw [storedPeers_join ((isCall_callOf_iff (by simp)).mpr rfl)]
  cases sent <;> simp

theorem answers_fit_join : ∃ m, run nodeStep aloneNode (List.replicate 1 joinEvent) = some m ∧
    AnswersFit m := by
  obtain ⟨m, hrun, -⟩ := joins_run 1 (by decide)
  exact ⟨m, hrun, (answers_fit _ aloneNode m _ rfl hrun).1 fun _ _ => ⟨joinEvent_hasRoom, trivial⟩⟩

/-- After 26 `JOIN` calls the next search is answered past the end of the buffer. -/
theorem answer_overflows : ∃ m, run nodeStep aloneNode (List.replicate 26 joinEvent) = some m ∧
    Answers m (decodeHeader searchMsg) (homeOf fileHash.str) ∧ ¬ AnswersFit m ∧
    recvRpc sendingOs fileHash searchMsg m = .error .outOfBounds := by
  obtain ⟨m, hrun, hinv, hhome, -⟩ := joins_run 26 (Nat.le_refl 26)
  have hhash : decodeHash (decodeHeader searchMsg).body = fileHash := decodeHash_searchCall _ _ _ _
  have hans : Answers m (decodeHeader searchMsg) (homeOf fileHash.str) := by
    refine ⟨(isCall_callOf_iff (by simp)).mpr rfl, ?_, ?_⟩
    · rw [hhash]
      exact getPeerBucket_inv hinv.table (by decide)
    · intro h
      rw [hhome] at h
      exact absurd h.1 (by decide)
  refine ⟨m, hrun, hans, ?_, recvRpc_overflow (by decide) hans (by rw [hhome]; decide)⟩
  intro h
  have hsize := (answerFits_iff _).mp (h _ _ hans)
  rw [hhome] at hsize
  exact absurd hsize (by decide)

end PeerToPeer
