import PeerToPeer.Nodes.Runs
import PeerToPeer.Rpc.Searching

namespace PeerToPeer

open CLib Transition

/-- The peers of the message fit `p_buf` and lie inside the payload. -/
def PeerListFits (msg : RpcMsg) : Prop :=
  replyCount msg.body ≤ maxPeerBuckets ∧ 1 + sizeofPeer * replyCount msg.body ≤ maxPayloadSize

section Dispatch

variable (os : Os) (hashKey : Bytes idSize) {msg : RpcMsg} (m : Machine)

theorem recvRpc_rejects (hip : Terminated msg.origin.ip.mem)
    (hr : IsReply (decodeHeader msg) .getPeers) (hs : ¬ ReplyOk (decodeHeader msg)) :
    recvRpc os hashKey msg m = .ok (-1, m) := by
  have hne : Body.replyStatus (decodeHeader msg).body ≠ MsgStatus.ok.code := hs
  rw [recvRpc_reply os hashKey m hip hr, recvGetPeersReply, if_pos hne]
  rfl

/-- More peers than `p_buf` has room for are written past its end. -/
theorem recvRpc_overruns (hip : Terminated msg.origin.ip.mem)
    (hr : IsReply (decodeHeader msg) .getPeers) (hs : ReplyOk (decodeHeader msg))
    (hc : maxPeerBuckets < replyCount (decodeHeader msg).body) :
    recvRpc os hashKey msg m = .error .outOfBounds := by
  rw [ReplyOk] at hs
  rw [recvRpc_reply os hashKey m hip hr, recvGetPeersReply, if_neg (not_not.mpr hs),
    if_neg (Nat.ne_of_gt (Nat.zero_lt_of_lt hc)), readPeerBuf, if_neg (Nat.not_le.mpr hc)]
  rfl

/-- The decoder stays in bounds, or rejects the message, exactly when the count is at most the
capacity of `p_buf` or the status is not `OK`. -/
theorem decoder_in_bounds_iff (hip : Terminated msg.origin.ip.mem)
    (hr : IsReply (decodeHeader msg) .getPeers) :
    (PeerListFits (decodeHeader msg) ∨ ∃ r, recvRpc os hashKey msg m = .ok (r, m)) ↔
      replyCount (decodeHeader msg).body ≤ maxPeerBuckets ∨ ¬ ReplyOk (decodeHeader msg) := by
  constructor
  · rintro (hfits | ⟨r, hok⟩)
    · exact Or.inl hfits.1
    · by_contra hno
      rw [not_or, not_not, Nat.not_le] at hno
      rw [recvRpc_overruns os hashKey m hip hr hno.2 hno.1] at hok
      cases hok
  · rintro (hcount | hs)
    · left
      refine ⟨hcount, ?_⟩
      simp only [sizeofPeer, maxPayloadSize, maxPeerBuckets] at *
      omega
    · exact Or.inr ⟨-1, recvRpc_rejects os hashKey m hip hr hs⟩

end Dispatch

/-- A reply whose status is not `OK`, whatever count it gives. -/
theorem decoder_in_bounds_err :
    PeerListFits (decodeHeader (replyOf .getPeers [255] randomValue .err)) ∨
      ∃ r, recvRpc sendingOs fileHash (replyOf .getPeers [255] randomValue .err) aloneNode =
        .ok (r, aloneNode) := by
  have hzero : Terminated (Bytes.zero inetAddrstrlen).mem := by decide
  refine (decoder_in_bounds_iff sendingOs fileHash aloneNode hzero
    (isReply_replyOf_iff.mpr rfl)).mpr (Or.inr ?_)
  intro hs
  cases replyOk_replyOf_iff.mp hs

/-- The honest answer of a node whose bucket holds eleven peers. -/
def elevenPeers : RpcMsg := replyOf .getPeers (answerBytes (List.replicate 11 somePeer)) randomValue .ok

theorem eleven_peers_overrun :
    Terminated elevenPeers.origin.ip.mem ∧ IsReply (decodeHeader elevenPeers) .getPeers ∧
      ¬ (PeerListFits (decodeHeader elevenPeers) ∨
        ∃ r, recvRpc sendingOs fileHash elevenPeers aloneNode = .ok (r, aloneNode)) := by
  have hip : Terminated elevenPeers.origin.ip.mem :=
    (by decide : Terminated (Bytes.zero inetAddrstrlen).mem)
  have hr : IsReply (decodeHeader elevenPeers) .getPeers := isReply_replyOf_iff.mpr rfl
  have hs : ReplyOk (decodeHeader elevenPeers) := replyOk_replyOf_iff.mpr rfl
  have hcount : replyCount (decodeHeader elevenPeers).body = 11 := replyCount_replyOf _ _ _ _
  have hbig : maxPeerBuckets < replyCount (decodeHeader elevenPeers).body := by
    rw [hcount]
    decide
  refine ⟨hip, hr, ?_⟩
  rintro (hfits | ⟨r, hok⟩)
  · exact absurd hfits.1 (Nat.not_le.mpr hbig)
  · rw [recvRpc_overruns sendingOs fileHash aloneNode hip hr hs hbig] at hok
    cases hok

theorem nodeStep_table {m m' : Machine} {e : NodeEvent} (hinv : TableInv m.table)
    (h : nodeStep m e = some m') : TableInv m'.table := by
  cases e with
  | set key data =>
    obtain ⟨t, ht, rfl⟩ := nodeStep_set.mp h
    exact (setPeer_ok hinv ht).2.1
  | recv os hashKey msg =>
    obtain ⟨r, hr⟩ := nodeStep_recv.mp h
    exact (recvRpc_appended hinv hr).1

/-- In every state a node reaches from an initialised table, whatever it was sent. -/
theorem nodeRun_table {m m' : Machine} {events : List NodeEvent}
    (hinit : m.table = initPeerTable fun _ => .zeroed)
    (hrun : run nodeStep m events = some m') : TableInv m'.table :=
  run_induction (P := fun _ => True) (fun m : Machine => TableInv m.table)
    (fun _ _ _ hi _ hs => nodeStep_table hi hs) (hinit ▸ initPeerTable_inv)
    (fun _ _ => trivial) hrun

/-- A node that finds peers for a search sends one reply with all of them. -/
theorem recvRpc_answers {os : Os} {hashKey : Bytes idSize} {msg : RpcMsg} {m m' : Machine}
    {r : Int} {b : Fin maxPeerBuckets} (hc : IsCall (decodeHeader msg) .getPeers)
    (hb : getPeerBucket m.table (decodeHash (decodeHeader msg).body).mem = .ok (some b))
    (hl : 1 ≤ m.table[b].len) (h : recvRpc os hashKey msg m = .ok (r, m')) :
    m'.sends = m.sends ++ [attempt os m (decodeSrc (decodeHeader msg).body)
      (replyOf .getPeers (answerBytes m.table[b].peers) msg.correlationId .ok)] := by
  rcases (recvRpc_handled h).2.of_search hc with ⟨hb', -⟩ | ⟨b', hb', ⟨hl', -, -⟩ | ⟨-, -, rfl⟩⟩
  · cases Except.ok.inj (hb.symm.trans hb')
  · obtain rfl := Option.some.inj (Except.ok.inj (hb.symm.trans hb'))
    rw [hl'] at hl
    cases hl
  · obtain rfl := Option.some.inj (Except.ok.inj (hb.symm.trans hb'))
    rfl

section Answer

variable {ps : List Peer} {id : Bytes correlationIdSize}

theorem answerBytes_count (h : ps.length ≤ maxPeerBuckets) :
    ((answerBytes ps).getD 0 0).toNat = ps.length := by
  rw [maxPeerBuckets] at h
  rw [answerBytes, List.getD_cons_zero, UInt8.toNat_ofNat']
  omega

/-- The peers of an answer cross the wire byte by byte. -/
theorem answer_peers (h : ps.length ≤ maxPeerBuckets) :
    replyPeers (decodeHeader (replyOf .getPeers (answerBytes ps) id .ok)) = ps := by
  have h25 : ps.length ≤ 25 := h.trans (by decide)
  have hcount : ((answerBytes ps).getD 0 0).toNat ≤ 25 := by
    rw [answerBytes_count h]
    exact h25
  rw [replyPeers_replyOf hcount, payloadPeers_answerBytes h25]

/-- The initiator's own bucket takes the peers of an answer, and nothing else of its table
changes. -/
theorem recvRpc_takes {os : Os} {hashKey : Bytes idSize} {m m' : Machine} {r : Int}
    (hinv : TableInv m.table) (hl : ps.length ≤ maxPeerBuckets)
    (h : recvRpc os hashKey (replyOf .getPeers (answerBytes ps) id .ok) m = .ok (r, m')) :
    Appended m.table m'.table (homeOf hashKey.str) ps := by
  have happ := (recvRpc_appended hinv h).2
  rwa [storedPeers_reply (isReply_replyOf_iff.mpr rfl) (replyOk_replyOf_iff.mpr rfl),
    answer_peers hl] at happ

theorem setPeers_key_terminated {t t' : PeerTable} (hinv : TableInv t) {key : List UInt8}
    {qs : List Peer} (hne : qs ≠ []) (h : setPeers t (qs.map fun p => (key, p)) = .ok t') :
    Terminated key := by
  cases qs with
  | nil => exact absurd rfl hne
  | cons q qs =>
    obtain ⟨t₁, h₁, -⟩ := bind_eq_ok.mp h
    exact (setPeer_ok hinv h₁).1

/-- The bucket is found under the file hash afterwards. -/
theorem recvRpc_takes_found {os : Os} {hashKey : Bytes idSize} {m m' : Machine} {r : Int}
    (hinv : TableInv m.table) (hpos : 1 ≤ ps.length) (hl : ps.length ≤ maxPeerBuckets)
    (h : recvRpc os hashKey (replyOf .getPeers (answerBytes ps) id .ok) m = .ok (r, m')) :
    getPeerBucket m'.table hashKey.mem = .ok (some (homeOf hashKey.str)) := by
  apply getPeerBucket_inv (recvRpc_appended hinv h).1
  have hip : Terminated (replyOf .getPeers (answerBytes ps) id .ok).origin.ip.mem :=
    (by decide : Terminated (Bytes.zero inetAddrstrlen).mem)
  have hcount : replyCount (decodeHeader (replyOf .getPeers (answerBytes ps) id .ok)).body =
      ps.length := (replyCount_replyOf _ _ _ _).trans (answerBytes_count hl)
  have hs : ReplyOk (decodeHeader (replyOf .getPeers (answerBytes ps) id .ok)) :=
    replyOk_replyOf_iff.mpr rfl
  have hpeers : replyPeers (decodeHeader (replyOf .getPeers (answerBytes ps) id .ok)) = ps :=
    answer_peers hl
  rw [recvRpc_reply os hashKey m hip (isReply_replyOf_iff.mpr rfl)] at h
  generalize decodeHeader (replyOf .getPeers (answerBytes ps) id .ok) = msg at h hcount hs hpeers
  rw [ReplyOk] at hs
  unfold recvGetPeersReply at h
  rw [if_neg (not_not.mpr hs), if_neg (by omega)] at h
  obtain ⟨pBuf, hbuf, h⟩ := bind_eq_ok.mp h
  obtain ⟨t, ht, -⟩ := bind_eq_ok.mp h
  rw [readPeerBuf, if_pos (hcount ▸ hl)] at hbuf
  have hbuf' : replyPeers msg = pBuf := Except.ok.inj hbuf
  apply setPeers_key_terminated hinv _ ht
  rw [← hbuf', hpeers]
  exact List.ne_nil_of_length_pos hpos

/-- `recv_rpc` returns on an answer when all strings end and `realloc` has room. -/
theorem recvRpc_answer_total (os : Os) (hashKey : Bytes idSize) (m : Machine)
    (hinv : TableInv m.table) (hm : MachineStrings m) (hk : Terminated hashKey.mem)
    (hl : ps.length ≤ maxPeerBuckets) (hp : ∀ p ∈ ps, Terminated p.ip.mem)
    (hroom : (homeLen m.table hashKey + ps.length) * sizeofPeer * 2 ≤ ptrdiffMax) :
    ∃ r m', recvRpc os hashKey (replyOf .getPeers (answerBytes ps) id .ok) m = .ok (r, m') := by
  have hip : Terminated (replyOf .getPeers (answerBytes ps) id .ok).origin.ip.mem :=
    (by decide : Terminated (Bytes.zero inetAddrstrlen).mem)
  have hcount : replyCount (decodeHeader (replyOf .getPeers (answerBytes ps) id .ok)).body =
      ps.length := (replyCount_replyOf _ _ _ _).trans (answerBytes_count hl)
  rw [recvRpc_reply os hashKey m hip (isReply_replyOf_iff.mpr rfl)]
  apply recvGetPeersReply_total os hashKey _ m hm hinv hk
  · intro _
    rw [hcount]
    exact hroom
  · intro _
    rw [hcount]
    exact hl
  · intro _
    rw [answer_peers hl]
    exact hp

end Answer

/-- The reply that a node with peers for a search sends is handled by the initiator, in every
state it reaches, by appending these peers in order to the bucket of its file hash. -/
theorem peer_list_arrives (osA osB : Os) (hashA hashB : Bytes idSize) (a a' b₀ b : Machine)
    (search : RpcMsg) (rA : Int) (bucket : Fin maxPeerBuckets) (events : List NodeEvent)
    (hc : IsCall (decodeHeader search) .getPeers)
    (hb : getPeerBucket a.table (decodeHash (decodeHeader search).body).mem = .ok (some bucket))
    (hpos : 1 ≤ a.table[bucket].len) (hmax : a.table[bucket].len ≤ maxPeerBuckets)
    (ha : recvRpc osA hashA search a = .ok (rA, a'))
    (hinit : b₀.table = initPeerTable fun _ => .zeroed)
    (hrun : run nodeStep b₀ events = some b) :
    ∃ x, a'.sends = a.sends ++ [x] ∧
      (∀ r b', recvRpc osB hashB x.msg b = .ok (r, b') →
        getPeerBucket b'.table hashB.mem = .ok (some (homeOf hashB.str)) ∧
        homePeers b'.table hashB = homePeers b.table hashB ++ a.table[bucket].peers ∧
        ∀ i : Fin maxPeerBuckets, i ≠ homeOf hashB.str → b'.table[i] = b.table[i]) ∧
      (MachineStrings b → Terminated hashB.mem →
        (∀ p ∈ a.table[bucket].peers, Terminated p.ip.mem) →
        (homeLen b.table hashB + a.table[bucket].len) * sizeofPeer * 2 ≤ ptrdiffMax →
        ∃ r b', recvRpc osB hashB x.msg b = .ok (r, b')) := by
  have hinv := nodeRun_table hinit hrun
  have hlen : a.table[bucket].peers.length ≤ maxPeerBuckets := by
    rw [PeerBucket.peers_length]
    exact hmax
  refine ⟨_, recvRpc_answers hc hb hpos ha, ?_, ?_⟩
  · intro r b' h
    have happ := recvRpc_takes hinv hlen h
    rw [← PeerBucket.peers_length] at hpos
    exact ⟨recvRpc_takes_found hinv hpos hlen h, happ.home, happ.other⟩
  · intro hm hk hp hroom
    rw [← PeerBucket.peers_length] at hroom
    exact recvRpc_answer_total osB hashB b hinv hm hk hlen hp hroom

/-- A search for the file by a node at port 3002. -/
def lookMsg : RpcMsg := searchCall sendingOs fileHash ⟨3002, Bytes.zero 16⟩ aloneNode

/-- A booted node after one peer was set under the file hash. -/
theorem lone_holder : ∃ t, TableInv t ∧ homePeers t fileHash = [somePeer] ∧
    MachineStrings (aloneNode.setTable t) := by
  have hhash : Terminated fileHash.mem := by decide
  have hpeer : ∀ p ∈ [somePeer], Terminated p.ip.mem := by decide
  have hboot : Booted aloneNode := ⟨rfl, by decide, by simp [aloneNode]⟩
  obtain ⟨t, ht⟩ := setPeer_total initPeerTable_inv hhash somePeer (by
    rw [initPeerTable_len]
    decide)
  obtain ⟨-, hinv, happ⟩ := setPeer_ok initPeerTable_inv ht
  refine ⟨t, hinv, ?_, hboot.inv.strings.appended rfl rfl happ hpeer⟩
  have hhome := happ.home
  rw [initPeerTable_peers] at hhome
  exact hhome

/-- A node with one peer answers a search, and the peer arrives at a freshly booted node. -/
theorem peer_list_arrives_one : ∃ a rA a' x r b',
    recvRpc sendingOs fileHash lookMsg a = .ok (rA, a') ∧ a'.sends = a.sends ++ [x] ∧
      recvRpc sendingOs fileHash x.msg aloneNode = .ok (r, b') ∧
      homePeers b'.table fileHash = [somePeer] := by
  have hhash : Terminated fileHash.mem := by decide
  have hboot : Booted aloneNode := ⟨rfl, by decide, by simp [aloneNode]⟩
  obtain ⟨t, hinv, hhome, hstrings⟩ := lone_holder
  have hlen : homeLen t fileHash = 1 := by
    rw [← homePeers_length, hhome]
    rfl
  have hcall : IsCall (decodeHeader lookMsg) .getPeers := searchCall_isCall _ _ _ _
  have hasked : decodeHash (decodeHeader lookMsg).body = fileHash := searchCall_hash _ _ _ _
  have hfit : homeLen t fileHash ≤ 25 := hlen.trans_le (by decide)
  obtain ⟨rA, a', ha⟩ := recvRpc_total sendingOs fileHash lookMsg (aloneNode.setTable t)
    hstrings hinv hhash ⟨fun _ => by rw [hasked]; exact hfit, hfit⟩
    (searchCall_strings hhash (by decide) (by decide)) (countFits_of_call hcall)
  have hbucket : getPeerBucket (aloneNode.setTable t).table
      (decodeHash (decodeHeader lookMsg).body).mem = .ok (some (homeOf fileHash.str)) := by
    rw [hasked]
    exact getPeerBucket_inv hinv hhash
  obtain ⟨x, hx, htakes, htotal⟩ := peer_list_arrives sendingOs sendingOs fileHash fileHash
    (aloneNode.setTable t) a' aloneNode aloneNode lookMsg rA (homeOf fileHash.str) [] hcall
    hbucket hlen.ge (hlen.trans_le (by decide)) ha rfl rfl
  have hempty : homeLen aloneNode.table fileHash = 0 := initPeerTable_len _ _
  have hroom : (homeLen aloneNode.table fileHash + homeLen t fileHash) * sizeofPeer * 2 ≤
      ptrdiffMax := by
    rw [hempty, hlen]
    decide
  obtain ⟨r, b', hb'⟩ := htotal hboot.inv.strings hhash (by
    intro p hp
    obtain rfl := List.mem_singleton.mp (hhome ▸ hp : p ∈ [somePeer])
    decide) hroom
  refine ⟨_, rA, a', x, r, b', ha, hx, hb', ?_⟩
  have hnil : homePeers aloneNode.table fileHash = [] := initPeerTable_peers _ _
  rw [(htakes r b' hb').2.1, hnil]
  exact hhome

end PeerToPeer
