import PeerToPeer.Rpc.Total

namespace PeerToPeer

open CLib

/-- The arguments of a `call_rpc` or a `reply_rpc`. -/
inductive Outgoing where
  | call (method : Method) (payload : List UInt8) (host : Origin)
  | reply (method : Method) (payload : List UInt8) (id : Bytes correlationIdSize)
      (status : MsgStatus)

/-- The peers in the payload of an answer, as many as its count byte says. -/
def payloadPeers (payload : List UInt8) : List Peer :=
  readPeers (Bytes.padded maxPayloadSize payload) 1 (payload.getD 0 0).toNat

namespace Outgoing

def build : Outgoing → Except Fault RpcMsg
  | call method payload host => callMsg method payload host
  | reply method payload id status => replyMsg method payload id status

/-- Every string ends in its field, and an answer counts at most `MAX_PEER_BUCKETS` peers. -/
def Clean : Outgoing → Prop
  | call method payload host => Terminated host.ip.mem ∧ (method = .getPeers →
      Terminated ((Bytes.padded maxPayloadSize payload).read sizeofOrigin idSize).mem ∧
        Terminated (readOrigin (Bytes.padded maxPayloadSize payload) 0).ip.mem)
  | reply method payload id status => Terminated id.mem ∧ (method = .getPeers → status = .ok →
      (payload.getD 0 0).toNat ≤ maxPeerBuckets ∧
        ∀ p ∈ payloadPeers payload, Terminated p.ip.mem)

/-- The peers the receiver adds to its bucket; `sent` tells whether its own reply got out. -/
def stores (sent : Bool) : Outgoing → List Peer
  | call .join _ host =>
      if sent then [⟨host.ip.norm, host.port, Bytes.zero 16, Bytes.zero 2, PeerState.passive.code⟩]
      else []
  | reply .getPeers payload _ .ok => payloadPeers payload
  | _ => []

/-- A `JOIN` call. -/
def IsJoin : Outgoing → Prop
  | call .join _ _ => True
  | _ => False

end Outgoing

theorem method_code_inj {a b : Method} (h : a.code = b.code) : a = b := by
  revert h
  cases a <;> cases b <;> decide

theorem isCall_callOf_iff {method method' : Method} {payload : List UInt8} {host : Origin}
    (hl : payload.length ≤ maxPayloadSize) :
    IsCall (decodeHeader (callOf method payload host)) method' ↔ method = method' := by
  rw [IsCall, decodeHeader_callOf_type, decodeHeader_callOf_method method payload host hl]
  exact ⟨fun h => method_code_inj h.2, fun h => ⟨rfl, by rw [h]⟩⟩

theorem not_isReply_callOf {method method' : Method} {payload : List UInt8} {host : Origin} :
    ¬ IsReply (decodeHeader (callOf method payload host)) method' :=
  fun h => h.1 (decodeHeader_callOf_type method payload host)

theorem not_isCall_replyOf {method method' : Method} {payload : List UInt8}
    {id : Bytes correlationIdSize} {status : MsgStatus} :
    ¬ IsCall (decodeHeader (replyOf method payload id status)) method' := by
  intro h
  have ht := h.1
  rw [decodeHeader_replyOf_type] at ht
  exact absurd ht (by decide)

/-- Of all replies only those to `GET_PEERS` are recognised. -/
theorem isReply_replyOf_iff {method : Method} {payload : List UInt8}
    {id : Bytes correlationIdSize} {status : MsgStatus} :
    IsReply (decodeHeader (replyOf method payload id status)) .getPeers ↔
      method = .getPeers := by
  have hcode : swapLow method.code = Method.getPeers.code ↔ method = .getPeers := by
    cases method <;> decide
  rw [IsReply, decodeHeader_replyOf_type, decodeHeader_replyOf_method, hcode]
  exact ⟨fun h => h.2, fun h => ⟨by decide, h⟩⟩

theorem replyOk_replyOf_iff {method : Method} {payload : List UInt8}
    {id : Bytes correlationIdSize} {status : MsgStatus} :
    ReplyOk (decodeHeader (replyOf method payload id status)) ↔ status = .ok := by
  rw [ReplyOk, decodeHeader_replyOf_status]
  cases status <;> decide

theorem replyCount_eq (body : Body) (h : 0 < maxPayloadSize) :
    replyCount body = (Body.replyPayload body)[0].toNat := by
  delta replyCount
  rfl

theorem replyCount_replyOf (method : Method) (payload : List UInt8)
    (id : Bytes correlationIdSize) (status : MsgStatus) :
    replyCount (decodeHeader (replyOf method payload id status)).body =
      (payload.getD 0 0).toNat := by
  have h := decodeHeader_replyOf_getElem method payload id status 0 (Nat.succ_pos 1023)
  rw [if_pos (Or.inl (Nat.succ_pos 1015))] at h
  rw [replyCount_eq _ (Nat.succ_pos 1023), h]

theorem readPeer_congr {n n' : Nat} {b : Bytes n} {b' : Bytes n'} {off : Nat}
    (h : ∀ i, off ≤ i → i < off + sizeofPeer → b[i]?.getD 0 = b'[i]?.getD 0) :
    readPeer b off = readPeer b' off := by
  have part (o m : Nat) (ho : off ≤ o) (hm : o + m ≤ off + sizeofPeer) :
      b.read o m = b'.read o m :=
    Bytes.read_congr fun i hi hi' => h i (by omega) (by omega)
  rw [sizeofPeer] at part
  rw [readPeer, readPeer, readU16, readU16, Bytes.u32, Bytes.u32, part off inetAddrstrlen (by omega)
    (by rw [inetAddrstrlen]; omega), part (off + 16) 2 (by omega) (by omega),
    part (off + 18) 16 (by omega) (by omega), part (off + 34) 2 (by omega) (by omega),
    part (off + 36) 4 (by omega) (by omega)]

theorem readPeers_congr {n n' : Nat} {b : Bytes n} {b' : Bytes n'} {off count : Nat}
    (h : ∀ i, off ≤ i → i < off + sizeofPeer * count → b[i]?.getD 0 = b'[i]?.getD 0) :
    readPeers b off count = readPeers b' off count := by
  apply List.map_congr_left
  intro k hk
  have hk' := List.mem_range.mp hk
  apply readPeer_congr
  intro i hi hi'
  rw [sizeofPeer] at *
  exact h i (by omega) (by omega)

/-- The in-place swap lies behind the peers of an answer, so they arrive as they were sent. -/
theorem replyPeers_replyOf {method : Method} {payload : List UInt8}
    {id : Bytes correlationIdSize} {status : MsgStatus}
    (hc : (payload.getD 0 0).toNat ≤ 25) :
    replyPeers (decodeHeader (replyOf method payload id status)) = payloadPeers payload := by
  rw [replyPeers, payloadPeers, replyCount_replyOf]
  apply readPeers_congr
  intro i hi hi'
  rw [sizeofPeer] at hi'
  have hlt : i < maxPayloadSize := by rw [maxPayloadSize]; omega
  rw [Vector.getElem?_eq_getElem hlt, Vector.getElem?_eq_getElem hlt, Option.getD_some,
    Option.getD_some, decodeHeader_replyOf_getElem method payload id status i hlt,
    if_pos (Or.inl (by omega)), Bytes.getElem_padded]

theorem flatMap_encode_drop (ps : List Peer) (k : Nat) :
    (ps.flatMap Peer.encode).drop (sizeofPeer * k) = (ps.drop k).flatMap Peer.encode := by
  induction k generalizing ps with
  | zero => simp
  | succ k ih =>
    cases ps with
    | nil => simp
    | cons p ps =>
      rw [List.flatMap_cons, Nat.mul_succ, Nat.add_comm, ← List.drop_drop,
        List.drop_left' p.encode_length, List.drop_succ_cons, ih]

theorem take_drop_middle {pre field post : List UInt8} {o w : Nat} (ho : pre.length = o)
    (hw : field.length = w) : ((pre ++ field ++ post).drop o).take w = field := by
  rw [List.append_assoc, List.drop_left' ho, List.take_left' hw]

/-- A peer reads back from the bytes it was written as. -/
theorem readPeer_encode {n : Nat} {b : Bytes n} {off : Nat} {p : Peer}
    (h : ∀ o m, o + m ≤ sizeofPeer → (b.read (off + o) m).toList = (p.encode.drop o).take m) :
    readPeer b off = p := by
  have region (pre field post : List UInt8) (o w : Nat) (he : p.encode = pre ++ field ++ post)
      (ho : pre.length = o) (hw : field.length = w) (hle : o + w ≤ sizeofPeer) :
      (b.read (off + o) w).toList = field := by
    rw [h o w hle, he, take_drop_middle ho hw]
  have hip : b.read off 16 = p.ip := by
    apply Vector.toList_inj.mp
    exact region [] p.ip.mem (encodeLE 2 p.port.toNat ++ p.jobId.mem ++ p.pad.mem ++
      encodeLE 4 p.state.toNat) 0 16 (by simp [Peer.encode]) rfl (by simp) (by decide)
  have hport : readU16 b (off + 16) = p.port :=
    readU16_of_bytes (region p.ip.mem _ (p.jobId.mem ++ p.pad.mem ++ encodeLE 4 p.state.toNat)
      16 2 (by simp [Peer.encode]) (by simp) (by simp) (by decide))
  have hjob : b.read (off + 18) 16 = p.jobId := by
    apply Vector.toList_inj.mp
    exact region (p.ip.mem ++ encodeLE 2 p.port.toNat) _ (p.pad.mem ++ encodeLE 4 p.state.toNat)
      18 16 (by simp [Peer.encode]) (by simp) (by simp) (by decide)
  have hpad : b.read (off + 34) 2 = p.pad := by
    apply Vector.toList_inj.mp
    exact region (p.ip.mem ++ encodeLE 2 p.port.toNat ++ p.jobId.mem) _
      (encodeLE 4 p.state.toNat) 34 2 rfl (by simp) (by simp) (by decide)
  have hstate : b.u32 (off + 36) = p.state :=
    Bytes.u32_of_bytes (region (p.ip.mem ++ encodeLE 2 p.port.toNat ++ p.jobId.mem ++ p.pad.mem)
      _ [] 36 4 (by rw [Peer.encode, List.append_nil]) (by simp) (by simp) (by decide))
  rw [readPeer, hip, hport, hjob, hpad, hstate]

/-- The peers of an answer read back as long as it fits its buffer. -/
theorem payloadPeers_answerBytes {ps : List Peer} (h : ps.length ≤ 25) :
    payloadPeers (answerBytes ps) = ps := by
  have hcount : ((answerBytes ps).getD 0 0).toNat = ps.length := by
    rw [answerBytes, List.getD_cons_zero, UInt8.toNat_ofNat']
    omega
  have hlen : (answerBytes ps).length = 1 + sizeofPeer * ps.length := answerBytes_length ps
  rw [payloadPeers, readPeers, hcount]
  apply List.ext_getElem
  · simp
  · intro k h1 h2
    rw [List.getElem_map, List.getElem_range]
    apply readPeer_encode
    intro o m hom
    have hpeer : ps[k].encode.length = 40 := Peer.encode_length _
    have hom' : o + m ≤ 40 := hom
    rw [sizeofPeer] at hlen ⊢
    rw [Bytes.padded, Bytes.read_write_inside _ _ _ _ _ (Nat.zero_le _) (by omega)
      (by rw [hlen, maxPayloadSize]; omega)]
    have hdrop : (answerBytes ps).drop (1 + 40 * k + o - 0) =
        ((ps.drop k).flatMap Peer.encode).drop o := by
      have hk : 1 + 40 * k + o - 0 = 40 * k + o + 1 := by omega
      rw [← flatMap_encode_drop, List.drop_drop, answerBytes, hk, List.drop_succ_cons]
    rw [hdrop, List.drop_eq_getElem_cons h2, List.flatMap_cons,
      List.drop_append_of_le_length (by omega),
      List.take_append_of_le_length (by rw [List.length_drop]; omega)]

section Search

variable (stack : Bytes maxPayloadSize) (src : Origin) (infoHash : Bytes idSize) (host : Origin)

theorem callPayload_searchCall :
    Body.callPayload (decodeHeader
      (callOf .getPeers (getPeersPayload stack src infoHash).mem host)).body =
      getPeersPayload stack src infoHash := by
  rw [decodeHeader_callOf_payload, Bytes.padded_toList]

/-- The receiver of a search reads the hash the sender put in. -/
theorem decodeHash_searchCall :
    decodeHash (decodeHeader
      (callOf .getPeers (getPeersPayload stack src infoHash).mem host)).body = infoHash := by
  rw [decodeHash, callPayload_searchCall]
  apply Vector.toList_inj.mp
  exact Bytes.read_write_self _ _ _ _ (by simp) (by decide)

theorem read_getPeersPayload (off m : Nat) (h : off + m ≤ sizeofOrigin) :
    ((getPeersPayload stack src infoHash).read off m).toList = (src.encode.drop off).take m := by
  have hl : src.encode.length = sizeofOrigin := by
    rw [Origin.encode, List.length_append, encodeLE_length, Vector.length_toList]
    rfl
  rw [getPeersPayload, Bytes.read_write_disjoint _ _ _ _ _ (Or.inl h),
    Bytes.read_write_inside _ _ _ _ _ (Nat.zero_le _) (by omega) (by rw [hl]; decide),
    Nat.sub_zero]

/-- The receiver of a search reads the source the sender put in, its port swapped back. -/
theorem decodeSrc_searchCall :
    decodeSrc (decodeHeader
      (callOf .getPeers (getPeersPayload stack src infoHash).mem host)).body =
      ⟨ntohs src.port, src.ip⟩ := by
  rw [decodeSrc, callPayload_searchCall, readOrigin]
  have hport : readU16 (getPeersPayload stack src infoHash) 0 = src.port := by
    apply readU16_of_bytes
    rw [read_getPeersPayload _ _ _ _ _ (by decide)]
    simp [Origin.encode]
  have hip : (getPeersPayload stack src infoHash).read (0 + 2) inetAddrstrlen = src.ip := by
    apply Vector.toList_inj.mp
    have hdrop : src.encode.drop (0 + 2) = src.ip.mem := by simp [Origin.encode]
    rw [read_getPeersPayload _ _ _ _ _ (by decide), hdrop]
    exact List.take_of_length_le (by rw [Vector.length_toList])
  rw [hport, hip]

end Search

namespace Outgoing

theorem build_call_ok {method : Method} {payload : List UInt8} {host : Origin} {msg : RpcMsg}
    (h : (call method payload host).build = .ok msg) :
    payload.length ≤ maxPayloadSize ∧ msg = callOf method payload host :=
  ⟨(callMsg_ok_iff.mp h).1, (callMsg_ok_iff.mp h).2.2⟩

theorem build_reply_ok {method : Method} {payload : List UInt8} {id : Bytes correlationIdSize}
    {status : MsgStatus} {msg : RpcMsg} (h : (reply method payload id status).build = .ok msg) :
    msg = replyOf method payload id status := (replyMsg_ok_iff.mp h).2.2

theorem Clean.strings {out : Outgoing} {msg : RpcMsg} (hc : out.Clean)
    (h : out.build = .ok msg) : MsgStrings msg := by
  cases out with
  | call method payload host =>
    obtain ⟨hl, rfl⟩ := build_call_ok h
    have hid : Terminated randomValue.mem := by decide
    refine ⟨Bytes.terminated_norm hc.1, hid, ?_, ?_⟩
    · intro hcall
      rw [decodeHash, decodeSrc, decodeHeader_callOf_payload]
      exact hc.2 ((isCall_callOf_iff hl).mp hcall)
    · intro hr
      exact absurd hr not_isReply_callOf
  | reply method payload id status =>
    obtain rfl := build_reply_ok h
    have hip : Terminated (Bytes.zero inetAddrstrlen).mem := by decide
    refine ⟨hip, Bytes.terminated_norm hc.1, ?_, ?_⟩
    · intro hcall
      exact absurd hcall not_isCall_replyOf
    · intro hr hs
      obtain ⟨hn, hp⟩ := hc.2 (isReply_replyOf_iff.mp hr) (replyOk_replyOf_iff.mp hs)
      rw [replyPeers_replyOf (hn.trans (by decide))]
      exact hp

theorem Clean.count {out : Outgoing} {msg : RpcMsg} (hc : out.Clean)
    (h : out.build = .ok msg) : CountFits msg := by
  intro hr hs
  cases out with
  | call method payload host =>
    obtain ⟨-, rfl⟩ := build_call_ok h
    exact absurd hr not_isReply_callOf
  | reply method payload id status =>
    obtain rfl := build_reply_ok h
    rw [replyCount_replyOf]
    exact (hc.2 (isReply_replyOf_iff.mp hr) (replyOk_replyOf_iff.mp hs)).1

/-- The handler stores exactly what the sender's arguments say. -/
theorem Clean.storedPeers_eq {out : Outgoing} {msg : RpcMsg} (hc : out.Clean)
    (h : out.build = .ok msg) (sent : Bool) :
    storedPeers sent ⟨ntohs msg.origin.port, msg.origin.ip.norm⟩ (decodeHeader msg) =
      out.stores sent := by
  cases out with
  | call method payload host =>
    obtain ⟨hl, rfl⟩ := build_call_ok h
    by_cases hj : method = .join
    · subst hj
      rw [storedPeers_join ((isCall_callOf_iff hl).mpr rfl)]
      simp [stores, joinedPeer, callOf, Bytes.norm_norm]
    · rw [storedPeers_other (fun hcall => hj ((isCall_callOf_iff hl).mp hcall))
        (fun hr => not_isReply_callOf hr.1)]
      cases method <;> first | rfl | exact absurd rfl hj
  | reply method payload id status =>
    obtain rfl := build_reply_ok h
    by_cases hr : method = .getPeers ∧ status = .ok
    · obtain ⟨rfl, rfl⟩ := hr
      rw [storedPeers_reply (isReply_replyOf_iff.mpr rfl) (replyOk_replyOf_iff.mpr rfl),
        replyPeers_replyOf ((hc.2 rfl rfl).1.trans (by decide))]
      rfl
    · rw [storedPeers_other not_isCall_replyOf
        (fun h' => hr ⟨isReply_replyOf_iff.mp h'.1, replyOk_replyOf_iff.mp h'.2⟩)]
      cases method <;> cases status <;> first | rfl | exact absurd ⟨rfl, rfl⟩ hr

theorem IsJoin.isCall {out : Outgoing} {msg : RpcMsg} (hj : out.IsJoin)
    (h : out.build = .ok msg) : IsCall (decodeHeader msg) .join := by
  cases out with
  | call method payload host =>
    obtain ⟨hl, rfl⟩ := build_call_ok h
    cases method <;> first | exact (isCall_callOf_iff hl).mpr rfl | exact absurd hj id
  | reply method payload id status => exact absurd hj (fun h => h)

end Outgoing

end PeerToPeer
