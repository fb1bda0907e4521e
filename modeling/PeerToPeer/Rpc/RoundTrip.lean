import PeerToPeer.Peers.Isolation
import PeerToPeer.Rpc.Images
import PeerToPeer.Rpc.Receive

namespace PeerToPeer

open CLib

/-- `call_rpc` builds a message, and header decoding gives its parts back. -/
def CallRoundTrip (method : Method) (payload : List UInt8) (host : Origin) : Prop :=
  ∃ msg, callMsg method payload host = .ok msg ∧
    (decodeHeader msg).msgType = MsgType.call.code ∧
    Body.callMethod (decodeHeader msg).body = method.code ∧
    (∃ o, decodeOrigin msg.origin = .ok o ∧ o.addr = host.addr) ∧
    ((Body.callPayload (decodeHeader msg).body).read 0 payload.length).toList = payload

/-- `reply_rpc` builds a message, and the handler reads its parts back after header decoding. -/
def ReplyRoundTrip (method : Method) (payload : List UInt8) (id : Bytes correlationIdSize)
    (status : MsgStatus) : Prop :=
  ∃ msg, replyMsg method payload id status = .ok msg ∧
    (decodeHeader msg).msgType = MsgType.reply.code ∧
    Body.replyMethod (decodeHeader msg).body = method.code ∧
    Body.replyStatus (decodeHeader msg).body = status.code ∧
    ((Body.replyPayload (decodeHeader msg).body).read 0 payload.length).toList = payload

/-- The payload does not notice the swap of the four bytes under `cbody.method`. -/
def SwapStable (payload : List UInt8) : Prop :=
  payload.getD 1016 0 = payload.getD 1017 0 ∧ payload.getD 1018 0 = 0 ∧ payload.getD 1019 0 = 0

instance (payload : List UInt8) : Decidable (SwapStable payload) :=
  inferInstanceAs (Decidable (_ ∧ _ ∧ _))

theorem callRoundTrip_iff (method : Method) (payload : List UInt8) (host : Origin)
    (hl : payload.length ≤ maxPayloadSize) :
    CallRoundTrip method payload host ↔ Terminated host.ip.mem := by
  constructor
  · rintro ⟨msg, hmsg, -⟩
    exact (callMsg_ok_iff.mp hmsg).2.1
  · intro ht
    refine ⟨_, callMsg_ok_iff.mpr ⟨hl, ht, rfl⟩, decodeHeader_callOf_type method payload host,
      decodeHeader_callOf_method method payload host hl,
      ⟨_, decodeHeader_callOf_origin method payload host ht, ?_⟩, ?_⟩
    · simp [Origin.addr, Bytes.str_norm]
    · rw [decodeHeader_callOf_payload, Bytes.padded, Bytes.read_write_self _ _ _ _ rfl]
      rwa [Nat.zero_add]

/-- The method field survives only as zero. -/
theorem swapLow_method_eq_iff (method : Method) :
    swapLow method.code = method.code ↔ method = .getPeers := by
  cases method <;> decide

/-- `ERR` arrives as 65535, which is not `ERR`. -/
theorem swapLow_status_eq_iff (status : MsgStatus) :
    swapLow status.code = status.code ↔ status = .ok := by
  cases status <;> decide

theorem replyPayload_read_iff (method : Method) (payload : List UInt8)
    (id : Bytes correlationIdSize) (status : MsgStatus) (hl : payload.length ≤ maxPayloadSize) :
    ((Body.replyPayload (decodeHeader (replyOf method payload id status)).body).read 0
      payload.length).toList = payload ↔ SwapStable payload := by
  have hl' : payload.length ≤ 1024 := hl
  have hread (i : Nat) (hi : i < payload.length) :
      ((Body.replyPayload (decodeHeader (replyOf method payload id status)).body).read 0
        payload.length)[i] =
      if i < 1016 ∨ 1020 ≤ i then payload.getD i 0
      else [payload.getD 1017 0, payload.getD 1016 0, 0, 0].getD (i - 1016) 0 := by
    have hi' : i < maxPayloadSize := by rw [maxPayloadSize]; omega
    rw [Bytes.getElem_read, Nat.zero_add, Vector.getElem?_eq_getElem hi', Option.getD_some,
      decodeHeader_replyOf_getElem method payload id status i hi']
  have hget (i : Nat) (hi : i < payload.length) : payload.getD i 0 = payload[i] := by
    simp [List.getD, hi]
  have hzero (i : Nat) (hi : payload.length ≤ i) : payload.getD i 0 = 0 := by
    simp [List.getD, hi]
  constructor
  · intro h
    have hat (i : Nat) (hi : i < payload.length) :
        (if i < 1016 ∨ 1020 ≤ i then payload.getD i 0
          else [payload.getD 1017 0, payload.getD 1016 0, 0, 0].getD (i - 1016) 0) =
          payload.getD i 0 := by
      rw [← hread i hi, hget i hi]
      have := congrArg (fun l : List UInt8 => l[i]?) h
      simpa [hi] using this
    refine ⟨?_, ?_, ?_⟩
    · rcases Nat.lt_or_ge 1016 payload.length with h₀ | h₀
      · simpa using (hat 1016 h₀).symm
      · rw [hzero 1016 h₀, hzero 1017 (by omega)]
    · rcases Nat.lt_or_ge 1018 payload.length with h₂ | h₂
      · simpa using (hat 1018 h₂).symm
      · exact hzero 1018 h₂
    · rcases Nat.lt_or_ge 1019 payload.length with h₃ | h₃
      · simpa using (hat 1019 h₃).symm
      · exact hzero 1019 h₃
  · rintro ⟨h₀, h₂, h₃⟩
    apply List.ext_getElem (by simp)
    intro i hi hi'
    rw [Vector.getElem_toList, hread i hi', ← hget i hi']
    split_ifs with hc
    · rfl
    · obtain rfl | rfl | rfl | rfl : i = 1016 ∨ i = 1017 ∨ i = 1018 ∨ i = 1019 := by omega
      · exact h₀.symm
      · exact h₀
      · exact h₂.symm
      · exact h₃.symm

theorem replyRoundTrip_iff (method : Method) (payload : List UInt8)
    (id : Bytes correlationIdSize) (status : MsgStatus) (hl : payload.length ≤ maxPayloadSize) :
    ReplyRoundTrip method payload id status ↔
      Terminated id.mem ∧ method = .getPeers ∧ status = .ok ∧ SwapStable payload := by
  have hm := decodeHeader_replyOf_method method payload id status
  have hs := decodeHeader_replyOf_status method payload id status
  constructor
  · rintro ⟨msg, hmsg, -, h₁, h₂, h₃⟩
    obtain ⟨-, ht, rfl⟩ := replyMsg_ok_iff.mp hmsg
    refine ⟨ht, ?_, ?_, (replyPayload_read_iff method payload id status hl).mp h₃⟩
    · rwa [hm, swapLow_method_eq_iff] at h₁
    · rwa [hs, swapLow_status_eq_iff] at h₂
  · rintro ⟨ht, rfl, rfl, hp⟩
    exact ⟨_, replyMsg_ok_iff.mpr ⟨hl, ht, rfl⟩, decodeHeader_replyOf_type _ _ _ _, hm, hs,
      (replyPayload_read_iff _ payload id _ hl).mpr hp⟩

/-- Both directions of the format, for every message: a call always comes back, a reply only
as a `GET_PEERS` reply with status `OK` whose bytes 1016 to 1019 survive the in-place swap. -/
theorem message_roundTrip_iff (method : Method) (status : MsgStatus) (host : Origin)
    (id : Bytes correlationIdSize) (payload : List UInt8)
    (hl : payload.length ≤ maxPayloadSize) :
    CallRoundTrip method payload host ∧ ReplyRoundTrip method payload id status ↔
      Terminated host.ip.mem ∧ Terminated id.mem ∧
        method = .getPeers ∧ status = .ok ∧ SwapStable payload := by
  rw [callRoundTrip_iff method payload host hl, replyRoundTrip_iff method payload id status hl]

/-- A list of one peer comes back. -/
theorem message_roundTrip_answer :
    CallRoundTrip .getPeers (answerBytes [somePeer]) ⟨3001, Bytes.zero 16⟩ ∧
      ReplyRoundTrip .getPeers (answerBytes [somePeer]) randomValue .ok :=
  (message_roundTrip_iff .getPeers .ok ⟨3001, Bytes.zero 16⟩ randomValue (answerBytes [somePeer])
    (by decide)).mpr ⟨by decide, by decide, rfl, rfl, by decide⟩

/-- The answer to a `JOIN` call does not come back as a `JOIN` reply. -/
theorem join_reply_lost : ¬ ReplyRoundTrip .join [] randomValue .ok := by
  rw [replyRoundTrip_iff .join [] randomValue .ok (by decide)]
  rintro ⟨-, h, -⟩
  exact absurd h (by decide)

end PeerToPeer
