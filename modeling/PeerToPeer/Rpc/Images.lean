import PeerToPeer.Rpc.Send

namespace PeerToPeer

open CLib

/-- The image `call_rpc` sends when its payload fits and its strings end. -/
def callOf (method : Method) (payload : List UInt8) (host : Origin) : RpcMsg where
  segmentCount := 0
  msgType := swapLow MsgType.call.code
  origin := ⟨htons host.port, host.ip.norm⟩
  segmentNumber := 0
  body := ((Bytes.zero 1032).setU32 callMethodAt (swapLow method.code)).write 0 payload
  correlationId := randomValue

/-- The image `reply_rpc` sends when its payload fits and its strings end. -/
def replyOf (method : Method) (payload : List UInt8) (correlationId : Bytes correlationIdSize)
    (status : MsgStatus) : RpcMsg where
  segmentCount := 0
  msgType := swapLow MsgType.reply.code
  origin := ⟨0, Bytes.zero inetAddrstrlen⟩
  segmentNumber := 0
  body := (((Bytes.zero 1032).setU32 0 (swapLow method.code)).setU32 replyStatusAt
    (swapLow status.code)).write replyPayloadAt payload
  correlationId := correlationId.norm

theorem callMsg_ok_iff {method : Method} {payload : List UInt8} {host : Origin} {msg : RpcMsg} :
    callMsg method payload host = .ok msg ↔
      payload.length ≤ maxPayloadSize ∧ Terminated host.ip.mem ∧
        msg = callOf method payload host := by
  unfold callMsg copyPayload Bytes.strcpy
  by_cases hl : payload.length ≤ maxPayloadSize <;> by_cases ht : Terminated host.ip.mem <;>
    simp [hl, ht, callOf, eq_comm]

theorem replyMsg_ok_iff {method : Method} {payload : List UInt8}
    {id : Bytes correlationIdSize} {status : MsgStatus} {msg : RpcMsg} :
    replyMsg method payload id status = .ok msg ↔
      payload.length ≤ maxPayloadSize ∧ Terminated id.mem ∧
        msg = replyOf method payload id status := by
  unfold replyMsg copyPayload Bytes.strcpy
  by_cases hl : payload.length ≤ maxPayloadSize <;> by_cases ht : Terminated id.mem <;>
    simp [hl, ht, replyOf, eq_comm]

theorem decodeOrigin_ok_iff {o o' : Origin} :
    decodeOrigin o = .ok o' ↔ Terminated o.ip.mem ∧ o' = ⟨ntohs o.port, o.ip.norm⟩ := by
  unfold decodeOrigin Bytes.strcpy
  by_cases ht : Terminated o.ip.mem <;> simp [ht, eq_comm]

theorem swapLow_method (method : Method) : swapLow (swapLow method.code) = method.code := by
  cases method <;> decide

section Call

variable (method : Method) (payload : List UInt8) (host : Origin)

@[simp] theorem decodeHeader_callOf_type :
    (decodeHeader (callOf method payload host)).msgType = MsgType.call.code := by
  change swapLow (swapLow MsgType.call.code) = MsgType.call.code
  decide

theorem callOf_callMethod (hl : payload.length ≤ maxPayloadSize) :
    Body.callMethod (callOf method payload host).body = swapLow method.code := by
  rw [Body.callMethod, callOf, Bytes.u32_write_disjoint _ _ _ _ (by
    right; simp only [maxPayloadSize, callMethodAt] at *; omega)]
  exact Bytes.u32_setU32 _ _ _ (by decide)

theorem decodeHeader_callOf_method (hl : payload.length ≤ maxPayloadSize) :
    Body.callMethod (decodeHeader (callOf method payload host)).body = method.code := by
  rw [decodeHeader, callOf_callMethod method payload host hl, Body.callMethod,
    Bytes.u32_setU32 _ _ _ (by decide), swapLow_method]

/-- Header decoding leaves the payload of a call alone. -/
theorem decodeHeader_callOf_payload :
    Body.callPayload (decodeHeader (callOf method payload host)).body =
      Bytes.padded maxPayloadSize payload := by
  ext i hi
  have hi' : i < 1024 := hi
  have hn : i < 1032 := by omega
  have hm : ¬ callMethodAt ≤ i := by simp only [callMethodAt]; omega
  rw [Bytes.getElem_padded, Body.callPayload, Bytes.getElem_read, Nat.zero_add,
    Vector.getElem?_eq_getElem hn, Option.getD_some, decodeHeader, Bytes.setU32,
    Bytes.getElem_write, if_neg hm, callOf, Bytes.getElem_write, if_pos (Nat.zero_le i),
    Bytes.setU32, Bytes.getElem_write, if_neg hm, Bytes.getElem_zero, List.getD]
  rfl

theorem decodeHeader_callOf_origin (hh : Terminated host.ip.mem) :
    decodeOrigin (callOf method payload host).origin = .ok ⟨host.port, host.ip.norm⟩ := by
  rw [decodeOrigin_ok_iff]
  exact ⟨Bytes.terminated_norm hh, by simp [callOf, Bytes.norm_norm]⟩

end Call

section Reply

variable (method : Method) (payload : List UInt8) (id : Bytes correlationIdSize)
  (status : MsgStatus)

@[simp] theorem decodeHeader_replyOf_type :
    (decodeHeader (replyOf method payload id status)).msgType = MsgType.reply.code := by
  change swapLow (swapLow MsgType.reply.code) = MsgType.reply.code
  decide

/-- The method of a reply is read as it was sent, still in network order. -/
theorem decodeHeader_replyOf_method :
    Body.replyMethod (decodeHeader (replyOf method payload id status)).body =
      swapLow method.code := by
  rw [Body.replyMethod, decodeHeader, Bytes.u32_setU32_disjoint _ _ _ _ (by decide), replyOf,
    Bytes.u32_write_disjoint _ _ _ _ (Or.inl (by decide)),
    Bytes.u32_setU32_disjoint _ _ _ _ (by decide)]
  exact Bytes.u32_setU32 _ _ _ (by decide)

theorem decodeHeader_replyOf_status :
    Body.replyStatus (decodeHeader (replyOf method payload id status)).body =
      swapLow status.code := by
  rw [Body.replyStatus, decodeHeader, Bytes.u32_setU32_disjoint _ _ _ _ (by decide), replyOf,
    Bytes.u32_write_disjoint _ _ _ _ (Or.inl (by decide))]
  exact Bytes.u32_setU32 _ _ _ (by decide)

theorem replyOf_body_getElem (i : Nat) (hi : i < maxPayloadSize) :
    (replyOf method payload id status).body[replyPayloadAt + i]? = some (payload.getD i 0) := by
  have hn : replyPayloadAt + i < 1032 := by
    simp only [maxPayloadSize, replyPayloadAt] at *
    omega
  rw [Vector.getElem?_eq_getElem hn]
  by_cases hp : i < payload.length
  · simp [replyOf, Bytes.getElem_write, hp, List.getD]
  · have h₁ : payload.length ≤ i := by omega
    have h₂ : ¬ replyPayloadAt + i < 4 := by simp only [replyPayloadAt]; omega
    have h₃ : 4 ≤ replyPayloadAt + i - 4 := by simp only [replyPayloadAt]; omega
    have h₄ : 4 ≤ replyPayloadAt + i := by simp only [replyPayloadAt]; omega
    simp [replyOf, Bytes.getElem_write, Bytes.setU32, h₁, List.getD, h₃, h₄, Bytes.getElem_zero]

/-- What header decoding leaves of the payload of a reply: the four bytes under
`cbody.method` have their first two exchanged and the other two cleared. -/
theorem decodeHeader_replyOf_getElem (i : Nat) (hi : i < maxPayloadSize) :
    (Body.replyPayload (decodeHeader (replyOf method payload id status)).body)[i] =
      if i < 1016 ∨ 1020 ≤ i then payload.getD i 0
      else [payload.getD 1017 0, payload.getD 1016 0, 0, 0].getD (i - 1016) 0 := by
  have hi' : i < 1024 := hi
  have hm : encodeLE 4 (swapLow (Body.callMethod (replyOf method payload id status).body)).toNat =
      [payload.getD 1017 0, payload.getD 1016 0, 0, 0] := by
    rw [Body.callMethod, Bytes.u32_eq, swapLow_bytes]
    have h₀ := replyOf_body_getElem method payload id status 1016 (by decide)
    have h₁ := replyOf_body_getElem method payload id status 1017 (by decide)
    simp only [replyPayloadAt] at h₀ h₁
    simp only [callMethodAt, h₀, h₁, Option.getD_some]
  have hn : replyPayloadAt + i < 1032 := by simp only [replyPayloadAt]; omega
  have hw : (replyOf method payload id status).body[replyPayloadAt + i] = payload.getD i 0 := by
    have hsome := replyOf_body_getElem method payload id status i hi
    rw [Vector.getElem?_eq_getElem hn] at hsome
    exact Option.some.inj hsome
  rw [Body.replyPayload, Bytes.getElem_read, Vector.getElem?_eq_getElem hn, Option.getD_some,
    decodeHeader, Bytes.setU32, Bytes.getElem_write, hm, hw]
  simp only [callMethodAt, replyPayloadAt]
  rcases Nat.lt_or_ge i 1016 with h | h
  · rw [if_neg (by omega), if_pos (Or.inl h)]
  · rw [if_pos (by omega), show 8 + i - 1024 = i - 1016 by omega]
    rcases Nat.lt_or_ge i 1020 with h' | h'
    · have hk (l : List UInt8) (d : UInt8) (hl : i - 1016 < l.length) :
          l[i - 1016]?.getD d = l.getD (i - 1016) 0 := by simp [hl]
      rw [if_neg (by omega)]
      exact hk _ _ (by simp; omega)
    · rw [if_pos (Or.inr h'), List.getElem?_eq_none (by simp; omega), Option.getD_none]

end Reply

end PeerToPeer
