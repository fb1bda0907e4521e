import PeerToPeer.Rpc.Outgoing

namespace PeerToPeer

open CLib

/-- `sizeof(rpc_msg)`; the members fill it without padding. -/
abbrev sizeofRpcMsg : Nat := 1080

abbrev msgTypeAt : Nat := 8
abbrev originAt : Nat := 12
abbrev segmentNumberAt : Nat := 30
abbrev bodyAt : Nat := 32
abbrev correlationIdAt : Nat := 1064

/-- The object representation of a message: the bytes `sendto` is given. -/
def RpcMsg.encode (msg : RpcMsg) : List UInt8 :=
  encodeLE 8 msg.segmentCount.toNat ++ encodeLE 4 msg.msgType.toNat ++
    encodeLE 2 msg.origin.port.toNat ++ msg.origin.ip.mem ++
    encodeLE 2 msg.segmentNumber.toNat ++ msg.body.mem ++ msg.correlationId.mem

theorem RpcMsg.encode_length (msg : RpcMsg) : msg.encode.length = sizeofRpcMsg := by
  simp [RpcMsg.encode, inetAddrstrlen, correlationIdSize, sizeofRpcMsg]

/-- The message a buffer of `sizeof(rpc_msg)` bytes holds. -/
def readMsg (b : Bytes sizeofRpcMsg) : RpcMsg where
  segmentCount := UInt64.ofNat (decodeLE (b.read 0 8).toList)
  msgType := b.u32 msgTypeAt
  origin := readOrigin b originAt
  segmentNumber := readU16 b segmentNumberAt
  body := b.read bodyAt 1032
  correlationId := b.read correlationIdAt correlationIdSize

/-- `recvfrom`: the datagram is laid over the start of the buffer; the rest keeps what it held. -/
def recvfrom (buffer : Bytes sizeofRpcMsg) (datagram : List UInt8) : Bytes sizeofRpcMsg :=
  buffer.write 0 datagram

theorem recvfrom_getElem (buffer : Bytes sizeofRpcMsg) (d : List UInt8) (i : Nat)
    (h : i < sizeofRpcMsg) : (recvfrom buffer d)[i] = d[i]?.getD buffer[i] := by
  rw [recvfrom, Bytes.getElem_write, if_pos (Nat.zero_le i), Nat.sub_zero]

/-- A field inside a full-length datagram reads as it was sent. -/
theorem recvfrom_region (buffer : Bytes sizeofRpcMsg) {d pre field post : List UInt8}
    {off m : Nat} (he : d = pre ++ field ++ post) (hd : d.length = sizeofRpcMsg)
    (ho : pre.length = off) (hm : field.length = m) :
    ((recvfrom buffer d).read off m).toList = field := by
  have hlen : d.length = pre.length + field.length + post.length := by
    rw [he, List.length_append, List.length_append]
  rw [recvfrom, Bytes.read_write_inside _ _ _ _ _ (Nat.zero_le _) (by omega) (by omega),
    Nat.sub_zero, he, take_drop_middle ho hm]

/-- A full-length datagram is received as the message it was sent as, whatever the buffer held. -/
theorem readMsg_recvfrom (buffer : Bytes sizeofRpcMsg) (msg : RpcMsg) :
    readMsg (recvfrom buffer msg.encode) = msg := by
  have region (pre field post : List UInt8) (off m : Nat) (he : msg.encode = pre ++ field ++ post)
      (ho : pre.length = off) (hm : field.length = m) :
      ((recvfrom buffer msg.encode).read off m).toList = field :=
    recvfrom_region buffer he msg.encode_length ho hm
  apply RpcMsg.ext
  · have hc := msg.segmentCount.toNat_lt
    have hb := region [] (encodeLE 8 msg.segmentCount.toNat) _ 0 8
      (by simp only [RpcMsg.encode, List.append_assoc, List.nil_append]; rfl) rfl (by simp)
    apply UInt64.toNat_inj.mp
    rw [readMsg, hb, decodeLE_encodeLE, UInt64.toNat_ofNat']
    omega
  · exact Bytes.u32_of_bytes (region (encodeLE 8 msg.segmentCount.toNat) _
      (encodeLE 2 msg.origin.port.toNat ++ msg.origin.ip.mem ++
        encodeLE 2 msg.segmentNumber.toNat ++ msg.body.mem ++ msg.correlationId.mem) _ _
      (by simp only [RpcMsg.encode, List.append_assoc]) (by simp) (by simp))
  · apply Origin.ext
    · exact readU16_of_bytes (region
        (encodeLE 8 msg.segmentCount.toNat ++ encodeLE 4 msg.msgType.toNat) _
        (msg.origin.ip.mem ++ encodeLE 2 msg.segmentNumber.toNat ++ msg.body.mem ++
          msg.correlationId.mem) _ _
        (by simp only [RpcMsg.encode, List.append_assoc]) (by simp) (by simp))
    · apply Vector.toList_inj.mp
      exact region (encodeLE 8 msg.segmentCount.toNat ++ encodeLE 4 msg.msgType.toNat ++
        encodeLE 2 msg.origin.port.toNat) _
        (encodeLE 2 msg.segmentNumber.toNat ++ msg.body.mem ++ msg.correlationId.mem) _ _
        (by simp only [RpcMsg.encode, List.append_assoc]) (by simp) (by simp)
  · exact readU16_of_bytes (region (encodeLE 8 msg.segmentCount.toNat ++
      encodeLE 4 msg.msgType.toNat ++ encodeLE 2 msg.origin.port.toNat ++ msg.origin.ip.mem) _
      (msg.body.mem ++ msg.correlationId.mem) _ _
      (by simp only [RpcMsg.encode, List.append_assoc])
      (by simp [inetAddrstrlen, segmentNumberAt]) (by simp))
  · apply Vector.toList_inj.mp
    exact region (encodeLE 8 msg.segmentCount.toNat ++ encodeLE 4 msg.msgType.toNat ++
      encodeLE 2 msg.origin.port.toNat ++ msg.origin.ip.mem ++
      encodeLE 2 msg.segmentNumber.toNat) _ msg.correlationId.mem _ _
      (by simp only [RpcMsg.encode, List.append_assoc]) (by simp [inetAddrstrlen, bodyAt]) (by simp)
  · apply Vector.toList_inj.mp
    exact region (encodeLE 8 msg.segmentCount.toNat ++ encodeLE 4 msg.msgType.toNat ++
      encodeLE 2 msg.origin.port.toNat ++ msg.origin.ip.mem ++
      encodeLE 2 msg.segmentNumber.toNat ++ msg.body.mem) _ [] _ _
      (by simp only [RpcMsg.encode, List.append_nil])
      (by simp [inetAddrstrlen, correlationIdAt]) (by simp)

theorem recvfrom_nil (buffer : Bytes sizeofRpcMsg) : recvfrom buffer [] = buffer := by
  apply Vector.ext
  intro i hi
  rw [recvfrom_getElem]
  rfl

/-- A datagram laid over itself, whole or cut short, changes nothing. -/
theorem recvfrom_take (buffer : Bytes sizeofRpcMsg) (d : List UInt8) (k : Nat) :
    recvfrom (recvfrom buffer d) (d.take k) = recvfrom buffer d := by
  apply Vector.ext
  intro i hi
  rw [recvfrom_getElem, recvfrom_getElem]
  by_cases hk : i < k
  · rw [List.getElem?_take_of_lt hk]
    cases d[i]? <;> rfl
  · rw [List.getElem?_take_eq_none (Nat.not_lt.mp hk), Option.getD_none]

/-- Decoding a reply whose payload ends before `cbody.method` changes nothing. -/
theorem decodeHeader_replyOf (method : Method) (payload : List UInt8)
    (id : Bytes correlationIdSize) (hl : payload.length ≤ 1016) :
    decodeHeader (replyOf method payload id .ok) = replyOf method payload id .ok := by
  have hbyte : ∀ i (hi : i < 1032), callMethodAt ≤ i → (replyOf method payload id .ok).body[i] = 0 := by
    intro i hi hm
    have hsome := replyOf_body_getElem method payload id .ok (i - replyPayloadAt) (by
      simp only [replyPayloadAt, maxPayloadSize, callMethodAt] at *; omega)
    have he : replyPayloadAt + (i - replyPayloadAt) = i := by
      simp only [replyPayloadAt, callMethodAt] at *; omega
    rw [he, Vector.getElem?_eq_getElem hi] at hsome
    rw [Option.some.inj hsome, List.getD, List.getElem?_eq_none, Option.getD_none]
    simp only [replyPayloadAt, callMethodAt] at *
    omega
  have hmethod : Body.callMethod (replyOf method payload id .ok).body = 0 := by
    rw [Body.callMethod, Bytes.u32_eq]
    have h (k : Nat) (hk : k < 4) :
        (replyOf method payload id .ok).body[callMethodAt + k]?.getD 0 = 0 := by
      have hi : callMethodAt + k < 1032 := by simp only [callMethodAt]; omega
      rw [Vector.getElem?_eq_getElem hi, Option.getD_some]
      exact hbyte _ hi (Nat.le_add_right _ _)
    have h0 := h 0 (by decide)
    rw [Nat.add_zero] at h0
    rw [h0, h 1 (by decide), h 2 (by decide), h 3 (by decide)]
    rfl
  have hbody : (replyOf method payload id .ok).body.setU32 callMethodAt (swapLow 0) =
      (replyOf method payload id .ok).body := by
    apply Vector.ext
    intro i hi
    rw [Bytes.setU32, Bytes.getElem_write]
    split_ifs with hm
    · have hz : encodeLE 4 (swapLow 0).toNat = List.replicate 4 0 := by decide
      rw [hz, hbyte i hi hm, List.getElem?_replicate]
      split_ifs <;> rfl
    · rfl
  have hzero : (ntohl (0 : UInt64).toUInt32).toUInt64 = 0 ∧
      (ntohl (0 : UInt16).toUInt32).toUInt16 = 0 ∧
      swapLow (swapLow MsgType.reply.code) = swapLow MsgType.reply.code := by decide
  rw [decodeHeader, hmethod, hbody]
  exact RpcMsg.ext hzero.1 hzero.2.2 rfl hzero.2.1 rfl rfl

end PeerToPeer
