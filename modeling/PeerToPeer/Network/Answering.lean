import PeerToPeer.Network.Arrivals
import PeerToPeer.Network.Asking

namespace PeerToPeer

open CLib

namespace Net

variable {n : Nat}

theorem Room.of_held {s : Net n} {v : Fin n} {hash : Bytes idSize} (hkey : s.hashKey v = hash)
    (hl : s.held v hash = 0) : s.Room v hash := by
  refine ⟨hl.trans_le (Nat.zero_le _), ?_⟩
  rw [hkey]
  exact hl.trans_le (Nat.zero_le _)

theorem held_congr {s s' : Net n} {v : Fin n} (h : (s'.hosts v).table = (s.hosts v).table)
    (hash : Bytes idSize) : s'.held v hash = s.held v hash := by
  rw [held, held, h]

/-- An answer with peers fills the bucket of the process it is delivered to. -/
theorem answer_found {s s' : Net n} (htab : s.Tables) {k : Nat} {j : Fin n} {p : Packet n}
    {dup : Bool} {os : Os} (hp : s.flight[k]? = some p)
    (hr : IsReply (decodeHeader p.msg) .getPeers) (hs : ReplyOk (decodeHeader p.msg))
    (hc : replyCount (decodeHeader p.msg).body ≠ 0)
    (h : s.step (.deliver k j dup os) = some s') : s'.held j (s.hashKey j) ≠ 0 := by
  have happ := (step_appended htab h j).2
  rw [brought_deliver dup os hp, storedPeers_reply hr hs] at happ
  have hhome : homePeers (s'.hosts j).table (s.hashKey j) =
      homePeers (s.hosts j).table (s.hashKey j) ++ replyPeers (decodeHeader p.msg) := happ.home
  have hlen := congrArg List.length hhome
  rw [homePeers_length, List.length_append, replyPeers_length] at hlen
  rw [held, hlen]
  omega

/-- The answer of process `v` to the search call `p`. -/
def answer (s : Net n) (v : Fin n) (p : Packet n) : Packet n where
  dest := decodeSrc (decodeHeader p.msg).body
  msg := replyOf .getPeers (answerBytes (homePeers (s.hosts v).table (askedHash p.msg)))
    p.msg.correlationId .ok
  search := p.search

section Answer

variable (s : Net n) (v : Fin n) (p : Packet n)

theorem answer_isReply : IsReply (decodeHeader (s.answer v p).msg) .getPeers :=
  isReply_replyOf_iff.mpr rfl

theorem answer_replyOk : ReplyOk (decodeHeader (s.answer v p).msg) :=
  replyOk_replyOf_iff.mpr rfl

theorem answer_count : replyCount (decodeHeader (s.answer v p).msg).body =
    s.held v (askedHash p.msg) % 256 := by
  rw [answer, replyCount_replyOf, answerBytes, List.getD_cons_zero, UInt8.toNat_ofNat',
    homePeers_length]
  rfl

end Answer

/-- A process that does not pass a search on answers the initiator. -/
theorem asking_answered {s s' : Net n} (htab : s.Tables) {i u v : Fin n} {hash : Bytes idSize}
    {p : Packet n} {os : Os} (ha : Asking s i u v hash p) (hflight : s.flight = [p])
    (hkeep : ¬ (s.held v hash = 0 ∧ 0 < (s.hosts v).sortedNeighbors.len))
    (hos : ∀ k, os.sendto k = true) (h : s.step (.deliver 0 v false os) = some s') :
    s'.flight = [s.answer v p] ∧ s.held v hash ≤ 25 ∧
      ∀ j, (s'.hosts j).table = (s.hosts j).table := by
  obtain ⟨q, hq, -, r, m, hm, rfl⟩ := step_deliver.mp h
  obtain rfl : p = q := by simpa [hflight] using hq
  obtain ⟨hsame, hout, hfits⟩ := recvRpc_search (htab v) ha.call hm
  have hasked : askedHash p.msg = hash := ha.hash
  have hkeep' : ¬ (homeLen (s.hosts v).table (askedHash p.msg) = 0 ∧
      0 < (s.hosts v).sortedNeighbors.len) := by
    rw [hasked]
    exact hkeep
  rw [searchOut, if_neg hkeep'] at hout
  refine ⟨?_, hasked ▸ hfits, moved_same _ _ _ _ _ Machine.table hsame⟩
  rw [moved_flight _ _ _ _ _ hout, sentPackets_attempt hos, hflight]
  rfl

theorem answer_strings {s : Net n} {i u v : Fin n} {hash : Bytes idSize} {p : Packet n}
    (hask : Asking s i u v hash p) (hl : s.held v hash = 0) :
    MsgStrings (s.answer v p).msg := by
  have hip : Terminated (Bytes.zero inetAddrstrlen).mem := by decide
  refine ⟨hip, Bytes.terminated_norm hask.strings.id, fun hc => absurd hc not_isCall_replyOf,
    ?_⟩
  intro _ _
  have hcount := answer_count s v p
  have hasked : askedHash p.msg = hash := hask.hash
  rw [hasked, hl, ← replyPeers_length] at hcount
  rw [List.eq_nil_of_length_eq_zero hcount]
  simp

/-- An answer without peers is delivered and forgotten. -/
theorem emptyAnswer_dropped {s : Net n} (hs : s.Sound) {i u v : Fin n} {hash : Bytes idSize}
    {p : Packet n} (hask : Asking s i u v hash p) (hl : s.held v hash = 0)
    (hroom : s.held i (s.hashKey i) ≤ 25) {s' : Net n} (hsame : SameHosts s s')
    (htab : ∀ j, (s'.hosts j).table = (s.hosts j).table) (hflight : s'.flight = [s.answer v p])
    (os : Os) :
    ∃ s'', s'.step (.deliver 0 i false os) = some s'' ∧ s''.flight = [] ∧
      s''.held i hash = s'.held i hash := by
  have hs' : s'.Sound := hs.of_same hsame htab
  have hp : s'.flight[0]? = some (s.answer v p) := flight_head hflight
  have hcount : replyCount (decodeHeader (s.answer v p).msg).body = 0 := by
    have hasked : askedHash p.msg = hash := hask.hash
    rw [answer_count, hasked, hl]
  have hfit : BucketsFit (s'.hashKey i) (s.answer v p).msg (s'.hosts i) := by
    refine ⟨fun hc => absurd hc not_isCall_replyOf, ?_⟩
    rw [hsame.hashKey]
    exact (held_congr (htab i) _).trans_le hroom
  obtain ⟨s'', hstep⟩ := hs'.deliver false os hp (hask.source.trans (hsame.addr i).symm)
    (answer_strings hask hl) (fun _ _ => hcount.trans_le (Nat.zero_le _)) hfit
  obtain ⟨q, hq, -, r, m, hm, rfl⟩ := step_deliver.mp hstep
  obtain rfl : s.answer v p = q := by simpa [hflight] using hq
  obtain rfl := (recvRpc_handled hm).2.emptyAnswer (answer_isReply s v p)
    hcount
  refine ⟨_, hstep, ?_, ?_⟩
  · rw [moved_flight _ _ _ _ _ (List.append_nil _).symm, hflight]
    rfl
  · rw [held, held, moved_host]

end Net

end PeerToPeer
