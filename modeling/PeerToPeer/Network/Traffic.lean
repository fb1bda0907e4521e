import PeerToPeer.Network.Initiator
import PeerToPeer.Network.Loops

namespace PeerToPeer

open CLib Transition

/-- The message is part of a search: it asks for peers, or answers, with peers or without. -/
def Searching (msg : RpcMsg) : Prop :=
  IsCall (decodeHeader msg) .getPeers ∨ IsReply (decodeHeader msg) .getPeers

instance (msg : RpcMsg) : Decidable (Searching msg) := inferInstanceAs (Decidable (_ ∨ _))

theorem searching_of_call {msg : RpcMsg} (h : IsCall (decodeHeader msg) .getPeers) :
    Searching msg := .inl h

theorem not_searching_joinCall (host : Origin) : ¬ Searching (callOf .join [] host) := by
  rintro (hc | hr)
  · have hm : Method.join = .getPeers := (isCall_callOf_iff (by simp)).mp hc
    cases hm
  · exact not_isReply_callOf hr

theorem not_searching_joinReply {payload : List UInt8} {id : Bytes correlationIdSize}
    {status : MsgStatus} : ¬ Searching (replyOf .join payload id status) := by
  rintro (hc | hr)
  · exact not_isCall_replyOf hc
  · cases isReply_replyOf_iff.mp hr

/-- The number of send attempts that are part of a search. -/
def searchingSends (out : List Send) : Nat := out.countP fun x => Searching x.msg

theorem searchingSends_none {out : List Send} (h : ∀ x ∈ out, ¬ Searching x.msg) :
    searchingSends out = 0 := by
  rw [searchingSends, List.countP_eq_zero]
  intro x hx
  simpa using h x hx

theorem searchingSends_searchSends (os : Os) (hash : Bytes idSize) (src replyTo : Origin)
    (m : Machine) : searchingSends (searchSends os hash src replyTo m) ≤ 1 := by
  refine List.countP_le_length.trans ?_
  rw [searchSends_eq]
  exact Option.length_toList_le

theorem searchingSends_joinSends (os : Os) (host : Origin) (k : Nat) (ps : List Peer) :
    searchingSends (joinSends os host k ps) = 0 :=
  searchingSends_none (forall_joinSends (P := fun msg => ¬ Searching msg)
    (not_searching_joinCall host))

/-- Only a search call makes its receiver send a part of a search, and no more than one: an answer
of any kind ends there. -/
theorem Handled.searching {os : Os} {hashKey : Bytes idSize} {msg : RpcMsg} {replyTo : Origin}
    {m m' : Machine} {r : Int} (h : Handled os hashKey (decodeHeader msg) replyTo m r m') :
    ∃ out, m'.sends = m.sends ++ out ∧
      searchingSends out ≤ if Searching msg then 1 else 0 := by
  have silent : ∃ out, m.sends = m.sends ++ out ∧
      searchingSends out ≤ if Searching msg then 1 else 0 :=
    ⟨[], (List.append_nil _).symm, Nat.zero_le _⟩
  have none {out : List Send} (hout : searchingSends out = 0) :
      searchingSends out ≤ if Searching msg then 1 else 0 := hout.trans_le (Nat.zero_le _)
  have one {out : List Send} (hc : IsCall (decodeHeader msg) .getPeers)
      (hout : searchingSends out ≤ 1) : searchingSends out ≤ if Searching msg then 1 else 0 := by
    rwa [if_pos (searching_of_call hc)]
  have joinReply : searchingSends
      [attempt os m replyTo (replyOf .join [] (decodeHeader msg).correlationId .ok)] = 0 := by
    apply searchingSends_none
    intro x hx
    obtain rfl := List.mem_singleton.mp hx
    exact not_searching_joinReply
  cases h with
  | otherCall => exact silent
  | otherReply => exact silent
  | badReply => exact silent
  | emptyReply => exact silent
  | unfiled => exact silent
  | stored => exact silent
  | joinFailed => exact ⟨_, rfl, none joinReply⟩
  | joined => exact ⟨_, rfl, none joinReply⟩
  | joining => exact ⟨_, rfl, none (searchingSends_joinSends _ _ _ _)⟩
  | noBucket _ hc => exact ⟨_, rfl, one hc List.countP_le_length⟩
  | answered _ hc => exact ⟨_, rfl, one hc List.countP_le_length⟩
  | forwarded _ hc => exact ⟨_, rfl, one hc (searchingSends_searchSends _ _ _ _ _)⟩

/-- The datagrams that an event may add to those of searches: one for a search that starts, and
one for a delivery that leaves its datagram in flight. -/
def NetEvent.adds {n : Nat} : NetEvent n → Nat
  | search _ _ _ => 1
  | deliver _ _ dup _ => if dup then 1 else 0
  | _ => 0

namespace Net

variable {n : Nat}

/-- The number of search calls and answers in flight. -/
def searching (s : Net n) : Nat := s.flight.countP fun p => Searching p.msg

theorem countP_sentPackets (search : Search n) (out : List Send) :
    (sentPackets search out).countP (fun p => Searching p.msg) ≤ searchingSends out := by
  rw [sentPackets, List.countP_map]
  exact List.filter_sublist.countP_le

theorem moved_searching {s : Net n} {i : Fin n} {m : Machine} {search : Search n}
    {rest : List (Packet n)} {out : List Send} (hm : m.sends = (s.hosts i).sends ++ out) :
    (s.moved i m search rest).searching ≤
      (rest.countP fun p => Searching p.msg) + searchingSends out := by
  rw [searching, moved_flight _ _ _ _ _ hm, List.countP_append]
  exact Nat.add_le_add_left (countP_sentPackets search out) _

/-- A process that sends nothing but `JOIN` calls adds nothing. -/
theorem moved_joining {s : Net n} {i : Fin n} {search : Search n} {out : List Send}
    (hout : searchingSends out = 0) :
    (s.moved i ((s.hosts i).emit out) search s.flight).searching ≤ s.searching :=
  (moved_searching rfl).trans_eq (by rw [hout, Nat.add_zero, searching])

/-- A datagram that is taken out of flight is counted no more. -/
theorem searching_eraseIdx {s : Net n} {k : Nat} {p : Packet n} (hp : s.flight[k]? = some p) :
    ((s.flight.eraseIdx k).countP fun q => Searching q.msg) +
      (if Searching p.msg then 1 else 0) = s.searching := by
  obtain ⟨hlt, rfl⟩ := List.getElem?_eq_some_iff.mp hp
  have hperm := (List.getElem_cons_eraseIdx_perm hlt).countP_eq fun q => Searching q.msg
  rw [List.countP_cons] at hperm
  simpa [searching] using hperm

theorem step_searching {s s' : Net n} {e : NetEvent n} (h : s.step e = some s') :
    s'.searching ≤ s.searching + e.adds := by
  cases e with
  | search i hash os =>
    obtain ⟨r, m, hm, rfl⟩ := step_search.mp h
    obtain rfl := getPeers_ok hm
    refine (moved_searching rfl).trans ?_
    exact Nat.add_le_add_left (searchingSends_searchSends _ _ _ _ _) _
  | timeout i os =>
    obtain ⟨m, hm, rfl⟩ := step_timeout.mp h
    obtain ⟨ps, -, rfl⟩ := joinPeers_calls hm
    exact moved_joining (searchingSends_joinSends _ _ _ ps)
  | join i dest os =>
    obtain ⟨r, m, hm, rfl⟩ := step_join.mp h
    obtain rfl := callRpc_ok hm
    apply moved_joining
    apply searchingSends_none
    intro x hx
    obtain rfl := List.mem_singleton.mp hx
    exact not_searching_joinCall _
  | deliver k j dup os =>
    obtain ⟨p, hp, hd, r, m, hm, rfl⟩ := step_deliver.mp h
    obtain ⟨out, hout, hadd⟩ := (recvRpc_handled hm).2.searching
    refine (moved_searching hout).trans ?_
    cases dup with
    | true =>
      have hone : searchingSends out ≤ 1 := hadd.trans (by split_ifs <;> omega)
      exact Nat.add_le_add_left hone _
    | false =>
      have herase := searching_eraseIdx hp
      simp only [NetEvent.adds, Bool.false_eq_true, if_false]
      omega
  | lose k =>
    obtain ⟨hk, rfl⟩ := step_lose.mp h
    have herase := searching_eraseIdx (List.getElem?_eq_getElem hk)
    show ((s.flight.eraseIdx k).countP fun q => Searching q.msg) ≤ _
    omega

/-- Searches do not multiply: in every run, whatever is lost or overtaken, the search calls and
answers in flight are at most those in flight at the start, one for each search that was started
and one for each delivery that repeats a datagram. -/
theorem searches_bounded (s₀ s : Net n) (events : List (NetEvent n))
    (hrun : run step s₀ events = some s) :
    (s.flight.countP fun p => Searching p.msg) ≤
      (s₀.flight.countP fun p => Searching p.msg) + (events.map NetEvent.adds).sum :=
  run_cost searching NetEvent.adds (fun _ _ _ h => step_searching h) hrun

end Net

/-- A search that is passed on once is still one datagram. -/
theorem searches_bounded_chain : ∃ s, run Net.step (chainNet fileHash).net
      [.search 0 fileHash sendingOs, .deliver 0 1 false sendingOs] = some s ∧ s.flight ≠ [] ∧
    (s.flight.countP fun p => Searching p.msg) ≤ 1 := by
  have hhash : Terminated fileHash.mem := by decide
  obtain ⟨s₁, s₂, p₁, p₂, h⟩ := chainNet_run hhash
  exact ⟨s₂, h.run, by simp [h.forwarded], Net.searches_bounded _ s₂ _ h.run⟩

end PeerToPeer
