import PeerToPeer.Network.Asking

namespace PeerToPeer

open CLib Transition

namespace Net

variable {n : Nat}

/-- What the datagrams of a search owe its initiator: a call names it as the source, and an
answer with peers goes to it. -/
structure Addressed (s : Net n) (p : Packet n) : Prop where
  source : IsCall (decodeHeader p.msg) .getPeers →
    (decodeSrc (decodeHeader p.msg).body).addr = s.addr p.search.initiator
  answer : IsReply (decodeHeader p.msg) .getPeers → replyCount (decodeHeader p.msg).body ≠ 0 →
    p.dest.addr = s.addr p.search.initiator

theorem addressed_searchCall {s : Net n} {dest : Origin} {os : Os} {hash : Bytes idSize}
    {src : Origin} {m : Machine} {search : Search n}
    (h : src.addr = s.addr search.initiator) :
    Addressed s ⟨dest, searchCall os hash src m, search⟩ := by
  constructor
  · intro _
    exact (searchCall_src_addr os hash src m).trans h
  · intro hr
    exact absurd hr (searchCall_not_reply os hash src m)

/-- A fresh datagram keeps the address of the datagram it comes from. -/
theorem Fresh.addressed {s : Net n} {e : NetEvent n} {p : Packet n}
    (hall : ∀ q ∈ s.flight, Addressed s q) (h : Fresh s e p) : Addressed s p := by
  cases h with
  | started i hash os next hn => exact addressed_searchCall (Node.origin_addr _)
  | quiet _ p hq => exact ⟨fun hc => absurd hc hq.1, fun hr hc => absurd (hq.2 hr) hc⟩
  | forwarded k q hq j hj dup os next hf =>
    have hold : Addressed s q := hall q (List.mem_of_getElem? hq)
    exact addressed_searchCall (hold.source hf.call)
  | answered k q hq j dup os b ha =>
    have hold : Addressed s q := hall q (List.mem_of_getElem? hq)
    exact ⟨fun hc => absurd hc not_isCall_replyOf, fun _ _ => hold.source ha.call⟩

theorem Addressed.of_same {s s' : Net n} {p : Packet n} (h : SameHosts s s')
    (ha : Addressed s p) : Addressed s' p :=
  ⟨fun hc => (ha.source hc).trans (h.addr _).symm,
    fun hr hc => (ha.answer hr hc).trans (h.addr _).symm⟩

/-- Over any number of hops, of any searches, with datagrams reordered, duplicated or lost:
calls name their initiator, and answers with peers go to it. -/
theorem initiator_addressed (s₀ s : Net n) (events : List (NetEvent n))
    (hflight : s₀.flight = []) (hrun : run step s₀ events = some s) :
    ∀ p ∈ s.flight, Addressed s₀ p := by
  let Inv (t : Net n) : Prop := SameHosts s₀ t ∧ ∀ p ∈ t.flight, Addressed s₀ p
  have hinit : Inv s₀ := by
    refine ⟨SameHosts.refl s₀, ?_⟩
    intro p hp
    rw [hflight] at hp
    simp at hp
  have hstep : ∀ t e t', Inv t → True → step t e = some t' → Inv t' := by
    rintro t e t' ⟨hsame, hall⟩ - h
    obtain ⟨hsame', hnew⟩ := step_flight h
    refine ⟨hsame.trans hsame', ?_⟩
    intro p hp
    rcases hnew p hp with hold | hfresh
    · exact hall p hold
    · have hback : SameHosts t s₀ := hsame.symm
      have ht : Addressed t p := hfresh.addressed fun q hq => (hall q hq).of_same hsame
      exact ht.of_same hback
  have hinv : Inv s := run_induction Inv hstep hinit (fun _ _ => trivial) hrun
  exact hinv.2

end Net

/-- The forwarded call still names the process that started the search. -/
theorem initiator_addressed_chain : ∃ s p, run Net.step (chainNet fileHash).net
      [.search 0 fileHash sendingOs, .deliver 0 1 false sendingOs] = some s ∧
    s.flight = [p] ∧ p.msg.replyTo.addr = (chainNet fileHash).net.addr 1 ∧
    (decodeSrc (decodeHeader p.msg).body).addr = (chainNet fileHash).net.addr 0 ∧
    Net.Addressed (chainNet fileHash).net p := by
  have hhash : Terminated fileHash.mem := by decide
  obtain ⟨s₁, s₂, p₁, p₂, h⟩ := chainNet_run hhash
  have hmem : p₂ ∈ s₂.flight := by simp [h.forwarded]
  have haddressed := Net.initiator_addressed _ s₂ _ rfl h.run p₂ hmem
  have hsource := haddressed.source h.onward.call
  rw [h.search] at hsource
  exact ⟨s₂, p₂, h.run, h.forwarded, h.onward.caller, hsource, haddressed⟩

/-- Process 0 knows process 1, which knows nobody; both serve the file. -/
def pairNet : LocalNet 2 where
  small := by decide
  links := fun i => if i = 0 then [1] else []
  short := by decide
  others := by decide
  tables := fun _ => emptyTable
  hashKey := fun _ => fileHash

theorem pairNet_sound : pairNet.net.Sound :=
  pairNet.sound (fun _ => initPeerTable_inv) (fun _ => emptyTable_strings)
    (fun _ => by show Terminated fileHash.mem; decide)

end PeerToPeer
