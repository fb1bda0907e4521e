import PeerToPeer.Network.Asking

namespace PeerToPeer

open CLib Transition

namespace Net

variable {n : Nat}

/-- Every search call that the receiver of a search call attempts asks for the same hash. -/
def HashKept (s : Net n) (e : NetEvent n) (s' : Net n) : Prop :=
  match e with
  | .deliver k j _ _ => ∀ p, s.flight[k]? = some p → IsCall (decodeHeader p.msg) .getPeers →
      ∀ x ∈ (s'.hosts j).sends.drop (s.hosts j).sends.length,
        IsCall (decodeHeader x.msg) .getPeers →
          decodeHash (decodeHeader x.msg).body = decodeHash (decodeHeader p.msg).body
  | _ => True

/-- A process that has to pass a search on serves the file that is searched. -/
def ForwarderServes (s : Net n) (e : NetEvent n) : Prop :=
  match e with
  | .deliver k j _ _ => ∀ p next, s.flight[k]? = some p →
      Forwards (s.hosts j) p.msg.replyTo (decodeHeader p.msg) next →
        s.hashKey j = decodeHash (decodeHeader p.msg).body
  | _ => True

/-- A call in flight asks for the hash its search was started with. -/
def CarriesHash (p : Packet n) : Prop :=
  IsCall (decodeHeader p.msg) .getPeers → decodeHash (decodeHeader p.msg).body = p.search.hash

theorem hashKept_iff {s s' : Net n} {e : NetEvent n} (h : s.step e = some s') :
    HashKept s e s' ↔ ForwarderServes s e := by
  cases e with
  | search i hash os => exact Iff.rfl
  | timeout i os => exact Iff.rfl
  | join i dest os => exact Iff.rfl
  | lose k => exact Iff.rfl
  | deliver k j dup os =>
    obtain ⟨q, hq, -, r, m, hm, rfl⟩ := step_deliver.mp h
    have hh := (recvRpc_handled hm).2
    constructor
    · intro hkept p next hp hf
      obtain rfl : q = p := Option.some.inj (hq.symm.trans hp)
      have hsends := hh.forwards hf
      have hx := hkept q hq hf.call
      rw [moved_host, hsends, List.drop_left] at hx
      have hsame := hx _ (List.mem_singleton_self _) (searchCall_isCall _ _ _ _)
      rwa [attempt, searchCall_hash] at hsame
    · intro hserves p hp _ x hx hcall
      obtain rfl : q = p := Option.some.inj (hq.symm.trans hp)
      obtain ⟨out, hout, hemit⟩ := hh.emitted
      rw [moved_host, hout, List.drop_left] at hx
      cases hemit with
      | quiet _ hquiet => exact absurd hcall (hquiet x hx).1
      | forwarded next hf =>
        obtain rfl := List.mem_singleton.mp hx
        rw [attempt, searchCall_hash]
        exact hserves q next hq hf
      | answered b ha =>
        obtain rfl := List.mem_singleton.mp hx
        exact absurd hcall not_isCall_replyOf

theorem Fresh.carriesHash {s : Net n} {e : NetEvent n} {p : Packet n}
    (hall : ∀ q ∈ s.flight, CarriesHash q) (hserves : ForwarderServes s e) (h : Fresh s e p) :
    CarriesHash p := by
  cases h with
  | started i hash os next hn => exact fun _ => searchCall_hash _ _ _ _
  | quiet _ p hq => exact fun hc => absurd hc hq.1
  | forwarded k q hq j hj dup os next hf =>
    intro _
    have hsame := hserves q next hq hf
    rw [searchCall_hash, hsame]
    exact hall q (List.mem_of_getElem? hq) hf.call
  | answered k q hq j dup os b ha => exact fun hc => absurd hc not_isCall_replyOf

/-- A run keeps the hash of every search, at each hop and in every call in flight, exactly
when every process that passes a search on serves the very file it is asked for. -/
theorem hash_kept_iff (s₀ s : Net n) (events : List (NetEvent n)) (hflight : s₀.flight = [])
    (hrun : run step s₀ events = some s) :
    (AllSteps step HashKept s₀ events ∧ ∀ p ∈ s.flight, CarriesHash p) ↔
      AllSteps step (fun t e _ => ForwarderServes t e) s₀ events := by
  have hsteps : AllSteps step HashKept s₀ events ↔
      AllSteps step (fun t e _ => ForwarderServes t e) s₀ events :=
    allSteps_congr (fun _ _ _ => hashKept_iff) s₀ events
  constructor
  · intro h
    exact hsteps.mp h.1
  · intro h
    refine ⟨hsteps.mpr h, ?_⟩
    let Inv (t : Net n) : Prop := ∀ p ∈ t.flight, CarriesHash p
    have hinit : Inv s₀ := by
      intro p hp
      rw [hflight] at hp
      simp at hp
    have hstep : ∀ t e t', Inv t → ForwarderServes t e → step t e = some t' → Inv t' := by
      intro t e t' hall hserves he p hp
      rcases (step_flight he).2 p hp with hold | hfresh
      · exact hall p hold
      · exact hfresh.carriesHash hall hserves
    exact run_invariant (Q := fun t e _ => ForwarderServes t e) Inv hstep hinit h hrun

end Net

/-- The search passes through a process that serves the same file. -/
theorem hash_kept_chain : ∃ s, run Net.step (chainNet fileHash).net
      [.search 0 fileHash sendingOs, .deliver 0 1 false sendingOs] = some s ∧
    AllSteps Net.step Net.HashKept (chainNet fileHash).net
      [.search 0 fileHash sendingOs, .deliver 0 1 false sendingOs] ∧
    s.flight ≠ [] ∧ ∀ p ∈ s.flight, Net.CarriesHash p := by
  have hhash : Terminated fileHash.mem := by decide
  obtain ⟨s₁, s₂, p₁, p₂, h⟩ := chainNet_run hhash
  have hserves : Net.ForwarderServes s₁ (.deliver 0 1 false sendingOs) := by
    intro p next hp _
    obtain rfl : p₁ = p := by simpa [h.called] using hp
    have hkey : s₁.hashKey 1 = fileHash := congrFun (Net.step_flight h.start).1.hashKey 1
    exact hkey.trans h.asked.hash.symm
  have hsteps : AllSteps Net.step (fun t e _ => Net.ForwarderServes t e) (chainNet fileHash).net
      [.search 0 fileHash sendingOs, .deliver 0 1 false sendingOs] := by
    intro s' hs'
    obtain rfl : s₁ = s' := Option.some.inj (h.start.symm.trans hs')
    exact ⟨trivial, fun _ _ => ⟨hserves, trivial⟩⟩
  obtain ⟨hkept, hcarried⟩ := (Net.hash_kept_iff _ s₂ _ rfl h.run).mpr hsteps
  exact ⟨s₂, h.run, hkept, by simp [h.forwarded], hcarried⟩

/-- The file hash `"19"` in its field. -/
def otherHash : Bytes idSize := (Bytes.zero idSize).write 0 [49, 57]

/-- A chain of three processes whose middle one serves another file. -/
def mixedNet : LocalNet 3 := chainNet otherHash

/-- The middle process passes the search on with the hash of its own file. -/
theorem hash_replaced : ∃ s,
    run Net.step mixedNet.net
      [.search 0 fileHash sendingOs, .deliver 0 1 false sendingOs] = some s ∧
      (∃ p ∈ s.flight, IsCall (decodeHeader p.msg) .getPeers ∧ p.search.hash = fileHash ∧
        decodeHash (decodeHeader p.msg).body = otherHash) ∧
      ¬ ∀ p ∈ s.flight, Net.CarriesHash p := by
  have hhash : Terminated otherHash.mem := by decide
  obtain ⟨s₁, s₂, p₁, p₂, h⟩ := chainNet_run hhash
  have hfile : p₂.search.hash = fileHash := by rw [h.search]
  have hmem : p₂ ∈ s₂.flight := by simp [h.forwarded]
  refine ⟨s₂, h.run, ⟨p₂, hmem, h.onward.call, hfile, h.onward.hash⟩, ?_⟩
  intro hall
  have hwrong := hall p₂ hmem h.onward.call
  rw [h.onward.hash, hfile] at hwrong
  exact absurd hwrong (by decide)

end PeerToPeer
