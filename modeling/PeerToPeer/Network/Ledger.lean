import PeerToPeer.Network.Arrivals
import PeerToPeer.Transition.Balance
import Mathlib.Algebra.BigOperators.Fin

namespace PeerToPeer

open CLib Transition

/-- The peers that a message makes its receiver list, if the answer to a `JOIN` is sent. -/
def RpcMsg.news (msg : RpcMsg) : List Peer := storedPeers true msg.replyTo (decodeHeader msg)

/-- The news of a message for the process at `a`. -/
def newsFor (a : Addr) (dest : Origin) (msg : RpcMsg) : List Peer :=
  if dest.addr = a then msg.news else []

/-- The news for the process at `a` that the socket took. -/
def postedTo (a : Addr) (out : List Send) : List Peer :=
  (out.filter Send.sent).flatMap fun x => newsFor a x.dest x.msg

theorem postedTo_append (a : Addr) (out out' : List Send) :
    postedTo a (out ++ out') = postedTo a out ++ postedTo a out' := by
  simp [postedTo]

/-- The socket takes every answer. -/
def NetEvent.Sends {n : Nat} : NetEvent n → Prop
  | deliver _ _ _ os => ∀ k, os.sendto k = true
  | _ => True

namespace Net

variable {n : Nat}

/-- The news for process `j` under way in `packets`. -/
def due (s : Net n) (j : Fin n) (packets : List (Packet n)) : List Peer :=
  packets.flatMap fun p => newsFor (s.addr j) p.dest p.msg

/-- The news for process `j` that all processes together have posted. -/
def posted (s : Net n) (j : Fin n) : Multiset Peer :=
  ∑ i, (postedTo (s.addr j) (s.hosts i).sends : Multiset Peer)

/-- The news for process `j` that the datagram at place `k` carries. -/
def carried (s : Net n) (j : Fin n) (k : Nat) : List Peer :=
  (s.flight[k]?.map fun p => newsFor (s.addr j) p.dest p.msg).getD []

/-- The news for process `j` that an event loses. -/
def lost (j : Fin n) (s : Net n) : NetEvent n → List Peer
  | .lose k => s.carried j k
  | _ => []

/-- The news for process `j` that an event delivers and leaves in flight. -/
def repeated (j : Fin n) (s : Net n) : NetEvent n → List Peer
  | .deliver k _ dup _ => if dup then s.carried j k else []
  | _ => []

theorem carried_eq {s : Net n} {k : Nat} {p : Packet n} (j : Fin n) (hp : s.flight[k]? = some p) :
    s.carried j k = newsFor (s.addr j) p.dest p.msg := by
  rw [carried, hp]
  rfl

theorem lost_joins {s : Net n} {e : NetEvent n} {j : Fin n} (he : e.Joins) : lost j s e = [] := by
  cases e with
  | lose _ => exact absurd he id
  | _ => rfl

theorem repeated_joins {s : Net n} {e : NetEvent n} {j : Fin n} (he : e.Joins) :
    repeated j s e = [] := by
  cases e with
  | deliver _ _ _ _ => exact absurd he id
  | _ => rfl

theorem due_append (s : Net n) (j : Fin n) (packets packets' : List (Packet n)) :
    s.due j (packets ++ packets') = s.due j packets ++ s.due j packets' := List.flatMap_append

theorem due_sentPackets (s : Net n) (j : Fin n) (search : Search n) (out : List Send) :
    s.due j (sentPackets search out) = postedTo (s.addr j) out := by
  rw [due, sentPackets, List.flatMap_map]
  rfl

/-- A datagram that is taken out of flight takes its news along. -/
theorem due_eraseIdx {s : Net n} {k : Nat} (j : Fin n) (hk : k < s.flight.length) :
    (s.due j (s.flight.eraseIdx k) : Multiset Peer) + s.carried j k = s.due j s.flight := by
  have hperm := (List.getElem_cons_eraseIdx_perm hk).flatMap_right
    fun p => newsFor (s.addr j) p.dest p.msg
  rw [List.flatMap_cons] at hperm
  rw [carried_eq j (List.getElem?_eq_getElem hk), add_comm, Multiset.coe_add, Multiset.coe_eq_coe]
  exact hperm

theorem due_same {s s' : Net n} (h : SameHosts s s') (j : Fin n) : s'.due j = s.due j := by
  unfold due
  rw [h.addr j]

/-- What one process posts is added to what all have posted. -/
theorem posted_moved {s : Net n} {i : Fin n} {m : Machine} {search : Search n}
    {rest : List (Packet n)} {out : List Send} (hm : m.sends = (s.hosts i).sends ++ out)
    (hsame : SameHosts s (s.moved i m search rest)) (j : Fin n) :
    (s.moved i m search rest).posted j = s.posted j + postedTo (s.addr j) out := by
  have hone (i' : Fin n) : (postedTo (s.addr j) ((s.moved i m search rest).hosts i').sends :
      Multiset Peer) = postedTo (s.addr j) (s.hosts i').sends +
        if i' = i then (postedTo (s.addr j) out : Multiset Peer) else 0 := by
    by_cases hi : i' = i
    · subst hi
      rw [moved_host, hm, postedTo_append, if_pos rfl, Multiset.coe_add]
    · rw [moved_host_ne _ _ _ _ _ hi, if_neg hi, add_zero]
  rw [posted, hsame.addr j, Finset.sum_congr rfl fun i' _ => hone i', Finset.sum_add_distrib,
    Finset.sum_ite_eq' Finset.univ i, if_pos (Finset.mem_univ i)]
  rfl

/-- What a process posts is under way. -/
theorem moved_balance {s : Net n} {i : Fin n} {m : Machine} {search : Search n}
    {rest : List (Packet n)} {out : List Send} (hm : m.sends = (s.hosts i).sends ++ out)
    (hsame : SameHosts s (s.moved i m search rest)) (j : Fin n) :
    ((s.moved i m search rest).due j (s.moved i m search rest).flight : Multiset Peer) +
      s.posted j = s.due j rest + (s.moved i m search rest).posted j := by
  rw [posted_moved hm hsame, moved_flight _ _ _ _ _ hm, due_same hsame, due_append,
    due_sentPackets, ← Multiset.coe_add]
  ac_rfl

/-- A delivery brings what the datagram carries. -/
theorem brought_eq_carried {s : Net n} {k : Nat} {i j : Fin n} {dup : Bool} {os : Os} {p : Packet n}
    (hdistinct : ∀ i j, s.addr i = s.addr j → i = j) (hos : ∀ k, os.sendto k = true)
    (hp : s.flight[k]? = some p) (hd : p.dest.addr = s.addr i) :
    brought j s (.deliver k i dup os) = s.carried j k := by
  rw [carried_eq j hp]
  by_cases hij : i = j
  · subst hij
    rw [brought_deliver dup os hp, hos, newsFor, if_pos hd, RpcMsg.news]
  · have hne : p.dest.addr ≠ s.addr j := fun h => hij (hdistinct i j (hd.symm.trans h))
    rw [brought, if_neg hij, newsFor, if_neg hne]

/-- No event makes news out of nothing, and none makes it vanish. -/
theorem step_balance {s s' : Net n} {e : NetEvent n} (htables : s.Tables)
    (hdistinct : ∀ i j, s.addr i = s.addr j → i = j) (he : e.Sends) (h : s.step e = some s')
    (j : Fin n) :
    (homePeers (s'.hosts j).table (s.hashKey j) : Multiset Peer) + s'.due j s'.flight +
        lost j s e + s.posted j =
      homePeers (s.hosts j).table (s.hashKey j) + s.due j s.flight + repeated j s e +
        s'.posted j := by
  have hhome : homePeers (s'.hosts j).table (s.hashKey j) =
      homePeers (s.hosts j).table (s.hashKey j) ++ brought j s e :=
    (step_appended htables h j).2.home
  have hsame := (step_flight h).1
  rw [hhome, ← Multiset.coe_add]
  cases step_inv h with
  | search i hash os =>
    have hmoved := moved_balance (s := s) rfl hsame j
    simp only [brought, lost, repeated, Multiset.coe_nil, add_zero]
    rw [add_assoc, hmoved, add_assoc]
  | joins _ i out hj hq =>
    have hmoved := moved_balance (s := s) rfl hsame j
    rw [brought_joins hj, lost_joins hj, repeated_joins hj, Multiset.coe_nil, add_zero, add_zero,
      add_zero, add_assoc, hmoved, add_assoc]
  | deliver k i dup os p r m hp hd hm =>
    obtain ⟨out, hout, -⟩ := (recvRpc_handled hm).2.emitted
    have hmoved := moved_balance hout hsame j
    simp only [brought_eq_carried hdistinct he hp hd, lost, repeated, Multiset.coe_nil, add_zero]
    rw [add_assoc, hmoved]
    cases dup with
    | true =>
      rw [if_pos rfl, if_pos rfl]
      ac_rfl
    | false =>
      rw [if_neg (by decide), if_neg (by decide), Multiset.coe_nil, add_zero,
        ← due_eraseIdx j (List.getElem?_eq_some_iff.mp hp).1]
      ac_rfl
  | lose k hk =>
    simp only [brought, lost, repeated, Multiset.coe_nil, add_zero]
    rw [← due_eraseIdx j hk]
    ac_rfl

/-- No update is lost and none is doubled, but by the wire: in every run, what a process lists at
the end, what is under way to it and what was lost on the way to it is what it listed at the
start, what was under way then, what was delivered and left in flight, and what the processes
posted to it meanwhile. -/
theorem updates_balance (s₀ s : Net n) (events : List (NetEvent n)) (htables : s₀.Tables)
    (hdistinct : ∀ i j, s₀.addr i = s₀.addr j → i = j) (hsends : ∀ e ∈ events, e.Sends)
    (hrun : run step s₀ events = some s) (j : Fin n) :
    (homePeers (s.hosts j).table (s₀.hashKey j) : Multiset Peer) + s.due j s.flight +
        collect step (lost j) s₀ events + s₀.posted j =
      homePeers (s₀.hosts j).table (s₀.hashKey j) + s₀.due j s₀.flight +
        collect step (repeated j) s₀ events + s.posted j := by
  let Inv (t : Net n) : Prop := t.Tables ∧ SameHosts s₀ t
  have hstep : ∀ t e t', Inv t → e.Sends → step t e = some t' → Inv t' ∧
      (homePeers (t'.hosts j).table (s₀.hashKey j) : Multiset Peer) + t'.due j t'.flight +
          lost j t e + t.posted j =
        homePeers (t.hosts j).table (s₀.hashKey j) + t.due j t.flight + repeated j t e +
          t'.posted j := by
    rintro t e t' ⟨htab, hsame⟩ he h
    have hdistinct' : ∀ i j, t.addr i = t.addr j → i = j := by
      intro i j hij
      rw [hsame.addr, hsame.addr] at hij
      exact hdistinct i j hij
    have hbalance := step_balance htab hdistinct' he h j
    rw [hsame.hashKey] at hbalance
    exact ⟨⟨fun i => (step_appended htab h i).1, hsame.trans (step_flight h).1⟩, hbalance⟩
  exact run_balance Inv _ _ hstep ⟨htables, SameHosts.refl s₀⟩ hsends hrun

end Net

/-- The `JOIN` call that process 0 of the pair posts once is listed twice, one of them repeated. -/
theorem updates_balance_join : ∃ s,
    run Net.step pairNet.net [.join 0 (localEntry (1 : Fin 2)).origin sendingOs,
      .deliver 0 1 true sendingOs, .deliver 0 1 false sendingOs] = some s ∧
      homePeers (s.hosts 1).table fileHash ≠ [] ∧
      (homePeers (s.hosts 1).table fileHash : Multiset Peer) + s.due 1 s.flight +
          collect Net.step (Net.lost 1) pairNet.net
            [.join 0 (localEntry (1 : Fin 2)).origin sendingOs, .deliver 0 1 true sendingOs,
              .deliver 0 1 false sendingOs] + pairNet.net.posted 1 =
        homePeers (pairNet.net.hosts 1).table fileHash + pairNet.net.due 1 pairNet.net.flight +
          collect Net.step (Net.repeated 1) pairNet.net
            [.join 0 (localEntry (1 : Fin 2)).origin sendingOs, .deliver 0 1 true sendingOs,
              .deliver 0 1 false sendingOs] + s.posted 1 := by
  obtain ⟨s₁, s₂, s₃, p, hstep₁, -, -, hstep₂, hstep₃, htwo⟩ := pairNet_repeats
  have hrun : run Net.step pairNet.net [.join 0 (localEntry (1 : Fin 2)).origin sendingOs,
      .deliver 0 1 true sendingOs, .deliver 0 1 false sendingOs] = some s₃ :=
    run_cons.mpr ⟨s₁, hstep₁, run_cons.mpr ⟨s₂, hstep₂, run_cons.mpr ⟨s₃, hstep₃, rfl⟩⟩⟩
  exact ⟨s₃, hrun, by simp [htwo], Net.updates_balance pairNet.net s₃ _ pairNet_sound.tables
    pairNet_sound.distinct (by simp [NetEvent.Sends, sendingOs]) hrun 1⟩

end PeerToPeer
