import PeerToPeer.Network.Initiator

namespace PeerToPeer

open CLib Transition

namespace Net

variable {n : Nat}

/-- The peers that an event brings to process `j`: the caller of a `JOIN` call that `j` gets
to answer, and the peers of an answer to a search. -/
def brought (j : Fin n) (s : Net n) : NetEvent n → List Peer
  | .deliver k i _ os =>
      if i = j then
        match s.flight[k]? with
        | none => []
        | some p => storedPeers (os.sendto (s.hosts j).sends.length) p.msg.replyTo
            (decodeHeader p.msg)
      else []
  | _ => []

theorem brought_deliver {s : Net n} {k : Nat} {j : Fin n} {p : Packet n} (dup : Bool) (os : Os)
    (hp : s.flight[k]? = some p) :
    brought j s (.deliver k j dup os) = storedPeers (os.sendto (s.hosts j).sends.length)
      p.msg.replyTo (decodeHeader p.msg) := by
  rw [brought, if_pos rfl, hp]

theorem brought_joins {s : Net n} {e : NetEvent n} {j : Fin n} (he : e.Joins) :
    brought j s e = [] := by
  cases e with
  | timeout i os => rfl
  | join i dest os => rfl
  | search _ _ _ => exact absurd he id
  | deliver _ _ _ _ => exact absurd he id
  | lose _ => exact absurd he id

/-- The tables of all processes are initialised. -/
def Tables (s : Net n) : Prop := ∀ i, TableInv (s.hosts i).table

/-- One event appends what it brings to the bucket of each process's own file. -/
theorem step_appended {s s' : Net n} {e : NetEvent n} (hinv : s.Tables)
    (h : s.step e = some s') (j : Fin n) :
    TableInv (s'.hosts j).table ∧
      Appended (s.hosts j).table (s'.hosts j).table (homeOf (s.hashKey j).str) (brought j s e) := by
  have untouched {i : Fin n} {m : Machine} {search : Search n} {rest : List (Packet n)}
      (hm : m.table = (s.hosts i).table) :
      TableInv ((s.moved i m search rest).hosts j).table ∧
        Appended (s.hosts j).table ((s.moved i m search rest).hosts j).table
          (homeOf (s.hashKey j).str) [] := by
    have hsame : ((s.moved i m search rest).hosts j).table = (s.hosts j).table :=
      moved_same _ _ _ _ _ Machine.table hm j
    rw [hsame]
    exact ⟨hinv j, Appended.refl _ _⟩
  cases step_inv h with
  | search i hash os => exact untouched rfl
  | joins _ i out he _ =>
    rw [brought_joins he]
    exact untouched rfl
  | lose k _ => exact ⟨hinv j, Appended.refl _ _⟩
  | deliver k i dup os p r m hp _ hm =>
    by_cases hj : i = j
    · subst hj
      rw [moved_host, brought_deliver dup os hp]
      exact recvRpc_appended (hinv i) hm
    · rw [moved_host_ne _ _ _ _ _ (Ne.symm hj), brought, if_neg hj]
      exact ⟨hinv j, Appended.refl _ _⟩

/-- No bucket ever shrinks. -/
theorem step_held {s s' : Net n} {e : NetEvent n} (hinv : s.Tables) (h : s.step e = some s')
    (j : Fin n) (hash : Bytes idSize) : s.held j hash ≤ s'.held j hash :=
  (step_appended hinv h j).2.homeLen_le hash

/-- The peers that a run brings to process `j`, in order. -/
def arrivals (j : Fin n) (s : Net n) (events : List (NetEvent n)) : List Peer :=
  collect step (brought j) s events

theorem run_appended {s₀ s : Net n} {events : List (NetEvent n)} (hinv : s₀.Tables)
    (hrun : run step s₀ events = some s) (j : Fin n) :
    s.Tables ∧ Appended (s₀.hosts j).table (s.hosts j).table (homeOf (s₀.hashKey j).str)
      (arrivals j s₀ events) := by
  let Inv (t : Net n) : Prop := t.Tables ∧ t.hashKey = s₀.hashKey ∧
    ∀ b : Fin maxPeerBuckets, b ≠ homeOf (s₀.hashKey j).str →
      (t.hosts j).table[b] = (s₀.hosts j).table[b]
  have hstep : ∀ t e t', Inv t → step t e = some t' → Inv t' ∧
      homePeers (t'.hosts j).table (s₀.hashKey j) =
        homePeers (t.hosts j).table (s₀.hashKey j) ++ brought j t e := by
    rintro t e t' ⟨htab, hkey, hother⟩ he
    have happ := (step_appended htab he j).2
    rw [hkey] at happ
    refine ⟨⟨fun i => (step_appended htab he i).1, ?_, ?_⟩, happ.home⟩
    · rw [(step_flight he).1.hashKey, hkey]
    · intro b hb
      rw [happ.other b hb]
      exact hother b hb
  obtain ⟨hend, hlog⟩ := run_collect Inv (fun t => homePeers (t.hosts j).table (s₀.hashKey j))
    hstep ⟨hinv, rfl, fun _ _ => rfl⟩ hrun
  exact ⟨hend.1, hlog, hend.2.2⟩

/-- No (ip, port) occurs twice. -/
def DistinctAddrs (ps : List Peer) : Prop := (ps.map Peer.addr).Nodup

instance (ps : List Peer) : Decidable (DistinctAddrs ps) :=
  inferInstanceAs (Decidable (List.Nodup _))

theorem kept_in_flight {s s' : Net n} {k : Nat} {j : Fin n} {p : Packet n} {os : Os}
    (hp : s.flight[k]? = some p) (h : s.step (.deliver k j true os) = some s') :
    s'.flight[k]? = some p := by
  obtain ⟨q, hq, -, r, m, hm, rfl⟩ := step_deliver.mp h
  obtain ⟨out, hout, -⟩ := (recvRpc_handled hm).2.emitted
  rw [moved_flight _ _ _ _ _ hout, if_pos rfl]
  exact List.getElem?_append_left (List.getElem?_eq_some_iff.mp hp).1 ▸ hp

/-- A datagram that stays in flight is delivered a second time with the same effect. -/
theorem redelivered {s s₁ s₂ : Net n} {k : Nat} {j : Fin n} {p : Packet n} {dup : Bool}
    {os os' : Os} (hinv : s.Tables) (hp : s.flight[k]? = some p)
    (hos : ∀ k, os.sendto k = true) (hos' : ∀ k, os'.sendto k = true)
    (h₁ : s.step (.deliver k j true os) = some s₁)
    (h₂ : s₁.step (.deliver k j dup os') = some s₂) :
    homePeers (s₂.hosts j).table (s.hashKey j) = homePeers (s.hosts j).table (s.hashKey j) ++
      storedPeers true p.msg.replyTo (decodeHeader p.msg) ++
      storedPeers true p.msg.replyTo (decodeHeader p.msg) := by
  have hkey : s₁.hashKey = s.hashKey := (step_flight h₁).1.hashKey
  have hp₁ : s₁.flight[k]? = some p := kept_in_flight hp h₁
  have happ₁ := (step_appended hinv h₁ j).2
  have happ₂ := (step_appended (fun i => (step_appended hinv h₁ i).1) h₂ j).2
  rw [brought_deliver true os hp, hos] at happ₁
  rw [brought_deliver dup os' hp₁, hos', hkey] at happ₂
  show (s₂.hosts j).table[homeOf (s.hashKey j).str].peers = _
  rw [happ₂.home, happ₁.home]
  rfl

/-- From empty tables, the bucket of a process's own file lists exactly what arrived, and the
others stay empty: entries are distinct when the arrivals are, and a second delivery of a
datagram brings its peers once more. -/
theorem buckets_list_arrivals (s₀ s : Net n) (events : List (NetEvent n))
    (hempty : ∀ i, (s₀.hosts i).table = emptyTable) (hrun : run step s₀ events = some s)
    (j : Fin n) :
    homePeers (s.hosts j).table (s₀.hashKey j) = arrivals j s₀ events ∧
      (∀ b : Fin maxPeerBuckets, b ≠ homeOf (s₀.hashKey j).str → (s.hosts j).table[b].peers = []) ∧
      ((∀ b : Fin maxPeerBuckets, DistinctAddrs (s.hosts j).table[b].peers) ↔
        DistinctAddrs (arrivals j s₀ events)) ∧
      ∀ k p dup os os' s₁ s₂, s.flight[k]? = some p → (∀ k, os.sendto k = true) →
        (∀ k, os'.sendto k = true) → s.step (.deliver k j true os) = some s₁ →
        s₁.step (.deliver k j dup os') = some s₂ →
        homePeers (s₂.hosts j).table (s₀.hashKey j) = arrivals j s₀ events ++
          storedPeers true p.msg.replyTo (decodeHeader p.msg) ++
          storedPeers true p.msg.replyTo (decodeHeader p.msg) := by
  have hinit : s₀.Tables := fun i => hempty i ▸ initPeerTable_inv
  obtain ⟨hinv, happ⟩ := run_appended hinit hrun j
  have hnil (b : Fin maxPeerBuckets) : (s₀.hosts j).table[b].peers = [] := by
    rw [hempty j]
    exact initPeerTable_peers _ b
  have hhome : (s.hosts j).table[homeOf (s₀.hashKey j).str].peers = arrivals j s₀ events := by
    rw [happ.home, hnil, List.nil_append]
  have hother (b : Fin maxPeerBuckets) (hb : b ≠ homeOf (s₀.hashKey j).str) :
      (s.hosts j).table[b].peers = [] := by
    rw [happ.other b hb, hnil]
  refine ⟨hhome, hother, ⟨fun h => hhome ▸ h _, ?_⟩, ?_⟩
  · intro h b
    by_cases hb : b = homeOf (s₀.hashKey j).str
    · subst hb
      exact hhome.symm ▸ h
    · rw [hother b hb]
      exact List.nodup_nil
  · intro k p dup os os' s₁ s₂ hp hos hos' h₁ h₂
    have hkey : s.hashKey = s₀.hashKey := (run_sameHosts hrun).hashKey
    have htwice := redelivered hinv hp hos hos' h₁ h₂
    rw [hkey] at htwice
    rw [htwice]
    show (s.hosts j).table[homeOf (s₀.hashKey j).str].peers ++ _ ++ _ = _
    rw [hhome]

/-- A process survives every datagram with proper strings, as long as its buckets fit. -/
theorem Sound.deliver {s : Net n} (hs : s.Sound) {k : Nat} {j : Fin n} {p : Packet n} (dup : Bool)
    (os : Os) (hp : s.flight[k]? = some p) (hd : p.dest.addr = s.addr j)
    (hmsg : MsgStrings p.msg) (hcount : CountFits p.msg)
    (hfit : BucketsFit (s.hashKey j) p.msg (s.hosts j)) :
    ∃ s', s.step (.deliver k j dup os) = some s' := by
  obtain ⟨r, m, hm⟩ := recvRpc_total os (s.hashKey j) p.msg (s.hosts j) (hs.strings j)
    (hs.tables j) (hs.keys j) hfit hmsg hcount
  exact ⟨_, step_deliver.mpr ⟨p, hp, hd, r, m, hm, rfl⟩⟩

theorem storedPeers_strings {msg : RpcMsg} (hmsg : MsgStrings msg) (sent : Bool) :
    ∀ p ∈ storedPeers sent msg.replyTo (decodeHeader msg), Terminated p.ip.mem := by
  intro p hp
  unfold storedPeers at hp
  split_ifs at hp with hj hs hr
  · obtain rfl := List.mem_singleton.mp hp
    exact Bytes.terminated_norm hmsg.origin
  · simp at hp
  · exact hmsg.reply hr.1 hr.2 p hp
  · simp at hp

/-- Datagrams with proper strings keep a network sound. -/
theorem Sound.step {s s' : Net n} {e : NetEvent n} (hs : s.Sound)
    (hmsg : ∀ p ∈ s.flight, MsgStrings p.msg) (h : s.step e = some s') : s'.Sound := by
  have hsame := (step_flight h).1
  have happ (j : Fin n) := (step_appended hs.tables h j).2
  have hbrought (j : Fin n) : ∀ p ∈ brought j s e, Terminated p.ip.mem := by
    intro p hp
    unfold brought at hp
    split at hp
    · split_ifs at hp with hj
      · split at hp
        · simp at hp
        · rename_i q hq
          exact storedPeers_strings (hmsg q (List.mem_of_getElem? hq)) _ p hp
      · simp at hp
    · simp at hp
  have hlinked : s'.Linked := hs.linked.of_same hsame
  exact ⟨fun j => (hs.strings j).appended (hsame.ip j) (hsame.neighbors j) (happ j) (hbrought j),
    fun j => hsame.hashKey ▸ hs.keys j, fun j => (step_appended hs.tables h j).1,
    hlinked.neighbors, hlinked.distinct⟩

end Net

/-- The `JOIN` call that process 0 of the pair sends. -/
def pairJoin : RpcMsg := callOf .join [] (pairNet.net.hosts 0).node.origin

theorem pairJoin_isCall : IsCall (decodeHeader pairJoin) .join :=
  (isCall_callOf_iff (Nat.zero_le _)).mpr rfl

theorem pairJoin_strings : MsgStrings pairJoin := by
  have hclean : (Outgoing.call .join [] (pairNet.net.hosts 0).node.origin).Clean :=
    ⟨Bytes.terminated_norm LocalNet.localIp_terminated, fun h => by cases h⟩
  exact hclean.strings
    (callMsg_ok_iff.mpr ⟨Nat.zero_le _, Bytes.terminated_norm LocalNet.localIp_terminated, rfl⟩)

theorem pairJoin_fits {m : Machine} {hashKey : Bytes idSize} (h : homeLen m.table hashKey ≤ 25) :
    BucketsFit hashKey pairJoin m :=
  ⟨fun hc => absurd pairJoin_isCall hc.method_unique, h⟩

theorem pairJoin_brings (sent : Bool) : storedPeers sent pairJoin.replyTo (decodeHeader pairJoin) =
    if sent then [joinedPeer pairJoin.replyTo] else [] := storedPeers_join pairJoin_isCall

/-- Process 0 of the pair sends its `JOIN` call to process 1. -/
theorem pairNet_joins : ∃ s p,
    pairNet.net.step (.join 0 (localEntry (1 : Fin 2)).origin sendingOs) = some s ∧
      s.flight = [p] ∧ p.msg = pairJoin ∧ p.dest.addr = s.addr 1 ∧ s.Sound ∧
      ∀ j, (s.hosts j).table = emptyTable := by
  obtain ⟨s, hstep, hflight, htab⟩ := Net.join_sent pairNet_sound 0
    (localEntry (1 : Fin 2)).origin sendingOs (fun _ => rfl)
  have hsame := (Net.step_flight hstep).1
  have hdest : (localEntry (1 : Fin 2)).origin.addr = s.addr 1 :=
    (NodeEntry.origin_addr _).trans (hsame.addr 1).symm
  exact ⟨s, _, hstep, hflight, rfl, hdest, pairNet_sound.of_same hsame htab, htab⟩

/-- Each delivery of the call lists its caller. -/
theorem pairJoin_listed {s : Net 2} {p : Packet 2} (hs : s.Sound) (hkey : s.hashKey 1 = fileHash)
    (hp : s.flight[0]? = some p) (hmsg : p.msg = pairJoin) (hdest : p.dest.addr = s.addr 1)
    (hl : (homePeers (s.hosts 1).table fileHash).length ≤ 25) (dup : Bool) :
    ∃ s', s.step (.deliver 0 1 dup sendingOs) = some s' ∧
      homePeers (s'.hosts 1).table fileHash =
        homePeers (s.hosts 1).table fileHash ++ [joinedPeer pairJoin.replyTo] := by
  have hfit : BucketsFit (s.hashKey 1) p.msg (s.hosts 1) := by
    rw [hmsg, hkey]
    apply pairJoin_fits
    rwa [← homePeers_length]
  obtain ⟨s', hstep⟩ := hs.deliver dup sendingOs hp hdest (hmsg ▸ pairJoin_strings)
    (hmsg ▸ countFits_of_call pairJoin_isCall) hfit
  have happ := (Net.step_appended hs.tables hstep 1).2
  rw [Net.brought_deliver dup sendingOs hp, hmsg, pairJoin_brings, hkey] at happ
  exact ⟨s', hstep, happ.home⟩

/-- The call of process 0 stays in flight and is delivered a second time. -/
theorem pairNet_repeats : ∃ s₁ s₂ s₃ p,
    pairNet.net.step (.join 0 (localEntry (1 : Fin 2)).origin sendingOs) = some s₁ ∧
      s₁.flight[0]? = some p ∧ p.msg = pairJoin ∧
      s₁.step (.deliver 0 1 true sendingOs) = some s₂ ∧
      s₂.step (.deliver 0 1 false sendingOs) = some s₃ ∧
      homePeers (s₃.hosts 1).table fileHash =
        [joinedPeer pairJoin.replyTo, joinedPeer pairJoin.replyTo] := by
  obtain ⟨s₁, p, hstep₁, hflight, hmsg, hdest, hsound₁, htab⟩ := pairNet_joins
  have hempty : homePeers (s₁.hosts 1).table fileHash = [] := by
    rw [htab]
    exact initPeerTable_peers _ _
  have hkey₁ : s₁.hashKey 1 = fileHash := congrFun (Net.step_flight hstep₁).1.hashKey 1
  have hp₁ : s₁.flight[0]? = some p := Net.flight_head hflight
  obtain ⟨s₂, hstep₂, hone⟩ := pairJoin_listed hsound₁ hkey₁ hp₁ hmsg hdest (by simp [hempty]) true
  have hsame₂ := (Net.step_flight hstep₂).1
  have hsound₂ : s₂.Sound := by
    refine hsound₁.step ?_ hstep₂
    intro q hq
    rw [hflight] at hq
    obtain rfl := List.mem_singleton.mp hq
    exact hmsg ▸ pairJoin_strings
  obtain ⟨s₃, hstep₃, htwo⟩ := pairJoin_listed hsound₂ ((congrFun hsame₂.hashKey 1).trans hkey₁)
    (Net.kept_in_flight hp₁ hstep₂) hmsg (hdest.trans (hsame₂.addr 1).symm)
    (by simp [hone, hempty]) false
  rw [hone, hempty] at htwo
  exact ⟨s₁, s₂, s₃, p, hstep₁, hp₁, hmsg, hstep₂, hstep₃, htwo⟩

/-- The call arrives twice, and process 1 lists what arrived. -/
theorem buckets_list_arrivals_join : ∃ s₁ s₃,
    run Net.step pairNet.net [.join 0 (localEntry (1 : Fin 2)).origin sendingOs] = some s₁ ∧
      run Net.step pairNet.net [.join 0 (localEntry (1 : Fin 2)).origin sendingOs,
        .deliver 0 1 true sendingOs, .deliver 0 1 false sendingOs] = some s₃ ∧
      homePeers (s₃.hosts 1).table fileHash ≠ [] ∧
      homePeers (s₃.hosts 1).table fileHash = Net.arrivals 1 pairNet.net
        [.join 0 (localEntry (1 : Fin 2)).origin sendingOs, .deliver 0 1 true sendingOs,
          .deliver 0 1 false sendingOs] ∧
      homePeers (s₃.hosts 1).table fileHash = Net.arrivals 1 pairNet.net
          [.join 0 (localEntry (1 : Fin 2)).origin sendingOs] ++
        [joinedPeer pairJoin.replyTo] ++ [joinedPeer pairJoin.replyTo] := by
  obtain ⟨s₁, s₂, s₃, p, hstep₁, hp, hmsg, hstep₂, hstep₃, htwo⟩ := pairNet_repeats
  have hrun₁ : run Net.step pairNet.net [.join 0 (localEntry (1 : Fin 2)).origin sendingOs] =
      some s₁ := run_cons.mpr ⟨s₁, hstep₁, rfl⟩
  have hrun₃ : run Net.step pairNet.net [.join 0 (localEntry (1 : Fin 2)).origin sendingOs,
      .deliver 0 1 true sendingOs, .deliver 0 1 false sendingOs] = some s₃ :=
    run_cons.mpr ⟨s₁, hstep₁, run_cons.mpr ⟨s₂, hstep₂, run_cons.mpr ⟨s₃, hstep₃, rfl⟩⟩⟩
  obtain ⟨-, -, -, hagain⟩ := Net.buckets_list_arrivals pairNet.net s₁ _ (fun _ => rfl) hrun₁ 1
  have htwice := hagain 0 p false sendingOs sendingOs s₂ s₃ hp (fun _ => rfl) (fun _ => rfl)
    hstep₂ hstep₃
  rw [hmsg, pairJoin_brings] at htwice
  exact ⟨s₁, s₃, hrun₁, hrun₃, by simp [htwo],
    (Net.buckets_list_arrivals pairNet.net s₃ _ (fun _ => rfl) hrun₃ 1).1, htwice⟩

/-- A `JOIN` call that is delivered twice leaves its caller in the bucket twice. -/
theorem join_stored_twice : ∃ s,
    run Net.step pairNet.net [.join 0 (localEntry (1 : Fin 2)).origin sendingOs,
      .deliver 0 1 true sendingOs, .deliver 0 1 false sendingOs] = some s ∧
      homePeers (s.hosts 1).table fileHash =
        [joinedPeer pairJoin.replyTo, joinedPeer pairJoin.replyTo] ∧
      ¬ Net.DistinctAddrs (homePeers (s.hosts 1).table fileHash) := by
  obtain ⟨s₁, s₂, s₃, p, hstep₁, -, -, hstep₂, hstep₃, htwo⟩ := pairNet_repeats
  refine ⟨s₃, run_cons.mpr ⟨s₁, hstep₁, run_cons.mpr ⟨s₂, hstep₂, run_cons.mpr ⟨s₃, hstep₃, rfl⟩⟩⟩,
    htwo, ?_⟩
  intro hdistinct
  rw [htwo] at hdistinct
  simp [Net.DistinctAddrs] at hdistinct

end PeerToPeer
