import PeerToPeer.Network.Flight

namespace PeerToPeer

open CLib Transition

namespace Net

variable {n : Nat}

/-- Process `u` has the address of process `v` in its neighbour array. -/
def Knows (s : Net n) (u v : Fin n) : Prop :=
  ∃ e ∈ (s.hosts u).sortedNeighbors.live, e.addr = s.addr v

/-- Neighbour arrays hold the addresses of other processes, and addresses are unique. -/
structure Linked (s : Net n) : Prop where
  neighbors : ∀ i, ∀ e ∈ (s.hosts i).sortedNeighbors.live, ∃ j, j ≠ i ∧ e.addr = s.addr j
  distinct : ∀ i j, s.addr i = s.addr j → i = j

/-- A network as it is set up: initialised tables, C strings throughout, and neighbour arrays
that hold the addresses of other processes. -/
structure Sound (s : Net n) : Prop where
  strings : ∀ i, MachineStrings (s.hosts i)
  keys : ∀ i, Terminated (s.hashKey i).mem
  tables : ∀ i, TableInv (s.hosts i).table
  neighbors : ∀ i, ∀ e ∈ (s.hosts i).sortedNeighbors.live, ∃ j, j ≠ i ∧ e.addr = s.addr j
  distinct : ∀ i j, s.addr i = s.addr j → i = j

theorem Linked.of_same {s s' : Net n} (hs : s.Linked) (h : SameHosts s s') : s'.Linked := by
  constructor
  · intro i e he
    rw [h.neighbors i] at he
    obtain ⟨j, hj, ha⟩ := hs.neighbors i e he
    exact ⟨j, hj, ha.trans (h.addr j).symm⟩
  · intro i j hij
    rw [h.addr, h.addr] at hij
    exact hs.distinct i j hij

theorem Sound.linked {s : Net n} (hs : s.Sound) : s.Linked := ⟨hs.neighbors, hs.distinct⟩

theorem sentPackets_attempt {os : Os} (hos : ∀ k, os.sendto k = true) (search : Search n)
    (m : Machine) (dest : Origin) (msg : RpcMsg) :
    sentPackets search [attempt os m dest msg] = [⟨dest, msg, search⟩] := by
  simp [sentPackets, attempt, hos]

/-- A search starts with one call to the first neighbour that is not the caller itself. -/
theorem search_starts {s : Net n} (hs : s.Sound) {i : Fin n} (hash : Bytes idSize) (os : Os)
    (hos : ∀ k, os.sendto k = true) {next : NodeEntry}
    (hn : nextHop (s.hosts i).sortedNeighbors.live (s.addr i) = some next) :
    ∃ s', s.step (.search i hash os) = some s' ∧
      s'.flight = s.flight ++
        [⟨next.origin, searchCall os hash (s.hosts i).node.origin (s.hosts i), ⟨i, hash⟩⟩] ∧
      ∀ j, (s'.hosts j).table = (s.hosts j).table := by
  have hip := (hs.strings i).ip
  have hself : Terminated (s.hosts i).node.origin.ip.mem := Bytes.terminated_norm hip
  obtain ⟨r, m, hm⟩ := getPeers_total os hash (s.hosts i).node.origin (s.hosts i).node.origin
    (s.hosts i) hip (hs.strings i).neighbors hself hself
  have he := getPeers_ok hm
  rw [searchSends_eq, Node.origin_addr] at he
  rw [addr] at hn
  rw [hn] at he
  subst he
  refine ⟨_, step_search.mpr ⟨r, _, hm, rfl⟩, ?_, moved_same _ _ _ _ _ Machine.table rfl⟩
  rw [moved_flight _ _ _ _ _ rfl]
  exact congrArg _ (sentPackets_attempt hos _ _ _ _)

/-- A process can always send a `JOIN` call. -/
theorem join_sent {s : Net n} (hs : s.Sound) (i : Fin n) (dest : Origin) (os : Os)
    (hos : ∀ k, os.sendto k = true) :
    ∃ s', s.step (.join i dest os) = some s' ∧
      s'.flight = s.flight ++
        [⟨dest, callOf .join [] (s.hosts i).node.origin, ⟨i, s.hashKey i⟩⟩] ∧
      ∀ j, (s'.hosts j).table = (s.hosts j).table := by
  obtain ⟨r, hcall⟩ := callRpc_total os .join [] dest (s.hosts i).node.origin (s.hosts i)
    (Nat.zero_le _) (Bytes.terminated_norm (hs.strings i).ip)
  refine ⟨_, step_join.mpr ⟨r, _, hcall, rfl⟩, ?_, moved_same _ _ _ _ _ Machine.table rfl⟩
  rw [moved_flight _ _ _ _ _ rfl]
  exact congrArg _ (sentPackets_attempt hos _ _ _ _)

/-- A search call that reaches a process is handled. -/
theorem search_delivered {s : Net n} (hs : s.Sound) {k : Nat} {p : Packet n} {j : Fin n}
    (os : Os) (hk : s.flight[k]? = some p) (hd : p.dest.addr = s.addr j)
    (hmsg : MsgStrings p.msg) (hc : IsCall (decodeHeader p.msg) .getPeers)
    (hfit : BucketsFit (s.hashKey j) p.msg (s.hosts j)) :
    ∃ s', s.step (.deliver k j false os) = some s' ∧
      s'.flight = s.flight.eraseIdx k ++
        sentPackets p.search (searchOut os (s.hashKey j) p.msg (s.hosts j)) ∧
      ∀ i, (s'.hosts i).table = (s.hosts i).table := by
  obtain ⟨r, m, hm⟩ := recvRpc_total os (s.hashKey j) p.msg (s.hosts j) (hs.strings j)
    (hs.tables j) (hs.keys j) hfit hmsg (countFits_of_call hc)
  obtain ⟨htab, hsend, -⟩ := recvRpc_search (hs.tables j) hc hm
  refine ⟨_, step_deliver.mpr ⟨p, hk, hd, r, m, hm, rfl⟩, ?_,
    moved_same _ _ _ _ _ Machine.table htab⟩
  rw [moved_flight _ _ _ _ _ hsend]
  rfl

/-- Tables apart, nothing that `Sound` speaks of changes. -/
theorem Sound.of_same {s s' : Net n} (hs : s.Sound) (h : SameHosts s s')
    (htab : ∀ i, (s'.hosts i).table = (s.hosts i).table) : s'.Sound := by
  have hlinked : s'.Linked := hs.linked.of_same h
  refine ⟨fun i => ⟨h.ip i ▸ (hs.strings i).ip, h.neighbors i ▸ (hs.strings i).neighbors,
    ?_⟩, fun i => h.hashKey ▸ hs.keys i, fun i => htab i ▸ hs.tables i,
    hlinked.neighbors, hlinked.distinct⟩
  intro b p hp
  rw [htab i] at hp
  exact (hs.strings i).peers b p hp

end Net

end PeerToPeer
