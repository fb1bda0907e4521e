import PeerToPeer.Client.Walks
import PeerToPeer.Network.Survival

namespace PeerToPeer

open CLib Transition

/-- The event can happen to the client: it times out only while it waits, and what it receives can
be read. -/
def Client.Possible (c : Client) : ClientEvent → Prop
  | .timeout _ => c.machine.wait = true
  | .recv _ msg => Readable msg

/-- What the client receives can be read. -/
def ClientEvent.Brings : ClientEvent → Prop
  | timeout _ => True
  | recv _ msg => Readable msg

/-- An answer can carry the peers that the client lists. -/
def Client.Listable (hashKey : Bytes idSize) (c : Client) : Prop :=
  homeLen c.machine.table hashKey ≤ 25

/-- What holds of a client in its loop: its strings end, and only the bucket of its file is in
use. -/
structure Client.Alive (hashKey : Bytes idSize) (c : Client) : Prop where
  table : TableInv c.machine.table
  strings : MachineStrings c.machine
  others : ∀ b : Fin maxPeerBuckets, b ≠ homeOf hashKey.str → c.machine.table[b].len = 0

namespace Client

section Step

variable {hashKey : Bytes idSize} {c c' : Client}

theorem Started.alive (h : c.Started) (hs : MachineStrings c.machine) : c.Alive hashKey := by
  refine ⟨h.table ▸ initPeerTable_inv, hs, ?_⟩
  intro b _
  rw [h.table]
  exact initPeerTable_len _ b

theorem Alive.timeout {os : Os} (h : c.Alive hashKey)
    (hstep : clientStep hashKey c (.timeout os) = some c') : c'.Alive hashKey := by
  obtain ⟨-, m, hjoin, rfl⟩ := clientStep_timeout.mp hstep
  obtain ⟨ps, -, rfl⟩ := joinPeers_calls hjoin
  exact ⟨h.table, ⟨h.strings.ip, h.strings.neighbors, h.strings.peers⟩, h.others⟩

theorem Alive.recv {os : Os} {msg : RpcMsg} (h : c.Alive hashKey) (hmsg : MsgStrings msg)
    (hstep : clientStep hashKey c (.recv os msg) = some c') : c'.Alive hashKey := by
  obtain ⟨r, m, hrecv, rfl⟩ := clientStep_recv.mp hstep
  obtain ⟨htable, happ⟩ := recvRpc_appended h.table hrecv
  obtain ⟨hneighbors, hip, -⟩ := recvRpc_keeps hrecv
  refine ⟨htable, h.strings.appended hip hneighbors happ (Net.storedPeers_strings hmsg _), ?_⟩
  intro b hb
  show m.table[b].len = 0
  rw [happ.other b hb]
  exact h.others b hb

theorem Alive.step {e : ClientEvent} (h : c.Alive hashKey) (he : e.Brings)
    (hstep : clientStep hashKey c e = some c') : c'.Alive hashKey := by
  cases e with
  | timeout os => exact h.timeout hstep
  | recv os msg => exact h.recv he.strings hstep

/-- The other buckets are as short as the client's own. -/
theorem Alive.fits (h : c.Alive hashKey) (hl : c.Listable hashKey) (msg : RpcMsg) :
    BucketsFit hashKey msg c.machine := by
  refine ⟨fun _ => ?_, hl⟩
  by_cases hb : homeOf (askedHash msg).str = homeOf hashKey.str
  · show c.machine.table[homeOf (askedHash msg).str].len ≤ 25
    rw [hb]
    exact hl
  · exact (h.others _ hb).trans_le (Nat.zero_le 25)

theorem Alive.survives {os : Os} {msg : RpcMsg} (h : c.Alive hashKey)
    (hk : Terminated hashKey.mem) (hl : c.Listable hashKey) (hmsg : Readable msg) :
    clientStep hashKey c (.recv os msg) ≠ none := by
  obtain ⟨r, m, hm⟩ := recvRpc_total os hashKey msg c.machine h.strings h.table hk (h.fits hl msg)
    hmsg.strings hmsg.count
  intro hnone
  rw [clientStep_recv.mpr ⟨r, m, hm, rfl⟩] at hnone
  cases hnone

/-- A timeout without peers is the end. -/
theorem Alive.timeout_none_iff {os : Os} (h : c.Alive hashKey) (hk : Terminated hashKey.mem)
    (hw : c.machine.wait = true) :
    clientStep hashKey c (.timeout os) = none ↔ homeLen c.machine.table hashKey = 0 := by
  have hbucket := getPeerBucket_inv h.table hk
  constructor
  · intro hnone
    by_contra hne
    obtain ⟨m, hm⟩ := joinPeers_total os hashKey c.machine _ h.strings hbucket hne
    rw [clientStep_timeout.mpr ⟨hw, m, hm, rfl⟩] at hnone
    cases hnone
  · intro h0
    have hjoin : joinPeers os hashKey c.machine = .ok (1, c.machine) := by
      rw [joinPeers, hbucket, ok_bind]
      exact if_pos h0
    rw [clientStep, if_pos hw, hjoin]
    rfl

end Step

end Client

/-- The client ends only at a timeout that finds no peer, and there it does: in every run of its
loop in which it lists no more peers than an answer can carry, no datagram that can be read ends it,
and no timeout after it was told of a peer. -/
theorem client_ends_iff (hashKey : Bytes idSize) (c₀ c : Client) (events : List ClientEvent)
    (hk : Terminated hashKey.mem) (hstart : c₀.Started) (hstrings : MachineStrings c₀.machine)
    (hbrings : ∀ e ∈ events, e.Brings)
    (hlist : AllStates (clientStep hashKey) (Client.Listable hashKey) c₀ events)
    (hrun : run (clientStep hashKey) c₀ events = some c) (e : ClientEvent) (he : c.Possible e) :
    clientStep hashKey c e = none ↔
      (∃ os, e = .timeout os) ∧ homeLen c.machine.table hashKey = 0 := by
  have hstep : ∀ c e c', Client.Alive hashKey c → Client.Listable hashKey c → e.Brings →
      clientStep hashKey c e = some c' → Client.Alive hashKey c' :=
    fun _ _ _ h _ hb hs => h.step hb hs
  obtain ⟨halive, hl⟩ := run_within (Client.Alive hashKey) hstep (hstart.alive hstrings) hlist
    hbrings hrun
  cases e with
  | timeout os =>
    rw [halive.timeout_none_iff hk he]
    exact ⟨fun h0 => ⟨⟨os, rfl⟩, h0⟩, fun h => h.2⟩
  | recv os msg =>
    refine iff_of_false (halive.survives hk hl he) ?_
    rintro ⟨⟨os', h⟩, -⟩
    cases h

/-- The client that was told of a peer goes on at a timeout. -/
theorem client_ends_iff_lone : ∃ c, run (clientStep fileHash) newClient
      [.recv sendingOs loneMsg] = some c ∧ clientStep fileHash c (.timeout sendingOs) ≠ none := by
  obtain ⟨c, hstep, hinv, hw, hhome⟩ := newClient_lone
  have hhash : Terminated fileHash.mem := by decide
  have hlen : homeLen c.machine.table fileHash = 1 := by
    rw [← homePeers_length, hhome]
    rfl
  have hrun : run (clientStep fileHash) newClient [.recv sendingOs loneMsg] = some c :=
    run_cons.mpr ⟨c, hstep, rfl⟩
  have hbrings : ∀ e ∈ [ClientEvent.recv sendingOs loneMsg], e.Brings := by
    intro e he
    obtain rfl := List.mem_singleton.mp he
    exact loneAnswer_clean.readable loneAnswer_build
  have hlist : AllStates (clientStep fileHash) (Client.Listable fileHash) newClient
      [.recv sendingOs loneMsg] := by
    refine ⟨newClient_empty.trans_le (Nat.zero_le 25), ?_⟩
    intro c' hstep'
    obtain rfl := Option.some.inj (hstep.symm.trans hstep')
    exact hlen.trans_le (by decide)
  have hend := client_ends_iff fileHash newClient c _ hhash newClient_started newClient_inv.strings
    hbrings hlist hrun (.timeout sendingOs) hw
  refine ⟨c, hrun, fun hnone => ?_⟩
  rw [hlen] at hend
  exact one_ne_zero (hend.mp hnone).2

end PeerToPeer
