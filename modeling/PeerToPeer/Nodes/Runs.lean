import PeerToPeer.Peers.Isolation
import PeerToPeer.Rpc.Outgoing
import PeerToPeer.Transition.Run

namespace PeerToPeer

open CLib Transition

/-- What happens to one node: its program sets a peer, or a datagram is handled. -/
inductive NodeEvent where
  | set (key : CString) (data : Peer)
  | recv (os : Os) (hashKey : Bytes idSize) (msg : RpcMsg)

/-- One event; `none` when the process does not survive it. -/
def nodeStep (m : Machine) : NodeEvent → Option Machine
  | .set key data => (setPeer m.table key.mem data).toOption.map m.setTable
  | .recv os hashKey msg => (recvRpc os hashKey msg m).toOption.map Prod.snd

theorem toOption_eq_some {ε α : Type} {x : Except ε α} {a : α} :
    x.toOption = some a ↔ x = .ok a := by
  cases x <;> simp [Except.toOption]

theorem nodeStep_set {m m' : Machine} {key : CString} {data : Peer} :
    nodeStep m (.set key data) = some m' ↔
      ∃ t, setPeer m.table key.mem data = .ok t ∧ m.setTable t = m' := by
  simp only [nodeStep, Option.map_eq_some_iff, toOption_eq_some]

theorem nodeStep_recv {m m' : Machine} {os : Os} {hashKey : Bytes idSize} {msg : RpcMsg} :
    nodeStep m (.recv os hashKey msg) = some m' ↔
      ∃ r, recvRpc os hashKey msg m = .ok (r, m') := by
  simp only [nodeStep, Option.map_eq_some_iff, toOption_eq_some, Prod.exists,
    exists_eq_right]

/-- The arguments of the event are C strings, and its message is one that a node builds. -/
def NodeEvent.Clean : NodeEvent → Prop
  | set _ data => Terminated data.ip.mem
  | recv _ _ msg => ∃ out : Outgoing, out.Clean ∧ out.build = .ok msg

/-- A node whose table `init_peer_table` has just set up in zeroed memory. -/
structure Booted (m : Machine) : Prop where
  table : m.table = initPeerTable fun _ => .zeroed
  ip : Terminated m.node.ip.mem
  neighbors : ∀ n ∈ m.sortedNeighbors.live, Terminated n.ip.mem

/-- What holds of a node at every point of its life. -/
structure NodeInv (m : Machine) : Prop where
  table : TableInv m.table
  strings : MachineStrings m

theorem Booted.inv {m : Machine} (h : Booted m) : NodeInv m := by
  refine ⟨h.table ▸ initPeerTable_inv, h.ip, h.neighbors, ?_⟩
  intro i p hp
  rw [h.table, initPeerTable_peers] at hp
  simp at hp

theorem Outgoing.Clean.stores_strings {out : Outgoing} (hc : out.Clean) (sent : Bool) :
    ∀ p ∈ out.stores sent, Terminated p.ip.mem := by
  intro p hp
  cases out with
  | call method payload host =>
    cases method <;> cases sent <;> simp [Outgoing.stores] at hp
    obtain rfl := hp
    exact Bytes.terminated_norm hc.1
  | reply method payload id status =>
    cases method <;> cases status <;> simp [Outgoing.stores] at hp
    exact (hc.2 rfl rfl).2 p hp

theorem nodeStep_inv {m m' : Machine} {e : NodeEvent} (hinv : NodeInv m) (hc : e.Clean)
    (h : nodeStep m e = some m') : NodeInv m' := by
  cases e with
  | set key data =>
    obtain ⟨t, ht, rfl⟩ := nodeStep_set.mp h
    obtain ⟨-, htab, happ⟩ := setPeer_ok hinv.table ht
    refine ⟨htab, hinv.strings.appended rfl rfl happ ?_⟩
    intro p hp
    obtain rfl := List.mem_singleton.mp hp
    exact hc
  | recv os hashKey msg =>
    obtain ⟨r, hr⟩ := nodeStep_recv.mp h
    obtain ⟨out, hout, hmsg⟩ := hc
    obtain ⟨htab, happ⟩ := recvRpc_appended hinv.table hr
    obtain ⟨hn, hip, -⟩ := recvRpc_keeps hr
    rw [hout.storedPeers_eq hmsg] at happ
    exact ⟨htab, hinv.strings.appended hip hn happ (hout.stores_strings _)⟩

/-- A `JOIN` call whose answer the socket does not take is reported as 1. -/
theorem recvRpc_joinFailed {os : Os} {hashKey : Bytes idSize} {msg : RpcMsg} {m m' : Machine}
    {r : Int} (hj : IsCall (decodeHeader msg) .join) (hs : os.sendto m.sends.length = false)
    (h : recvRpc os hashKey msg m = .ok (r, m')) : r = 1 := by
  cases (recvRpc_handled h).2 with
  | joinFailed => rfl
  | otherCall _ _ hj' => exact absurd hj hj'
  | otherReply _ ht => exact absurd hj.1 ht
  | badReply hr => exact absurd hr hj.not_reply
  | emptyReply hr => exact absurd hr hj.not_reply
  | noBucket _ hc => exact absurd hj hc.method_unique
  | forwarded _ hc => exact absurd hj hc.method_unique
  | answered _ hc => exact absurd hj hc.method_unique
  | joined _ _ hs' => exact absurd (hs.symm.trans hs') (by decide)
  | unfiled _ hr => exact absurd hr hj.not_reply
  | stored _ _ hr => exact absurd hr hj.not_reply
  | joining _ _ hr => exact absurd hr hj.not_reply

theorem NodeInv.recvRpc_ok {m : Machine} (hinv : NodeInv m) (os : Os) (hashKey : Bytes idSize)
    {out : Outgoing} {msg : RpcMsg} (h25 : ∀ i : Fin maxPeerBuckets, m.table[i].len ≤ 25)
    (hk : Terminated hashKey.mem) (hout : out.Clean) (hmsg : out.build = .ok msg) :
    ∃ r m', recvRpc os hashKey msg m = .ok (r, m') ∧
      Appended m.table m'.table (homeOf hashKey.str)
        (out.stores (os.sendto m.sends.length)) := by
  obtain ⟨r, m', hr⟩ := recvRpc_total os hashKey msg m hinv.strings hinv.table hk
    ⟨fun _ => h25 _, h25 _⟩
    (hout.strings hmsg) (hout.count hmsg)
  obtain ⟨-, happ⟩ := recvRpc_appended hinv.table hr
  rw [hout.storedPeers_eq hmsg] at happ
  exact ⟨r, m', hr, happ⟩

/-- The exact effect of a message, in every state a node reaches: the handler returns, and
all that happens to the neighbours and the table is one append to the node's own bucket. -/
theorem recvRpc_effect (m₀ m : Machine) (events : List NodeEvent) (os : Os)
    (hashKey : Bytes idSize) (out : Outgoing) (msg : RpcMsg) (hboot : Booted m₀)
    (hclean : ∀ e ∈ events, e.Clean) (hrun : run nodeStep m₀ events = some m)
    (h25 : ∀ i : Fin maxPeerBuckets, m.table[i].len ≤ 25) (hk : Terminated hashKey.mem)
    (hout : out.Clean) (hmsg : out.build = .ok msg) :
    ∃ r m', recvRpc os hashKey msg m = .ok (r, m') ∧
      m'.sortedNeighbors = m.sortedNeighbors ∧
      Appended m.table m'.table (homeOf hashKey.str) (out.stores (os.sendto m.sends.length)) ∧
      (out.IsJoin → os.sendto m.sends.length = false → r = 1) ∧
      ∀ i : Fin maxPeerBuckets, m.table[i].peers <+: m'.table[i].peers := by
  have hinv : NodeInv m := run_induction (P := NodeEvent.Clean) NodeInv
    (fun _ _ _ hi hc hs => nodeStep_inv hi hc hs) hboot.inv hclean hrun
  obtain ⟨r, m', hr, happ⟩ := hinv.recvRpc_ok os hashKey h25 hk hout hmsg
  exact ⟨r, m', hr, (recvRpc_keeps hr).1, happ,
    fun hj hs => recvRpc_joinFailed (hj.isCall hmsg) hs hr, happ.grows⟩

/-- A node at port 3001 without neighbours. -/
def aloneNode : Machine where
  node := ⟨Bytes.zero 16, 3001, initPeerTable fun _ => .zeroed⟩
  sortedNeighbors := GrowArray.new initialCap initialCap_pos initialCap_nodes
  wait := true
  sends := []

def sendingOs : Os := ⟨fun _ => true, Bytes.zero maxPayloadSize⟩

/-- The file hash `"13"` in its field. -/
def fileHash : Bytes idSize := (Bytes.zero idSize).write 0 [49, 51]

theorem recvRpc_effect_join : ∃ m r m', run nodeStep aloneNode [.set key13 somePeer] = some m ∧
    recvRpc sendingOs fileHash (callOf .join [] ⟨3002, Bytes.zero 16⟩) m = .ok (r, m') ∧
    Appended m.table m'.table (homeOf fileHash.str)
      [⟨(Bytes.zero 16).norm, 3002, Bytes.zero 16, Bytes.zero 2, PeerState.passive.code⟩] := by
  obtain ⟨t, ht⟩ := setPeer_total initPeerTable_inv key13.terminated_mem somePeer (by
    rw [initPeerTable_len]
    decide)
  obtain ⟨-, -, happ⟩ := setPeer_ok initPeerTable_inv ht
  have hrun : run nodeStep aloneNode [.set key13 somePeer] = some (aloneNode.setTable t) :=
    run_cons.mpr ⟨_, nodeStep_set.mpr ⟨t, ht, rfl⟩, rfl⟩
  have hlen (i : Fin maxPeerBuckets) : t[i].len ≤ 25 := by
    have h := happ.len_le i
    rw [initPeerTable_len] at h
    exact h.trans (by decide)
  obtain ⟨r, m', hr, -, happ', -⟩ := recvRpc_effect aloneNode (aloneNode.setTable t)
    [.set key13 somePeer] sendingOs fileHash (.call .join [] ⟨3002, Bytes.zero 16⟩)
    (callOf .join [] ⟨3002, Bytes.zero 16⟩) ⟨rfl, by decide, by simp [aloneNode]⟩
    (fun e he => by
      obtain rfl := List.mem_singleton.mp he
      exact (by decide : Terminated somePeer.ip.mem))
    hrun hlen (by decide) ⟨by decide, by simp⟩
    (callMsg_ok_iff.mpr ⟨by decide, by decide, rfl⟩)
  exact ⟨_, r, m', hrun, hr, happ'⟩

end PeerToPeer
