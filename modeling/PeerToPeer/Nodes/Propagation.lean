import PeerToPeer.Nodes.Runs
import PeerToPeer.Rpc.Searching
import Mathlib.Data.List.TakeDrop

namespace PeerToPeer

open CLib

/-- The neighbours a search goes on to: all but the caller, in array order. -/
def others (m : Machine) (replyTo : Origin) : List NodeEntry :=
  m.sortedNeighbors.live.filter fun n => n.addr ≠ replyTo.addr

/-- One attempt to send `msg` to each neighbour of a list, from the k-th attempt on. -/
def propagateSends (os : Os) (msg : RpcMsg) : Nat → List NodeEntry → List Send
  | _, [] => []
  | k, n :: ns => ⟨n.origin, msg, os.sendto k⟩ :: propagateSends os msg (k + 1) ns

theorem propagateSends_length (os : Os) (msg : RpcMsg) (k : Nat) (ns : List NodeEntry) :
    (propagateSends os msg k ns).length = ns.length := by
  induction ns generalizing k with
  | nil => rfl
  | cons n ns ih => simp [propagateSends, ih]

section Search

variable (os : Os) (infoHash : Bytes idSize) (srcAddr replyTo : Origin) (m : Machine)

/-- `get_peers` attempted one call to each of the others, in order, and no other call. -/
def ReachesOthers (m' : Machine) : Prop :=
  m' = m.emit (propagateSends os (searchCall os infoHash srcAddr m) m.sends.length
    (others m replyTo))

theorem nextHop_eq_head : nextHop m.sortedNeighbors.live replyTo.addr =
    (others m replyTo).head? := by
  rw [others, List.head?_filter, nextHop]

/-- The one call `get_peers` makes is the first of those it owes. -/
theorem searchSends_eq_take : searchSends os infoHash srcAddr replyTo m =
    (propagateSends os (searchCall os infoHash srcAddr m) m.sends.length
      (others m replyTo)).take 1 := by
  rw [searchSends_eq, nextHop_eq_head]
  cases others m replyTo with
  | nil => rfl
  | cons n ns => rfl

theorem emit_inj {out out' : List Send} : m.emit out = m.emit out' ↔ out = out' := by
  constructor
  · intro h
    exact List.append_cancel_left (congrArg Machine.sends h)
  · intro h
    rw [h]

theorem reachesOthers_iff {r : Int} {m' : Machine}
    (h : getPeers os infoHash srcAddr replyTo m = .ok (r, m')) :
    ReachesOthers os infoHash srcAddr replyTo m m' ↔ (others m replyTo).length ≤ 1 := by
  rw [ReachesOthers, getPeers_ok h, emit_inj, searchSends_eq_take, List.take_eq_self_iff,
    propagateSends_length]

/-- When `get_peers` returns, it has reached all neighbours but the caller exactly if there is
at most one of them; and it does return when all strings end. -/
theorem getPeers_reaches_iff :
    (∀ r m', getPeers os infoHash srcAddr replyTo m = .ok (r, m') →
      (ReachesOthers os infoHash srcAddr replyTo m m' ↔ (others m replyTo).length ≤ 1)) ∧
    (MachineStrings m → Terminated srcAddr.ip.mem → Terminated replyTo.ip.mem →
      ∃ r m', getPeers os infoHash srcAddr replyTo m = .ok (r, m')) := by
  constructor
  · intro r m' h
    exact reachesOthers_iff os infoHash srcAddr replyTo m h
  · intro hm hs hr
    exact getPeers_total os infoHash srcAddr replyTo m hm.ip hm.neighbors hs hr

end Search

def loopback (port : UInt16) : NodeEntry := ⟨Bytes.zero idSize, Bytes.zero 16, port, 0⟩

/-- A node with neighbours at ports 3002 and 3003. -/
def twoNeighbors : Machine :=
  { aloneNode with
    sortedNeighbors := ⟨initialCap, 2, [loopback 3002, loopback 3003], by decide, by decide,
      initialCap_pos, initialCap_nodes⟩ }

theorem twoNeighbors_booted : Booted twoNeighbors := by
  have hzero : Terminated (Bytes.zero inetAddrstrlen).mem := by decide
  refine ⟨rfl, by decide, ?_⟩
  intro n hn
  have hn' : n = loopback 3002 ∨ n = loopback 3003 := by
    simpa [twoNeighbors, GrowArray.live] using hn
  rcases hn' with rfl | rfl <;> exact hzero

/-- A search that one of the two neighbours passed on reaches the other one. -/
theorem getPeers_reaches_other : ∃ r m',
    getPeers sendingOs fileHash ⟨3001, Bytes.zero 16⟩ ⟨3002, Bytes.zero 16⟩ twoNeighbors =
      .ok (r, m') ∧
    others twoNeighbors ⟨3002, Bytes.zero 16⟩ = [loopback 3003] ∧
    ReachesOthers sendingOs fileHash ⟨3001, Bytes.zero 16⟩ ⟨3002, Bytes.zero 16⟩
      twoNeighbors m' := by
  have hzero : Terminated (Bytes.zero inetAddrstrlen).mem := by decide
  have hspec := getPeers_reaches_iff sendingOs fileHash ⟨3001, Bytes.zero 16⟩
    ⟨3002, Bytes.zero 16⟩ twoNeighbors
  obtain ⟨r, m', h⟩ := hspec.2 twoNeighbors_booted.inv.strings hzero hzero
  have hone : others twoNeighbors ⟨3002, Bytes.zero 16⟩ = [loopback 3003] := by decide
  exact ⟨r, m', h, hone, (hspec.1 r m' h).mpr (by rw [hone, List.length_singleton])⟩

/-- A search that starts with two neighbours is sent to the first of them only. -/
theorem second_neighbor_missed : ∃ r m',
    getPeers sendingOs fileHash ⟨3001, Bytes.zero 16⟩ ⟨3001, Bytes.zero 16⟩ twoNeighbors =
      .ok (r, m') ∧
    ¬ ReachesOthers sendingOs fileHash ⟨3001, Bytes.zero 16⟩ ⟨3001, Bytes.zero 16⟩
      twoNeighbors m' := by
  have hzero : Terminated (Bytes.zero inetAddrstrlen).mem := by decide
  obtain ⟨r, m', h⟩ := getPeers_total sendingOs fileHash ⟨3001, Bytes.zero 16⟩
    ⟨3001, Bytes.zero 16⟩ twoNeighbors twoNeighbors_booted.ip twoNeighbors_booted.neighbors hzero hzero
  refine ⟨r, m', h, ?_⟩
  have htwo : (others twoNeighbors ⟨3001, Bytes.zero 16⟩).length = 2 := by decide
  rw [reachesOthers_iff _ _ _ _ _ h, htwo]
  decide

end PeerToPeer
