import PeerToPeer.Nodes.Runs
import PeerToPeer.Nodes.Metric
import PeerToPeer.Rpc.Searching

namespace PeerToPeer

open CLib Sorting

def Machine.setNeighbors (m : Machine) (neighbors : NodeArray) : Machine :=
  { m with sortedNeighbors := neighbors }

/-- Among the neighbours other than the caller, `n` is the first one at the least distance to
the hash. -/
structure Closest (infoHash : Bytes idSize) (caller : Addr) (neighbors : List NodeEntry)
    (n : NodeEntry) : Prop where
  eligible : n.addr ≠ caller
  nearest : ∃ d pre post, distanceTo infoHash n.id = .ok d ∧ neighbors = pre ++ n :: post ∧
    (∀ x ∈ pre, x.addr ≠ caller → ∃ e, distanceTo infoHash x.id = .ok e ∧ d < e) ∧
    ∀ x ∈ post, x.addr ≠ caller → ∃ e, distanceTo infoHash x.id = .ok e ∧ d ≤ e

section Sorted

variable {infoHash : Bytes idSize} {caller : Addr} {neighbors neighbors' : NodeArray}

/-- A search over the sorted array passes the same nodes by, at their new distances. -/
theorem nextHop_sorted (ht : Terminated infoHash.mem)
    (h : compareHash neighbors neighbors.len infoHash.mem = .ok neighbors') :
    nextHop neighbors'.live caller = (nextHop (stableSort
      (NodeEntry.dist ∘ NodeEntry.addXor infoHash.mem) neighbors.live) caller).map
        (NodeEntry.addXor infoHash.mem) := by
  have hlive := (compareHash_live (Nat.le_refl _) ht (str_length_le ht) h).2
  have hall : neighbors.live.take neighbors.len = neighbors.live := by
    rw [← GrowArray.live_length, List.take_length]
  have hrest : neighbors.live.drop neighbors.len = [] := by
    rw [← GrowArray.live_length, List.drop_length]
  rw [hlive, ranked, refresh_eq (GrowArray.live_length _).ge, hall, hrest, List.append_nil,
    stableSort_map, nextHop, List.find?_map]
  rfl

theorem Closest.of_sorted {n : NodeEntry} (ht : Terminated infoHash.mem)
    (hzero : ∀ n ∈ neighbors.live, n.distance = 0)
    (h : nextHop (stableSort (NodeEntry.dist ∘ NodeEntry.addXor infoHash.mem) neighbors.live)
      caller = some n) : Closest infoHash caller neighbors.live n := by
  obtain ⟨hp, pre, post, hl, hpre, hpost⟩ := find?_stableSort _ h
  have hdist {x : NodeEntry} (hx : x ∈ neighbors.live) :
      distanceTo infoHash x.id = .ok (x.addXor infoHash.mem).distance := by
    rw [distanceTo_eq ht, NodeEntry.addXor, hzero x hx, UInt32.zero_add]
  refine ⟨by simpa using hp, _, pre, post, hdist (by simp [hl]), hl, ?_, ?_⟩
  · intro x hx hne
    exact ⟨_, hdist (by simp [hl, hx]), UInt32.lt_iff_toNat_lt.mpr (hpre x hx (by simpa using hne))⟩
  · intro x hx hne
    exact ⟨_, hdist (by simp [hl, hx]), UInt32.le_iff_toNat_le.mpr (hpost x hx (by simpa using hne))⟩

theorem nextHop_sorted_none (ht : Terminated infoHash.mem)
    (h : compareHash neighbors neighbors.len infoHash.mem = .ok neighbors') :
    nextHop neighbors'.live caller = none ↔ ∀ n ∈ neighbors.live, n.addr = caller := by
  rw [nextHop_sorted ht h, Option.map_eq_none_iff, nextHop, find?_stableSort_none]
  simp

theorem sorted_ips (ht : Terminated infoHash.mem)
    (h : compareHash neighbors neighbors.len infoHash.mem = .ok neighbors')
    (hip : ∀ n ∈ neighbors.live, Terminated n.ip.mem) :
    ∀ n ∈ neighbors'.live, Terminated n.ip.mem := by
  intro n hn
  rw [(compareHash_live (Nat.le_refl _) ht (str_length_le ht) h).2, ranked,
    mem_refresh (GrowArray.live_length _).ge] at hn
  rcases hn with ⟨x, hx, rfl⟩ | hn
  · exact hip x (List.mem_of_mem_take hx)
  · exact hip n (List.mem_of_mem_drop hn)

end Sorted

/-- After `compare_hash` over all neighbours, whose distances were zero, `get_peers` calls the
closest neighbour other than `reply_to`; it calls nobody when there is none. -/
theorem search_starts_closest (os : Os) (m : Machine) (infoHash : Bytes idSize)
    (srcAddr replyTo : Origin) (hzero : ∀ n ∈ m.sortedNeighbors.live, n.distance = 0)
    (ht : Terminated infoHash.mem) :
    ∃ neighbors, compareHash m.sortedNeighbors m.sortedNeighbors.len infoHash.mem =
        .ok neighbors ∧
      (∀ r m', getPeers os infoHash srcAddr replyTo (m.setNeighbors neighbors) = .ok (r, m') →
        ∃ calls, m'.sends = m.sends ++ calls ∧
          (calls = [] ↔ ∀ n ∈ m.sortedNeighbors.live, n.addr = replyTo.addr) ∧
          ∀ x rest, calls = x :: rest → IsCall (decodeHeader x.msg) .getPeers ∧
            ∃ n, Closest infoHash replyTo.addr m.sortedNeighbors.live n ∧ x.dest = n.origin) ∧
      (Terminated m.node.ip.mem → (∀ n ∈ m.sortedNeighbors.live, Terminated n.ip.mem) →
        Terminated srcAddr.ip.mem → Terminated replyTo.ip.mem →
        ∃ r m', getPeers os infoHash srcAddr replyTo (m.setNeighbors neighbors) = .ok (r, m')) := by
  have hrun := compareHash_ok (Nat.le_refl m.sortedNeighbors.len) ht (str_length_le ht)
  generalize m.sortedNeighbors.withBlock _ _ = neighbors at hrun
  refine ⟨neighbors, hrun, ?_, ?_⟩
  · intro r m' h
    have hm' := getPeers_ok h
    have hnone := @nextHop_sorted_none infoHash replyTo.addr _ _ ht hrun
    have hnext := @nextHop_sorted infoHash replyTo.addr _ _ ht hrun
    rw [searchSends_eq] at hm'
    refine ⟨_, congrArg Machine.sends hm', ?_, ?_⟩
    · rw [← hnone, Option.toList_eq_nil_iff, Option.map_eq_none_iff]
      rfl
    · intro x rest hx
      change (Option.map _ (nextHop neighbors.live replyTo.addr)).toList = _ at hx
      rw [hnext] at hx
      cases hn : nextHop (stableSort (NodeEntry.dist ∘ NodeEntry.addXor infoHash.mem)
          m.sortedNeighbors.live) replyTo.addr with
      | none => simp [hn] at hx
      | some n =>
        rw [hn] at hx
        obtain ⟨rfl, -⟩ := List.cons.inj hx
        exact ⟨searchCall_isCall _ _ _ _, n, Closest.of_sorted ht hzero hn, rfl⟩
  · intro hip hn hs hr
    exact getPeers_total os infoHash srcAddr replyTo _ hip (sorted_ips ht hrun hn) hs hr

/-- A node with the neighbours `"B"` and `"A"`, at ports 3001 and 3002. -/
def lettersNode : Machine where
  node := ⟨Bytes.zero inetAddrstrlen, 3000, initPeerTable fun _ => .zeroed⟩
  sortedNeighbors := twoNodes
  wait := true
  sends := []

/-- Asked for the file `"A"` by its closest neighbour, it turns to the other one. -/
theorem search_starts_closest_letters : ∃ neighbors r m' x rest,
    compareHash twoNodes 2 (Bytes.padded idSize [65]).mem = .ok neighbors ∧
      getPeers sendingOs (Bytes.padded idSize [65]) ⟨3002, Bytes.zero inetAddrstrlen⟩
        ⟨3002, Bytes.zero inetAddrstrlen⟩ (lettersNode.setNeighbors neighbors) = .ok (r, m') ∧
      m'.sends = x :: rest ∧ x.dest.port = 3001 := by
  have hstrings : ∀ n ∈ lettersNode.sortedNeighbors.live, Terminated n.ip.mem := by decide
  obtain ⟨neighbors, hrun, hcalls, htotal⟩ := search_starts_closest sendingOs lettersNode
    (Bytes.padded idSize [65]) ⟨3002, Bytes.zero inetAddrstrlen⟩ ⟨3002, Bytes.zero inetAddrstrlen⟩
    (by decide) (by decide)
  obtain ⟨r, m', h⟩ := htotal (by decide) hstrings (by decide) (by decide)
  obtain ⟨calls, hsends, hnone, hfirst⟩ := hcalls r m' h
  cases calls with
  | nil => exact absurd (hnone.mp rfl) (by decide)
  | cons x rest =>
    obtain ⟨-, n, hn, hdest⟩ := hfirst x rest rfl
    refine ⟨neighbors, r, m', x, rest, hrun, h, hsends, ?_⟩
    have hports : ∀ n ∈ lettersNode.sortedNeighbors.live,
        n.addr ≠ (⟨3002, Bytes.zero inetAddrstrlen⟩ : Origin).addr → n.port = 3001 := by decide
    obtain ⟨d, pre, post, -, hl, -⟩ := hn.nearest
    rw [hdest]
    exact hports n (by simp [hl]) hn.eligible

end PeerToPeer
