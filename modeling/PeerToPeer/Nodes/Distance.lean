import PeerToPeer.Rpc.Send
import PeerToPeer.Sorting.Insertion

namespace PeerToPeer

open CLib Sorting

/-- `a ^ b` of two `char`s, each promoted to `int`. -/
def charXor (a b : UInt8) : Int32 := a.toInt8.toInt32 ^^^ b.toInt8.toInt32

/-- `count` passes of the loop in `XORdistance`, from index `i` on. -/
def xorLoop (infoHash : List UInt8) : Nat → Nat → NodeEntry → Except Fault NodeEntry
  | 0, _, node => .ok node
  | count + 1, i, node =>
      match infoHash[i]?, node.id[i]? with
      | some h, some c =>
          xorLoop infoHash count (i + 1)
            { node with distance := node.distance + (charXor h c).toUInt32 }
      | _, _ => .error .outOfBounds

def xorDistance (infoHash : List UInt8) (node : NodeEntry) : Except Fault NodeEntry := do
  let length ← strlen infoHash
  xorLoop infoHash length 0 node

/-- The first loop of `compare_hash`: `count` passes from index `i` on. -/
def xorNodes (infoHash : List UInt8) : Nat → Nat → NodeArray → Except Fault NodeArray
  | 0, _, neighbors => .ok neighbors
  | count + 1, i, neighbors => do
      let node ← neighbors.load i
      let node ← xorDistance infoHash node
      let neighbors ← neighbors.assign i node
      xorNodes infoHash count (i + 1) neighbors

/-- The inner `while` of `compare_hash`, at index `j`. -/
def sinkNode : Nat → NodeArray → Except Fault NodeArray
  | 0, neighbors => .ok neighbors
  | j + 1, neighbors => do
      let prev ← neighbors.load j
      let tmp ← neighbors.load (j + 1)
      if prev.distance > tmp.distance then
        let neighbors ← neighbors.assign (j + 1) prev
        let neighbors ← neighbors.assign j tmp
        sinkNode j neighbors
      else return neighbors

/-- The outer `while` of `compare_hash`: `count` passes from index `i` on. -/
def sortNodes : Nat → Nat → NodeArray → Except Fault NodeArray
  | 0, _, neighbors => .ok neighbors
  | count + 1, i, neighbors => do
      let neighbors ← sinkNode i neighbors
      sortNodes count (i + 1) neighbors

def compareHash (neighbors : NodeArray) (nCount : Nat) (infoHash : List UInt8) :
    Except Fault NodeArray := do
  let neighbors ← xorNodes infoHash nCount 0 neighbors
  sortNodes nCount 0 neighbors

/-- The byte-wise XORs of a hash with an id over the length of the hash, summed up. -/
def xorSum (infoHash : List UInt8) (id : Bytes idSize) : Int :=
  (List.zipWith (fun a b => (charXor a b).toInt) (chars infoHash) id.toList).sum

/-- The entry with the XOR sum added to its distance. -/
def NodeEntry.addXor (infoHash : List UInt8) (n : NodeEntry) : NodeEntry :=
  { n with distance := n.distance + UInt32.ofInt (xorSum infoHash n.id) }

/-- The distance as a number, the key of the sort. -/
def NodeEntry.dist (n : NodeEntry) : Nat := n.distance.toNat

theorem ofInt_toInt (x : Int32) : UInt32.ofInt x.toInt = x.toUInt32 := by
  apply UInt32.toNat_inj.mp
  have hmod := toInt_emod x
  have hlt := x.toUInt32.toNat_lt
  rw [UInt32.ofInt, UInt32.toNat_ofNat']
  omega

theorem xorLoop_ok (infoHash : List UInt8) (count i : Nat) (node : NodeEntry)
    (hh : i + count ≤ infoHash.length) (hi : i + count ≤ idSize) :
    xorLoop infoHash count i node = .ok { node with
      distance := node.distance + UInt32.ofInt (List.zipWith (fun a b => (charXor a b).toInt)
        ((infoHash.drop i).take count) (node.id.toList.drop i)).sum } := by
  induction count generalizing i node with
  | zero =>
    have hzero : UInt32.ofInt 0 = 0 := rfl
    simp [xorLoop, hzero]
  | succ count ih =>
    have hlt : i < infoHash.length := by omega
    have hid : i < idSize := by omega
    have hlist : i < node.id.toList.length := by rwa [Vector.length_toList]
    rw [xorLoop, List.getElem?_eq_getElem hlt, Vector.getElem?_eq_getElem hid]
    dsimp only
    rw [ih (i + 1) _ (by omega) (by omega), List.drop_eq_getElem_cons hlt,
      List.drop_eq_getElem_cons hlist, List.take_succ_cons, List.zipWith_cons_cons, List.sum_cons,
      UInt32.ofInt_add, ofInt_toInt, Vector.getElem_toList, UInt32.add_assoc]

theorem chars_eq_take (mem : List UInt8) : chars mem = mem.take (chars mem).length :=
  (List.prefix_iff_eq_take.mp (List.takeWhile_prefix _))

theorem xorDistance_ok {infoHash : List UInt8} (node : NodeEntry) (ht : Terminated infoHash)
    (hl : (chars infoHash).length ≤ idSize) :
    xorDistance infoHash node = .ok (node.addXor infoHash) := by
  have hlen := chars_length_lt infoHash ht
  rw [xorDistance, strlen, if_pos ht, ok_bind,
    xorLoop_ok infoHash _ 0 node (by omega) (by omega), List.drop_zero, List.drop_zero,
    ← chars_eq_take]
  rfl

/-- The array with its first `n` nodes moved away from the hash. -/
def addXors (infoHash : List UInt8) (n : Nat) (neighbors : NodeArray) : NodeArray :=
  neighbors.withBlock (mapFirst (NodeEntry.addXor infoHash) n neighbors.block) (mapFirst_length _ _ _)

theorem xorNodes_ok {infoHash : List UInt8} (neighbors : NodeArray) (count i : Nat)
    (ht : Terminated infoHash) (hl : (chars infoHash).length ≤ idSize)
    (hn : i + count ≤ neighbors.block.length) :
    xorNodes infoHash count i (addXors infoHash i neighbors) =
      .ok (addXors infoHash (i + count) neighbors) := by
  induction count generalizing i with
  | zero => rfl
  | succ count ih =>
    have hi : i < neighbors.block.length := by omega
    have hroom : i < (addXors infoHash i neighbors).block.length := by simpa [addXors] using hi
    have hstep : (addXors infoHash i neighbors).assign i (neighbors.block[i].addXor infoHash) =
        .ok (addXors infoHash (i + 1) neighbors) := by
      rw [GrowArray.assign_ok _ _ hroom]
      simp only [addXors, GrowArray.withBlock_block, mapFirst_set _ hi]
      rfl
    rw [xorNodes, GrowArray.load_ok (mapFirst_next _ hi), ok_bind, xorDistance_ok _ ht hl, ok_bind,
      hstep, ok_bind, ih (i + 1) (by omega), Nat.add_right_comm, Nat.add_assoc]

theorem sinkNode_ok (neighbors : NodeArray) (j : Nat) (hj : j < neighbors.block.length) :
    sinkNode j neighbors = .ok (neighbors.withBlock (sink NodeEntry.dist j neighbors.block)
      (sink_length _ _ _)) := by
  induction j generalizing neighbors with
  | zero => rfl
  | succ j ih =>
    have hprev : neighbors.block[j]? = some neighbors.block[j] := List.getElem?_eq_getElem _
    have hcur : neighbors.block[j + 1]? = some neighbors.block[j + 1] := List.getElem?_eq_getElem hj
    have hsink : sink NodeEntry.dist (j + 1) neighbors.block =
        if neighbors.block[j].distance > neighbors.block[j + 1].distance then
          sink NodeEntry.dist j ((neighbors.block.set (j + 1) neighbors.block[j]).set j
            neighbors.block[j + 1])
        else neighbors.block := by
      rw [sink, hprev, hcur]
      exact if_congr UInt32.lt_iff_toNat_lt.symm rfl rfl
    simp only [hsink]
    rw [sinkNode, GrowArray.load_ok hprev, ok_bind, GrowArray.load_ok hcur, ok_bind]
    by_cases hlt : neighbors.block[j].distance > neighbors.block[j + 1].distance
    · rw [if_pos hlt, GrowArray.assign_ok _ _ hj, ok_bind, GrowArray.assign_ok _ _ (by simp; omega),
        ok_bind, ih _ (by simp; omega)]
      simp only [GrowArray.withBlock_block, if_pos hlt]
      rfl
    · rw [if_neg hlt]
      simp only [if_neg hlt]
      rfl

theorem sortNodes_ok (neighbors : NodeArray) (count i : Nat)
    (hn : i + count ≤ neighbors.block.length) :
    sortNodes count i neighbors = .ok (neighbors.withBlock
      (sinkAll NodeEntry.dist count i neighbors.block) (sinkAll_length _ _ _ _)) := by
  induction count generalizing neighbors i with
  | zero => rfl
  | succ count ih =>
    rw [sortNodes, sinkNode_ok _ _ (by omega), ok_bind, ih _ _ (by simp; omega)]
    rfl

/-- The nodes after `compare_hash`. -/
def ranked (infoHash : List UInt8) (n : Nat) (l : List NodeEntry) : List NodeEntry :=
  refresh NodeEntry.dist (NodeEntry.addXor infoHash) n l

@[simp] theorem ranked_length (infoHash : List UInt8) (n : Nat) (l : List NodeEntry) :
    (ranked infoHash n l).length = l.length := refresh_length _ _ _ _

theorem compareHash_ok {neighbors : NodeArray} {nCount : Nat} {infoHash : List UInt8}
    (hn : nCount ≤ neighbors.len) (ht : Terminated infoHash)
    (hl : (chars infoHash).length ≤ idSize) :
    compareHash neighbors nCount infoHash =
      .ok (neighbors.withBlock (ranked infoHash nCount neighbors.block) (ranked_length _ _ _)) := by
  have hb := hn.trans neighbors.len_le
  have hstart : addXors infoHash 0 neighbors = neighbors := rfl
  have hxor := xorNodes_ok neighbors nCount 0 ht hl (by omega)
  rw [hstart, Nat.zero_add] at hxor
  rw [compareHash, hxor, ok_bind, sortNodes_ok _ _ _ (by simp [addXors]; omega)]
  rfl

theorem compareHash_live {neighbors neighbors' : NodeArray} {nCount : Nat} {infoHash : List UInt8}
    (hn : nCount ≤ neighbors.len) (ht : Terminated infoHash)
    (hl : (chars infoHash).length ≤ idSize)
    (h : compareHash neighbors nCount infoHash = .ok neighbors') :
    neighbors'.len = neighbors.len ∧ neighbors'.live = ranked infoHash nCount neighbors.live := by
  rw [compareHash_ok hn ht hl] at h
  obtain rfl := Except.ok.inj h
  exact ⟨rfl, refresh_cut (hn.trans neighbors.len_le) hn⟩

/-- `l'` is `l` with its first `n` nodes moved by their XOR sum and sorted by distance, nodes of
one distance in their old order. -/
structure Ranked (infoHash : List UInt8) (n : Nat) (l l' : List NodeEntry) : Prop where
  sorted : StableSorted NodeEntry.dist ((l.take n).map (NodeEntry.addXor infoHash)) (l'.take n)
  rest : l'.drop n = l.drop n

theorem ranked_spec (infoHash : List UInt8) {n : Nat} {l : List NodeEntry} (hn : n ≤ l.length) :
    Ranked infoHash n l (ranked infoHash n l) := by
  refine ⟨?_, refresh_drop hn⟩
  rw [ranked, refresh_take hn]
  exact stableSort_spec _ _

/-- `compare_hash` returns, and it is a stable sort by the moved distances. -/
theorem compareHash_sorts (neighbors : NodeArray) (nCount : Nat) (infoHash : List UInt8)
    (hn : nCount ≤ neighbors.len) (ht : Terminated infoHash)
    (hl : (chars infoHash).length < idSize) :
    ∃ neighbors', compareHash neighbors nCount infoHash = .ok neighbors' ∧
      neighbors'.len = neighbors.len ∧
      Ranked infoHash nCount neighbors.live neighbors'.live := by
  have hok := compareHash_ok hn ht hl.le
  obtain ⟨hlen, hlive⟩ := compareHash_live hn ht hl.le hok
  refine ⟨_, hok, hlen, ?_⟩
  rw [hlive]
  exact ranked_spec infoHash (by rwa [GrowArray.live_length])

/-- `"B"` and `"A"` in an array as `new_node_array` makes it. -/
def twoNodes : NodeArray where
  cap := initialCap
  len := 2
  block := [⟨Bytes.padded idSize [66], Bytes.zero inetAddrstrlen, 3001, 0⟩,
    ⟨Bytes.padded idSize [65], Bytes.zero inetAddrstrlen, 3002, 0⟩]
  len_le := by decide
  block_le := by decide
  cap_pos := initialCap_pos
  cap_bytes := initialCap_nodes

/-- For the hash `"A"` the two change places. -/
theorem compareHash_sorts_two : ∃ neighbors', compareHash twoNodes 2 [65, 0] = .ok neighbors' ∧
    neighbors'.len = 2 ∧ Ranked [65, 0] 2 twoNodes.live neighbors'.live ∧
    neighbors'.live.map NodeEntry.port = [3002, 3001] := by
  obtain ⟨neighbors', h, hlen, hrank⟩ :=
    compareHash_sorts twoNodes 2 [65, 0] (by decide) (by decide) (by decide)
  have hlive := (compareHash_live (by decide) (by decide) (by decide) h).2
  refine ⟨neighbors', h, hlen, hrank, ?_⟩
  rw [hlive]
  decide

end PeerToPeer
