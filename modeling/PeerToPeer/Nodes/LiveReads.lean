import PeerToPeer.CLib.Traced
import PeerToPeer.Nodes.Bootstrap
import PeerToPeer.Nodes.Distance
import PeerToPeer.Nodes.Runs
import PeerToPeer.Nodes.Search

namespace PeerToPeer

open CLib

/-- The loop of `join_peers` with its reads: `count` passes from index `i` on. -/
def tracedJoinLoop (os : Os) (host : Origin) (bucket : PeerBucket) :
    Nat → Nat → Machine → Traced Machine
  | 0, _, m => pure m
  | count + 1, i, m => do
      let curPeer ← Traced.load bucket.array i
      let ip ← Traced.lift (Bytes.strcpy curPeer.ip)
      let (_, m) ← Traced.lift (callRpc os .join [] ⟨curPeer.port, ip⟩ host m)
      tracedJoinLoop os host bucket count (i + 1) m

/-- `join_peers` with its reads, those of its two log lines included. -/
def tracedJoinPeers (os : Os) (infoHash : Bytes idSize) (m : Machine) : Traced (Int × Machine) := do
  match ← Traced.lift (getPeerBucket m.table infoHash.mem) with
  | none => return (0, m)
  | some b =>
    let bucket := m.table[b]
    if bucket.len = 0 then
      return (1, m)
    Traced.note bucket.array 0
    Traced.note bucket.array 1
    let ip ← Traced.lift (Bytes.strcpy m.node.ip)
    let m ← tracedJoinLoop os ⟨m.node.port, ip⟩ bucket bucket.len 0 m
    return (0, m)

/-- The loop of `get_peers` with its reads. -/
def tracedGetLoop (os : Os) (payload : List UInt8) (host replyTo : Origin)
    (sortedNeighbors : NodeArray) : Nat → Nat → Machine → Traced (Int × Machine)
  | 0, _, m => pure (0, m)
  | count + 1, i, m => do
      let n ← Traced.load sortedNeighbors i
      let c ← Traced.lift (strcmp n.ip.mem replyTo.ip.mem)
      if c = 0 ∧ n.port = replyTo.port then
        tracedGetLoop os payload host replyTo sortedNeighbors count (i + 1) m
      else
        let ip ← Traced.lift (Bytes.strcpy n.ip)
        Traced.lift (callRpc os .getPeers payload ⟨n.port, ip⟩ host m)

def tracedGetPeers (os : Os) (infoHash : Bytes idSize) (srcAddr replyTo : Origin) (m : Machine) :
    Traced (Int × Machine) := do
  let hostIp ← Traced.lift (Bytes.strcpy m.node.ip)
  let srcIp ← Traced.lift (Bytes.strcpy srcAddr.ip)
  let payload := getPeersPayload os.stack ⟨htons srcAddr.port, srcIp⟩ infoHash
  tracedGetLoop os payload.mem ⟨m.node.port, hostIp⟩ replyTo m.sortedNeighbors
    m.sortedNeighbors.len 0 m

/-- The first loop of `compare_hash` with its reads. -/
def tracedXorNodes (infoHash : List UInt8) : Nat → Nat → NodeArray → Traced NodeArray
  | 0, _, neighbors => pure neighbors
  | count + 1, i, neighbors => do
      let node ← Traced.load neighbors i
      let node ← Traced.lift (xorDistance infoHash node)
      let neighbors ← Traced.lift (neighbors.assign i node)
      tracedXorNodes infoHash count (i + 1) neighbors

/-- The inner `while` of `compare_hash` with its reads: the test, and the exchange. -/
def tracedSink : Nat → NodeArray → Traced NodeArray
  | 0, neighbors => pure neighbors
  | j + 1, neighbors => do
      let prev ← Traced.load neighbors j
      let current ← Traced.load neighbors (j + 1)
      if prev.distance > current.distance then
        let tmp ← Traced.load neighbors (j + 1)
        let prev ← Traced.load neighbors j
        let neighbors ← Traced.lift (neighbors.assign (j + 1) prev)
        let neighbors ← Traced.lift (neighbors.assign j tmp)
        tracedSink j neighbors
      else return neighbors

def tracedSort : Nat → Nat → NodeArray → Traced NodeArray
  | 0, _, neighbors => pure neighbors
  | count + 1, i, neighbors => do
      let neighbors ← tracedSink i neighbors
      tracedSort count (i + 1) neighbors

def tracedCompareHash (neighbors : NodeArray) (nCount : Nat) (infoHash : List UInt8) :
    Traced NodeArray := do
  let neighbors ← tracedXorNodes infoHash nCount 0 neighbors
  tracedSort nCount 0 neighbors

/-- The body of the first loop of `bootstrap_neigbors`, for any block of origins behind
`nodes[0]`. -/
def bootstrapNodeIn (block : List Origin) (i : Nat) (nodes : List Origin) (dst : NodeArray) :
    Except Fault (List Origin × NodeArray) := do
  match nodes[i]?, block[i]? with
  | some currentNodeOrigin, some first =>
    let newNode : NodeEntry := ⟨assignAnId, Bytes.zero inetAddrstrlen, first.port, 0⟩
    let ip ← Bytes.strcpyOver currentNodeOrigin.ip newNode.ip
    let dst ← dst.push newNode
    return (nodes.set i { currentNodeOrigin with ip := ip }, dst)
  | _, _ => .error .outOfBounds

def bootstrapLoopIn (block : List Origin) :
    Nat → Nat → List Origin → NodeArray → Except Fault (List Origin × NodeArray)
  | 0, _, nodes, dst => .ok (nodes, dst)
  | count + 1, i, nodes, dst => do
      let (nodes, dst) ← bootstrapNodeIn block i nodes dst
      bootstrapLoopIn block count (i + 1) nodes dst

/-- The loop that prints the nodes, with its reads: element i, and the first element of the
i-th pair. -/
def tracedPrint (dst : NodeArray) : Nat → Nat → Traced Unit
  | 0, _ => pure ()
  | count + 1, i => do
      Traced.peek dst i
      Traced.peek dst (initialCap * i)
      tracedPrint dst count (i + 1)

/-- `bootstrap_neigbors` with its reads of the array it fills. -/
def tracedBootstrap (block nodes : List Origin) (nCount : Nat) (dst : NodeArray) :
    Traced (List Origin × NodeArray) := do
  let (nodes, dst) ← Traced.lift (bootstrapLoopIn block nCount 0 nodes dst)
  tracedPrint dst nCount 0
  return (nodes, dst)

section Erasure

theorem tracedJoinLoop_result (os : Os) (host : Origin) (bucket : PeerBucket) (count i : Nat)
    (m : Machine) (h : i + count = bucket.len) :
    (tracedJoinLoop os host bucket count i m).result =
      joinPeersLoop os host (bucket.peers.drop i) m := by
  induction count generalizing i m with
  | zero =>
    have hnil : bucket.peers.drop i = [] := by simp [← h]
    rw [hnil]
    rfl
  | succ count ih =>
    have hi : i < bucket.array.len := by
      change i < bucket.len
      omega
    obtain ⟨x, hload, hdrop⟩ := GrowArray.load_live hi
    change bucket.peers.drop i = x :: bucket.peers.drop (i + 1) at hdrop
    rw [hdrop, tracedJoinLoop, joinPeersLoop]
    simp only [Traced.result_bind, Traced.result_load, Traced.result_lift, hload, ok_bind]
    cases Bytes.strcpy x.ip with
    | error f => rfl
    | ok ip =>
      simp only [ok_bind]
      cases callRpc os .join [] ⟨x.port, ip⟩ host m with
      | error f => rfl
      | ok r => exact ih (i + 1) r.2 (by omega)

theorem tracedJoinPeers_result (os : Os) (infoHash : Bytes idSize) (m : Machine) :
    (tracedJoinPeers os infoHash m).result = joinPeers os infoHash m := by
  rw [tracedJoinPeers, joinPeers, Traced.result_bind, Traced.result_lift]
  cases getPeerBucket m.table infoHash.mem with
  | error f => rfl
  | ok ob =>
    cases ob with
    | none => rfl
    | some b =>
      simp only [ok_bind]
      split_ifs with hl
      · rfl
      · simp only [Traced.result_bind, Traced.result_note, Traced.result_lift, ok_bind]
        cases Bytes.strcpy m.node.ip with
        | error f => rfl
        | ok ip =>
          simp only [ok_bind]
          rw [tracedJoinLoop_result _ _ _ _ _ _ (Nat.zero_add _), List.drop_zero]
          rfl

theorem tracedGetLoop_result (os : Os) (payload : List UInt8) (host replyTo : Origin)
    (neighbors : NodeArray) (count i : Nat) (m : Machine) (h : i + count = neighbors.len) :
    (tracedGetLoop os payload host replyTo neighbors count i m).result =
      getPeersLoop os payload host replyTo (neighbors.live.drop i) m := by
  induction count generalizing i m with
  | zero =>
    have hnil : neighbors.live.drop i = [] := by simp [← h]
    rw [hnil]
    rfl
  | succ count ih =>
    obtain ⟨x, hload, hdrop⟩ := @GrowArray.load_live _ _ neighbors i (by omega)
    rw [hdrop, tracedGetLoop, getPeersLoop]
    simp only [Traced.result_bind, Traced.result_load, Traced.result_lift, hload, ok_bind]
    cases strcmp x.ip.mem replyTo.ip.mem with
    | error f => rfl
    | ok r =>
      simp only [ok_bind]
      split_ifs with heq
      · exact ih (i + 1) m (by omega)
      · cases Bytes.strcpy x.ip with
        | error f => rfl
        | ok ip => rfl

theorem tracedGetPeers_result (os : Os) (infoHash : Bytes idSize) (srcAddr replyTo : Origin)
    (m : Machine) : (tracedGetPeers os infoHash srcAddr replyTo m).result =
      getPeers os infoHash srcAddr replyTo m := by
  rw [tracedGetPeers, getPeers, Traced.result_bind, Traced.result_lift]
  cases Bytes.strcpy m.node.ip with
  | error f => rfl
  | ok hostIp =>
    simp only [ok_bind, Traced.result_bind, Traced.result_lift]
    cases Bytes.strcpy srcAddr.ip with
    | error f => rfl
    | ok srcIp => exact tracedGetLoop_result _ _ _ _ _ _ _ _ (Nat.zero_add _)

theorem tracedXorNodes_result (infoHash : List UInt8) (count i : Nat) (neighbors : NodeArray) :
    (tracedXorNodes infoHash count i neighbors).result =
      xorNodes infoHash count i neighbors := by
  induction count generalizing i neighbors with
  | zero => rfl
  | succ count ih =>
    simp only [tracedXorNodes, xorNodes, Traced.result_bind, Traced.result_load,
      Traced.result_lift, ih]

theorem tracedSink_result (j : Nat) (neighbors : NodeArray) :
    (tracedSink j neighbors).result = sinkNode j neighbors := by
  induction j generalizing neighbors with
  | zero => rfl
  | succ j ih =>
    simp only [tracedSink, sinkNode, Traced.result_bind, Traced.result_load]
    cases hprev : neighbors.load j with
    | error f => rfl
    | ok prev =>
      cases hcur : neighbors.load (j + 1) with
      | error f => rfl
      | ok current =>
        simp only [ok_bind]
        split_ifs with hlt
        · simp only [Traced.result_bind, Traced.result_load, Traced.result_lift, hprev, hcur,
            ok_bind, ih]
        · rfl

theorem tracedSort_result (count i : Nat) (neighbors : NodeArray) :
    (tracedSort count i neighbors).result = sortNodes count i neighbors := by
  induction count generalizing i neighbors with
  | zero => rfl
  | succ count ih => simp only [tracedSort, sortNodes, Traced.result_bind, tracedSink_result, ih]

theorem tracedCompareHash_result (neighbors : NodeArray) (nCount : Nat) (infoHash : List UInt8) :
    (tracedCompareHash neighbors nCount infoHash).result =
      compareHash neighbors nCount infoHash := by
  simp only [tracedCompareHash, compareHash, Traced.result_bind, tracedXorNodes_result,
    tracedSort_result]

theorem tracedPrint_result (dst : NodeArray) (count i : Nat) :
    (tracedPrint dst count i).result = printNodes dst count i := by
  induction count generalizing i with
  | zero => rfl
  | succ count ih =>
    simp only [tracedPrint, printNodes, Traced.result_bind, Traced.result_peek, ih]
    by_cases hi : i < dst.cap <;> by_cases hp : initialCap * i < dst.cap <;> simp [hi, hp]

/-- Where each pointer has an origin of its own, the block behind `nodes[0]` is that one. -/
theorem bootstrapLoopIn_take (nCount : Nat) (nodes : List Origin) (dst : NodeArray) :
    bootstrapLoopIn (nodes.take 1) nCount 0 nodes dst = bootstrapLoop nCount 0 nodes dst := by
  cases nCount with
  | zero => rfl
  | succ count =>
    have hfirst : bootstrapNodeIn (nodes.take 1) 0 nodes dst = bootstrapNode 0 nodes dst := by
      cases nodes <;> rfl
    rw [bootstrapLoopIn, bootstrapLoop, hfirst]
    cases bootstrapNode 0 nodes dst with
    | error f => rfl
    | ok r =>
      cases count with
      | zero => rfl
      | succ count =>
        have hsecond : (nodes.take 1)[0 + 1]? = none := by simp
        simp only [ok_bind, bootstrapLoopIn, bootstrapLoop, bootstrapNode_second, bootstrapNodeIn,
          hsecond, error_bind]
        cases r.1[0 + 1]? <;> rfl

theorem tracedBootstrap_result (nodes : List Origin) (nCount : Nat) (dst : NodeArray) :
    (tracedBootstrap (nodes.take 1) nodes nCount dst).result =
      bootstrapNeigbors nodes nCount dst := by
  rw [tracedBootstrap, bootstrapNeigbors, Traced.result_bind, Traced.result_lift,
    bootstrapLoopIn_take]
  cases bootstrapLoop nCount 0 nodes dst with
  | error f => rfl
  | ok r =>
    simp only [ok_bind, Traced.result_bind, tracedPrint_result]
    rfl

end Erasure

section Liveness

theorem tracedJoinLoop_live (os : Os) (host : Origin) (bucket : PeerBucket) (count i : Nat)
    (m : Machine) (h : i + count ≤ bucket.len) :
    (tracedJoinLoop os host bucket count i m).Live := by
  induction count generalizing i m with
  | zero => exact Traced.Live.pure m
  | succ count ih =>
    have hi : i < bucket.array.len := by
      change i < bucket.len
      omega
    apply Traced.Live.bind (Traced.live_load.mpr hi)
    intro curPeer _
    apply Traced.Live.bind (Traced.Live.lift _)
    intro ip _
    apply Traced.Live.bind (Traced.Live.lift _)
    intro r _
    exact ih (i + 1) r.2 (by omega)

/-- The second log line of `join_peers` reads the peer at index 1. -/
theorem tracedJoinPeers_live_iff (os : Os) (infoHash : Bytes idSize) (m : Machine) :
    (tracedJoinPeers os infoHash m).Live ↔
      ∀ b, getPeerBucket m.table infoHash.mem = .ok (some b) → m.table[b].len ≠ 1 := by
  rw [tracedJoinPeers, Traced.live_bind_iff, Traced.result_lift]
  cases hb : getPeerBucket m.table infoHash.mem with
  | error f => simp [Traced.Live.lift]
  | ok ob =>
    cases ob with
    | none => simp [Traced.Live.lift, Traced.Live.pure]
    | some b =>
      have hrest (ip : Bytes inetAddrstrlen) : (do
          let m' ← tracedJoinLoop os ⟨m.node.port, ip⟩ m.table[b] m.table[b].len 0 m
          return (0, m') : Traced (Int × Machine)).Live := by
        apply Traced.Live.bind (tracedJoinLoop_live os _ _ _ _ m (Nat.zero_add _).le)
        intro m' _
        exact Traced.Live.pure _
      simp only [Traced.Live.lift, true_and, Except.ok.injEq, Option.some.injEq, forall_eq']
      split_ifs with hzero
      · have hne : m.table[b].len ≠ 1 := by
          rw [hzero]
          exact Nat.zero_ne_one
        exact iff_of_true (Traced.Live.pure _) hne
      · simp only [Traced.live_bind_iff, Traced.live_note, Traced.Live.lift, true_and]
        change (0 < m.table[b].len ∧ ∀ _, _ → 1 < m.table[b].len ∧ _) ↔ _
        constructor
        · intro h
          have hsecond := (h.2 () rfl).1
          omega
        · intro hne
          refine ⟨by omega, fun _ _ => ⟨by omega, fun _ _ ip _ => ?_⟩⟩
          exact Traced.live_bind_iff.mp (hrest ip)

theorem tracedGetLoop_live (os : Os) (payload : List UInt8) (host replyTo : Origin)
    (neighbors : NodeArray) (count i : Nat) (m : Machine) (h : i + count ≤ neighbors.len) :
    (tracedGetLoop os payload host replyTo neighbors count i m).Live := by
  induction count generalizing i with
  | zero => exact Traced.Live.pure _
  | succ count ih =>
    rw [tracedGetLoop]
    apply Traced.Live.bind (Traced.live_load.mpr (by omega))
    intro n _
    apply Traced.Live.bind (Traced.Live.lift _)
    intro c _
    split_ifs
    · exact ih (i + 1) (by omega)
    · apply Traced.Live.bind (Traced.Live.lift _)
      intro ip _
      exact Traced.Live.lift _

theorem tracedGetPeers_live (os : Os) (infoHash : Bytes idSize) (srcAddr replyTo : Origin)
    (m : Machine) : (tracedGetPeers os infoHash srcAddr replyTo m).Live := by
  apply Traced.Live.bind (Traced.Live.lift _)
  intro hostIp _
  apply Traced.Live.bind (Traced.Live.lift _)
  intro srcIp _
  exact tracedGetLoop_live os _ _ _ _ _ 0 m (Nat.zero_add _).le

theorem tracedXorNodes_live (infoHash : List UInt8) (count i : Nat) (neighbors : NodeArray)
    (h : i + count ≤ neighbors.len) : (tracedXorNodes infoHash count i neighbors).Live := by
  induction count generalizing i neighbors with
  | zero => exact Traced.Live.pure _
  | succ count ih =>
    apply Traced.Live.bind (Traced.live_load.mpr (by omega))
    intro node _
    apply Traced.Live.bind (Traced.Live.lift _)
    intro moved _
    apply Traced.Live.bind (Traced.Live.lift _)
    intro neighbors' hassign
    have hlen := GrowArray.assign_len hassign
    exact ih (i + 1) neighbors' (by omega)

theorem xorNodes_len {infoHash : List UInt8} {count i : Nat} {neighbors neighbors' : NodeArray}
    (h : xorNodes infoHash count i neighbors = .ok neighbors') :
    neighbors'.len = neighbors.len := by
  induction count generalizing i neighbors with
  | zero => rw [← Except.ok.inj h]
  | succ count ih =>
    obtain ⟨node, -, h⟩ := bind_eq_ok.mp h
    obtain ⟨moved, -, h⟩ := bind_eq_ok.mp h
    obtain ⟨next, hassign, h⟩ := bind_eq_ok.mp h
    exact (ih h).trans (GrowArray.assign_len hassign)

theorem tracedSink_live (j : Nat) (neighbors : NodeArray) (h : j < neighbors.len) :
    (tracedSink j neighbors).Live := by
  induction j generalizing neighbors with
  | zero => exact Traced.Live.pure _
  | succ j ih =>
    have hj : (Traced.load neighbors j).Live := Traced.live_load.mpr (by omega)
    have hnext : (Traced.load neighbors (j + 1)).Live := Traced.live_load.mpr h
    apply hj.bind
    intro prev _
    apply hnext.bind
    intro current _
    split_ifs
    · apply hnext.bind
      intro tmp _
      apply hj.bind
      intro prev' _
      apply Traced.Live.bind (Traced.Live.lift _)
      intro first hfirst
      apply Traced.Live.bind (Traced.Live.lift _)
      intro second hsecond
      have hlen := (GrowArray.assign_len hsecond).trans (GrowArray.assign_len hfirst)
      exact ih second (by omega)
    · exact Traced.Live.pure _

theorem tracedSort_live (count i : Nat) (neighbors : NodeArray) (h : i + count ≤ neighbors.len) :
    (tracedSort count i neighbors).Live := by
  induction count generalizing i neighbors with
  | zero => exact Traced.Live.pure _
  | succ count ih =>
    have hblock := neighbors.len_le
    apply Traced.Live.bind (tracedSink_live i neighbors (by omega))
    intro sunk hsunk
    rw [tracedSink_result, sinkNode_ok _ _ (by omega)] at hsunk
    rw [← Except.ok.inj hsunk]
    apply ih (i + 1)
    rw [GrowArray.withBlock_len]
    omega

theorem tracedCompareHash_live (neighbors : NodeArray) (nCount : Nat) (infoHash : List UInt8)
    (h : nCount ≤ neighbors.len) : (tracedCompareHash neighbors nCount infoHash).Live := by
  apply Traced.Live.bind (tracedXorNodes_live infoHash nCount 0 neighbors (by omega))
  intro moved hmoved
  rw [tracedXorNodes_result] at hmoved
  have hlen := xorNodes_len hmoved
  exact tracedSort_live nCount 0 moved (by omega)

/-- The loop that prints reads the first element of every pair up to `count`. -/
theorem tracedPrint_live_iff (dst : NodeArray) (count i : Nat) :
    (tracedPrint dst count i).Live ↔ ∀ j, i ≤ j → j < i + count → initialCap * j < dst.len := by
  induction count generalizing i with
  | zero =>
    simp only [tracedPrint, Traced.Live.pure, true_iff]
    intro j hle hlt
    omega
  | succ count ih =>
    have hcap := dst.len_le_cap
    simp only [tracedPrint, Traced.live_bind_iff, Traced.live_peek, Traced.result_peek, ih]
    unfold initialCap
    constructor
    · intro ⟨hi, hrest⟩ j hle hlt
      obtain ⟨hpair, hrest⟩ := hrest () (if_pos (by omega))
      by_cases hji : j = i
      · rwa [hji]
      · exact hrest () (if_pos (by omega)) j (by omega) (by omega)
    · intro h
      have hpair := h i (Nat.le_refl i) (by omega)
      refine ⟨by omega, fun _ _ => ⟨hpair, fun _ _ j hle hlt => ?_⟩⟩
      exact h j (by omega) (by omega)

theorem bootstrapNodeIn_eq (block nodes : List Origin) (i : Nat) (dst : NodeArray)
    (hi : i < nodes.length) (hb : i < block.length) :
    bootstrapNodeIn block i nodes dst = (dst.push (bootEntry block[i]) >>= fun dst' =>
      .ok (nodes.set i { nodes[i] with ip := nodes[i].ip.write 0 [0] }, dst')) := by
  have hzero : Terminated (Bytes.zero inetAddrstrlen).mem := by decide
  have hstr : (Bytes.zero inetAddrstrlen).str = [] := by decide
  simp only [bootstrapNodeIn, List.getElem?_eq_getElem hi, List.getElem?_eq_getElem hb,
    Bytes.strcpyOver, if_pos hzero, hstr, List.nil_append, ok_bind, pure_eq_ok, bootEntry]

/-- The first loop gets through when the block behind `nodes[0]` is long enough and the array
can grow. -/
theorem bootstrapLoopIn_ok_iff (block : List Origin) (count i : Nat) (nodes : List Origin)
    (dst : NodeArray) (h : i + count ≤ nodes.length) :
    (∃ r, bootstrapLoopIn block count i nodes dst = .ok r) ↔
      (count = 0 ∨ i + count ≤ block.length) ∧ dst.Room count := by
  induction count generalizing i nodes dst with
  | zero => simp [bootstrapLoopIn, GrowArray.room_zero]
  | succ count ih =>
    have hi : i < nodes.length := by omega
    simp only [bootstrapLoopIn, Nat.succ_ne_zero, false_or]
    by_cases hb : i < block.length
    · rw [bootstrapNodeIn_eq block nodes i dst hi hb]
      cases hpush : dst.push (bootEntry block[i]) with
      | error f =>
        simp only [error_bind, reduceCtorEq, exists_false, false_iff]
        intro hroom
        obtain ⟨dst', hdst⟩ := GrowArray.push_of_room (bootEntry block[i]) hroom.2
        cases hpush.symm.trans hdst
      | ok dst' =>
        simp only [ok_bind]
        rw [ih (i + 1) _ dst' (by rw [List.length_set]; omega), GrowArray.room_push hpush]
        apply and_congr_left
        intro _
        omega
    · have hnone : block[i]? = none := List.getElem?_eq_none (by omega)
      simp only [bootstrapNodeIn, hnone]
      apply iff_of_false
      · intro hrun
        obtain ⟨r, hr⟩ := hrun
        cases hget : nodes[i]? <;> simp [hget, error_bind] at hr
      · intro hlong
        have hlen := hlong.1
        omega

theorem bootstrapLoopIn_len {block : List Origin} {count i : Nat} {nodes : List Origin}
    {dst : NodeArray} {r : List Origin × NodeArray}
    (h : bootstrapLoopIn block count i nodes dst = .ok r) : r.2.len = dst.len + count := by
  induction count generalizing i nodes dst with
  | zero =>
    rw [← Except.ok.inj h]
    rfl
  | succ count ih =>
    obtain ⟨next, hnode, h⟩ := bind_eq_ok.mp h
    have hnext : next.2.len = dst.len + 1 := by
      unfold bootstrapNodeIn at hnode
      split at hnode
      · obtain ⟨ip, -, hnode⟩ := bind_eq_ok.mp hnode
        obtain ⟨dst', hpush, hnode⟩ := bind_eq_ok.mp hnode
        rw [← Except.ok.inj hnode]
        exact GrowArray.push_len hpush
      · cases hnode
    have hrest := ih h
    omega

/-- Of `count` nodes in an array of that length, the loop that prints reads live ones only when
there is at most one. -/
theorem tracedPrint_all_live_iff (dst : NodeArray) : (tracedPrint dst dst.len 0).Live ↔
    dst.len ≤ 1 := by
  rw [tracedPrint_live_iff]
  unfold initialCap
  constructor
  · intro h
    by_contra hmany
    have hlast := h (dst.len - 1) (Nat.zero_le _) (by omega)
    omega
  · intro hle j _ hlt
    omega

theorem tracedBootstrap_live_iff (block nodes : List Origin) (dst : NodeArray)
    (hempty : dst.len = 0) : (tracedBootstrap block nodes nodes.length dst).Live ↔
      nodes.length ≤ 1 ∨ block.length < nodes.length ∨ ¬ dst.Room nodes.length := by
  have hok := bootstrapLoopIn_ok_iff block nodes.length 0 nodes dst (Nat.zero_add _).le
  rw [tracedBootstrap, Traced.live_bind_iff, Traced.result_lift]
  by_cases hthrough : (nodes.length = 0 ∨ 0 + nodes.length ≤ block.length) ∧
      dst.Room nodes.length
  · obtain ⟨r, hr⟩ := hok.mpr hthrough
    have hlen : nodes.length = r.2.len := by
      rw [bootstrapLoopIn_len hr, hempty, Nat.zero_add]
    have hrest : (¬ (block.length < nodes.length ∨ ¬ dst.Room nodes.length)) ∨
        nodes.length ≤ 1 := by
      by_cases hzero : nodes.length = 0
      · exact Or.inr (by omega)
      · exact Or.inl (by simp only [hthrough.2, not_true, or_false]; omega)
    simp only [hr, Traced.Live.lift, true_and, Except.ok.injEq, forall_eq',
      Traced.live_bind_iff, Traced.Live.pure, implies_true, and_true]
    rw [hlen, tracedPrint_all_live_iff, ← hlen]
    tauto
  · have hnone : ∀ r, bootstrapLoopIn block nodes.length 0 nodes dst ≠ .ok r := by
      intro r hr
      exact hthrough (hok.mp ⟨r, hr⟩)
    have hleft : nodes.length ≤ 1 ∨ block.length < nodes.length ∨ ¬ dst.Room nodes.length := by
      by_cases hroom : dst.Room nodes.length
      · refine Or.inr (Or.inl ?_)
        by_contra hlong
        exact hthrough ⟨Or.inr (by omega), hroom⟩
      · exact Or.inr (Or.inr hroom)
    exact iff_of_true ⟨Traced.Live.lift _, fun r hr => absurd hr (hnone r)⟩ hleft

/-- A node that was bootstrapped with two neighbours. -/
def twoHosts : Machine :=
  { aloneNode with
    sortedNeighbors := ⟨initialCap, 2, [bootEntry localOrigin, bootEntry localOrigin], by decide,
      by decide, initialCap_pos, initialCap_nodes⟩ }

/-- The four consumers read live elements only: joining unless the bucket holds a single peer,
bootstrapping unless it prints two nodes or more, the other two always. -/
theorem consumers_read_live (os : Os) (infoHash : Bytes idSize) (srcAddr replyTo : Origin)
    (m : Machine) (neighbors dst : NodeArray) (nCount : Nat) (hash : List UInt8)
    (block nodes : List Origin) (hcount : nCount ≤ neighbors.len) (hempty : dst.len = 0) :
    ((tracedJoinPeers os infoHash m).Live ↔
      ∀ b, getPeerBucket m.table infoHash.mem = .ok (some b) → m.table[b].len ≠ 1) ∧
    (tracedGetPeers os infoHash srcAddr replyTo m).Live ∧
    (tracedCompareHash neighbors nCount hash).Live ∧
    ((tracedBootstrap block nodes nodes.length dst).Live ↔
      nodes.length ≤ 1 ∨ block.length < nodes.length ∨ ¬ dst.Room nodes.length) :=
  ⟨tracedJoinPeers_live_iff os infoHash m, tracedGetPeers_live os infoHash srcAddr replyTo m,
    tracedCompareHash_live neighbors nCount hash hcount,
    tracedBootstrap_live_iff block nodes dst hempty⟩

/-- Two neighbours are sorted, one of them is asked, two peers are joined and one origin is
bootstrapped, all by live reads. -/
theorem consumers_read_live_two : ∃ t, setPeers (initPeerTable fun _ => .zeroed)
      [(fileHash.mem, somePeer), (fileHash.mem, somePeer)] = .ok t ∧
    (tracedJoinPeers sendingOs fileHash (twoHosts.setTable t)).Live ∧
    (tracedGetPeers sendingOs fileHash localOrigin localOrigin (twoHosts.setTable t)).Live ∧
    (tracedCompareHash twoHosts.sortedNeighbors 2 fileHash.mem).Live ∧
    (tracedBootstrap [localOrigin] [localOrigin] 1 newNodeArray).Live := by
  have hhash : Terminated fileHash.mem := by decide
  obtain ⟨t, ht⟩ := setPeers_key_total initPeerTable_inv hhash [somePeer, somePeer] (by
    rw [initPeerTable_len]
    decide)
  obtain ⟨hinv, happ⟩ := setPeers_key_ok initPeerTable_inv ht
  obtain ⟨hjoin, hget, hcompare, hboot⟩ := consumers_read_live sendingOs fileHash localOrigin
    localOrigin (twoHosts.setTable t) twoHosts.sortedNeighbors newNodeArray 2 fileHash.mem
    [localOrigin] [localOrigin] (by decide) rfl
  refine ⟨t, ht, hjoin.mpr ?_, hget, hcompare, hboot.mpr (Or.inl (Nat.le_refl 1))⟩
  intro b hb
  obtain rfl := Option.some.inj (getPeerBucket_ok hinv hb)
  have htwo : t[homeOf (chars fileHash.mem)].peers = [somePeer, somePeer] := by
    rw [happ.home, initPeerTable_peers]
    rfl
  show t[homeOf (chars fileHash.mem)].len ≠ 1
  rw [← PeerBucket.peers_length, htwo]
  decide

/-- After one call of `set_peer` on a fresh table, `join_peers` logs a peer that was never
stored; after two nodes from one block, `bootstrap_neigbors` logs a third. -/
theorem logged_past_len :
    (∃ t, setPeer (initPeerTable fun _ => .zeroed) fileHash.mem somePeer = .ok t ∧
      ¬ (tracedJoinPeers sendingOs fileHash (aloneNode.setTable t)).Live) ∧
    ¬ (tracedBootstrap [localOrigin, localOrigin] [localOrigin, localOrigin] 2
      newNodeArray).Live := by
  constructor
  · have hhash : Terminated fileHash.mem := by decide
    have hempty := initPeerTable_len (fun _ => .zeroed) (homeOf (chars fileHash.mem))
    obtain ⟨t, ht⟩ := setPeer_total initPeerTable_inv hhash somePeer (by rw [hempty]; decide)
    obtain ⟨-, hinv, happ⟩ := setPeer_ok initPeerTable_inv ht
    refine ⟨t, ht, ?_⟩
    rw [tracedJoinPeers_live_iff]
    intro h
    have hone : t[homeOf (chars fileHash.mem)].len = 1 := by
      rw [← PeerBucket.peers_length, happ.home, initPeerTable_peers]
      rfl
    exact h _ (getPeerBucket_inv hinv hhash) hone
  · decide

end Liveness

end PeerToPeer
