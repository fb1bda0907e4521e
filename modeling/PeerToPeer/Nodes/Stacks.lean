import PeerToPeer.CLib.Stack
import PeerToPeer.Nodes.Bootstrap

namespace PeerToPeer

open CLib

/-- `(peer_t){0}` -/
def Peer.zero : Peer := ⟨Bytes.zero inetAddrstrlen, 0, Bytes.zero 16, Bytes.zero 2, 0⟩

/-- `(node_t){0}` -/
def NodeEntry.zero : NodeEntry := ⟨Bytes.zero idSize, Bytes.zero inetAddrstrlen, 0, 0⟩

def popPeer (dArr : PeerBucket) (peerBuf : Peer) : Except Fault (PeerBucket × Peer) := do
  let (array, peerBuf) ← dArr.array.pop Peer.zero peerBuf
  return ({ dArr with array := array }, peerBuf)

def pushNode (dArr : NodeArray) (data : NodeEntry) : Except Fault NodeArray := dArr.push data

def popNode (dArr : NodeArray) (peerBuf : NodeEntry) : Except Fault (NodeArray × NodeEntry) :=
  dArr.pop NodeEntry.zero peerBuf

/-- A sequence of `push_peer` and `pop_peer` calls, the pops into one buffer. -/
def usePeers : List (StackOp Peer) → PeerBucket × Peer → Except Fault (PeerBucket × Peer)
  | [], s => .ok s
  | .push data :: ops, (dArr, peerBuf) => do
      let dArr ← pushPeer dArr data
      usePeers ops (dArr, peerBuf)
  | .pop :: ops, (dArr, peerBuf) => do
      let s ← popPeer dArr peerBuf
      usePeers ops s

/-- A sequence of `push_node` and `pop_node` calls, the pops into one buffer. -/
def useNodes : List (StackOp NodeEntry) → NodeArray × NodeEntry →
    Except Fault (NodeArray × NodeEntry)
  | [], s => .ok s
  | .push data :: ops, (dArr, peerBuf) => do
      let dArr ← pushNode dArr data
      useNodes ops (dArr, peerBuf)
  | .pop :: ops, (dArr, peerBuf) => do
      let s ← popNode dArr peerBuf
      useNodes ops s

theorem usePeers_eq (ops : List (StackOp Peer)) (b : PeerBucket) (buf : Peer) :
    usePeers ops (b, buf) = (GrowArray.applyAll Peer.zero ops (b.array, buf)).map
      fun s => ({ b with array := s.1 }, s.2) := by
  induction ops generalizing b buf with
  | nil => rfl
  | cons op ops ih =>
    cases op with
    | push data =>
      rw [usePeers, pushPeer, GrowArray.applyAll, GrowArray.apply]
      cases b.array.push data with
      | error f => rfl
      | ok array => exact ih { b with array := array } buf
    | pop =>
      rw [usePeers, popPeer, GrowArray.applyAll, GrowArray.apply]
      cases b.array.pop Peer.zero buf with
      | error f => rfl
      | ok s => exact ih { b with array := s.1 } s.2

theorem useNodes_eq (ops : List (StackOp NodeEntry)) (s : NodeArray × NodeEntry) :
    useNodes ops s = GrowArray.applyAll NodeEntry.zero ops s := by
  induction ops generalizing s with
  | nil => rfl
  | cons op ops ih =>
    cases op with
    | push data =>
      rw [useNodes, pushNode, GrowArray.applyAll, GrowArray.apply]
      cases s.1.push data with
      | error f => rfl
      | ok array => exact ih (array, s.2)
    | pop =>
      rw [useNodes, popNode, GrowArray.applyAll, GrowArray.apply]
      cases s.1.pop NodeEntry.zero s.2 with
      | error f => rfl
      | ok s' => exact ih s'

/-- What an array and the buffer of its pops are after the operations `ops`. -/
structure StackLike {α : Type} {size : Nat} (ops : List (StackOp α)) (buf : α)
    (s : GrowArray α size × α) : Prop where
  contents : (s.1.live, s.2) = StackOp.onAll ops ([], buf)
  cap : IsLeast (Capacities initialCap (StackOp.heights ops ([], buf))) s.1.cap
  bytes : s.1.resizeBytes = s.1.cap * size * 2
  doubled : s.1.cap * 2 % sizeMod = s.1.cap * 2

/-- The lengths ask for more than a block can have. -/
def TooLarge {α : Type} (size : Nat) (ops : List (StackOp α)) (buf : α) : Prop :=
  ∀ n ∈ Capacities initialCap (StackOp.heights ops ([], buf)), ptrdiffMax < n * size

theorem initialCap_least : IsLeast (Capacities initialCap []) initialCap :=
  ⟨⟨⟨1, rfl⟩, Nat.le_refl _, fun _ h => absurd h List.not_mem_nil⟩, fun _ hn => hn.2.1⟩

section Fresh

variable {α : Type} {size : Nat} [NeZero size] {zero buf : α} {ops : List (StackOp α)}
  {new : GrowArray α size} (hcap : new.cap = initialCap) (hlive : new.live = [])

include hcap hlive

theorem fresh_fault {f : Fault} (h : GrowArray.applyAll zero ops (new, buf) = .error f) :
    f = .exit 1 ∧ TooLarge size ops buf := by
  have hleast : IsLeast (Capacities initialCap []) (new, buf).1.cap := hcap ▸ initialCap_least
  have hf := GrowArray.applyAll_fault hleast h
  rwa [hlive, List.nil_append] at hf

theorem fresh_ok {s : GrowArray α size × α} (h : GrowArray.applyAll zero ops (new, buf) = .ok s) :
    StackLike ops buf s := by
  have hleast : IsLeast (Capacities initialCap []) (new, buf).1.cap := hcap ▸ initialCap_least
  have hs := GrowArray.applyAll_ok hleast h
  rw [hlive, List.nil_append] at hs
  exact ⟨hs.1, hs.2, s.1.resizeBytes_eq, s.1.doubled_cap⟩

end Fresh

theorem popPeer_empty {b : PeerBucket} (h : b.len = 0) (x : Peer) : popPeer b x = .ok (b, x) := by
  rw [popPeer, GrowArray.pop_empty _ _ h]
  rfl

/-- The arrays are stacks of exactly the capacity their longest state asks for. No write leaves
the block: a run that fails was refused a block larger than any can be. -/
theorem arrays_are_stacks :
    (∀ (mem : BucketMemory) (ops : List (StackOp Peer)) (buf : Peer),
      (∀ f, usePeers ops (newPeerArray mem, buf) = .error f →
        f = .exit 1 ∧ TooLarge sizeofPeer ops buf) ∧
      ∀ b buf', usePeers ops (newPeerArray mem, buf) = .ok (b, buf') →
        StackLike ops buf (b.array, buf') ∧ (b.len = 0 → ∀ x, popPeer b x = .ok (b, x))) ∧
    ∀ (ops : List (StackOp NodeEntry)) (buf : NodeEntry),
      (∀ f, useNodes ops (newNodeArray, buf) = .error f →
        f = .exit 1 ∧ TooLarge sizeofNode ops buf) ∧
      ∀ a buf', useNodes ops (newNodeArray, buf) = .ok (a, buf') →
        StackLike ops buf (a, buf') ∧ (a.len = 0 → ∀ x, popNode a x = .ok (a, x)) := by
  constructor
  · intro mem ops buf
    rw [usePeers_eq]
    constructor
    · intro f h
      cases hrun : GrowArray.applyAll Peer.zero ops ((newPeerArray mem).array, buf) with
      | ok s => simp [hrun, Except.map] at h
      | error e =>
        obtain rfl : e = f := by simpa [hrun, Except.map] using h
        exact fresh_fault rfl rfl hrun
    · intro b buf' h
      cases hrun : GrowArray.applyAll Peer.zero ops ((newPeerArray mem).array, buf) with
      | error e => simp [hrun, Except.map] at h
      | ok s =>
        rw [hrun] at h
        obtain ⟨rfl, rfl⟩ := ok_pair_inj h
        exact ⟨fresh_ok rfl rfl hrun, popPeer_empty⟩
  · intro ops buf
    rw [useNodes_eq]
    constructor
    · intro f h
      exact fresh_fault rfl rfl h
    · intro a buf' h
      exact ⟨fresh_ok rfl rfl h, fun hz x => GrowArray.pop_empty _ x hz⟩

/-- Three pushes and two pops leave the first element, and the second in the buffer. -/
example (x y z : NodeEntry) : StackOp.onAll [.push x, .push y, .push z, .pop, .pop] ([], z) =
    ([x], y) := rfl

end PeerToPeer
