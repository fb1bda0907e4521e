import PeerToPeer.Rpc.Send

namespace PeerToPeer

open CLib

/-- `"Assign an ID"` -/
def assignAnId : Bytes idSize :=
  Bytes.padded idSize [65, 115, 115, 105, 103, 110, 32, 97, 110, 32, 73, 68]

/-- `(*nodes)[i]`: the i-th origin of the block that `nodes[0]` points to. Each block holds
one origin. -/
def firstBlock (nodes : List Origin) (i : Nat) : Except Fault Origin :=
  match nodes with
  | [] => .error .outOfBounds
  | o :: _ => if i = 0 then .ok o else .error .outOfBounds

/-- The body of the first loop; `nodes` are the origins that the pointers point to. Its
`strcpy` goes from the new node to the origin. -/
def bootstrapNode (i : Nat) (nodes : List Origin) (dst : NodeArray) :
    Except Fault (List Origin × NodeArray) := do
  match nodes[i]? with
  | none => .error .outOfBounds
  | some currentNodeOrigin =>
    let first ← firstBlock nodes i
    let newNode : NodeEntry := ⟨assignAnId, Bytes.zero inetAddrstrlen, first.port, 0⟩
    let ip ← Bytes.strcpyOver currentNodeOrigin.ip newNode.ip
    let dst ← dst.push newNode
    return (nodes.set i { currentNodeOrigin with ip := ip }, dst)

/-- `count` passes of the first loop, from index `i` on. -/
def bootstrapLoop : Nat → Nat → List Origin → NodeArray → Except Fault (List Origin × NodeArray)
  | 0, _, nodes, dst => .ok (nodes, dst)
  | count + 1, i, nodes, dst => do
      let (nodes, dst) ← bootstrapNode i nodes dst
      bootstrapLoop count (i + 1) nodes dst

/-- The loop that prints the nodes: `(*dst->data)[i]` is element i, `*dst->data[i]` is the
first element of the i-th pair. -/
def printNodes (dst : NodeArray) : Nat → Nat → Except Fault Unit
  | 0, _ => .ok ()
  | count + 1, i =>
      if i < dst.cap ∧ initialCap * i < dst.cap then printNodes dst count (i + 1)
      else .error .outOfBounds

def bootstrapNeigbors (nodes : List Origin) (nCount : Nat) (dst : NodeArray) :
    Except Fault (List Origin × NodeArray) := do
  let (nodes, dst) ← bootstrapLoop nCount 0 nodes dst
  printNodes dst nCount 0
  return (nodes, dst)

/-- What bootstrapping owes its caller. -/
structure Bootstrapped (nodes nodes' : List Origin) (dst dst' : NodeArray) : Prop where
  len : dst'.len = dst.len + nodes.length
  kept : dst'.live.take dst.len = dst.live
  copied : ∀ k (h : k < nodes.length), ∃ n, dst'.live[dst.len + k]? = some n ∧
    n.addr = nodes[k].addr ∧ n.distance = 0
  unchanged : nodes' = nodes

/-- `bootstrap_neigbors` copies every origin. -/
def BootstrapsAll (nodes : List Origin) (dst : NodeArray) : Prop :=
  ∃ nodes' dst', bootstrapNeigbors nodes nodes.length dst = .ok (nodes', dst') ∧
    Bootstrapped nodes nodes' dst dst'

/-- `(*nodes)[1]` lies outside the first origin. -/
theorem bootstrapNode_second (nodes : List Origin) (dst : NodeArray) (i : Nat) :
    bootstrapNode (i + 1) nodes dst = .error .outOfBounds := by
  rw [bootstrapNode]
  cases nodes with
  | nil => rfl
  | cons o rest => cases (o :: rest)[i + 1]? <;> rfl

theorem bootstrapsAll_nil (dst : NodeArray) : BootstrapsAll [] dst := by
  refine ⟨[], dst, rfl, rfl, ?_, fun k h => absurd h (Nat.not_lt_zero k), rfl⟩
  rw [← GrowArray.live_length, List.take_length]

/-- From the second origin on nothing is copied. -/
theorem bootstrapNeigbors_two (o o' : Origin) (rest : List Origin) (dst : NodeArray) (r) :
    bootstrapNeigbors (o :: o' :: rest) (o :: o' :: rest).length dst ≠ .ok r := by
  intro h
  obtain ⟨x, hx, -⟩ := bind_eq_ok.mp h
  obtain ⟨y, -, hy⟩ := bind_eq_ok.mp hx
  obtain ⟨z, hz, -⟩ := bind_eq_ok.mp hy
  rw [bootstrapNode_second] at hz
  cases hz

/-- The entry made for an origin: its port, and an empty ip. -/
def bootEntry (o : Origin) : NodeEntry := ⟨assignAnId, Bytes.zero inetAddrstrlen, o.port, 0⟩

theorem bootstrapNode_first (o : Origin) (dst : NodeArray) :
    bootstrapNode 0 [o] dst = (dst.push (bootEntry o) >>= fun dst' =>
      .ok ([{ o with ip := o.ip.write 0 [0] }], dst')) := by
  have hzero : Terminated (Bytes.zero inetAddrstrlen).mem := by decide
  have hstr : (Bytes.zero inetAddrstrlen).str = [] := by decide
  simp only [bootstrapNode, firstBlock, Bytes.strcpyOver, if_pos hzero, hstr, List.nil_append,
    List.getElem?_cons_zero, if_true, ok_bind, pure_eq_ok, bootEntry, List.set_cons_zero]

theorem printNodes_first (dst : NodeArray) : printNodes dst 1 0 = .ok () := by
  rw [printNodes, Nat.mul_zero, if_pos ⟨dst.cap_pos, dst.cap_pos⟩]
  rfl

/-- One origin: the entry gets its port, and the origin loses its ip. -/
theorem bootstrapNeigbors_one (o : Origin) (dst : NodeArray) :
    bootstrapNeigbors [o] 1 dst = (dst.push (bootEntry o) >>= fun dst' =>
      .ok ([{ o with ip := o.ip.write 0 [0] }], dst')) := by
  rw [bootstrapNeigbors, bootstrapLoop, bootstrapNode_first]
  cases dst.push (bootEntry o) with
  | error f => rfl
  | ok dst' =>
    simp only [ok_bind, bootstrapLoop, printNodes_first, pure_eq_ok]

theorem write_nul_eq {n : Nat} {b : Bytes n} (h : b.str = []) : b.write 0 [0] = b := by
  apply Vector.ext
  intro i hi
  rw [Bytes.getElem_write, if_pos (Nat.zero_le i), Nat.sub_zero]
  cases i with
  | zero =>
    have hfirst := List.takeWhile_eq_nil_iff.mp h (by simpa using hi)
    have h0 : b[0] = 0 := by simpa using hfirst
    rw [h0]
    rfl
  | succ i => rfl

/-- One origin is copied exactly when its ip is the empty string and the array can take it. -/
theorem bootstrapsAll_one (o : Origin) (dst : NodeArray) :
    BootstrapsAll [o] dst ↔
      o.ip.str = [] ∧ (dst.len < dst.cap ∨ dst.cap * sizeofNode * 2 ≤ ptrdiffMax) := by
  rw [← GrowArray.push_ok_iff dst (bootEntry o)]
  constructor
  · rintro ⟨nodes', dst', h, hboot⟩
    change bootstrapNeigbors [o] 1 dst = _ at h
    rw [bootstrapNeigbors_one] at h
    obtain ⟨arr, hpush, h⟩ := bind_eq_ok.mp h
    obtain ⟨-, rfl⟩ := ok_pair_inj h
    refine ⟨?_, arr, hpush⟩
    obtain ⟨n, hn, haddr, -⟩ := hboot.copied 0 Nat.one_pos
    rw [GrowArray.push_live hpush, Nat.add_zero, ← GrowArray.live_length,
      List.getElem?_concat_length] at hn
    obtain rfl := Option.some.inj hn
    have hempty : (Bytes.zero inetAddrstrlen).str = [] := by decide
    have hip : (bootEntry o).ip.str = o.ip.str := congrArg Prod.fst haddr
    exact hip.symm.trans hempty
  · rintro ⟨hip, arr, hpush⟩
    have hlive := GrowArray.push_live hpush
    have hlen : arr.len = dst.len + 1 := by
      rw [← GrowArray.live_length, hlive, List.length_append, GrowArray.live_length]
      rfl
    refine ⟨[o], arr, ?_, hlen, ?_, ?_, rfl⟩
    · change bootstrapNeigbors [o] 1 dst = _
      rw [bootstrapNeigbors_one, hpush, ok_bind, write_nul_eq hip]
    · rw [hlive, ← GrowArray.live_length, List.take_left]
    · intro k hk
      obtain rfl := Nat.lt_one_iff.mp hk
      refine ⟨bootEntry o, ?_, ?_, rfl⟩
      · rw [hlive, Nat.add_zero, ← GrowArray.live_length, List.getElem?_concat_length]
      · have hempty : (Bytes.zero inetAddrstrlen).str = [] := by decide
        rw [NodeEntry.addr, Origin.addr, List.getElem_cons_zero, hip, bootEntry, hempty]

/-- `bootstrap_neigbors` does what it owes for no origin at all, and for a single one with an
empty ip when the array can take it. -/
theorem bootstrapsAll_iff (nodes : List Origin) (dst : NodeArray) :
    BootstrapsAll nodes dst ↔ nodes = [] ∨ ∃ o, nodes = [o] ∧ o.ip.str = [] ∧
      (dst.len < dst.cap ∨ dst.cap * sizeofNode * 2 ≤ ptrdiffMax) := by
  cases nodes with
  | nil => exact iff_of_true (bootstrapsAll_nil dst) (Or.inl rfl)
  | cons o rest =>
    cases rest with
    | nil => simp [bootstrapsAll_one]
    | cons o' rest =>
      refine iff_of_false ?_ (by simp)
      rintro ⟨nodes', dst', h, -⟩
      exact bootstrapNeigbors_two o o' rest dst _ h

/-- The local host at port 3001. -/
def localOrigin : Origin := ⟨3001, Bytes.padded inetAddrstrlen [49, 50, 55, 46, 48, 46, 48, 46, 49]⟩

def newNodeArray : NodeArray := GrowArray.new initialCap initialCap_pos initialCap_nodes

/-- Bootstrapping one neighbour returns, stores it without an ip and erases the ip of its
origin. -/
theorem neighbor_ip_lost : ∃ o dst',
    bootstrapNeigbors [localOrigin] 1 newNodeArray = .ok ([o], dst') ∧
      dst'.live = [bootEntry localOrigin] ∧ (bootEntry localOrigin).ip.str = [] ∧
      o.ip.str = [] ∧ localOrigin.ip.str ≠ [] ∧ ¬ BootstrapsAll [localOrigin] newNodeArray := by
  obtain ⟨arr, hpush⟩ := (GrowArray.push_ok_iff newNodeArray (bootEntry localOrigin)).mpr
    (Or.inl (by decide))
  have hip : localOrigin.ip.str ≠ [] := by decide
  refine ⟨{ localOrigin with ip := localOrigin.ip.write 0 [0] }, arr, ?_,
    GrowArray.push_live hpush, by decide, by decide, hip, ?_⟩
  · rw [bootstrapNeigbors_one, hpush, ok_bind]
  · intro hall
    exact hip ((bootstrapsAll_one localOrigin newNodeArray).mp hall).1

end PeerToPeer
