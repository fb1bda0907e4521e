import PeerToPeer.Client.Joining
import PeerToPeer.Nodes.Bootstrap
import PeerToPeer.Parsing.Document

namespace PeerToPeer

open CLib Parsing

/-- `"localhost"`, in the field of a node. -/
def localhost : Bytes inetAddrstrlen :=
  Bytes.padded inetAddrstrlen [108, 111, 99, 97, 108, 104, 111, 115, 116]

/-- The origins behind the pointers of a descriptor, up to the first pointer that was never
assigned. -/
def DesciptorFile.origins (file : DesciptorFile) : List Origin :=
  (file.nodes.takeWhile Option.isSome).reduceOption

/-- What the loop of the client works with: its node, the hash of the file, and the bucket whose
length it reports. -/
structure Running where
  machine : Machine
  fileHash : Bytes idSize
  peerBucketBuf : Option (Fin maxPeerBuckets)

/-- `main` from the descriptor to its loop, on a socket that is bound to `hostPort`. -/
def enterLoop (os : Os) (bucketMemory : Fin maxPeerBuckets → BucketMemory) (hostPort : Int32)
    (file : DesciptorFile) : Except Fault Running := do
  let (_, neighboringNodes) ← bootstrapNeigbors file.origins file.nodeLen.toNat newNodeArray
  let node : Node := ⟨localhost, hostPort.toUInt32.toUInt16, initPeerTable bucketMemory⟩
  let ip ← Bytes.strcpy node.ip
  let absoluteAddress : Origin := ⟨node.port, ip⟩
  let (_, m) ← getPeers os file.fileHash absoluteAddress absoluteAddress
    ⟨node, neighboringNodes, true, []⟩
  let peerBucketBuf ← getPeerBucket m.table file.fileHash.mem
  return ⟨m, file.fileHash, peerBucketBuf⟩

/-- `main` of the client up to its loop; `none` when it returns before. -/
def clientMain (cJSON : List UInt8 → Option Json) (mem : DescriptorMemory) (disk : OnDisk) (os : Os)
    (bucketMemory : Fin maxPeerBuckets → BucketMemory) (hostPort : Int32) :
    Except Fault (Option Running) := do
  match ← startClient cJSON mem disk with
  | none => return none
  | some file =>
    let running ← enterLoop os bucketMemory hostPort file
    return some running

/-- What bootstrapping makes of a node of the descriptor: the ip is lost. -/
def bootNeighbor (node : CString × Int32) : NodeEntry :=
  ⟨assignAnId, Bytes.zero inetAddrstrlen, node.2.toUInt32.toUInt16, 0⟩

/-- The client at the start of its loop, as its descriptor has it: nobody joined and no peer known,
its own address the local host, and its one neighbour, if the descriptor lists any, asked for the
peers of the file. -/
structure Entered (desc : Descriptor) (hostPort : Int32) (c : Running) : Prop where
  started : Client.Started ⟨c.machine, []⟩
  hash : Terminated c.fileHash.mem ∧ c.fileHash.str = desc.hashKey.chars
  bucket : c.peerBucketBuf = some (homeOf desc.hashKey.chars)
  self : c.machine.node.addr = (localhost.str, hostPort.toUInt32.toUInt16)
  neighbors : c.machine.sortedNeighbors.live = desc.nodes.map bootNeighbor
  asked : c.machine.sends.map (·.dest.addr) = desc.nodes.map fun node => (bootNeighbor node).addr
  calls : ∀ x ∈ c.machine.sends, IsCall (decodeHeader x.msg) .getPeers ∧
    askedHash x.msg = c.fileHash ∧ x.msg.replyTo.addr = c.machine.node.addr ∧
    (decodeSrc (decodeHeader x.msg).body).addr = c.machine.node.addr

theorem localhost_terminated : Terminated localhost.mem := by decide

theorem bootNeighbor_terminated (node : CString × Int32) :
    Terminated (bootNeighbor node).ip.mem := by
  show Terminated (Bytes.zero inetAddrstrlen).mem
  decide

section Bootstrap

variable {desc : Descriptor} {file : DesciptorFile}

/-- The first origin is all that one pass of the loop touches. -/
theorem bootstrapNeigbors_first (o : Origin) (rest : List Origin) : ∃ dst nodes,
    bootstrapNeigbors (o :: rest) 1 newNodeArray = .ok (nodes, dst) ∧ dst.live = [bootEntry o] := by
  have hzero : Terminated (Bytes.zero inetAddrstrlen).mem := by decide
  have hstr : (Bytes.zero inetAddrstrlen).str = [] := by decide
  have hroom : newNodeArray.len < newNodeArray.cap := by decide
  obtain ⟨dst, hpush⟩ := (GrowArray.push_ok_iff newNodeArray (bootEntry o)).mpr (.inl hroom)
  have hbody : bootstrapNode 0 (o :: rest) newNodeArray =
      .ok ({ o with ip := o.ip.write 0 [0] } :: rest, dst) := by
    simp only [bootstrapNode, firstBlock, Bytes.strcpyOver, if_pos hzero, hstr, List.nil_append,
      List.getElem?_cons_zero, if_true, ok_bind, pure_eq_ok, List.set_cons_zero]
    change (newNodeArray.push (bootEntry o) >>= _) = _
    rw [hpush]
    rfl
  refine ⟨dst, { o with ip := o.ip.write 0 [0] } :: rest, ?_, GrowArray.push_live hpush⟩
  rw [bootstrapNeigbors, bootstrapLoop, hbody]
  simp only [ok_bind, bootstrapLoop, printNodes_first, pure_eq_ok]

/-- A node of the descriptor or none becomes a neighbour. -/
theorem bootstrap_holds (hholds : Holds desc file) (hfew : desc.nodes.length ≤ 1) : ∃ dst nodes,
    bootstrapNeigbors file.origins file.nodeLen.toNat newNodeArray = .ok (nodes, dst) ∧
      dst.live = desc.nodes.map bootNeighbor := by
  rw [hholds.nodeLen]
  match hnodes : desc.nodes with
  | [] => exact ⟨newNodeArray, file.origins, rfl, rfl⟩
  | [node] =>
    obtain ⟨o, ho, hcopy⟩ := hholds.nodes 0 (by simp [hnodes])
    have hport : o.port = node.2.toUInt32.toUInt16 := by simpa [hnodes] using hcopy.port
    obtain ⟨rest, horigins⟩ : ∃ rest, file.origins = o :: rest := by
      cases hfile : file.nodes with
      | nil => simp [hfile] at ho
      | cons p ps =>
        obtain rfl : p = some o := by simpa [hfile] using ho
        exact ⟨_, by rw [DesciptorFile.origins, hfile]; rfl⟩
    obtain ⟨dst, nodes, hboot, hlive⟩ := bootstrapNeigbors_first o rest
    refine ⟨dst, nodes, by rw [horigins]; exact hboot, ?_⟩
    rw [hlive, bootEntry, hport]
    rfl
  | _ :: _ :: _ => simp [hnodes] at hfew

end Bootstrap

theorem localhost_named : localhost.norm.str ≠ [] := by decide

/-- A neighbour without an ip is nobody that has one. -/
theorem bootNeighbor_addr_ne (node : CString × Int32) {o : Origin} (h : o.ip.str ≠ []) :
    (bootNeighbor node).addr ≠ o.addr := by
  intro he
  have hip : (Bytes.zero inetAddrstrlen).str = o.ip.str := congrArg Prod.fst he
  have hzero : (Bytes.zero inetAddrstrlen).str = [] := by decide
  exact h (hip.symm.trans hzero)

/-- The first search goes to the one neighbour, if there is any. -/
theorem searchSends_boot {nodes : List (CString × Int32)} {m : Machine}
    (hlive : m.sortedNeighbors.live = nodes.map bootNeighbor) (hfew : nodes.length ≤ 1) (os : Os)
    (hash : Bytes idSize) (self : Origin) (hself : self.ip.str ≠ []) :
    searchSends os hash self self m = nodes.map fun node =>
      attempt os m (bootNeighbor node).origin (searchCall os hash self m) := by
  rw [searchSends_eq, hlive]
  cases nodes with
  | nil => rfl
  | cons node nodes =>
    obtain rfl : nodes = [] := List.eq_nil_of_length_eq_zero (by simpa using hfew)
    have hnext : nextHop ([node].map bootNeighbor) self.addr = some (bootNeighbor node) :=
      List.find?_cons_of_pos (by simpa using bootNeighbor_addr_ne node hself)
    rw [hnext]
    rfl

/-- A filled descriptor with at most one node takes the client into its loop. -/
theorem enterLoop_entered {desc : Descriptor} {file : DesciptorFile} (hholds : Holds desc file)
    (hfew : desc.nodes.length ≤ 1) (os : Os) (hostPort : Int32) :
    ∃ c, enterLoop os (fun _ => .zeroed) hostPort file = .ok c ∧ Entered desc hostPort c := by
  obtain ⟨dst, nodes, hboot, hlive⟩ := bootstrap_holds hholds hfew
  let self : Origin := ⟨hostPort.toUInt32.toUInt16, localhost.norm⟩
  let m₀ : Machine := ⟨⟨localhost, hostPort.toUInt32.toUInt16, initPeerTable fun _ => .zeroed⟩, dst,
    true, []⟩
  have hself : Terminated self.ip.mem := Bytes.terminated_norm localhost_terminated
  have hneighbors : ∀ n ∈ m₀.sortedNeighbors.live, Terminated n.ip.mem := by
    intro n hn
    change n ∈ dst.live at hn
    rw [hlive] at hn
    obtain ⟨node, -, rfl⟩ := List.mem_map.mp hn
    exact bootNeighbor_terminated node
  obtain ⟨r, m, hm⟩ := getPeers_total os file.fileHash self self m₀ localhost_terminated hneighbors
    hself hself
  obtain rfl := getPeers_ok hm
  have hbucket := getPeerBucket_inv initPeerTable_inv hholds.terminated
  rw [show chars file.fileHash.mem = desc.hashKey.chars from hholds.hashKey] at hbucket
  have hrun : enterLoop os (fun _ => .zeroed) hostPort file =
      .ok ⟨m₀.emit (searchSends os file.fileHash self self m₀), file.fileHash,
        some (homeOf desc.hashKey.chars)⟩ := by
    rw [enterLoop, hboot, ok_bind]
    dsimp only
    rw [Bytes.strcpy_of_terminated localhost_terminated, ok_bind]
    change (getPeers os file.fileHash self self m₀ >>= _) = _
    rw [hm, ok_bind]
    change (getPeerBucket (initPeerTable fun _ => .zeroed) file.fileHash.mem >>= _) = _
    rw [hbucket]
    rfl
  have hsends := @searchSends_boot desc.nodes m₀ hlive hfew os file.fileHash self localhost_named
  have hstarted : Client.Started ⟨m₀.emit (searchSends os file.fileHash self self m₀), []⟩ :=
    ⟨rfl, rfl, noJoin_searchSends, rfl⟩
  have haddr : (m₀.emit (searchSends os file.fileHash self self m₀)).node.addr =
      (localhost.str, hostPort.toUInt32.toUInt16) := rfl
  refine ⟨_, hrun, ?_⟩
  refine ⟨hstarted, ⟨hholds.terminated, hholds.hashKey⟩, rfl, haddr, hlive, ?_, ?_⟩
  · show (searchSends os file.fileHash self self m₀).map _ = _
    rw [hsends, List.map_map]
    refine List.map_congr_left fun node _ => ?_
    exact (bootNeighbor node).origin_addr
  · intro x hx
    change x ∈ searchSends os file.fileHash self self m₀ at hx
    rw [hsends] at hx
    obtain ⟨node, -, rfl⟩ := List.mem_map.mp hx
    have hcall := searchCall_isCall os file.fileHash self m₀
    have hasked : askedHash (searchCall os file.fileHash self m₀) = file.fileHash :=
      searchCall_hash os file.fileHash self m₀
    have hreply := searchCall_replyTo os file.fileHash self m₀
    have hsrc := (searchCall_src_addr os file.fileHash self m₀).trans m₀.node.origin_addr
    exact ⟨hcall, hasked, hreply, hsrc⟩

section Text

variable {d : Document} {desc : Descriptor}

/-- A number has no members. -/
theorem Says.not_number (h : Says d.root.value desc) : ¬ d.root.IsNumber := by
  intro hnumber
  have hkey := h.hashKey
  cases hroot : d.root with
  | number n =>
    rw [hroot, Written.value] at hkey
    cases hkey
  | _ => simp [hroot, Written.IsNumber] at hnumber

/-- A text that fits the buffer nests no deeper than the parser allows. -/
theorem jsonText_short (hdoc : Says d.root.value desc) (hlen : d.text.length < fileBufferSize) :
    JsonText parsed d.text d.root.value := by
  have hdepth := d.root.depth_le
  have htext := d.root_length_le
  have hbuffer : fileBufferSize = 256 := rfl
  have hlimit : nestingLimit = 1000 := rfl
  have hroom : depth d.root.value ≤ nestingLimit := by omega
  exact jsonText_written hdoc.not_number hroom

end Text

/-- From the text of a descriptor to the first search: where the text is JSON that says what the
client looks for, fits the buffer with a NUL behind it and lists one node or none, the client enters
its loop; where it lists more, the client does not survive its start. -/
theorem client_enters (d : Document) (desc : Descriptor) (hdoc : Says d.root.value desc)
    (hfits : Fits desc) (hlen : d.text.length < fileBufferSize) (mem : DescriptorMemory)
    (hterm : Terminated (mem.buffer.mem.drop d.text.length)) (os : Os) (hostPort : Int32) :
    (desc.nodes.length ≤ 1 → ∃ c, clientMain parsed mem (.regular d.text) os (fun _ => .zeroed)
      hostPort = .ok (some c) ∧ Entered desc hostPort c) ∧
    (1 < desc.nodes.length → ∀ c, clientMain parsed mem (.regular d.text) os (fun _ => .zeroed)
      hostPort ≠ .ok c) := by
  have hparse := parseDescriptorFile_short (jsonText_short hdoc hlen) hlen hterm .zeroed
  constructor
  · intro hfew
    obtain ⟨file, hfill, hholds⟩ := fillDescriptor_holds hdoc hfits hfew mem .zeroed
    obtain ⟨c, hloop, hentered⟩ := enterLoop_entered hholds hfew os hostPort
    refine ⟨c, ?_, hentered⟩
    rw [clientMain, startClient, hparse, hfill]
    simp [hloop]
  · intro hmany c h
    obtain ⟨start, hstart, -⟩ := bind_eq_ok.mp h
    obtain ⟨filled, hfill, -⟩ := bind_eq_ok.mp hstart
    rw [hparse] at hfill
    exact absurd (fillDescriptor_few hdoc hfits hfill) (by omega)

section Sample

def noBlanks : Blanks := ⟨[], by simp⟩

/-- A string of plain characters. -/
def quoted (s : CString) : WrittenString :=
  s.chars.filterMap fun c =>
    if h : 0x20 ≤ c ∧ c ≠ quote ∧ c ≠ backslash then some (.plain c h) else none

def wholeNumber (ds : List UInt8) (h : ds.all isDigit = true) (hne : ds ≠ []) : WrittenNumber :=
  ⟨false, ds, [], none, List.all_eq_true.mp h, by simp, hne⟩

def field (name : CString) (v : Written) (rest : Members) : Members :=
  .cons ⟨quoted name, noBlanks, noBlanks⟩ v noBlanks noBlanks rest

def lastField (name : CString) (v : Written) : Members :=
  .last ⟨quoted name, noBlanks, noBlanks⟩ v noBlanks

def port3001 : WrittenNumber := wholeNumber [0x33, 0x30, 0x30, 0x31] (by decide) (by decide)

def fifty : WrittenNumber := wholeNumber [0x35, 0x30] (by decide) (by decide)

/-- The text of a descriptor with one node. -/
def oneNodeDocument : Document :=
  ⟨false, noBlanks, .object noBlanks <|
    field (.lit "hash_key") (.string (quoted (.lit "13"))) <|
    field (.lit "piece_length") (.number fifty) <|
    field (.lit "file") (.object noBlanks <|
      field (.lit "path") (.string (quoted (.lit "./"))) <|
      field (.lit "name") (.string (quoted (.lit "a"))) <|
      lastField (.lit "length") (.number fifty)) <|
    lastField (.lit "nodes") (.array noBlanks <| .last (.object noBlanks <|
      field (.lit "ip") (.string (quoted (.lit "localhost"))) <|
      lastField (.lit "port") (.number port3001)) noBlanks), noBlanks⟩

def oneNodeDescriptor : Descriptor :=
  ⟨.lit "13", fifty.decimal.valueint, .lit "./", .lit "a", fifty.decimal.valueint,
    [(.lit "localhost", port3001.decimal.valueint)]⟩

theorem oneNodeDocument_says : Says oneNodeDocument.root.value oneNodeDescriptor :=
  ⟨rfl, rfl, ⟨_, rfl, rfl, rfl, rfl⟩, ⟨_, rfl, .cons ⟨rfl, rfl⟩ .nil⟩⟩

theorem client_enters_one : ∃ c, clientMain parsed zeroedMemory (.regular oneNodeDocument.text)
    sendingOs (fun _ => .zeroed) 3000 = .ok (some c) ∧ Entered oneNodeDescriptor 3000 c := by
  have hfits : Fits oneNodeDescriptor := ⟨by decide, by decide, by decide⟩
  have hshort : oneNodeDocument.text.length < fileBufferSize := by decide +kernel
  have hterm : Terminated (zeroedMemory.buffer.mem.drop oneNodeDocument.text.length) := by
    decide +kernel
  have hfew : oneNodeDescriptor.nodes.length ≤ 1 := by decide
  exact (client_enters oneNodeDocument oneNodeDescriptor oneNodeDocument_says hfits hshort
    zeroedMemory hterm sendingOs 3000).1 hfew

end Sample
end PeerToPeer
