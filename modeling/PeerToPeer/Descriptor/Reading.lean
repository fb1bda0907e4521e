import PeerToPeer.Descriptor.Parse
import Mathlib.Data.List.Forall2

namespace PeerToPeer

open CLib Json

/-- What a descriptor says, with numbers as the parser leaves them. -/
structure Descriptor where
  hashKey : CString
  pieceLength : Int32
  path : CString
  name : CString
  length : Int32
  nodes : List (CString × Int32)

/-- An object with a string `ip` and a number `port`. -/
structure NodeElement (el : Json) (node : CString × Int32) : Prop where
  ip : getObjectItemCaseSensitive (some el) (.lit "ip") = some (.string node.1)
  port : getObjectItemCaseSensitive (some el) (.lit "port") = some (.number node.2)

/-- Every field is there, and of its type. -/
structure Says (doc : Json) (d : Descriptor) : Prop where
  hashKey : getObjectItemCaseSensitive (some doc) (.lit "hash_key") = some (.string d.hashKey)
  pieceLength : getObjectItemCaseSensitive (some doc) (.lit "piece_length") =
    some (.number d.pieceLength)
  file : ∃ members, getObjectItemCaseSensitive (some doc) (.lit "file") = some (.object members) ∧
    getObjectItemCaseSensitive (some (.object members)) (.lit "path") = some (.string d.path) ∧
    getObjectItemCaseSensitive (some (.object members)) (.lit "name") = some (.string d.name) ∧
    getObjectItemCaseSensitive (some (.object members)) (.lit "length") = some (.number d.length)
  nodes : ∃ els, getObjectItemCaseSensitive (some doc) (.lit "nodes") = some (.array els) ∧
    List.Forall₂ NodeElement els d.nodes

/-- The strings fit their fields, and the nodes their count. -/
structure Fits (d : Descriptor) : Prop where
  hashKey : d.hashKey.chars.length < idSize
  ips : ∀ node ∈ d.nodes, node.1.chars.length < inetAddrstrlen
  count : d.nodes.length ≤ 65535

/-- The text of a document: the parser finds it at the start of a string, and does not look at
what follows. -/
structure JsonText (cJSON : List UInt8 → Option Json) (text : List UInt8) (doc : Json) : Prop where
  noNul : 0 ∉ text
  parsed : ∀ rest, 0 ∉ rest → cJSON (text ++ rest) = some doc

/-- The origin was made from the node. -/
structure CopyOf (node : CString × Int32) (o : Origin) : Prop where
  terminated : Terminated o.ip.mem
  ip : o.ip.str = node.1.chars
  port : o.port = node.2.toUInt32.toUInt16

/-- The struct holds all that the descriptor says. -/
structure Holds (d : Descriptor) (file : DesciptorFile) : Prop where
  terminated : Terminated file.fileHash.mem
  hashKey : file.fileHash.str = d.hashKey.chars
  pieceLength : file.pieceLength = d.pieceLength.toUInt32
  length : file.length = d.length.toInt64.toUInt64
  name : file.name = some d.name
  path : file.path = some d.path
  nodeLen : file.nodeLen.toNat = d.nodes.length
  nodes : ∀ k (h : k < d.nodes.length), ∃ o, file.nodes[k]? = some (some o) ∧ CopyOf d.nodes[k] o

/-- What a run of `parse_descriptor_file` owes a valid descriptor. -/
def ReadInFull (d : Descriptor) (run : Except Fault (Int × DesciptorFile)) : Prop :=
  ∃ file, run = .ok (0, file) ∧ file.nodeLen.toNat = d.nodes.length ∧
    ∀ k (h : k < d.nodes.length), ∃ o, file.nodes[k]? = some (some o) ∧
      o.ip.str = d.nodes[k].1.chars ∧ (o.port.toNat : Int) = d.nodes[k].2.toInt

theorem mallocNodes_ofNat {n : Nat} (h : n ≤ 65535) :
    mallocNodes (Int32.ofNat n) = List.replicate n none := by
  have hint : (Int32.ofNat n).toInt = n := Int32.toInt_ofNat_of_lt (by omega)
  rw [mallocNodes, hint, Int.toNat_natCast]

theorem toNat_count {n : Nat} (h : n ≤ 65535) : (UInt16.ofNat n).toNat = n := by
  rw [UInt16.toNat_ofNat']
  omega

/-- A port in range is kept. -/
theorem toUInt16_port {v : Int32} (h : 0 ≤ v.toInt) (h' : v.toInt ≤ 65535) :
    (v.toUInt32.toUInt16.toNat : Int) = v.toInt := by
  have hmod := toInt_emod v
  rw [UInt32.toNat_toUInt16]
  omega

section ReadLoop

variable {rest : List UInt8} {buffer : Bytes fileBufferSize}

theorem readLoop_nil : readLoop [] buffer = buffer := by
  rw [readLoop]
  exact if_neg (Nat.lt_irrefl 0)

theorem readLoop_step (h : rest ≠ []) : readLoop rest buffer =
    readLoop (rest.drop fileBufferSize) (buffer.write 0 (rest.take fileBufferSize)) := by
  have hpos := List.length_pos_of_ne_nil h
  rw [readLoop, if_pos]
  rw [List.length_take]
  unfold fileBufferSize
  omega

/-- A file shorter than the buffer is read at once. -/
theorem readLoop_short (buffer : Bytes fileBufferSize) (h : rest.length < fileBufferSize) :
    (readLoop rest buffer).mem = rest ++ buffer.mem.drop rest.length := by
  by_cases hnil : rest = []
  · rw [hnil, readLoop_nil]
    simp
  · rw [readLoop_step hnil, List.take_of_length_le h.le, List.drop_eq_nil_of_le h.le, readLoop_nil,
      Bytes.write_start _ _ h.le]

theorem readLoop_keeps (htext : 0 ∉ rest) (h : ¬ Terminated buffer.mem) :
    ¬ Terminated (readLoop rest buffer).mem := by
  induction rest, buffer using readLoop.induct with
  | case1 rest buffer hpos ih =>
    rw [readLoop, if_pos hpos]
    apply ih
    · exact fun hz => htext (List.mem_of_mem_drop hz)
    · rw [Bytes.write_start _ _ (List.length_take_le _ _)]
      intro hz
      rcases List.mem_append.mp hz with hz | hz
      · exact htext (List.mem_of_mem_take hz)
      · exact h (List.mem_of_mem_drop hz)
  | case2 rest buffer hpos =>
    rwa [readLoop, if_neg hpos]

/-- A text as long as the buffer leaves no room for a NUL in it. -/
theorem readLoop_long (htext : 0 ∉ rest) (h : fileBufferSize ≤ rest.length) :
    ¬ Terminated (readLoop rest buffer).mem := by
  have hnil : rest ≠ [] := by
    rintro rfl
    exact absurd h (by decide)
  rw [readLoop_step hnil]
  apply readLoop_keeps
  · exact fun hz => htext (List.mem_of_mem_drop hz)
  · have hlen : (rest.take fileBufferSize).length = fileBufferSize := by
      rw [List.length_take, Nat.min_eq_left h]
    rw [Bytes.write_start _ _ hlen.le, hlen, List.drop_eq_nil_of_le (by simp), List.append_nil]
    exact fun hz => htext (List.mem_of_mem_take hz)

end ReadLoop

section Pointers

variable {nodes : List (Option Origin)}

theorem printPorts_ok_iff (count i : Nat) : printPorts nodes count i = .ok () ↔
    ∀ j, i ≤ j → j < i + count → ∃ o, nodes[j]? = some (some o) := by
  induction count generalizing i with
  | zero =>
    simp only [printPorts, true_iff]
    intro j hle hlt
    omega
  | succ count ih =>
    rw [printPorts]
    constructor
    · intro h j hle hlt
      split at h
      next o ho =>
        by_cases hji : j = i
        · exact ⟨o, hji ▸ ho⟩
        · exact (ih (i + 1)).mp h j (by omega) (by omega)
      next => cases h
    · intro h
      obtain ⟨o, ho⟩ := h i (Nat.le_refl i) (by omega)
      rw [ho]
      exact (ih (i + 1)).mpr fun j hle hlt => h j (by omega) (by omega)

end Pointers

/-- A good element goes to the first pointer. -/
theorem nodesLoop_cons {el : Json} {node : CString × Int32} (hel : NodeElement el node)
    (hfits : node.1.chars.length < inetAddrstrlen) (mem : DescriptorMemory) (els : List Json)
    (k : Nat) (file : DesciptorFile) (hroom : 0 < file.nodes.length) :
    ∃ o, CopyOf node o ∧ nodesLoop mem 0 (el :: els) k file =
      nodesLoop mem 0 els (k + 1) { file with nodes := file.nodes.set 0 (some o) } := by
  obtain ⟨ip, hcopy, hterm, hstr⟩ := Bytes.strcpyFrom_ok (mem.origins k).ip hfits
  refine ⟨⟨node.2.toUInt32.toUInt16, ip⟩, ⟨hterm, hstr, rfl⟩, ?_⟩
  simp [nodesLoop, hel.ip, hel.port, strcpyValue, hcopy, setNode, hroom]

/-- After the loop the first pointer is the last element, and no other was assigned. -/
theorem nodesLoop_good {els : List Json} {nodes : List (CString × Int32)}
    (hels : List.Forall₂ NodeElement els nodes)
    (hfits : ∀ node ∈ nodes, node.1.chars.length < inetAddrstrlen) (mem : DescriptorMemory)
    (k : Nat) (file : DesciptorFile) (hroom : els.length ≤ file.nodes.length) :
    ∃ slots, nodesLoop mem 0 els k file = .ok (0, { file with nodes := slots }) ∧
      slots.drop 1 = file.nodes.drop 1 ∧
      ∀ node ∈ nodes.getLast?, ∃ o, slots[0]? = some (some o) ∧ CopyOf node o := by
  induction hels generalizing k file with
  | nil => exact ⟨file.nodes, rfl, rfl, by simp⟩
  | @cons el node els nodes hel hels ih =>
    rw [List.length_cons] at hroom
    rw [List.forall_mem_cons] at hfits
    have hpos : 0 < file.nodes.length := by omega
    obtain ⟨o, hcopy, hstep⟩ := nodesLoop_cons hel hfits.1 mem els k file hpos
    have hdrop : (file.nodes.set 0 (some o)).drop 1 = file.nodes.drop 1 :=
      List.drop_set_of_lt Nat.one_pos
    rw [hstep]
    cases hels with
    | nil =>
      refine ⟨file.nodes.set 0 (some o), rfl, hdrop, ?_⟩
      intro last hlast
      obtain rfl : node = last := by simpa using hlast
      exact ⟨o, List.getElem?_set_self hpos, hcopy⟩
    | cons hel' hels' =>
      obtain ⟨slots, hrun, hslots, hfirst⟩ := ih hfits.2 (k + 1)
        { file with nodes := file.nodes.set 0 (some o) } (by
          rw [List.length_set]
          omega)
      refine ⟨slots, hrun, hslots.trans hdrop, ?_⟩
      rwa [List.getLast?_cons_cons]

section Document

variable {doc : Json} {d : Descriptor}

theorem fillDescriptor_file (hdoc : Says doc d) (mem : DescriptorMemory) (file : DesciptorFile) :
    fillDescriptor mem (some doc) file = fillFields mem (some doc) { file with
      path := some d.path, name := some d.name, length := d.length.toInt64.toUInt64 } := by
  obtain ⟨members, hfile, hpath, hname, hlength⟩ := hdoc.file
  simp [fillDescriptor, hfile, hpath, hname, hlength]

theorem finishDescriptor_good {s : CString} (hs : s.chars.length < idSize) (v : Int32) (n : Nat)
    (file : DesciptorFile) : ∃ hash : Bytes idSize, Terminated hash.mem ∧ hash.str = s.chars ∧
      finishDescriptor (some (.string s)) (some (.number v)) (Int32.ofNat n) file =
        (printPorts file.nodes (UInt16.ofNat n).toNat 0 >>= fun _ => .ok (0, { file with
          fileHash := hash, pieceLength := v.toUInt32, nodeLen := UInt16.ofNat n })) := by
  obtain ⟨hash, hcopy, hterm, hstr⟩ := Bytes.strcpyFrom_ok file.fileHash hs
  refine ⟨hash, hterm, hstr, ?_⟩
  simp [finishDescriptor, strcpyValue, hcopy]

/-- A good document gets as far as the last loop, with the first pointer at most assigned. -/
theorem fillDescriptor_good (hdoc : Says doc d) (hfits : Fits d) (mem : DescriptorMemory)
    (file : DesciptorFile) : ∃ slots, ∃ hash : Bytes idSize, Terminated hash.mem ∧
      hash.str = d.hashKey.chars ∧ slots.drop 1 = List.replicate (d.nodes.length - 1) none ∧
      (∀ node ∈ d.nodes.getLast?, ∃ o, slots[0]? = some (some o) ∧ CopyOf node o) ∧
      fillDescriptor mem (some doc) file = (printPorts slots d.nodes.length 0 >>= fun _ =>
        .ok (0, ⟨hash, d.pieceLength.toUInt32, d.length.toInt64.toUInt64, some d.name, some d.path,
          slots, UInt16.ofNat d.nodes.length⟩)) := by
  obtain ⟨els, hnodes, hels⟩ := hdoc.nodes
  have hcount := hfits.count
  have hlen : els.length = d.nodes.length := hels.length_eq
  have hmalloc : mallocNodes (Int32.ofNat els.length) = List.replicate d.nodes.length none := by
    rw [hlen, mallocNodes_ofNat hcount]
  obtain ⟨slots, hrun, hdrop, hlast⟩ := nodesLoop_good hels hfits.ips mem 0 { file with
    path := some d.path, name := some d.name, length := d.length.toInt64.toUInt64,
    nodes := mallocNodes (Int32.ofNat els.length) } (by
      rw [hmalloc, List.length_replicate, hlen])
  obtain ⟨hash, hterm, hstr, hfinish⟩ := finishDescriptor_good hfits.hashKey d.pieceLength
    els.length { file with
      path := some d.path, name := some d.name, length := d.length.toInt64.toUInt64,
      nodes := slots }
  refine ⟨slots, hash, hterm, hstr, ?_, hlast, ?_⟩
  · rw [hdrop, hmalloc, List.drop_replicate]
  · rw [fillDescriptor_file hdoc]
    simp only [fillFields, hdoc.hashKey, hdoc.pieceLength, hnodes, Option.isNone_some, isArray_array,
      Bool.false_eq_true, false_and, not_true, if_false, elements_array, getArraySize_array]
    rw [hrun, ok_bind, if_neg (not_not.mpr rfl), hfinish, hlen, toNat_count hcount]

/-- From the second node on the last loop follows a pointer that was never assigned. -/
theorem fillDescriptor_few (hdoc : Says doc d) (hfits : Fits d) {mem : DescriptorMemory}
    {file : DesciptorFile} {r : Int × DesciptorFile}
    (h : fillDescriptor mem (some doc) file = .ok r) : d.nodes.length ≤ 1 := by
  obtain ⟨slots, hash, -, -, hdrop, -, hrun⟩ := fillDescriptor_good hdoc hfits mem file
  by_contra hmany
  obtain ⟨u, hprint, -⟩ := bind_eq_ok.mp (hrun.symm.trans h)
  obtain ⟨o, ho⟩ := (printPorts_ok_iff d.nodes.length 0).mp hprint 1 (Nat.zero_le 1) (by omega)
  have hnone : slots[1]? = some none := by
    have h1 := congrArg (·[0]?) hdrop
    rw [List.getElem?_drop, List.getElem?_replicate, if_pos (by omega)] at h1
    exact h1
  rw [hnone] at ho
  cases ho

theorem fillDescriptor_holds (hdoc : Says doc d) (hfits : Fits d) (hfew : d.nodes.length ≤ 1)
    (mem : DescriptorMemory) (file : DesciptorFile) :
    ∃ file', fillDescriptor mem (some doc) file = .ok (0, file') ∧ Holds d file' := by
  obtain ⟨slots, hash, hterm, hstr, -, hlast, hrun⟩ := fillDescriptor_good hdoc hfits mem file
  have hread : ∀ k (h : k < d.nodes.length), ∃ o, slots[k]? = some (some o) ∧
      CopyOf d.nodes[k] o := by
    intro k hk
    obtain rfl : k = 0 := by omega
    have hend : d.nodes.length - 1 = 0 := by omega
    apply hlast
    rw [List.getLast?_eq_getElem?, hend, List.getElem?_eq_getElem hk]
    rfl
  have hprint : printPorts slots d.nodes.length 0 = .ok () := by
    rw [printPorts_ok_iff]
    intro j _ hj
    rw [Nat.zero_add] at hj
    obtain ⟨o, ho, -⟩ := hread j hj
    exact ⟨o, ho⟩
  rw [hrun, hprint]
  exact ⟨_, rfl, hterm, hstr, rfl, rfl, rfl, rfl, toNat_count hfits.count, hread⟩

end Document

section Text

variable {cJSON : List UInt8 → Option Json} {text : List UInt8} {doc : Json} {d : Descriptor}

/-- A text shorter than the buffer is parsed as it stands, when a NUL follows it. -/
theorem parseDescriptorFile_short (htext : JsonText cJSON text doc)
    (hlen : text.length < fileBufferSize) {mem : DescriptorMemory}
    (hterm : Terminated (mem.buffer.mem.drop text.length)) (file : DesciptorFile) :
    parseDescriptorFile cJSON mem (.regular text) file = fillDescriptor mem (some doc) file := by
  have hbuf := readLoop_short mem.buffer hlen
  have hall : Terminated (readLoop text mem.buffer).mem := by
    rwa [hbuf, terminated_append_left htext.noNul]
  have hparse : parseBuffer cJSON (readLoop text mem.buffer) = .ok (some doc) := by
    rw [parseBuffer, if_pos hall, Bytes.str, hbuf, chars_append_left htext.noNul,
      htext.parsed _ (zero_notMem_chars _)]
  rw [parseDescriptorFile, loadBuffer]
  dsimp only
  rw [hparse]
  rfl

/-- A valid descriptor is read in full exactly when its text is shorter than the buffer, the
bytes that follow it there hold a NUL, and it lists one node or none. -/
theorem descriptor_read_iff (htext : JsonText cJSON text doc) (hdoc : Says doc d) (hfits : Fits d)
    (hports : ∀ node ∈ d.nodes, 0 ≤ node.2.toInt ∧ node.2.toInt ≤ 65535) (mem : DescriptorMemory)
    (file : DesciptorFile) : ReadInFull d (parseDescriptorFile cJSON mem (.regular text) file) ↔
      text.length < fileBufferSize ∧ Terminated (mem.buffer.mem.drop text.length) ∧
        d.nodes.length ≤ 1 := by
  have hover (hterm : ¬ Terminated (readLoop text mem.buffer).mem) :
      ¬ ReadInFull d (parseDescriptorFile cJSON mem (.regular text) file) := by
    intro ⟨full, hfull, _⟩
    rw [parseDescriptorFile, loadBuffer] at hfull
    dsimp only at hfull
    rw [parseBuffer, if_neg hterm] at hfull
    cases hfull
  by_cases hlen : text.length < fileBufferSize
  · by_cases hterm : Terminated (mem.buffer.mem.drop text.length)
    · rw [parseDescriptorFile_short htext hlen hterm]
      simp only [hlen, hterm, true_and]
      constructor
      · intro ⟨full, hfull, _⟩
        exact fillDescriptor_few hdoc hfits hfull
      · intro hfew
        obtain ⟨full, hfull, hholds⟩ := fillDescriptor_holds hdoc hfits hfew mem file
        refine ⟨full, hfull, hholds.nodeLen, ?_⟩
        intro k hk
        obtain ⟨o, ho, hcopy⟩ := hholds.nodes k hk
        have hport := hports _ (List.getElem_mem hk)
        refine ⟨o, ho, hcopy.ip, ?_⟩
        rw [hcopy.port, toUInt16_port hport.1 hport.2]
    · apply iff_of_false
      · apply hover
        rwa [readLoop_short mem.buffer hlen, terminated_append_left htext.noNul]
      · intro h
        exact hterm h.2.1
  · apply iff_of_false (hover (readLoop_long htext.noNul (not_lt.mp hlen)))
    intro h
    exact hlen h.1

end Text

section Sample

/-- A parser that knows one text. -/
def parserOf (text : CString) (doc : Json) (s : List UInt8) : Option Json :=
  if text.chars <+: s then some doc else none

theorem parserOf_text (text : CString) (doc : Json) :
    JsonText (parserOf text doc) text.chars doc :=
  ⟨text.noNul, fun _ _ => if_pos (List.prefix_append _ _)⟩

def zeroedMemory : DescriptorMemory := ⟨Bytes.zero fileBufferSize, fun _ => ⟨0, Bytes.zero _⟩⟩

def sampleDescriptor (nodes : List (CString × Int32)) : Descriptor :=
  ⟨.lit "13", 50, .lit "./", .lit "ubuntu.iso", 500, nodes⟩

/-- The text of the sample with these pieces as its nodes. -/
def sampleText (nodes : List String) : CString :=
  let parts := ["\x7b\"piece_length\":50,", "\"hash_key\":\"13\",", "\"file\":\x7b\"length\":500,",
    "\"name\":\"ubuntu.iso\",", "\"path\":\"./\"\x7d,", "\"nodes\":["] ++ nodes ++ ["]\x7d"]
  ⟨chars (parts.flatMap fun part => (CString.lit part).chars), zero_notMem_chars _⟩

def sampleNode (node : CString × Int32) : Json :=
  .object [(.lit "ip", .string node.1), (.lit "port", .number node.2)]

def sampleDoc (nodes : List (CString × Int32)) : Json :=
  .object [(.lit "piece_length", .number 50), (.lit "hash_key", .string (.lit "13")),
    (.lit "file", .object [(.lit "length", .number 500), (.lit "name", .string (.lit "ubuntu.iso")),
      (.lit "path", .string (.lit "./"))]),
    (.lit "nodes", .array (nodes.map sampleNode))]

theorem sampleDoc_fields (nodes : List (CString × Int32)) :
    Says (sampleDoc nodes) (sampleDescriptor nodes) := by
  have hels : List.Forall₂ NodeElement (nodes.map sampleNode) nodes := by
    rw [List.forall₂_map_left_iff, List.forall₂_same]
    intro node _
    exact ⟨rfl, rfl⟩
  exact ⟨rfl, rfl, ⟨_, rfl, rfl, rfl, rfl⟩, ⟨nodes.map sampleNode, rfl, hels⟩⟩

def firstNode : CString × Int32 := (.lit "localhost", 3001)

def secondNode : CString × Int32 := (.lit "localhost", 3002)

def oneNodeText : CString := sampleText ["\x7b\"ip\":\"localhost\",", "\"port\":3001\x7d"]

def twoNodesText : CString := sampleText ["\x7b\"ip\":\"localhost\",", "\"port\":3001\x7d,",
  "\x7b\"ip\":\"localhost\",", "\"port\":3002\x7d"]

/-- A descriptor with one node is read in full. -/
theorem descriptor_read_one : ReadInFull (sampleDescriptor [firstNode])
    (parseDescriptorFile (parserOf oneNodeText (sampleDoc [firstNode])) zeroedMemory
      (.regular oneNodeText.chars) .zeroed) := by
  have hfits : Fits (sampleDescriptor [firstNode]) := ⟨by decide, by decide, by decide⟩
  apply (descriptor_read_iff (parserOf_text _ _) (sampleDoc_fields [firstNode]) hfits (by decide)
    zeroedMemory .zeroed).mpr
  decide +kernel

/-- A second node of a valid descriptor stays unread. -/
theorem second_node_unread : Says (sampleDoc [firstNode, secondNode])
      (sampleDescriptor [firstNode, secondNode]) ∧
    ¬ ReadInFull (sampleDescriptor [firstNode, secondNode])
      (parseDescriptorFile (parserOf twoNodesText (sampleDoc [firstNode, secondNode])) zeroedMemory
        (.regular twoNodesText.chars) .zeroed) := by
  have hfits : Fits (sampleDescriptor [firstNode, secondNode]) :=
    ⟨by decide, by decide, by decide⟩
  have hshort : twoNodesText.chars.length < fileBufferSize := by decide +kernel
  have hterm : Terminated (zeroedMemory.buffer.mem.drop twoNodesText.chars.length) := by
    decide +kernel
  refine ⟨sampleDoc_fields _, ?_⟩
  rw [parseDescriptorFile_short (parserOf_text _ _) hshort hterm]
  intro ⟨full, hfull, _⟩
  exact absurd (fillDescriptor_few (sampleDoc_fields _) hfits hfull) (by decide)

end Sample

end PeerToPeer
