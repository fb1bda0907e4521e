import PeerToPeer.Descriptor.Json
import PeerToPeer.Rpc.Layout

namespace PeerToPeer

open CLib Json

abbrev fileBufferSize : Nat := 256

/-- `desciptor_file`. `nodes` is the block of pointers, empty for NULL; a pointer that was never
assigned is `none`. -/
structure DesciptorFile where
  fileHash : Bytes idSize
  pieceLength : UInt32
  length : UInt64
  name : Option CString
  path : Option CString
  nodes : List (Option Origin)
  nodeLen : UInt16

/-- `desciptor_file file = {0}` -/
def DesciptorFile.zeroed : DesciptorFile := ⟨Bytes.zero idSize, 0, 0, none, none, [], 0⟩

/-- What `open` and `read` meet at the path of the descriptor. -/
inductive OnDisk where
  | missing
  | unreadable
  | regular (content : List UInt8)

/-- Memory with indeterminate contents: `buffer` on the stack, and the k-th origin that `malloc`
returns. -/
structure DescriptorMemory where
  buffer : Bytes fileBufferSize
  origins : Nat → Origin

/-- The read loop, with `rest` behind the offset of the file. Every `read` starts at the front of
the buffer; the test for an error inside the loop is never true. -/
def readLoop (rest : List UInt8) (buffer : Bytes fileBufferSize) : Bytes fileBufferSize :=
  if 0 < (rest.take fileBufferSize).length then
    readLoop (rest.drop fileBufferSize) (buffer.write 0 (rest.take fileBufferSize))
  else buffer
termination_by rest.length
decreasing_by
  simp only [List.length_take, List.length_drop] at *
  omega

/-- `malloc(arr_size * sizeof(origin *))`: a negative count asks for more than there is. -/
def mallocNodes (arrSize : Int32) : List (Option Origin) := List.replicate arrSize.toInt.toNat none

/-- `file->nodes[i] = new_node` -/
def setNode (nodes : List (Option Origin)) (i : Nat) (newNode : Origin) :
    Except Fault (List (Option Origin)) :=
  if i < nodes.length then .ok (nodes.set i (some newNode)) else .error .outOfBounds

/-- `strcpy` from a pointer that may be NULL. -/
def strcpyValue {n : Nat} (dst : Bytes n) : Option CString → Except Fault (Bytes n)
  | some s => dst.strcpyFrom s
  | none => .error .outOfBounds

/-- The loop over the elements of `nodes`. `i` stays what it was; `k` counts the origins. -/
def nodesLoop (mem : DescriptorMemory) (i : Nat) :
    List Json → Nat → DesciptorFile → Except Fault (Int × DesciptorFile)
  | [], _, file => .ok (0, file)
  | el :: els, k, file => do
      let fIp := getObjectItemCaseSensitive (some el) (.lit "ip")
      let fPort := getObjectItemCaseSensitive (some el) (.lit "port")
      if fIp.isNone ∨ fPort.isNone then return (1, file)
      if ¬ isString fIp then return (1, file)
      if ¬ isNumber fPort then return (1, file)
      let port ← valueint fPort
      let ip ← strcpyValue (mem.origins k).ip (← valuestring fIp)
      let nodes ← setNode file.nodes i ⟨port.toUInt32.toUInt16, ip⟩
      nodesLoop mem i els (k + 1) { file with nodes := nodes }

/-- The last loop dereferences the first `count` pointers from `i` on. -/
def printPorts (nodes : List (Option Origin)) : Nat → Nat → Except Fault Unit
  | 0, _ => .ok ()
  | count + 1, i =>
    match nodes[i]? with
    | some (some _) => printPorts nodes count (i + 1)
    | _ => .error .outOfBounds

/-- The end of `parse_descriptor_file`, behind the loop over the nodes. -/
def finishDescriptor (fHk fPclen : Option Json) (arrSize : Int32) (file : DesciptorFile) :
    Except Fault (Int × DesciptorFile) := do
  let file := { file with nodeLen := arrSize.toUInt32.toUInt16 }
  let fileHash ← strcpyValue file.fileHash (← valuestring fHk)
  let pieceLength ← valueint fPclen
  let file := { file with fileHash := fileHash, pieceLength := pieceLength.toUInt32 }
  printPorts file.nodes file.nodeLen.toNat 0
  return (0, file)

/-- The fields of the descriptor, and its nodes. -/
def fillFields (mem : DescriptorMemory) (dfJson : Option Json) (file : DesciptorFile) :
    Except Fault (Int × DesciptorFile) := do
  let fHk := getObjectItemCaseSensitive dfJson (.lit "hash_key")
  if fHk.isNone ∧ ¬ isString fHk then return (1, file)
  let fPclen := getObjectItemCaseSensitive dfJson (.lit "piece_length")
  if fPclen.isNone ∧ ¬ isNumber fPclen then return (1, file)
  let fNodes := getObjectItemCaseSensitive dfJson (.lit "nodes")
  if fNodes.isNone then return (1, file)
  if ¬ isArray fNodes then return (1, file)
  let arrSize := getArraySize fNodes
  let file := { file with nodes := mallocNodes arrSize }
  let (r, file) ← nodesLoop mem 0 (elements fNodes) 0 file
  if r ≠ 0 then return (r, file)
  finishDescriptor fHk fPclen arrSize file

/-- `parse_descriptor_file` once the text is parsed: the file object first. -/
def fillDescriptor (mem : DescriptorMemory) (dfJson : Option Json) (file : DesciptorFile) :
    Except Fault (Int × DesciptorFile) := do
  let f := getObjectItemCaseSensitive dfJson (.lit "file")
  if f.isNone ∧ ¬ isObject f then return (1, file)
  let fPath := getObjectItemCaseSensitive f (.lit "path")
  if ¬ isString fPath then return (1, file)
  let fName := getObjectItemCaseSensitive f (.lit "name")
  if ¬ isString fName then return (1, file)
  let fLen := getObjectItemCaseSensitive f (.lit "length")
  if ¬ isNumber fLen then return (1, file)
  let path ← valuestring fPath
  let name ← valuestring fName
  let length ← valueint fLen
  fillFields mem dfJson { file with
    path := path, name := name, length := length.toInt64.toUInt64 }

/-- The buffer after the read loop, unless the file cannot be opened. -/
def loadBuffer (mem : DescriptorMemory) : OnDisk → Option (Bytes fileBufferSize)
  | .missing => none
  | .unreadable => some mem.buffer
  | .regular content => some (readLoop content mem.buffer)

section Parser

variable (cJSON : List UInt8 → Option Json)

/-- `cJSON_Parse(buffer)`, given what it makes of the characters of a string. -/
def parseBuffer (buffer : Bytes fileBufferSize) : Except Fault (Option Json) :=
  if Terminated buffer.mem then .ok (cJSON buffer.str) else .error .outOfBounds

def parseDescriptorFile (mem : DescriptorMemory) (disk : OnDisk) (file : DesciptorFile) :
    Except Fault (Int × DesciptorFile) :=
  match loadBuffer mem disk with
  | none => .ok (-1, file)
  | some buffer => do
    let dfJson ← parseBuffer cJSON buffer
    if dfJson.isNone then return (1, file)
    fillDescriptor mem dfJson file

/-- `main` up to the check of the result: it returns there, or goes on with the descriptor. -/
def startClient (mem : DescriptorMemory) (disk : OnDisk) : Except Fault (Option DesciptorFile) := do
  let (r, file) ← parseDescriptorFile cJSON mem disk .zeroed
  if r < 0 then return none else return some file

end Parser

end PeerToPeer
