import PeerToPeer.CLib.CString

namespace PeerToPeer

open CLib

/-- A parsed item. A number is kept as its `valueint`, the members of an object in the order of
the text. -/
inductive Json where
  | null
  | bool (b : Bool)
  | number (valueint : Int32)
  | string (valuestring : CString)
  | array (items : List Json)
  | object (members : List (CString × Json))

namespace Json

/-- `item->valuestring`, NULL unless the item is a string. -/
def valuestring : Option Json → Except Fault (Option CString)
  | some (string s) => .ok (some s)
  | some _ => .ok none
  | none => .error .outOfBounds

/-- `item->valueint`, zero unless the parser set it. -/
def valueint : Option Json → Except Fault Int32
  | some (number v) => .ok v
  | some (bool true) => .ok 1
  | some _ => .ok 0
  | none => .error .outOfBounds

/-- `item->child` with what follows it; only members of an object have a name. -/
def children : Json → List (Option CString × Json)
  | array items => items.map fun item => (none, item)
  | object members => members.map fun m => (some m.1, m.2)
  | _ => []

/-- The `while` of `get_object_item`: it stops at a child without a name, or with the right
one. -/
def findChild (name : CString) : List (Option CString × Json) → Option Json
  | [] => none
  | (none, _) :: _ => none
  | (some key, child) :: rest => if key = name then some child else findChild name rest

/-- `cJSON_GetObjectItemCaseSensitive` -/
def getObjectItemCaseSensitive (object : Option Json) (name : CString) : Option Json :=
  object.bind fun j => findChild name j.children

/-- `cJSON_GetArraySize`, a count of the children. -/
def getArraySize : Option Json → Int32
  | some j => Int32.ofNat j.children.length
  | none => 0

/-- What `cJSON_ArrayForEach` walks over. -/
def elements : Option Json → List Json
  | some j => j.children.map Prod.snd
  | none => []

def isString : Option Json → Bool
  | some (string _) => true
  | _ => false

def isNumber : Option Json → Bool
  | some (number _) => true
  | _ => false

def isArray : Option Json → Bool
  | some (array _) => true
  | _ => false

def isObject : Option Json → Bool
  | some (object _) => true
  | _ => false

@[simp] theorem valuestring_string (s : CString) :
    valuestring (some (string s)) = .ok (some s) := rfl

@[simp] theorem valueint_number (v : Int32) : valueint (some (number v)) = .ok v := rfl

@[simp] theorem isString_string (s : CString) : isString (some (string s)) = true := rfl

@[simp] theorem isNumber_number (v : Int32) : isNumber (some (number v)) = true := rfl

@[simp] theorem isArray_array (items : List Json) : isArray (some (array items)) = true := rfl

@[simp] theorem elements_array (items : List Json) : elements (some (array items)) = items := by
  simp [elements, children, Function.comp_def]

@[simp] theorem getArraySize_array (items : List Json) :
    getArraySize (some (array items)) = Int32.ofNat items.length := by
  simp [getArraySize, children]

end Json

end PeerToPeer
