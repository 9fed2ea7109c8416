import PolicyLint.Json
import PolicyLint.Text.Position
import PolicyLint.Uri.Basic
/-!
# Reading parameters

The parameters of a message are records. A record is written as an object, or as an array that
holds the value of every field in order; some records have to be objects. A field that is missing
counts as `null`, and unknown keys do not matter.
-/

namespace PolicyLint.Protocol

/-! ## Reading values -/

/-- The values of the fields of a record that has to be an object. -/
def objectFields? (keys : List String) : Json → Option (List Json)
  | .obj fields => some (keys.map fun k => (fields.lookup k).getD .null)
  | _ => none

/-- The values of the fields of a record. -/
def recordFields? (keys : List String) : Json → Option (List Json)
  | .arr items => if items.length = keys.length then some items else none
  | v => objectFields? keys v

/-- Reads a value that may be `null`. -/
def optional? {α : Type} (read? : Json → Option α) (v : Json) : Option (Option α) :=
  if v.isNull then some none else (read? v).map some

def list? {α : Type} (read? : Json → Option α) (v : Json) : Option (List α) :=
  v.arr?.bind (·.mapM read?)

/-- An unsigned word of 32 bits. -/
def word? (v : Json) : Option UInt32 :=
  (v.natBelow? UInt32.size).map .ofNat

/-- A signed word of 32 bits. -/
def integer? : Json → Option Int
  | .int n => if -0x80000000 ≤ n ∧ n < 0x80000000 then some n else none
  | _ => none

def uri? (v : Json) : Option Uri :=
  v.str?.bind Uri.read?

def position? (v : Json) : Option Position := do
  let [line, character] ← recordFields? ["line", "character"] v | none
  return ⟨← word? line, ← word? character⟩

def range? (v : Json) : Option Range := do
  let [start, stop] ← recordFields? ["start", "end"] v | none
  return ⟨← position? start, ← position? stop⟩

/-- The URI of a document, given by a record that holds nothing else. -/
def document? (v : Json) : Option Uri := do
  let [uri] ← recordFields? ["uri"] v | none
  uri? uri

/-! ## Checking values -/

/-- The values of one form. -/
abbrev Form := Json → Bool

namespace Form

def any : Form := fun _ => true

def flag : Form
  | .bool _ => true
  | _ => false

def text : Form := fun v => v.str?.isSome

def word : Form := fun v => (word? v).isSome

def integer : Form := fun v => (integer? v).isSome

def number : Form
  | .int _ | .decimal _ => true
  | _ => false

def uri : Form := fun v => (uri? v).isSome

def position : Form := fun v => (position? v).isSome

def range : Form := fun v => (range? v).isSome

def document : Form := fun v => (document? v).isSome

def list (f : Form) : Form
  | .arr items => items.all f
  | _ => false

/-- An object whose keys and values have the given forms. -/
def dictionary (key : String → Bool) (value : Form) : Form
  | .obj fields => fields.all fun x => key x.1 && value x.2
  | _ => false

def optional (f : Form) : Form := fun v => v.isNull || f v

def either (f g : Form) : Form := fun v => f v || g v

/-- Whether values in order have the forms of fields. -/
def holds (fields : List (String × Form)) (values? : Option (List Json)) : Bool :=
  values?.any fun values => (fields.zip values).all fun x => x.1.2 x.2

def record (fields : List (String × Form)) : Form := fun v =>
  holds fields (recordFields? (fields.map (·.1)) v)

/-- A record with the given fields that has to be an object. -/
def object (fields : List (String × Form)) : Form := fun v =>
  holds fields (objectFields? (fields.map (·.1)) v)

/-- A token under which progress is reported. -/
def token : Form := either integer text

/-- The field for a token under which the work is reported. -/
def workToken : String × Form :=
  ("workDoneToken", optional token)

/-- The fields for tokens under which the work and parts of the result are reported. -/
def tokens : List (String × Form) :=
  [workToken, ("partialResultToken", optional token)]

end Form

end PolicyLint.Protocol
