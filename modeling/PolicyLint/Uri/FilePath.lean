import PolicyLint.FileSystem.Disk
import PolicyLint.Text.Utf8
import PolicyLint.Uri.Basic
/-!
# Identifiers of files

The path of a URI names a file once its percent-encoding is undone; scheme, authority, query and
fragment are not looked at. The URI of a file has the scheme `file` and no host, and all characters
of the path but letters, digits, `-`, `.`, `_`, `~` and `/` are percent-encoded.
-/

namespace PolicyLint

def hexValue (c : Char) : Nat :=
  if c.isDigit then c.toNat - '0'.toNat
  else if c.isUpper then c.toNat - 'A'.toNat + 10
  else c.toNat - 'a'.toNat + 10

/-- The digit to base 16 of a value below 16, in upper case. -/
def hexDigit (n : Nat) : Char :=
  if n < 10 then Char.ofNat ('0'.toNat + n) else Char.ofNat ('A'.toNat + n - 10)

namespace Uri

/-- The bytes of a component with its percent-encoding undone. -/
def percentDecode : List Char → List UInt8
  | [] => []
  | '%' :: a :: b :: rest => .ofNat (hexValue a * 16 + hexValue b) :: percentDecode rest
  | c :: rest => Utf8.encode [c] ++ percentDecode rest

/-- A byte as it stands in the path of a file's URI. -/
def percentEncode (b : UInt8) : List Char :=
  let c := Char.ofNat b.toNat
  if isUnreserved c || c = '/' then [c] else ['%', hexDigit (b.toNat / 16), hexDigit (b.toNat % 16)]

/-- The path a URI names, as it is spelled there. -/
def filePath? (u : Uri) : Option Path :=
  if u.path = "" then none
  else some ⟨.ofList (Utf8.decodeLossy (percentDecode u.path.toList))⟩

/-- The URI of a file, given by an absolute path. -/
def ofAbsolute (p : Path) : Uri :=
  { scheme? := some "file", authority? := some ""
    path := .ofList ((Utf8.encode p.text.toList).flatMap percentEncode) }

end Uri

/-- Why a file cannot be reached. -/
inductive FileError
  /-- the file cannot be read -/
  | read (path : Path) (fault : DiskFault)
  /-- the text is no URI of a file -/
  | invalidUri (text : String)
deriving Repr, Inhabited

def FileError.message : FileError → String
  | .read path fault => "failed to read " ++ path.text ++ ": " ++ fault.message
  | .invalidUri text => "not a file uri: " ++ text

namespace Disk

/-- The name under which the file of a URI is known. -/
def pathOfUri (d : Disk) (u : Uri) : Except FileError Path :=
  match u.filePath? with
  | some p => .ok (d.canonical p)
  | none => .error (.invalidUri u.text)

/-- The names of the files of those URIs that have a path. -/
def pathsOfUris (d : Disk) (uris : List Uri) : List Path :=
  uris.filterMap fun u => (d.pathOfUri u).toOption

/-- The URI of a file. A relative path has to lead to something. -/
def uriOfPath (d : Disk) (p : Path) : Except FileError Uri :=
  if p.isAbsolute then .ok (.ofAbsolute p)
  else match d.realPath? p with
    | some real => .ok (.ofAbsolute real)
    | none => .error (.invalidUri p.text)

/-- The name under which the policy file of a URI is known; other files have none. -/
def policyPath? (d : Disk) (u : Uri) : Option Path :=
  if u.filePath?.any Path.isPolicy then (d.pathOfUri u).toOption else none

end Disk

end PolicyLint
