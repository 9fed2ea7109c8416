/-!
# Built-in functions

The catalogue of the built-in functions that are explained on hover.
-/

namespace PolicyLint.Rego

structure Builtin where
  name : String
  signature : String
  description : String
deriving DecidableEq, Repr, Inhabited

namespace Builtin

/-- The documentation page that lists every built-in function. -/
def reference : String :=
  "https://www.openpolicyagent.org/docs/latest/policy-reference/"

/-- The anchor of a function on that page: its name with dashes for points. -/
def anchor (b : Builtin) : String :=
  "#builtin-" ++ .ofList (b.name.toList.map fun c => if c = '.' then '-' else c)

/-- The text shown when hovering over a call. -/
def markdown (b : Builtin) : String :=
  "### " ++ b.name ++ "\n\n```rego\n" ++ b.signature ++ "\n```\n\n" ++ b.description ++
    "\n\n[View Documentation](" ++ reference ++ b.anchor ++ ")"

def catalogue : List Builtin := [
  ⟨"count", "count(collection) -> number",
    "Count takes a collection or string and returns the number of elements (or characters) in it."⟩,
  ⟨"sum", "sum(collection) -> number",
    "Sums elements of an array or set of numbers."⟩,
  ⟨"max", "max(collection) -> any",
    "Returns the maximum value in a collection."⟩,
  ⟨"min", "min(collection) -> any",
    "Returns the minimum value in a collection."⟩,
  ⟨"sort", "sort(collection) -> array",
    "Returns a sorted array."⟩,
  ⟨"concat", "concat(delimiter, collection) -> string",
    "Joins a set or array of strings with a delimiter."⟩,
  ⟨"contains", "contains(haystack, needle) -> boolean",
    "Returns `true` if the search string is included in the base string."⟩,
  ⟨"startswith", "startswith(search, base) -> boolean",
    "Returns true if the search string begins with the base string."⟩,
  ⟨"endswith", "endswith(search, base) -> boolean",
    "Returns true if the search string ends with the base string."⟩,
  ⟨"lower", "lower(x) -> string",
    "Returns the input string but with all characters in lower-case."⟩,
  ⟨"upper", "upper(x) -> string",
    "Returns the input string but with all characters in upper-case."⟩,
  ⟨"split", "split(x, delimiter) -> array",
    "Split returns an array containing elements of the input string split on a delimiter."⟩,
  ⟨"sprintf", "sprintf(format, values) -> string",
    "Returns the given string, formatted."⟩,
  ⟨"trim", "trim(x, cutset) -> string",
    "Returns `value` with all leading or trailing instances of the `cutset` characters removed."⟩,
  ⟨"trim_space", "trim_space(x) -> string",
    "Return the given string with all leading and trailing white space removed."⟩,
  ⟨"replace", "replace(x, old, new) -> string",
    "Replace replaces all instances of a sub-string."⟩,
  ⟨"indexof", "indexof(haystack, needle) -> number",
    "Returns the index of a substring contained inside a string."⟩,
  ⟨"substring", "substring(value, offset, length) -> string",
    "Returns the portion of a string for a given `offset` and a `length`."⟩,
  ⟨"to_number", "to_number(x) -> number",
    "Converts a string, bool, or number value to a number."⟩,
  ⟨"is_string", "is_string(x) -> boolean",
    "Returns `true` if the input value is a string."⟩,
  ⟨"is_number", "is_number(x) -> boolean",
    "Returns `true` if the input value is a number."⟩,
  ⟨"is_array", "is_array(x) -> boolean",
    "Returns `true` if the input value is an array."⟩,
  ⟨"is_object", "is_object(x) -> boolean",
    "Returns `true` if the input value is an object."⟩,
  ⟨"object.get", "object.get(object, key, default) -> any",
    "Returns value of an object's key if present, otherwise a default."⟩,
  ⟨"object.keys", "object.keys(object) -> set",
    "Returns a set of an object's keys."⟩,
  ⟨"object.union", "object.union(a, b) -> object",
    "Creates a new object of the asymmetric union of two objects."⟩,
  ⟨"array.concat", "array.concat(x, y) -> array",
    "Concatenates two arrays."⟩,
  ⟨"regex.match", "regex.match(pattern, value) -> boolean",
    "Matches a string against a regular expression."⟩,
  ⟨"regex.replace", "regex.replace(s, pattern, value) -> string",
    "Find and replaces the text using the regular expression pattern."⟩,
  ⟨"json.marshal", "json.marshal(x) -> string",
    "Serializes the input term to JSON."⟩,
  ⟨"json.unmarshal", "json.unmarshal(x) -> any",
    "Deserializes the input string."⟩,
  ⟨"yaml.unmarshal", "yaml.unmarshal(x) -> any",
    "Deserializes the input string."⟩,
  ⟨"base64.encode", "base64.encode(x) -> string",
    "Serializes the input string into base64 encoding."⟩,
  ⟨"base64.decode", "base64.decode(x) -> string",
    "Deserializes the base64 encoded input string."⟩,
  ⟨"time.now_ns", "time.now_ns() -> number",
    "Returns the current time since epoch in nanoseconds."⟩,
  ⟨"time.parse_rfc3339_ns", "time.parse_rfc3339_ns(value) -> number",
    "Returns the time in nanoseconds parsed from the string in RFC3339 format."⟩,
  ⟨"http.send", "http.send(request) -> object",
    "Returns a HTTP response to the given HTTP request."⟩,
  ⟨"print", "print(...)",
    "Prints the given values to the configured print output."⟩]

def lookup (name : String) : Option Builtin :=
  catalogue.find? (·.name == name)

end Builtin

end PolicyLint.Rego
