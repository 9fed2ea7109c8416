import PolicyLint.Json
/-!
# Messages and replies

A message from the client names a method and may carry parameters. One with an identifier is a
request, which is answered; one without is a notification, which is not.
-/

namespace PolicyLint.Protocol

structure Message where
  method : String
  /-- whether the message carries an identifier -/
  isRequest : Bool
  /-- the parameters; `null` counts as none -/
  params? : Option Json
deriving Repr, Inhabited

/-- An identifier is a signed integer of 64 bits, a text or `null`. -/
def isIdentifier : Json → Bool
  | .int n => -0x8000000000000000 ≤ n && n < 0x8000000000000000
  | .str _ | .null => true
  | _ => false

/-- Reads a message; it may be malformed. -/
def Message.read? (v : Json) : Option Message := do
  let method ← ((v.field? "method").getD (.str "")).str?
  if !(v.field? "id").all isIdentifier then none
  else some {
    method
    isRequest := (v.field? "id").isSome
    params? := (v.field? "params").bind fun p => if p.isNull then none else some p }

/-- Why a request is refused. -/
inductive Fault
  | notInitialized
  | invalidRequest
  | methodNotFound
  | invalidParams
deriving DecidableEq, Repr, Inhabited

def Fault.code : Fault → Int
  | .notInitialized => -32002
  | .invalidRequest => -32600
  | .methodNotFound => -32601
  | .invalidParams => -32602

/-- The wording of a fault; that of invalid parameters depends on what is wrong with them and is
not kept. -/
def Fault.message? : Fault → Option String
  | .notInitialized => some "Server not initialized"
  | .invalidRequest => some "Invalid request"
  | .methodNotFound => some "Method not found"
  | .invalidParams => none

inductive Reply
  /-- the message is not answered -/
  | silent
  | result (value : Json)
  | fault (fault : Fault)
  /-- the session is over and takes no message -/
  | exited
deriving Repr, Inhabited

/-- Refuses a request; a notification is dropped. -/
def Message.refuse (m : Message) (f : Fault) : Reply :=
  if m.isRequest then .fault f else .silent

end PolicyLint.Protocol
