import BlockExchange.Protobuf.Key

/-!
# Decoding errors

What can be wrong with an encoded message, and where: the fields around the fault, innermost first.
-/

namespace BlockExchange.Protobuf

inductive Fault
  | invalidVarint
  | bufferUnderflow
  | delimitedLengthExceeded
  | invalidTag
  | invalidWireType (n : Nat)
  | invalidKey (n : Nat)
  | unexpectedEndGroup
  | recursionLimit
  | invalidText
  | wireTypeMismatch (actual expected : WireType)
deriving DecidableEq, Repr

def Fault.message : Fault → String
  | .invalidVarint => "invalid varint"
  | .bufferUnderflow => "buffer underflow"
  | .delimitedLengthExceeded => "delimited length exceeded"
  | .invalidTag => "invalid tag value: 0"
  | .invalidWireType n => "invalid wire type value: " ++ toString n
  | .invalidKey n => "invalid key value: " ++ toString n
  | .unexpectedEndGroup => "unexpected end group tag"
  | .recursionLimit => "recursion limit reached"
  | .invalidText => "invalid string value: data is not UTF-8 encoded"
  | .wireTypeMismatch actual expected =>
    "invalid wire type: " ++ actual.name ++ " (expected " ++ expected.name ++ ")"

/-- A field of a named message. -/
structure FieldName where
  message : String
  field : String
deriving DecidableEq, Repr

structure DecodeError where
  fault : Fault
  /-- The fields around the fault, innermost first. -/
  path : List FieldName := []
deriving DecidableEq, Repr

namespace DecodeError

/-- The same error, seen from outside a field. -/
def within (name : FieldName) (e : DecodeError) : DecodeError :=
  { e with path := e.path ++ [name] }

def message (e : DecodeError) : String :=
  "failed to decode Protobuf message: "
    ++ String.join (e.path.map fun n => n.message ++ "." ++ n.field ++ ": ")
    ++ e.fault.message

end DecodeError
end BlockExchange.Protobuf
