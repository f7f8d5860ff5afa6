import Zimbr.Protocol.Common

set_option autoImplicit false

/-!
# Bounds on JSON texts

Checked before the JSON parser sees untrusted input. This checks structure, not
the grammar; the typed parser still validates it.
-/
namespace Zimbr.JsonInput

inductive CheckError where
  | invalidJson | jsonTooComplex | jsonTooDeep | jsonTooLarge
  deriving DecidableEq, Repr

/-- 32 levels bound the parser's stack. -/
def maxDepth : Nat := 32

structure Scanner where
  /-- The closing brackets to come. -/
  stack : Bytes := []
  tokens : Nat := 0
  quoted : Bool := false
  escaped : Bool := false
  primitive : Bool := false
  deriving DecidableEq, Repr

namespace Scanner

def inString (s : Scanner) (byte : UInt8) : Scanner :=
  if s.escaped then { s with escaped := false }
  else if byte = 92 then { s with escaped := true }
  else if byte = 34 then { s with quoted := false }
  else s

def outside (s : Scanner) (byte : UInt8) : Except CheckError Scanner :=
  if byte = 34 then
    .ok { s with tokens := s.tokens + 1, primitive := false, quoted := true }
  else if byte = 123 || byte = 91 then
    if s.stack.length = maxDepth then .error .jsonTooDeep
    else .ok { s with
      stack := (if byte = 123 then 125 else 93) :: s.stack
      tokens := s.tokens + 1
      primitive := false }
  else if byte = 125 || byte = 93 then
    if s.stack.head? = some byte then .ok { s with stack := s.stack.tail, primitive := false }
    else .error .invalidJson
  else if byte = 44 || byte = 58 || byte = 32 || byte = 9 || byte = 13 || byte = 10 then
    .ok { s with primitive := false }
  else if s.primitive then .ok s
  else .ok { s with tokens := s.tokens + 1, primitive := true }

def scan (maxTokens : Nat) : Scanner → Bytes → Except CheckError Unit
  | s, [] => if s.quoted || s.stack ≠ [] then .error .invalidJson else .ok ()
  | s, byte :: rest =>
    if s.quoted then scan maxTokens (s.inString byte) rest
    else match s.outside byte with
    | .error e => .error e
    | .ok s => if maxTokens < s.tokens then .error .jsonTooComplex else scan maxTokens s rest

end Scanner

def check (bytes : Bytes) (maxBytes maxTokens : Nat) : Except CheckError Unit :=
  if maxBytes < bytes.length then .error .jsonTooLarge
  else if !utf8ValidateSlice bytes then .error .invalidJson
  else Scanner.scan maxTokens {} bytes

end Zimbr.JsonInput
