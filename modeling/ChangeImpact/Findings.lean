import ChangeImpact.Failure
import ChangeImpact.Json.Decode
import ChangeImpact.Json.Reader
import ChangeImpact.Settings

/-!
# Findings of a language model

A language model is shown a diff and the files it may affect, and asked for a
JSON array of findings. Its reply may hold other text around the array, and the
array other entries between the well-formed ones. Every failure counts as no
findings.
-/

namespace ChangeImpact

/-- A place that a language model believes to be affected. -/
structure Finding where
  /-- The file. -/
  file : String
  /-- The line. -/
  line : Nat
  /-- Why it is affected. -/
  reason : String
  /-- What to do about it. -/
  suggestedFix : String
  /-- How certain the model is, from 0 to 1. -/
  confidence : Float
deriving DecidableEq

/-- A language model: a name and what it answers to a prompt. -/
structure Assistant where
  /-- The name of the service. -/
  name : String
  /-- The reply to a prompt. -/
  complete : String → Except Failure String

namespace Finding

/-- A number kept between 0 and 1. -/
def clamp (x : Float) : Float :=
  let x := if x < 0.0 then 0.0 else x
  if x > 1.0 then 1.0 else x

/-- The finding that an object gives. The file, the line and the reason are needed. -/
def ofJson? (v : Json) : Option Finding := do
  let file ← (v.member? "file").bind Json.string?
  let line ← (v.member? "line").bind Json.line?
  let reason ← (v.member? "reason").bind Json.string?
  let suggestedFix := ((v.member? "suggested_fix").bind Json.string?).getD ""
  let confidence := ((v.member? "confidence").bind Json.float?).getD 0.0
  some { file, line, reason, suggestedFix, confidence := clamp confidence }

/-- A finding as JSON. -/
def toJson (f : Finding) : Json :=
  .object [("file", .string f.file), ("line", .nat f.line), ("reason", .string f.reason),
    ("suggested_fix", .string f.suggestedFix), ("confidence", .number (.float f.confidence))]

/-- The text from the first opening bracket to the last closing one. -/
def bracketed (reply : List Char) : List Char :=
  ((reply.dropWhile (· ≠ '[')).reverse.dropWhile (· ≠ ']')).reverse

/-- The findings in a reply. -/
def ofReply (reply : String) : List Finding :=
  match Json.readText (bracketed reply.toList) with
  | some (.array entries) => entries.filterMap fun v => ofJson? v.settle
  | _ => []

/-- What a language model is asked. -/
def prompt (diff : String) (files : List String) : String :=
  "You are analyzing a code change. Here is the diff:\n" ++ diff ++ "\n\n" ++
    "Here are the files that may be affected:\n" ++
    "\n".intercalate (files.map ("- " ++ ·)) ++ "\n\n" ++
    "For each affected location, respond with JSON only:\n" ++
    "[\n  \x7b\"file\": \"path\", \"line\": 1, \"reason\": \"str\", " ++
    "\"suggested_fix\": \"str\", \"confidence\": 0.9\x7d\n]\n"

/-- What a language model finds. -/
def ask (assistant : Assistant) (diff : String) (files : List String) : List Finding :=
  match assistant.complete (prompt diff files) with
  | .ok reply => ofReply reply
  | .error _ => []

end Finding

namespace Assistant

/-- The service at an address to which no connection can be made. -/
def unreachable : Assistant where
  name := "ollama"
  complete _ := .error .assistant

/-- The assistant that settings ask for, if any. Connections are not made here. -/
def ofSettings (s : Settings) : Option Assistant :=
  if s.modelEnabled then some unreachable else none

/-- An assistant with one reply to everything, or none. -/
def canned (reply : Option String) : Assistant where
  name := "canned"
  complete _ :=
    match reply with
    | some text => .ok text
    | none => .error .assistant

end Assistant

end ChangeImpact
