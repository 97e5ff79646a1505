import ChangeImpact.Language
import ChangeImpact.Ordered

/-!
# Idle parsers

A parser is checked out of its language's pool for one file and handed back
afterwards. A pool keeps at most eight idle parsers; an empty one has a new
parser made.
-/

namespace ChangeImpact

/-- The numbers of idle parsers by language. -/
structure ParserPool where
  /-- The idle parsers of the languages that have had any. -/
  counts : List (Language × Nat) := []
deriving DecidableEq, Repr

namespace ParserPool

/-- How many idle parsers a language keeps. -/
def capacity : Nat := 8

/-- The idle parsers of a language. -/
def idle (p : ParserPool) (language : Language) : Nat :=
  (Ordered.find? language p.counts).getD 0

/-- The pool with another number of idle parsers of a language. -/
def set (p : ParserPool) (language : Language) (count : Nat) : ParserPool :=
  { counts := (language, count) :: p.counts.filter (·.1 ≠ language) }

/-- Take a parser, an idle one if there is any. -/
def checkOut (p : ParserPool) (language : Language) : ParserPool :=
  p.set language (p.idle language - 1)

/-- Hand a parser back; it is dropped when the pool is full. -/
def checkIn (p : ParserPool) (language : Language) : ParserPool :=
  p.set language (min capacity (p.idle language + 1))

/-- Parse one file, which takes a parser when the path has a language. -/
def parse (p : ParserPool) (path : String) : ParserPool :=
  match Language.detect path with
  | some language => (p.checkOut language).checkIn language
  | none => p

end ParserPool

end ChangeImpact
