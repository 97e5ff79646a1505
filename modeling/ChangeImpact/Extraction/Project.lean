import ChangeImpact.Extraction.C
import ChangeImpact.Extraction.CSharp
import ChangeImpact.Extraction.Go
import ChangeImpact.Extraction.Java
import ChangeImpact.Extraction.Php
import ChangeImpact.Extraction.Python
import ChangeImpact.Extraction.Ruby
import ChangeImpact.Extraction.Rust
import ChangeImpact.Extraction.TypeScript

/-!
# Parsing files

A file is parsed by the rules of the language that its extension names. The
syntax tree is a function of language and source, supplied from outside; so
parsing a file never fails, and a batch keeps the order of its files.
-/

namespace ChangeImpact

/-- The rules of a language. -/
def Language.extractor : Language → Extractor
  | .typeScript | .tsx | .javaScript => TypeScript.extractor
  | .python => Python.extractor
  | .go => Go.extractor
  | .rust => Rust.extractor
  | .java => Java.extractor
  | .c | .cpp => C.extractor
  | .cSharp => CSharp.extractor
  | .php => Php.extractor
  | .ruby => Ruby.extractor

/-- The syntax tree of a source text in a language. -/
abbrev Grammar := Language → Bytes → Syntax.Tree

/-- The content of one file. -/
structure SourceFile where
  /-- Its path in the project. -/
  path : String
  /-- Its octets. -/
  content : Bytes
deriving DecidableEq, Repr

/-- What became of a batch of files. -/
structure BatchReport where
  /-- The files with a language, parsed, in order. -/
  parsed : List Extracted
  /-- The paths without a language, in order. -/
  skipped : List String

/-- Parse a source as a given language. -/
def parseAs (grammar : Grammar) (language : Language) (path : String) (source : Bytes) :
    Extracted :=
  language.extractor.run language path (grammar language source) source

/-- Parse a file by its extension; none when no language has it. -/
def parseFile (grammar : Grammar) (path : String) (source : Bytes) : Option Extracted :=
  (Language.detect path).map fun language => parseAs grammar language path source

/-- Parse every file of a batch. -/
def parseSources (grammar : Grammar) (files : List SourceFile) : BatchReport where
  parsed := files.filterMap fun f => parseFile grammar f.path f.content
  skipped := (files.filter fun f => (Language.detect f.path).isNone).map (·.path)

end ChangeImpact
