import ChangeImpact.Symbols.Basic

/-!
# Words for choices

Each closed choice of the domain has one lower-case word per alternative, under
which it is stored and reported. `Wording.ofText?` reads exactly those words.
-/

namespace ChangeImpact

/-- Where a dependency or an impact was found. -/
inductive DetectionMethod where
  | parser
  | llm
deriving DecidableEq, Repr, Inhabited

/-- The life of a change request. -/
inductive ChangeStatus where
  | draft
  | pendingAnalysis
  | analysisComplete
  | pendingReview
  | approved
  | rejected
deriving DecidableEq, Repr, Inhabited

/-- The state of a component. -/
inductive ComponentStatus where
  | stable
  | flagged
  | pending
  | locked
deriving DecidableEq, Repr, Inhabited

/-- What a project demands before approval. -/
inductive Strictness where
  | visibility
  | soft
  | full
deriving DecidableEq, Repr, Inhabited

/-- What a contributor may do in a component. -/
inductive ContributorRole where
  | owner
  | contributor
  | readOnly
deriving DecidableEq, Repr, Inhabited

/-- No step leads out of an approved or rejected request. -/
def ChangeStatus.isTerminal : ChangeStatus → Bool
  | approved | rejected => true
  | _ => false

/-- A closed choice with a word for each alternative. -/
class Wording (α : Type) where
  /-- The name of the choice in messages. -/
  title : String
  /-- All alternatives. -/
  all : List α
  /-- The word of an alternative. -/
  word : α → String

namespace Wording

/-- The alternative with a given word. -/
def ofText? (α : Type) [Wording α] (text : String) : Option α :=
  (all (α := α)).find? fun a => word a = text

/-- What is said of a text that is no word of the choice. -/
def unknown (α : Type) [Wording α] (text : String) : String :=
  "unknown " ++ title α ++ " value: " ++ text

end Wording

instance : Wording SymbolKind where
  title := "SymbolKind"
  all := [.function, .classType, .method, .interface, .type, .variable, .default]
  word
    | .function => "function"
    | .classType => "class"
    | .method => "method"
    | .interface => "interface"
    | .type => "type"
    | .variable => "variable"
    | .default => "default"

instance : Wording DetectionMethod where
  title := "DetectionMethod"
  all := [.parser, .llm]
  word
    | .parser => "parser"
    | .llm => "llm"

instance : Wording ChangeStatus where
  title := "ChangeStatus"
  all := [.draft, .pendingAnalysis, .analysisComplete, .pendingReview, .approved, .rejected]
  word
    | .draft => "draft"
    | .pendingAnalysis => "pending_analysis"
    | .analysisComplete => "analysis_complete"
    | .pendingReview => "pending_review"
    | .approved => "approved"
    | .rejected => "rejected"

instance : Wording ComponentStatus where
  title := "ComponentStatus"
  all := [.stable, .flagged, .pending, .locked]
  word
    | .stable => "stable"
    | .flagged => "flagged"
    | .pending => "pending"
    | .locked => "locked"

instance : Wording Strictness where
  title := "StrictnessMode"
  all := [.visibility, .soft, .full]
  word
    | .visibility => "visibility"
    | .soft => "soft"
    | .full => "full"

instance : Wording ContributorRole where
  title := "ContributorRole"
  all := [.owner, .contributor, .readOnly]
  word
    | .owner => "owner"
    | .contributor => "contributor"
    | .readOnly => "read_only"

/-- The word of an alternative. -/
def wordOf [Wording α] (a : α) : String := Wording.word a

end ChangeImpact
