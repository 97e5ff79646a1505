import ChangeImpact.Text.Pieces

/-!
# Settings

Settings are read from named variables. White space around a value does not
count, an empty value counts as missing, and a value that cannot be read keeps
the default.
-/

namespace ChangeImpact

/-- How the program is set up. -/
structure Settings where
  /-- Where the language model is reached. -/
  modelBaseUrl : String := "http://localhost:11434"
  /-- Which language model is asked. -/
  modelName : String := "deepseek-coder:6.7b"
  /-- How long to wait for the language model, in seconds. -/
  modelTimeout : Nat := 60
  /-- Whether to ask the language model at all. -/
  modelEnabled : Bool := true
  /-- How many files are parsed side by side. -/
  parseWorkers : Nat := 4
  /-- The age in hours at which open impacts are acknowledged by themselves. -/
  autoconfirmAfterHours : Int := 24
  /-- The time between two sweeps, in seconds. -/
  autoconfirmInterval : Nat := 3600
  /-- Whether files with sensitive names are left out of scans. -/
  excludeSensitive : Bool := true
deriving DecidableEq, Repr

namespace Settings

/-- The number that one or more decimal digits spell. -/
def digits? (cs : List Char) : Option Nat :=
  if cs.isEmpty ∨ cs.any (!·.isDigit) then none
  else some (cs.foldl (fun n c => n * 10 + (c.toNat - '0'.toNat)) 0)

/-- An unsigned number of 64 bits; a plus may lead. -/
def unsigned? (text : String) : Option Nat :=
  let body :=
    match text.toList with
    | '+' :: cs => cs
    | cs => cs
  (digits? body).filter (· < Nat.pow 2 64)

/-- A signed number of `bits + 1` bits; a plus or a minus may lead. -/
def signed? (bits : Nat) (text : String) : Option Int :=
  match text.toList with
  | '-' :: cs => ((digits? cs).filter (· ≤ Nat.pow 2 bits)).map fun n => -(n : Int)
  | '+' :: cs => ((digits? cs).filter (· < Nat.pow 2 bits)).map fun n => (n : Int)
  | cs => ((digits? cs).filter (· < Nat.pow 2 bits)).map fun n => (n : Int)

/-- The trimmed value of a variable, unless it is empty. -/
def value? (lookup : String → Option String) (name : String) : Option String :=
  ((lookup name).map Text.trim).filter (· ≠ "")

/-- A switch is on unless its value says no. The four words hold no letter to which
lower-casing takes a character outside ASCII. -/
def switch (value : Option String) : Bool :=
  match value with
  | none => true
  | some v => !(["0", "false", "no", "off"].contains (Text.asciiLower v))

/-- The settings that some variables give. -/
def load (lookup : String → Option String) : Settings :=
  let defaults : Settings := {}
  let value := value? lookup
  { modelBaseUrl :=
      ((value "RIPPLE_OLLAMA_BASE_URL").map (Text.trimEndBy (· == '/'))).getD
        defaults.modelBaseUrl
    modelName := (value "RIPPLE_OLLAMA_MODEL").getD defaults.modelName
    modelTimeout :=
      ((value "RIPPLE_IMPACT_ENGINE_TIMEOUT").bind unsigned?).getD defaults.modelTimeout
    modelEnabled := switch (value "RIPPLE_LLM_ENABLED")
    parseWorkers :=
      (((value "RIPPLE_PARSE_WORKERS").bind unsigned?).map (max 1)).getD defaults.parseWorkers
    autoconfirmAfterHours :=
      (((value "RIPPLE_AUTOCONFIRM_AFTER_HOURS").bind (signed? 63)).filter (0 < ·)).getD
        defaults.autoconfirmAfterHours
    autoconfirmInterval :=
      (((value "RIPPLE_AUTOCONFIRM_INTERVAL_SECS").bind unsigned?).filter (0 < ·)).getD
        defaults.autoconfirmInterval
    excludeSensitive := switch (value "RIPPLE_EXCLUDE_SENSITIVE") }

end Settings

end ChangeImpact
