import ChangeImpact.Proofs.Changed
import ChangeImpact.Proofs.Extraction.Defaults
import ChangeImpact.Proofs.Text.Pieces

/-!
# Signatures of exported functions

A function is exported by its declaration, as the default, or as the value of a variable. In the
first two forms its signature is the name, the parameter list and the return type, one behind the
other. In the third it is the first line of the declarator, which has all of the parameter list and
the return type only when they stand on that line. A change of either is a change of the export
wherever the signature has it.
-/

namespace ChangeImpact

open Syntax

namespace TypeScript

variable {source : Bytes} {t d c v : Tree} {name : String}

/-! ## How functions are written -/

/-- The parameter list of a function. -/
def parameterText (v : Tree) (source : Bytes) : String :=
  ((v.fieldText "parameters" source).or (v.fieldText "parameter" source)).getD ""

theorem functionSignature_eq (v : Tree) (name : String) (source : Bytes) :
    functionSignature v name source =
      name ++ parameterText v source ++ v.fieldTextD "return_type" source := rfl

/-- The forms in which a function is exported. -/
inductive FunctionForm where
  | declaration
  | default
  | value

/-- How a function is written. -/
structure FunctionText where
  /-- In the form of a variable, what stands in front of the body, from the name of the variable to
  the arrow or the brace that opens the body. -/
  head : String := ""
  parameters : String
  returns : String

/-- A statement that exports a function, with its form and the texts that belong to it. -/
inductive WritesFunction (source : Bytes) (name : String) :
    FunctionForm → Tree → FunctionText → Prop
  /-- By a declaration. -/
  | declaration {t d : Tree} (ht : t.kind = "export_statement")
      (hnamed : ∀ c ∈ t.children, c.kind ≠ "default") (hd : t.field? "declaration" = some d)
      (hkind : d.kind = "function_declaration" ∨ d.kind = "generator_function_declaration")
      (hname : d.fieldText "name" source = some name) :
      WritesFunction source name .declaration t
        { parameters := parameterText d source, returns := d.fieldTextD "return_type" source }
  /-- As the default, under its name if it has one. -/
  | default {t v : Tree} (ht : ExportsDefault t)
      (hv : (t.field? "declaration").or (t.field? "value") = some v)
      (hkind : v.kind ∈ functionKinds) (hname : (defaultExport t source).name = name) :
      WritesFunction source name .default t
        { parameters := parameterText v source, returns := v.fieldTextD "return_type" source }
  /-- As the value of a variable. -/
  | value {t d c v : Tree} {head rest : String} (ht : t.kind = "export_statement")
      (hnamed : ∀ c ∈ t.children, c.kind ≠ "default") (hd : t.field? "declaration" = some d)
      (hdkind : d.kind = "lexical_declaration" ∨ d.kind = "variable_declaration")
      (hc : c ∈ d.namedChildren) (hckind : c.kind = "variable_declarator")
      (hname : ∃ id, c.field? "name" = some id ∧ id.kind = "identifier" ∧ id.text source = name)
      (hv : c.field? "value" = some v)
      (hkind : v.kind ∈ ["arrow_function", "function_expression", "generator_function"])
      (htext : c.text source = head ++ rest) :
      WritesFunction source name .value t
        { head, parameters := parameterText v source, returns := v.fieldTextD "return_type" source }

theorem WritesFunction.kind {form : FunctionForm} {w : FunctionText}
    (h : WritesFunction source name form t w) : t.kind = "export_statement" := by
  cases h with
  | declaration ht => exact ht
  | default ht => exact ht.kind
  | value ht => exact ht

/-- A signature that has the texts of a function as its form has them. -/
def FunctionText.Signs (w : FunctionText) (name : String) : FunctionForm → String → Prop
  | .value, signature => ∃ rest, signature = Text.firstLine (w.head ++ rest)
  | _, signature => signature = name ++ w.parameters ++ w.returns

theorem signature_defaultExport (hv : (t.field? "declaration").or (t.field? "value") = some v)
    (hkind : v.kind ∈ functionKinds) :
    (defaultExport t source).signature =
      functionSignature v (defaultExport t source).name source := by
  rw [defaultExport, hv]
  exact if_pos (List.contains_iff_mem.mpr hkind)

/-- An exported declaration exports what it declares. -/
theorem exportsOf_declaration (hnamed : ∀ c ∈ t.children, c.kind ≠ "default")
    (hd : t.field? "declaration" = some d) :
    exportsOf t source = declarationExports d (t.line source) source := by
  rw [exportsOf, if_neg (not_any_default hnamed), hd]

theorem variableExport_mem_declarationExports {line : Nat} {x : Export}
    (hd : d.kind = "lexical_declaration" ∨ d.kind = "variable_declaration")
    (hc : c ∈ d.namedChildren) (hckind : c.kind = "variable_declarator")
    (hx : variableExport line source c = some x) : x ∈ declarationExports d line source := by
  have heq : declarationExports d line source =
      (d.namedChildren.filter (·.kind = "variable_declarator")).filterMap
        (variableExport line source) := by
    rcases hd with h | h
    all_goals simp [declarationExports, h]
  rw [heq]
  exact List.mem_filterMap.mpr ⟨c, List.mem_filter.mpr ⟨hc, decide_eq_true hckind⟩, hx⟩

/-- A statement exports the function that it writes, with a signature in its form. -/
theorem WritesFunction.exists_export {form : FunctionForm} {w : FunctionText}
    (h : WritesFunction source name form t w) :
    ∃ x ∈ exportsOf t source, x.name = name ∧ w.Signs name form x.signature := by
  cases h with
  | declaration ht hnamed hd hkind hname =>
    rw [exportsOf_declaration hnamed hd, declarationExports, if_pos hkind, hname]
    exact ⟨_, List.mem_singleton_self _, rfl, rfl⟩
  | default ht hv hkind hname =>
    rw [exportsOf_default ht]
    refine ⟨_, List.mem_singleton_self _, hname, ?_⟩
    rw [signature_defaultExport hv hkind, hname]
    rfl
  | @value _ d c v head rest ht hnamed hd hdkind hc hckind hname hv hkind htext =>
    obtain ⟨id, hid, hidkind, rfl⟩ := hname
    have hx : variableExport (t.line source) source c =
        some { name := id.text source, kind := .variable
               signature := Text.firstLine (c.text source), line := t.line source } := by
      rw [variableExport, hid]
      exact if_neg (not_not_intro hidkind)
    rw [exportsOf_declaration hnamed hd]
    exact ⟨_, variableExport_mem_declarationExports hdkind hc hckind hx, rfl, rest, htext ▸ rfl⟩

/-! ## Texts that are read from left to right -/

/-- One of two texts is the start of the other. -/
def Comparable (a b : String) : Prop := a.toList <+: b.toList ∨ b.toList <+: a.toList

/-- A text without a line end. -/
def OneLine (s : String) : Prop := '\n' ∉ s.toList ∧ '\r' ∉ s.toList

instance (a b : String) : Decidable (Comparable a b) := inferInstanceAs (Decidable (_ ∨ _))

instance (s : String) : Decidable (OneLine s) := inferInstanceAs (Decidable (_ ∧ _))

theorem Comparable.symm {a b : String} (h : Comparable a b) : Comparable b a := Or.symm h

theorem comparable_of_append_eq {a b r r' : String} (h : a ++ r = b ++ r') : Comparable a b := by
  have hlists : a.toList ++ r.toList = b.toList ++ r'.toList := by
    rw [← String.toList_append, h, String.toList_append]
  exact List.prefix_or_prefix_of_prefix (List.prefix_append _ r.toList)
    (hlists ▸ List.prefix_append b.toList r'.toList)

/-- A text on one line is seen in the first line of what it starts. -/
theorem comparable_of_firstLine_eq {a b r r' : String} (ha : OneLine a)
    (h : Text.firstLine (a ++ r) = Text.firstLine (b ++ r')) : Comparable a b := by
  have hfirst : a.toList <+: (Text.firstLine (b ++ r')).toList :=
    h ▸ Text.prefix_firstLine ha.1 ha.2
  have hwhole : b.toList <+: (b ++ r').toList := by
    rw [String.toList_append]
    exact List.prefix_append ..
  exact List.prefix_or_prefix_of_prefix (hfirst.trans (Text.firstLine_prefix _)) hwhole

/-- A joined signature falls into its texts in one way when the parameter lists end apart. -/
theorem eq_of_joined_eq {p q r r' : String} (h : name ++ p ++ r = name ++ q ++ r')
    (hread : Comparable p q → p = q) : p = q ∧ r = r' := by
  rw [String.append_assoc, String.append_assoc, String.append_right_inj] at h
  have hparameters := hread (comparable_of_append_eq h)
  rw [hparameters, String.append_right_inj] at h
  exact ⟨hparameters, h⟩

/-- Two functions are read from left to right: a parameter list ends where it is complete, whatever
comes behind it, and so does what stands in front of a body. -/
def FunctionText.Delimited (v w : FunctionText) : FunctionForm → Prop
  | .value => Comparable v.head w.head → v.parameters = w.parameters ∧ v.returns = w.returns
  | _ => Comparable v.parameters w.parameters → v.parameters = w.parameters

/-- A signature determines the texts of the function, in the form of a variable if it has all of
what stands in front of the body of one of two. -/
theorem FunctionText.eq_of_signs {form : FunctionForm} {v w : FunctionText} {signature : String}
    (hv : v.Signs name form signature) (hw : w.Signs name form signature)
    (hread : v.Delimited w form) (hline : form = .value → OneLine v.head ∨ OneLine w.head) :
    v.parameters = w.parameters ∧ v.returns = w.returns := by
  cases form with
  | declaration => exact eq_of_joined_eq (hv.symm.trans hw) hread
  | default => exact eq_of_joined_eq (hv.symm.trans hw) hread
  | value =>
    obtain ⟨r, hr⟩ := hv
    obtain ⟨r', hr'⟩ := hw
    have hsame := hr.symm.trans hr'
    rcases hline rfl with hline | hline
    · exact hread (comparable_of_firstLine_eq hline hsame)
    · exact hread (comparable_of_firstLine_eq hline hsame.symm).symm

end TypeScript

open TypeScript

/-! ## Changed exports -/

/-- A file exports a name once. -/
def ParsedFile.ExportsOnce (f : ParsedFile) (name : String) : Prop := (f.offers name).length = 1

theorem ParsedFile.ExportsOnce.offers_eq {f : ParsedFile} {name : String} {x : Export}
    (h : f.ExportsOnce name) (hx : x ∈ f.exports) (hname : x.name = name) :
    f.offers name = [x.shape] := by
  obtain ⟨shape, hshape⟩ := List.length_eq_one_iff.mp h
  have hmem : x.shape ∈ f.offers name :=
    List.mem_map_of_mem (List.mem_filter.mpr ⟨hx, decide_eq_true hname⟩)
  rw [hshape] at hmem ⊢
  rw [List.mem_singleton.mp hmem]

/-- A name that two files export once is changed exactly if the two exports differ. -/
theorem ParsedFile.ExportsOnce.mem_changedExports {f g : ParsedFile} {name : String} {x y : Export}
    (hf : f.ExportsOnce name) (hg : g.ExportsOnce name) (hx : x ∈ f.exports)
    (hxname : x.name = name) (hy : y ∈ g.exports) (hyname : y.name = name) :
    name ∈ changedExports (some f) g ↔ x.shape ≠ y.shape := by
  rw [mem_changedExports_some, hf.offers_eq hx hxname, hg.offers_eq hy hyname]
  simp

variable {first second : ScriptFile} {form : FunctionForm} {s t : Tree} {v w : FunctionText}
  {name : String}

/-- A function that two files export in the same form, each once under its name, is changed when its
parameter list or its return type is written in another way. In the form of a variable what stands
in front of the body has to be on one line in one of the files. -/
theorem function_change_seen (hfirst : first.parsed.ExportsOnce name)
    (hsecond : second.parsed.ExportsOnce name) (hs : s ∈ first.tree.preorder)
    (ht : t ∈ second.tree.preorder) (hv : WritesFunction first.source name form s v)
    (hw : WritesFunction second.source name form t w) (hread : v.Delimited w form)
    (hline : form = .value → OneLine v.head ∨ OneLine w.head)
    (hdiffer : v.parameters ≠ w.parameters ∨ v.returns ≠ w.returns) :
    name ∈ changedExports (some first.parsed) second.parsed := by
  obtain ⟨x, hx, hxname, hxsigns⟩ := hv.exists_export
  obtain ⟨y, hy, hyname, hysigns⟩ := hw.exists_export
  have hxmem : x ∈ first.parsed.exports := ScriptFile.mem_exports.mpr ⟨s, hs, hv.kind, hx⟩
  have hymem : y ∈ second.parsed.exports := ScriptFile.mem_exports.mpr ⟨t, ht, hw.kind, hy⟩
  rw [hfirst.mem_changedExports hsecond hxmem hxname hymem hyname]
  intro hsame
  have hsignature : y.signature = x.signature := (congrArg Prod.snd hsame).symm
  obtain ⟨hparameters, hreturns⟩ :=
    FunctionText.eq_of_signs hxsigns (hsignature ▸ hysigns) hread hline
  exact hdiffer.elim (absurd hparameters) (absurd hreturns)

/-- The function of a file below; `gap` octets stand on both sides of its one parameter. -/
def sampleArrowFunction (gap : Nat) : Tree :=
  .node ⟨"arrow_function", true, some "value", 17, 25 + 2 * gap⟩
    [.node ⟨"formal_parameters", true, some "parameters", 17, 20 + 2 * gap⟩
        [.node ⟨"(", false, none, 17, 18⟩ [],
          .node ⟨"required_parameter", true, none, 18 + gap, 19 + gap⟩
            [.node ⟨"identifier", true, some "pattern", 18 + gap, 19 + gap⟩ []],
          .node ⟨")", false, none, 19 + 2 * gap, 20 + 2 * gap⟩ []],
      .node ⟨"=>", false, none, 21 + 2 * gap, 23 + 2 * gap⟩ [],
      .node ⟨"number", true, some "body", 24 + 2 * gap, 25 + 2 * gap⟩ []]

/-- The variable that has the function as its value. -/
def sampleArrowDeclarator (gap : Nat) : Tree :=
  .node ⟨"variable_declarator", true, none, 13, 25 + 2 * gap⟩
    [.node ⟨"identifier", true, some "name", 13, 14⟩ [],
      .node ⟨"=", false, none, 15, 16⟩ [],
      sampleArrowFunction gap]

/-- The statement that exports the variable. -/
def sampleArrowStatement (gap : Nat) : Tree :=
  .node ⟨"export_statement", true, none, 0, 25 + 2 * gap⟩
    [.node ⟨"export", false, none, 0, 6⟩ [],
      .node ⟨"lexical_declaration", true, some "declaration", 7, 25 + 2 * gap⟩
        [.node ⟨"const", false, some "kind", 7, 12⟩ [], sampleArrowDeclarator gap]]

/-- A file with that statement, and nothing else. -/
def sampleArrow (gap name : String) : ScriptFile where
  path := "core/f.ts"
  language := .typeScript
  isScript := Language.isScript_typeScript
  source := Utf8.encode ("export const f = (" ++ gap ++ name ++ gap ++ ") => 1")
  tree := .node ⟨"program", true, none, 0, 25 + 2 * gap.length⟩ [sampleArrowStatement gap.length]

/-- How the function is written. -/
def sampleArrowText (gap name : String) : FunctionText where
  head := "f = (" ++ gap ++ name ++ gap ++ ") =>"
  parameters := parameterText (sampleArrowFunction gap.length) (sampleArrow gap name).source
  returns := (sampleArrowFunction gap.length).fieldTextD "return_type" (sampleArrow gap name).source

theorem writesFunction_sampleArrow {gap name : String}
    (hname : (sampleArrowDeclarator gap.length).fieldText "name" (sampleArrow gap name).source =
      some "f")
    (htext : (sampleArrowDeclarator gap.length).text (sampleArrow gap name).source =
      (sampleArrowText gap name).head ++ " 1") :
    WritesFunction (sampleArrow gap name).source "f" .value (sampleArrowStatement gap.length)
      (sampleArrowText gap name) := by
  have hnamed : ∀ c ∈ (sampleArrowStatement gap.length).children, c.kind ≠ "default" := by
    simp [sampleArrowStatement, Tree.children, Tree.kind, Tree.label]
  have hkind : (sampleArrowFunction gap.length).kind ∈
      ["arrow_function", "function_expression", "generator_function"] := List.mem_cons_self
  exact .value rfl hnamed rfl (.inl rfl) (List.mem_singleton_self _) rfl
    ⟨_, rfl, rfl, Option.some.inj hname⟩ rfl hkind htext

theorem mem_sampleArrow (gap name : String) :
    sampleArrowStatement gap.length ∈ (sampleArrow gap name).tree.preorder :=
  List.mem_cons_of_mem _ List.mem_cons_self

/-- On one line a new name of the parameter is seen. -/
theorem sample_function_change_seen :
    (sampleArrow "" "a").parsed.ExportsOnce "f" ∧ (sampleArrow "" "b").parsed.ExportsOnce "f" ∧
      "f" ∈ changedExports (some (sampleArrow "" "a").parsed) (sampleArrow "" "b").parsed := by
  have hfirst : (sampleArrow "" "a").parsed.ExportsOnce "f" := by
    rw [ParsedFile.ExportsOnce]
    decide +kernel
  have hsecond : (sampleArrow "" "b").parsed.ExportsOnce "f" := by
    rw [ParsedFile.ExportsOnce]
    decide +kernel
  have hapart : ¬Comparable (sampleArrowText "" "a").head (sampleArrowText "" "b").head := by
    decide +kernel
  exact ⟨hfirst, hsecond, function_change_seen hfirst hsecond (mem_sampleArrow "" "a")
    (mem_sampleArrow "" "b") (writesFunction_sampleArrow (by decide +kernel) (by decide +kernel))
    (writesFunction_sampleArrow (by decide +kernel) (by decide +kernel))
    (fun hcomparable => absurd hcomparable hapart) (fun _ => .inl (by decide +kernel))
    (.inl (by decide +kernel))⟩

/-- With the parameter on a line of its own it is not. -/
theorem sample_function_change_unseen :
    (sampleArrow "\n" "a").parsed.ExportsOnce "f" ∧ (sampleArrow "\n" "b").parsed.ExportsOnce "f" ∧
      WritesFunction (sampleArrow "\n" "a").source "f" .value (sampleArrowStatement 1)
        (sampleArrowText "\n" "a") ∧
      WritesFunction (sampleArrow "\n" "b").source "f" .value (sampleArrowStatement 1)
        (sampleArrowText "\n" "b") ∧
      (sampleArrowText "\n" "a").parameters ≠ (sampleArrowText "\n" "b").parameters ∧
      changedExports (some (sampleArrow "\n" "a").parsed) (sampleArrow "\n" "b").parsed = [] := by
  refine ⟨?_, ?_, writesFunction_sampleArrow (by decide +kernel) (by decide +kernel),
    writesFunction_sampleArrow (by decide +kernel) (by decide +kernel), by decide +kernel,
    by decide +kernel⟩
  all_goals
    rw [ParsedFile.ExportsOnce]
    decide +kernel

end ChangeImpact
