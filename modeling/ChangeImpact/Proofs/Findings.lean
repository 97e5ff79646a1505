import ChangeImpact.Findings
import ChangeImpact.Proofs.Json.Reader
import ChangeImpact.Proofs.Ordered
import Mathlib.Data.String.Basic

/-!
# The findings in a reply

The array of a reply stands from the first opening bracket to the last closing one. Where no
bracket follows the array that is the array itself, and the findings are what its well-formed
entries say, whatever else they hold and whatever stands between them. A closing bracket in the
text after the array is taken for its end, and the reply then has no findings.
-/

namespace ChangeImpact

namespace Json

/-- An object has a member. -/
def Has (v : Json) (name : String) (x : Json) : Prop :=
  ∃ members, v = .object members ∧ (name, x) ∈ members

/-- An object has one value per key, keys ascending. -/
def IsSettled (v : Json) : Prop :=
  ∀ members, v = .object members → (members.map (·.1)).Pairwise (· < ·)

theorem pairwise_settleMembers (ms : List (String × Json)) :
    ((settleMembers ms).map (·.1)).Pairwise (· < ·) := by
  induction ms with
  | nil => exact List.Pairwise.nil
  | cons m ms ih =>
    rw [settleMembers]
    split
    · exact ih
    · exact Ordered.pairwise_keys_alter ih

theorem isSettled_settle (v : Json) : v.settle.IsSettled := by
  intro members h
  cases v with
  | object ms =>
    cases h
    exact pairwise_settleMembers ms
  | _ => cases h

theorem settleAll_eq_map (vs : List Json) : settleAll vs = vs.map settle := by
  induction vs with
  | nil => rfl
  | cons v vs ih => rw [settleAll, ih, List.map_cons]

theorem IsSettled.member?_eq_some_iff {v x : Json} {name : String} (h : v.IsSettled) :
    v.member? name = some x ↔ v.Has name x := by
  have hfound {members : List (String × Json)} {m : String × Json}
      (hm : members.reverse.find? (·.1 = name) = some m) : (name, m.2) ∈ members := by
    have hname : m.1 = name := by simpa using List.find?_some hm
    exact hname ▸ List.mem_reverse.mp (List.mem_of_find?_eq_some hm)
  constructor
  · intro hx
    cases v with
    | object members =>
      obtain ⟨m, hm, rfl⟩ := Option.map_eq_some_iff.mp hx
      exact ⟨members, rfl, hfound hm⟩
    | _ => cases hx
  · rintro ⟨members, rfl, hx⟩
    have hkeys := h members rfl
    rw [member?]
    cases hm : members.reverse.find? (·.1 = name) with
    | none =>
      exact absurd (decide_eq_true rfl)
        (List.find?_eq_none.mp hm (name, x) (List.mem_reverse.mpr hx))
    | some m =>
      have hvalue : some m.2 = some x :=
        (Ordered.find?_eq_some_of_mem hkeys (hfound hm)).symm.trans
          (Ordered.find?_eq_some_of_mem hkeys hx)
      exact hvalue

section Members

variable {v : Json} {name : String}

theorem IsSettled.string?_iff (h : v.IsSettled) {s : String} :
    (v.member? name).bind string? = some s ↔ v.Has name (.string s) := by
  rw [Option.bind_eq_some_iff, ← h.member?_eq_some_iff]
  constructor
  · rintro ⟨x, hx, hs⟩
    cases x with
    | string t =>
      cases hs
      exact hx
    | _ => cases hs
  · exact fun hx => ⟨_, hx, rfl⟩

theorem IsSettled.line?_iff (h : v.IsSettled) {n : Nat} :
    (v.member? name).bind line? = some n ↔ v.Has name (.nat n) ∧ n < 2 ^ 32 := by
  rw [Option.bind_eq_some_iff, ← h.member?_eq_some_iff]
  constructor
  · rintro ⟨x, hx, hn⟩
    obtain ⟨hnat, hlimit⟩ := Option.filter_eq_some_iff.mp hn
    cases x with
    | number m =>
      cases m with
      | int i =>
        cases i with
        | ofNat k =>
          cases hnat
          exact ⟨hx, of_decide_eq_true hlimit⟩
        | negSucc k => cases hnat
      | float x => cases hnat
    | _ => cases hnat
  · rintro ⟨hx, hlimit⟩
    exact ⟨_, hx, Option.filter_eq_some_iff.mpr ⟨rfl, decide_eq_true hlimit⟩⟩

theorem IsSettled.float?_iff (h : v.IsSettled) {x : Float} :
    (v.member? name).bind float? = some x ↔ ∃ w, v.Has name w ∧ w.float? = some x := by
  rw [Option.bind_eq_some_iff]
  exact exists_congr fun w => and_congr_left fun _ => h.member?_eq_some_iff

end Members

end Json

namespace Finding

/-- A number is kept between 0 and 1. -/
structure Clamps (x y : Float) : Prop where
  below : x < 0.0 → y = 0.0
  above : ¬x < 0.0 → x > 1.0 → y = 1.0
  within : ¬x < 0.0 → ¬x > 1.0 → y = x

theorem clamps_clamp (x : Float) : Clamps x (clamp x) := by
  have hzero : ¬(0.0 : Float) > 1.0 := by decide +kernel
  constructor
  case below =>
    intro h
    simp only [clamp, if_pos h, if_neg hzero]
  case above =>
    intro hbelow h
    simp only [clamp, if_neg hbelow, if_pos h]
  case within =>
    intro hbelow h
    simp only [clamp, if_neg hbelow, if_neg h]

theorem Clamps.eq {x y : Float} (h : Clamps x y) : y = clamp x := by
  have hx := clamps_clamp x
  by_cases hbelow : x < 0.0
  · rw [h.below hbelow, hx.below hbelow]
  by_cases habove : x > 1.0
  · rw [h.above hbelow habove, hx.above hbelow habove]
  · rw [h.within hbelow habove, hx.within hbelow habove]

theorem clamp_zero : clamp 0.0 = 0.0 := by decide +kernel

/-- What a well-formed entry of the array says. -/
structure Describes (v : Json) (f : Finding) : Prop where
  file : v.Has "file" (.string f.file)
  line : v.Has "line" (.nat f.line)
  fits : f.line < 2 ^ 32
  reason : v.Has "reason" (.string f.reason)
  /-- A suggestion that is missing or is not a text is read as empty. -/
  suggestedFix : v.Has "suggested_fix" (.string f.suggestedFix) ∨
    f.suggestedFix = "" ∧ ∀ s, ¬v.Has "suggested_fix" (.string s)
  /-- A confidence that is missing or is not a number is read as 0. -/
  confidence : (∃ w x, v.Has "confidence" w ∧ w.float? = some x ∧ Clamps x f.confidence) ∨
    f.confidence = 0.0 ∧ ∀ w x, v.Has "confidence" w → w.float? ≠ some x

theorem ofJson?_eq_some_iff {v : Json} (hv : v.IsSettled) {f : Finding} :
    ofJson? v = some f ↔ Describes v f := by
  constructor
  · intro h
    obtain ⟨file, hfile, h⟩ := Option.bind_eq_some_iff.mp h
    obtain ⟨line, hline, h⟩ := Option.bind_eq_some_iff.mp h
    obtain ⟨reason, hreason, h⟩ := Option.bind_eq_some_iff.mp h
    cases h
    obtain ⟨hnumber, hfits⟩ := hv.line?_iff.mp hline
    refine ⟨hv.string?_iff.mp hfile, hnumber, hfits, hv.string?_iff.mp hreason, ?_, ?_⟩
    · cases hfix : (v.member? "suggested_fix").bind Json.string? with
      | some s => exact .inl (hv.string?_iff.mp hfix)
      | none =>
        refine .inr ⟨rfl, fun s hs => ?_⟩
        rw [hv.string?_iff.mpr hs] at hfix
        cases hfix
    · cases hconfidence : (v.member? "confidence").bind Json.float? with
      | some x =>
        obtain ⟨w, hw, hx⟩ := hv.float?_iff.mp hconfidence
        exact .inl ⟨w, x, hw, hx, clamps_clamp x⟩
      | none =>
        refine .inr ⟨clamp_zero, fun w x hw hx => ?_⟩
        rw [hv.float?_iff.mpr ⟨w, hw, hx⟩] at hconfidence
        cases hconfidence
  · intro h
    have hfix : ((v.member? "suggested_fix").bind Json.string?).getD "" = f.suggestedFix := by
      rcases h.suggestedFix with hs | ⟨hempty, hnone⟩
      · rw [hv.string?_iff.mpr hs, Option.getD_some]
      · rw [hempty, Option.eq_none_iff_forall_ne_some.mpr fun s hs => hnone s (hv.string?_iff.mp hs),
          Option.getD_none]
    have hconfidence : clamp (((v.member? "confidence").bind Json.float?).getD 0.0) =
        f.confidence := by
      rcases h.confidence with ⟨w, x, hw, hx, hclamps⟩ | ⟨hzero, hnone⟩
      · rw [hv.float?_iff.mpr ⟨w, hw, hx⟩, Option.getD_some, hclamps.eq]
      · have hmissing : (v.member? "confidence").bind Json.float? = none := by
          refine Option.eq_none_iff_forall_ne_some.mpr fun x hx => ?_
          obtain ⟨w, hw, hx⟩ := hv.float?_iff.mp hx
          exact hnone w x hw hx
        rw [hzero, hmissing, Option.getD_none, clamp_zero]
    simp only [ofJson?, hv.string?_iff.mpr h.file, hv.line?_iff.mpr ⟨h.line, h.fits⟩,
      hv.string?_iff.mpr h.reason, hfix, hconfidence, Option.bind_eq_bind, Option.bind_some]

/-- The findings that entries say, in their order, malformed entries passed over. -/
inductive Said : List Json → List Finding → Prop where
  | nil : Said [] []
  | keep {v : Json} {f : Finding} {vs : List Json} {fs : List Finding} (h : Describes v f)
    (rest : Said vs fs) : Said (v :: vs) (f :: fs)
  | drop {v : Json} {vs : List Json} {fs : List Finding} (h : ∀ f, ¬Describes v f)
    (rest : Said vs fs) : Said (v :: vs) fs

/-- Settled entries that are read one by one. -/
theorem said_filterMap {vs : List Json} (h : ∀ v ∈ vs, v.IsSettled) :
    Said vs (vs.filterMap ofJson?) := by
  induction vs with
  | nil => exact .nil
  | cons v vs ih =>
    have hv : v.IsSettled := h v List.mem_cons_self
    have hrest := ih fun w hw => h w (List.mem_cons_of_mem _ hw)
    cases hf : ofJson? v with
    | some f =>
      rw [List.filterMap_cons_some hf]
      exact .keep ((ofJson?_eq_some_iff hv).mp hf) hrest
    | none =>
      rw [List.filterMap_cons_none hf]
      refine .drop (fun f hd => ?_) hrest
      rw [(ofJson?_eq_some_iff hv).mpr hd] at hf
      cases hf

section Brackets

variable {before body between after : List Char}

theorem dropWhile_ne_append {c : Char} {front rest : List Char} (h : c ∉ front) :
    (front ++ c :: rest).dropWhile (· ≠ c) = c :: rest := by
  have hfront : ∀ d ∈ front, decide (d ≠ c) = true := by
    rintro d hd
    rw [decide_eq_true_iff]
    rintro rfl
    exact h hd
  rw [List.dropWhile_append_of_pos hfront]
  exact List.dropWhile_cons_of_neg (by simp)

/-- From the first opening bracket to the last closing one. -/
theorem bracketed_eq (hbefore : '[' ∉ before) (hafter : ']' ∉ after) :
    bracketed (before ++ '[' :: body ++ ']' :: after) = '[' :: body ++ [']'] := by
  have hturned : ('[' :: (body ++ ']' :: after)).reverse =
      after.reverse ++ ']' :: ('[' :: body).reverse := by simp
  rw [bracketed, List.append_assoc, List.cons_append, dropWhile_ne_append hbefore, hturned,
    dropWhile_ne_append (by simpa using hafter)]
  simp

/-- A closing bracket after the array is taken for its end. -/
theorem bracketed_eq_of_mem (body : List Char) (hbefore : '[' ∉ before) (hafter : ']' ∈ after) :
    ∃ between, bracketed (before ++ '[' :: body ++ after) = '[' :: body ++ between ++ [']'] := by
  obtain ⟨rest, between, hturned, hrest⟩ :=
    List.eq_append_cons_of_mem (List.mem_reverse.mpr hafter)
  have hsplit : after = between.reverse ++ ']' :: rest.reverse := by
    rw [← List.reverse_reverse after, hturned]
    simp
  have hlast : bracketed (before ++ '[' :: (body ++ between.reverse) ++ ']' :: rest.reverse) =
      '[' :: (body ++ between.reverse) ++ [']'] :=
    bracketed_eq hbefore (by rwa [List.mem_reverse])
  refine ⟨between.reverse, ?_⟩
  rw [hsplit]
  simpa using hlast

end Brackets

theorem not_mem_of_isBlank {b : List Char} (h : Json.IsBlank b) {c : Char}
    (hc : Json.isJsonBlank c = false) : c ∉ b :=
  fun hmem => Bool.eq_false_iff.mp hc (h c hmem)

/-- The text of an array is read from its opening bracket to its closing one. -/
theorem exists_part_of_read {a : String} {vs : List Json} (h : Json.read a = some (.array vs)) :
    ∃ b body c, Json.IsBlank b ∧ Json.IsBlank c ∧ a.toList = b ++ '[' :: body ++ ']' :: c ∧
      Json.Takes (Json.readValue · Json.maxDepth) ('[' :: body ++ [']']) (.array vs) := by
  unfold Json.read Json.readText at h
  split at h
  case h_2 => cases h
  case h_1 v rest hread =>
    split at h
    case isFalse => cases h
    case isTrue hblank =>
      cases h
      obtain ⟨b, body, hb, ha, htakes⟩ := Json.array_part hread
      obtain ⟨c, hc, hrest⟩ := Json.exists_isBlank rest
      rw [List.isEmpty_iff.mp hblank, List.append_nil] at hrest
      exact ⟨b, body, rest, hb, hrest ▸ hc, ha, htakes⟩

/-- The entries of an array that was parsed are settled. -/
theorem exists_read_of_parse {a : String} {entries : List Json}
    (h : Json.parse a = some (.array entries)) :
    ∃ vs, Json.read a = some (.array vs) ∧ entries = vs.map Json.settle := by
  obtain ⟨v, hread, hsettle⟩ := Option.map_eq_some_iff.mp h
  cases v with
  | array vs =>
    rw [Json.settle, Json.settleAll_eq_map] at hsettle
    exact ⟨vs, hread, (Json.array.inj hsettle).symm⟩
  | _ => cases hsettle

theorem said_of_parse {a : String} {entries : List Json}
    (h : Json.parse a = some (.array entries)) : Said entries (entries.filterMap ofJson?) := by
  obtain ⟨vs, -, rfl⟩ := exists_read_of_parse h
  refine said_filterMap fun w hw => ?_
  obtain ⟨v, -, rfl⟩ := List.mem_map.mp hw
  exact Json.isSettled_settle v

/-- When an array stands in a reply after other text without an opening bracket, the reply has the
findings of its well-formed entries if the text after it has no closing bracket, and else none. -/
theorem ofReply_array {before a after : String} {entries : List Json}
    (hbefore : '[' ∉ before.toList) (ha : Json.parse a = some (.array entries)) :
    (']' ∉ after.toList → Said entries (ofReply (before ++ a ++ after))) ∧
      (']' ∈ after.toList → ofReply (before ++ a ++ after) = []) := by
  obtain ⟨vs, hread, hentries⟩ := exists_read_of_parse ha
  obtain ⟨b, body, c, hb, hc, htext, htakes⟩ := exists_part_of_read hread
  have hfront : '[' ∉ before.toList ++ b := fun h => (List.mem_append.mp h).elim hbefore
    (not_mem_of_isBlank hb (by decide))
  constructor
  · intro hafter
    have hback : ']' ∉ c ++ after.toList := fun h => (List.mem_append.mp h).elim
      (not_mem_of_isBlank hc (by decide)) hafter
    have hfound : bracketed (before ++ a ++ after).toList = '[' :: body ++ [']'] := by
      rw [← bracketed_eq hfront hback]
      simp [htext]
    have htaken := Json.readText_append htakes []
    rw [List.append_nil, ← hfound] at htaken
    have hfindings : ofReply (before ++ a ++ after) = entries.filterMap ofJson? := by
      rw [ofReply, htaken, hentries, List.filterMap_map]
      rfl
    exact hfindings ▸ said_of_parse ha
  · intro hafter
    obtain ⟨between, hbetween⟩ := bracketed_eq_of_mem (body ++ [']']) hfront
      (List.mem_append_right c hafter)
    have hfound : bracketed (before ++ a ++ after).toList =
        ('[' :: body ++ [']']) ++ (between ++ [']']) := by
      simp only [List.append_assoc, List.cons_append, List.nil_append] at hbetween
      simp [htext, hbetween]
    have hrest : (Json.skipBlanks (between ++ [']'])).isEmpty = false := by
      obtain ⟨b, hb, hsplit⟩ := Json.exists_isBlank (between ++ [']'])
      rw [← Bool.not_eq_true, List.isEmpty_iff]
      intro hnil
      rw [hnil, List.append_nil] at hsplit
      exact not_mem_of_isBlank hb (by decide) (hsplit ▸ List.mem_append_right _ List.mem_cons_self)
    rw [ofReply, hfound, Json.readText_append htakes, hrest]
    rfl

/-- An array with an entry between two malformed ones. -/
def sampleArray : String :=
  "[7, \x7b\"file\": \"a]\", \"line\": 1, \"reason\": \"r\", \"confidence\": 3\x7d, \x7b\"line\": 2\x7d]"

theorem parse_sampleArray : ∃ entries, Json.parse sampleArray = some (.array entries) ∧
    entries.filterMap ofJson? = [⟨"a]", 1, "r", "", 1.0⟩] := by
  have hread : ((Json.parse sampleArray).bind Json.array?).map (·.filterMap ofJson?) =
      some [⟨"a]", 1, "r", "", 1.0⟩] := by decide +kernel
  obtain ⟨entries, hentries, hfindings⟩ := Option.map_eq_some_iff.mp hread
  obtain ⟨v, hv, harray⟩ := Option.bind_eq_some_iff.mp hentries
  cases v with
  | array values =>
    cases harray
    exact ⟨entries, hv, hfindings⟩
  | _ => cases harray

theorem sample_array :
    '[' ∉ "Sure: ".toList ∧ ']' ∉ " Hope this helps.".toList ∧
    ∃ entries, Json.parse sampleArray = some (.array entries) ∧
      Said entries (ofReply ("Sure: " ++ sampleArray ++ " Hope this helps.")) ∧
      ofReply ("Sure: " ++ sampleArray ++ " Hope this helps.") = [⟨"a]", 1, "r", "", 1.0⟩] := by
  have hbefore : '[' ∉ "Sure: ".toList := by decide
  have hafter : ']' ∉ " Hope this helps.".toList := by decide
  obtain ⟨entries, hparse, -⟩ := parse_sampleArray
  exact ⟨hbefore, hafter, entries, hparse, (ofReply_array hbefore hparse).1 hafter,
    by decide +kernel⟩

/-- A bracket in the text after the array loses all findings. -/
theorem sample_lost :
    ∃ entries, Json.parse sampleArray = some (.array entries) ∧
      Said entries [⟨"a]", 1, "r", "", 1.0⟩] ∧
      ofReply ("Sure: " ++ sampleArray ++ " Hope this [helps].") = [] := by
  obtain ⟨entries, hparse, hfindings⟩ := parse_sampleArray
  exact ⟨entries, hparse, hfindings ▸ said_of_parse hparse, by decide +kernel⟩

end Finding

end ChangeImpact
