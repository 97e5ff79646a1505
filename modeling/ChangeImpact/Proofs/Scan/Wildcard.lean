import ChangeImpact.Scan.Ignore
import ChangeImpact.Proofs.Text.Utf8
import Mathlib.Data.List.Infix

/-!
# Patterns of names

A line without a slash whose only special character is a single star is about the last name of a
path: the star stands for any characters of it. Matching works on octets, but the octets of a
character are not those of another one, so the characters can be compared instead.
-/

namespace ChangeImpact.Glob

/-- Whether a pattern spells a name. A star stands for any characters. -/
def spells : List Char → List Char → Bool
  | [], name => name.isEmpty
  | c :: pattern, name =>
    if c = '*' then name.tails.any (spells pattern)
    else name.head? = some c && spells pattern name.tail

/-- A character without a special meaning, of the first 128. -/
def isOrdinary (c : Char) : Bool :=
  c.toNat < 0x80 && !(['*', '?', '[', '\x7b', '\x7d', ',', '\\', '/'].contains c)

/-- Only ordinary characters and single stars. -/
def isPlain : List Char → Bool
  | [] => true
  | c :: pattern =>
    (if c = '*' then pattern.head? ≠ some '*' else isOrdinary c) && isPlain pattern

/-- What a character of a plain pattern stands for. -/
def pieceOf (c : Char) : Piece :=
  if c = '*' then .star else .literal c

section Read

variable {c : Char} {pattern : List Char} {branch : List Piece} {previous : Option Char}

theorem readFrom_ordinary (hc : isOrdinary c = true) :
    readFrom [] branch previous (c :: pattern) =
      readFrom [] (.literal c :: branch) (some c) pattern := by
  rw [readFrom]
  -- Each character with a meaning of its own is not ordinary.
  all_goals
    intros
    subst_vars
    exact absurd hc (by decide)

theorem readFrom_star (h : pattern.head? ≠ some '*') :
    readFrom [] branch previous ('*' :: pattern) =
      readFrom [] (.star :: branch) (some '*') pattern := by
  rw [readFrom]
  rintro rest rfl
  exact h rfl

theorem readFrom_plain (h : isPlain pattern = true) :
    readFrom [] branch previous pattern = some (branch.reverse ++ pattern.map pieceOf) := by
  induction pattern generalizing branch previous with
  | nil => rw [readFrom]; simp
  | cons c pattern ih =>
    rw [isPlain, Bool.and_eq_true] at h
    have hpattern (p : Piece) (previous : Option Char) :
        readFrom [] (p :: branch) previous pattern =
          some (branch.reverse ++ p :: pattern.map pieceOf) := by
      rw [ih h.2, List.reverse_cons, List.append_assoc, List.singleton_append]
    by_cases hc : c = '*'
    · subst hc
      rw [readFrom_star (of_decide_eq_true (by simpa using h.1)), hpattern]
      rfl
    · rw [readFrom_ordinary (by simpa [hc] using h.1), hpattern, List.map_cons, pieceOf, if_neg hc]

theorem ofText?_plain (h : isPlain pattern = true) :
    ofText? (String.ofList ('*' :: '*' :: '/' :: pattern)) =
      some (.leadingDirectories :: pattern.map pieceOf) := by
  have hread : readFrom [] [.leadingDirectories] (some '/') pattern =
      some ([Piece.leadingDirectories].reverse ++ pattern.map pieceOf) := readFrom_plain h
  rw [ofText?, String.toList_ofList, readFrom]
  exact hread

end Read

section Match

variable {s t : Bytes} {ps : List Piece} {p : Piece}

theorem mem_ends_cons {x : Bytes} : x ∈ ends (p :: ps) s ↔ ∃ t ∈ p.ends s, x ∈ ends ps t := by
  rw [ends, List.mem_flatMap]
  exact exists_congr fun t => and_congr_left fun _ => List.mem_eraseDups

theorem mem_afterStar : t ∈ afterStar s ↔ ∃ run, s = run ++ t ∧ slash ∉ run := by
  induction s with
  | nil =>
    rw [afterStar, List.mem_singleton]
    constructor
    · rintro rfl
      exact ⟨[], rfl, List.not_mem_nil⟩
    · rintro ⟨run, h, -⟩
      exact (List.append_eq_nil_iff.mp h.symm).2
  | cons b s ih =>
    rw [afterStar, List.mem_cons]
    constructor
    · rintro (rfl | h)
      · exact ⟨[], rfl, List.not_mem_nil⟩
      · split at h
        case isTrue => cases h
        case isFalse hb =>
          obtain ⟨run, rfl, hrun⟩ := ih.mp h
          refine ⟨b :: run, rfl, ?_⟩
          rw [List.mem_cons, not_or]
          exact ⟨Ne.symm hb, hrun⟩
    · rintro ⟨run, h, hrun⟩
      cases run with
      | nil => exact .inl h.symm
      | cons c run =>
        injection h with hc hs
        subst hc
        rw [List.mem_cons, not_or] at hrun
        rw [if_neg (Ne.symm hrun.1)]
        exact .inr (ih.mpr ⟨run, hs, hrun.2⟩)

theorem mem_afterSlashes : t ∈ afterSlashes s ↔ ∃ front, s = front ++ slash :: t := by
  induction s with
  | nil =>
    rw [afterSlashes]
    constructor
    · intro h
      cases h
    · rintro ⟨front, h⟩
      cases (List.append_eq_nil_iff.mp h.symm).2
  | cons b s ih =>
    have hlater : (∃ front, s = front ++ slash :: t) ↔
        ∃ front, front ≠ [] ∧ b :: s = front ++ slash :: t := by
      constructor
      · rintro ⟨front, rfl⟩
        exact ⟨b :: front, List.cons_ne_nil _ _, rfl⟩
      · rintro ⟨front, hne, h⟩
        cases front with
        | nil => exact absurd rfl hne
        | cons c front => exact ⟨front, (List.cons.inj h).2⟩
    rw [afterSlashes]
    by_cases hb : b = slash
    · rw [if_pos hb, List.mem_cons, ih, hlater]
      constructor
      · rintro (rfl | ⟨front, -, h⟩)
        · exact ⟨[], hb ▸ rfl⟩
        · exact ⟨front, h⟩
      · rintro ⟨front, h⟩
        cases front with
        | nil => exact .inl (List.cons.inj h).2.symm
        | cons c front => exact .inr ⟨c :: front, List.cons_ne_nil _ _, h⟩
    · rw [if_neg hb, ih, hlater]
      refine exists_congr fun front => and_iff_right_of_imp ?_
      rintro h rfl
      exact hb (List.cons.inj h).1

/-- Directories at the start of a path end before it or after a slash. -/
theorem mem_ends_leadingDirectories :
    t ∈ Piece.leadingDirectories.ends s ↔
      ∃ front, s = front ++ t ∧ (front = [] ∨ front.getLast? = some slash) := by
  rw [Piece.ends, List.mem_cons, mem_afterSlashes]
  constructor
  · rintro (rfl | ⟨front, rfl⟩)
    · exact ⟨[], rfl, .inl rfl⟩
    · exact ⟨front ++ [slash], (List.append_cons _ _ _), .inr (by simp)⟩
  · rintro ⟨front, rfl, rfl | hlast⟩
    · exact .inl rfl
    · obtain ⟨start, rfl⟩ := List.getLast?_eq_some_iff.mp hlast
      exact .inr ⟨start, (List.append_cons _ _ _).symm⟩

theorem mem_ends_literal {c : Char} :
    t ∈ (Piece.literal c).ends s ↔ s = String.utf8EncodeChar c ++ t := by
  simp only [Piece.ends]
  split
  case isTrue h =>
    obtain ⟨rest, rfl⟩ := List.isPrefixOf_iff_prefix.mp h
    rw [List.drop_left, List.mem_singleton, List.append_cancel_left_eq, eq_comm]
  case isFalse h =>
    constructor
    · intro ht
      cases ht
    · rintro rfl
      exact absurd (List.isPrefixOf_iff_prefix.mpr (List.prefix_append _ _)) h

end Match

section Names

variable {pattern name : List Char}

/-- The octets of some characters. -/
def octets (cs : List Char) : Bytes := cs.flatMap String.utf8EncodeChar

theorem octets_append (cs ds : List Char) : octets (cs ++ ds) = octets cs ++ octets ds :=
  List.flatMap_append

theorem octets_cons (c : Char) (cs : List Char) :
    octets (c :: cs) = String.utf8EncodeChar c ++ octets cs :=
  List.flatMap_cons

theorem octets_eq_nil_iff : octets name = [] ↔ name = [] := by
  cases name with
  | nil => exact iff_of_true rfl rfl
  | cons c name => simp [octets_cons, String.utf8EncodeChar_ne_nil]

theorem eq_slash {c : Char} (h : slash ∈ String.utf8EncodeChar c) : c = '/' := by
  have htoNat : c.toNat = slash.toNat := (Utf8.eq_of_mem_encodeChar h (by decide)).2
  exact Char.toNat_inj.mp (htoNat.trans (by decide))

theorem slash_notMem_octets (h : '/' ∉ name) : slash ∉ octets name := by
  intro hmem
  obtain ⟨c, hc, hslash⟩ := List.mem_flatMap.mp hmem
  exact h (eq_slash hslash ▸ hc)

theorem lt_of_isOrdinary {c : Char} (h : isOrdinary c = true) : c.toNat < 0x80 :=
  of_decide_eq_true (Bool.and_eq_true_iff.mp h).1

/-- An ordinary character in the octets of a text is a character of the text. -/
theorem exists_split_octets {u t : Bytes} {c : Char} (hc : isOrdinary c = true)
    (h : octets name = u ++ (String.utf8EncodeChar c ++ t)) :
    ∃ front back, name = front ++ c :: back ∧ octets front = u ∧ octets back = t := by
  have hlow := lt_of_isOrdinary hc
  have hoctet : (UInt8.ofNat c.toNat).toNat = c.toNat := Utf8.toNat_octet (by omega)
  rw [Utf8.encodeChar_of_lt hlow] at h
  obtain ⟨front, d, back, rfl, hfront, hd, hback⟩ :=
    Utf8.exists_split (b := UInt8.ofNat c.toNat) (by omega) h
  rw [Char.toNat_inj.mp (hd.trans hoctet)]
  exact ⟨front, back, rfl, hfront, hback⟩

/-- A plain pattern does not reach over a slash. -/
theorem slash_notMem_of_ends {s : Bytes} (h : isPlain pattern = true)
    (hs : [] ∈ ends (pattern.map pieceOf) s) : slash ∉ s := by
  induction pattern generalizing s with
  | nil =>
    rw [List.map_nil, ends, List.mem_singleton] at hs
    exact hs ▸ List.not_mem_nil
  | cons c pattern ih =>
    rw [isPlain, Bool.and_eq_true] at h
    rw [List.map_cons, mem_ends_cons] at hs
    obtain ⟨t, ht, hmore⟩ := hs
    have hlater : slash ∉ t := ih h.2 hmore
    by_cases hc : c = '*'
    · rw [pieceOf, if_pos hc] at ht
      obtain ⟨run, rfl, hrun⟩ := mem_afterStar.mp ht
      exact fun hmem => (List.mem_append.mp hmem).elim hrun hlater
    · rw [if_neg hc] at h
      rw [pieceOf, if_neg hc, mem_ends_literal] at ht
      subst ht
      refine fun hmem => (List.mem_append.mp hmem).elim (fun hslash => ?_) hlater
      exact absurd h.1 (by rw [eq_slash hslash]; decide)

/-- What follows a star is empty or starts with an ordinary character. -/
theorem exists_suffix {run t : Bytes} (hstar : pattern.head? ≠ some '*')
    (h : isPlain pattern = true) (hname : octets name = run ++ t)
    (ht : [] ∈ ends (pattern.map pieceOf) t) : ∃ back, back <:+ name ∧ octets back = t := by
  cases pattern with
  | nil =>
    rw [List.map_nil, ends, List.mem_singleton] at ht
    exact ⟨[], List.nil_suffix, ht⟩
  | cons c pattern =>
    have hc : c ≠ '*' := fun heq => hstar (congrArg some heq)
    rw [isPlain, if_neg hc, Bool.and_eq_true] at h
    rw [List.map_cons, mem_ends_cons, pieceOf, if_neg hc] at ht
    obtain ⟨t', ht', -⟩ := ht
    rw [mem_ends_literal] at ht'
    subst ht'
    obtain ⟨front, back, rfl, -, hback⟩ := exists_split_octets h.1 hname
    exact ⟨c :: back, List.suffix_append _ _, by rw [octets_cons, hback]⟩

/-- A plain pattern matches the octets of the names that it spells. -/
theorem nil_mem_ends_iff (h : isPlain pattern = true) (hname : '/' ∉ name) :
    [] ∈ ends (pattern.map pieceOf) (octets name) ↔ spells pattern name = true := by
  induction pattern generalizing name with
  | nil =>
    rw [List.map_nil, ends, List.mem_singleton, eq_comm, octets_eq_nil_iff, spells,
      List.isEmpty_iff]
  | cons c pattern ih =>
    rw [isPlain, Bool.and_eq_true] at h
    rw [List.map_cons, mem_ends_cons, spells, pieceOf]
    by_cases hc : c = '*'
    case pos =>
      rw [if_pos hc] at h
      rw [if_pos hc, if_pos hc, List.any_eq_true]
      constructor
      · rintro ⟨t, ht, hmore⟩
        obtain ⟨run, hrun, -⟩ := mem_afterStar.mp ht
        obtain ⟨back, hback, rfl⟩ := exists_suffix (of_decide_eq_true h.1) h.2 hrun hmore
        exact ⟨back, (List.mem_tails _ _).mpr hback,
          (ih h.2 fun hslash => hname (hback.subset hslash)).mp hmore⟩
      · rintro ⟨back, hback, hspells⟩
        obtain ⟨front, rfl⟩ := (List.mem_tails _ _).mp hback
        rw [List.mem_append, not_or] at hname
        exact ⟨octets back, mem_afterStar.mpr ⟨octets front, octets_append _ _,
          slash_notMem_octets hname.1⟩, (ih h.2 hname.2).mpr hspells⟩
    case neg =>
      rw [if_neg hc] at h
      rw [if_neg hc, if_neg hc, Bool.and_eq_true, decide_eq_true_iff]
      constructor
      · rintro ⟨t, ht, hmore⟩
        rw [mem_ends_literal] at ht
        obtain ⟨front, back, rfl, hfront, rfl⟩ := exists_split_octets (u := []) h.1 ht
        rw [octets_eq_nil_iff] at hfront
        subst hfront
        rw [List.nil_append, List.mem_cons, not_or] at hname
        exact ⟨rfl, (ih h.2 hname.2).mp hmore⟩
      · rintro ⟨hhead, hspells⟩
        obtain ⟨back, rfl⟩ := List.head?_eq_some_iff.mp hhead
        rw [List.mem_cons, not_or] at hname
        exact ⟨octets back, mem_ends_literal.mpr (octets_cons _ _),
          (ih h.2 hname.2).mpr hspells⟩

end Names

end ChangeImpact.Glob

namespace ChangeImpact.IgnoreRule

open Glob (isPlain octets pieceOf slash spells)

/-- A line that is a plain pattern of names, without anything that belongs to the line and not to
the glob. -/
structure IsNamePattern (line : String) : Prop where
  notComment : Text.startsWith line "#" = false
  trimmed : trimLine line = line
  notEmpty : line ≠ ""
  opening : opening line.toList = (false, false, line.toList)
  closing : closing line.toList = (false, line.toList)
  wholePath : wholePath false line.toList = '*' :: '*' :: '/' :: line.toList
  plain : isPlain line.toList = true

/-- The rule of a plain pattern. -/
def ofPattern (line : String) : IgnoreRule where
  glob := .leadingDirectories :: line.toList.map pieceOf

variable {line name : String} {path patterns : List String} {isDirectory : Bool}

theorem IsNamePattern.ofLine?_eq (h : IsNamePattern line) :
    ofLine? line = some (ofPattern line) := by
  simp only [ofLine?, h.notComment, h.trimmed, if_neg h.notEmpty, h.opening, h.closing,
    h.wholePath, Glob.ofText?_plain h.plain, Option.map_some]
  rfl

/-- The octets of a path end with its last name, after a slash or at the start. -/
theorem exists_encode_eq (hname : path.getLast? = some name) :
    ∃ front, Utf8.encode ("/".intercalate path) = front ++ octets name.toList ∧
      (front = [] ∨ front.getLast? = some slash) := by
  obtain ⟨names, rfl⟩ := List.getLast?_eq_some_iff.mp hname
  by_cases hnames : names = []
  case pos =>
    subst hnames
    exact ⟨[], rfl, .inl rfl⟩
  case neg =>
    refine ⟨octets ("/".intercalate names).toList ++ [slash], ?_, .inr (by simp)⟩
    rw [String.intercalate_append_of_ne_nil hnames (List.cons_ne_nil _ _),
      String.intercalate_singleton, Utf8.encode, String.toList_append, String.toList_append]
    exact (Glob.octets_append _ _).trans (congrArg (· ++ _) (Glob.octets_append _ _))

/-- What follows the last slash is one part only. -/
theorem eq_of_append_eq {u u' t t' : Bytes} (h : u ++ t = u' ++ t') (ht : slash ∉ t)
    (ht' : slash ∉ t') (hu : u = [] ∨ u.getLast? = some slash)
    (hu' : u' = [] ∨ u'.getLast? = some slash) : t = t' := by
  have hone {u u' t t' w : Bytes} (hu : u = [] ∨ u.getLast? = some slash) (hw : u = u' ++ w)
      (ht : t' = w ++ t) (ht' : slash ∉ t') : t = t' := by
    cases w with
    | nil => exact ht.symm
    | cons b w =>
      have hlast : (b :: w).getLast? = some slash := by
        rcases hu with hu | hu
        · cases (List.append_eq_nil_iff.mp (hw.symm.trans hu)).2
        · rwa [hw, List.getLast?_append_of_ne_nil _ (List.cons_ne_nil _ _)] at hu
      exact absurd (ht ▸ List.mem_append_left t (List.mem_of_getLast? hlast)) ht'
  rcases List.append_eq_append_iff.mp h with ⟨w, hw, htw⟩ | ⟨w, hw, htw⟩
  · exact (hone hu' hw htw ht).symm
  · exact hone hu hw htw ht'

/-- A plain pattern is about the paths whose last name it spells. -/
theorem IsNamePattern.covers_eq (h : IsNamePattern line) (hname : path.getLast? = some name)
    (hslash : '/' ∉ name.toList) :
    (ofPattern line).covers path isDirectory = spells line.toList name.toList := by
  obtain ⟨front, hencode, hfront⟩ := exists_encode_eq hname
  have hlast := Glob.slash_notMem_octets hslash
  have hends : Glob.covers (ofPattern line).glob (Utf8.encode ("/".intercalate path)) = true ↔
      [] ∈ Glob.ends (ofPattern line).glob (Utf8.encode ("/".intercalate path)) := by
    have hcons : line.toList ≠ [] := fun hnil => h.notEmpty (String.toList_eq_nil_iff.mp hnil)
    obtain ⟨c, cs, hline⟩ := List.exists_cons_of_ne_nil hcons
    rw [ofPattern, hline, List.map_cons, Glob.covers]
    · simp [List.any_eq_true]
    · simp
  rw [Bool.eq_iff_iff, covers, Bool.and_eq_true, hends, hencode, ofPattern, Glob.mem_ends_cons,
    and_iff_right (by cases isDirectory <;> rfl), ← Glob.nil_mem_ends_iff h.plain hslash]
  constructor
  · rintro ⟨t, ht, hmore⟩
    obtain ⟨u, hu, hstart⟩ := Glob.mem_ends_leadingDirectories.mp ht
    rwa [eq_of_append_eq hu hlast (Glob.slash_notMem_of_ends h.plain hmore) hfront hstart]
  · exact fun hmore => ⟨_, Glob.mem_ends_leadingDirectories.mpr ⟨front, rfl, hfront⟩, hmore⟩

/-- Plain patterns leave a path out when one of them spells its last name, and are silent about
all others. -/
theorem verdict_namePatterns (h : ∀ line ∈ patterns, IsNamePattern line)
    (hname : path.getLast? = some name) (hslash : '/' ∉ name.toList) :
    verdict (patterns.filterMap ofLine?) path isDirectory =
      if patterns.any (spells ·.toList name.toList) then .ignored else .undecided := by
  have hrules : patterns.filterMap ofLine? = patterns.map ofPattern := by
    rw [← List.filterMap_eq_map]
    exact List.filterMap_congr fun line hline => (h line hline).ofLine?_eq
  have hcovers {line : String} (hline : line ∈ patterns) :
      (ofPattern line).covers path isDirectory = spells line.toList name.toList :=
    (h line hline).covers_eq hname hslash
  rw [verdict, hrules]
  split
  case h_1 r hr =>
    have hrule : r ∈ patterns.map ofPattern :=
      List.mem_reverse.mp (List.mem_of_find?_eq_some hr)
    obtain ⟨line, hline, rfl⟩ := List.mem_map.mp hrule
    have hspells : patterns.any (spells ·.toList name.toList) = true :=
      List.any_eq_true.mpr ⟨line, hline, (hcovers hline).symm.trans
        (List.find?_some (p := fun r : IgnoreRule => r.covers path isDirectory) hr)⟩
    rw [if_pos hspells]
    rfl
  case h_2 hnone =>
    have hspells : ¬patterns.any (spells ·.toList name.toList) = true := by
      rw [List.any_eq_true]
      rintro ⟨line, hline, hspells⟩
      exact List.find?_eq_none.mp hnone _ (List.mem_reverse.mpr (List.mem_map_of_mem hline))
        ((hcovers hline).trans hspells)
    rw [if_neg hspells]

end ChangeImpact.IgnoreRule

namespace ChangeImpact

open IgnoreRule (IsNamePattern)

/-- The patterns of names that may hold secrets. -/
def sensitivePatterns : List String :=
  [".env", ".env.*", "*.pem", "*.key", "*.p12", "*secret*", "*secrets*", "*credential*",
    "id_rsa", "id_dsa"]

theorem isNamePattern_of_sensitive : ∀ line ∈ sensitivePatterns, IsNamePattern line := by
  have hcomment : ∀ line ∈ sensitivePatterns, Text.startsWith line "#" = false := by decide +kernel
  have htrimmed : ∀ line ∈ sensitivePatterns, IgnoreRule.trimLine line = line := by decide +kernel
  have hempty : ∀ line ∈ sensitivePatterns, line ≠ "" := by decide +kernel
  have hopening : ∀ line ∈ sensitivePatterns,
      IgnoreRule.opening line.toList = (false, false, line.toList) := by decide +kernel
  have hclosing : ∀ line ∈ sensitivePatterns,
      IgnoreRule.closing line.toList = (false, line.toList) := by decide +kernel
  have hwhole : ∀ line ∈ sensitivePatterns,
      IgnoreRule.wholePath false line.toList = '*' :: '*' :: '/' :: line.toList := by decide +kernel
  have hplain : ∀ line ∈ sensitivePatterns, Glob.isPlain line.toList = true := by decide +kernel
  exact fun line hline => ⟨hcomment line hline, htrimmed line hline, hempty line hline,
    hopening line hline, hclosing line hline, hwhole line hline, hplain line hline⟩

end ChangeImpact
