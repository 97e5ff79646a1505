import ChangeImpact.Json.Reader
import ChangeImpact.Proofs.Json.Number

/-!
# What the reader of a value takes away

The reader works with fuel, but a unit for each character that it takes away is enough, and what
stands after that part does not matter. Only a number has to be followed by the same character. So
an array can be read where it stands: its own closing bracket ends it.
-/

namespace ChangeImpact.Json

section Parts

variable {α : Type} {read : Nat → List Char → Option (α × List Char)} {part rest : List Char}
  {a : α}

/-- A reader takes a part away from every text that starts with it. -/
def Takes (read : Nat → List Char → Option (α × List Char)) (part : List Char) (a : α) : Prop :=
  ∀ ⦃fuel⦄, part.length ≤ fuel → ∀ t, read fuel (part ++ t) = some (a, t)

/-- A reader takes a part away from every text that starts with it and goes on as `rest` does. -/
def TakesBefore (read : Nat → List Char → Option (α × List Char)) (part rest : List Char) (a : α) :
    Prop :=
  ∀ ⦃fuel⦄, part.length ≤ fuel → ∀ t, t.head? = rest.head? → read fuel (part ++ t) = some (a, t)

/-- Only blanks. -/
def IsBlank (b : List Char) : Prop := ∀ c ∈ b, isJsonBlank c = true

theorem IsBlank.skipBlanks_append {b : List Char} (h : IsBlank b) (s : List Char) :
    skipBlanks (b ++ s) = skipBlanks s :=
  List.dropWhile_append_of_pos h

theorem skipBlanks_cons {c : Char} (h : isJsonBlank c = false) (s : List Char) :
    skipBlanks (c :: s) = c :: s :=
  List.dropWhile_cons_of_neg (Bool.eq_false_iff.mp h)

theorem isJsonBlank_eq_false {c : Char} (h : c = '-' ∨ c.isDigit = true) :
    isJsonBlank c = false := by
  rw [← Bool.not_eq_true, isJsonBlank]
  simp only [Bool.or_eq_true, beq_iff_eq]
  rintro (((rfl | rfl) | rfl) | rfl)
  all_goals exact absurd h (by decide)

/-- A text is its blanks in front and what is left without them. -/
theorem exists_isBlank (cs : List Char) : ∃ b, IsBlank b ∧ cs = b ++ skipBlanks cs :=
  ⟨cs.takeWhile isJsonBlank, List.all_eq_true.mp List.all_takeWhile,
    List.takeWhile_append_dropWhile.symm⟩

/-- What stands first after some blanks is found there whatever follows it. -/
theorem exists_part_of_skipBlanks {c : Char} {cs rest : List Char}
    (h : skipBlanks cs = c :: rest) :
    ∃ b, cs = b ++ c :: rest ∧ ∀ t, skipBlanks (b ++ c :: t) = c :: t := by
  obtain ⟨b, hb, hcs⟩ := exists_isBlank cs
  have hfirst (t : List Char) : (c :: t).head? = (cs.dropWhile isJsonBlank).head? :=
    (congrArg List.head? h).symm
  refine ⟨b, h ▸ hcs, fun t => ?_⟩
  rw [hb.skipBlanks_append]
  exact dropWhile_eq_self (hfirst t)

end Parts

section Strings

variable {fuel : Nat} {cs rest : List Char}

theorem readUnit_part {n : Nat} (h : readUnit cs = some (n, rest)) :
    ∃ part, cs = part ++ rest ∧ ∀ t, readUnit (part ++ t) = some (n, t) := by
  unfold readUnit at h
  split at h
  case h_1 a b c d r =>
    simp only [Option.bind_eq_bind, Option.bind_eq_some_iff, Option.some.injEq, Prod.mk.injEq] at h
    obtain ⟨w, hw, x, hx, y, hy, z, hz, rfl, rfl⟩ := h
    refine ⟨[a, b, c, d], rfl, fun t => ?_⟩
    simp only [List.cons_append, List.nil_append, readUnit, hw, hx, hy, hz]
    rfl
  case h_2 => cases h

theorem readUnicode_part {c : Char} (h : readUnicode cs = some (c, rest)) :
    ∃ part, cs = part ++ rest ∧ ∀ t, readUnicode (part ++ t) = some (c, t) := by
  obtain ⟨⟨unit, r⟩, hunit, hread⟩ := Option.bind_eq_some_iff.mp h
  obtain ⟨part, hcs, hpart⟩ := readUnit_part hunit
  subst hcs
  dsimp only at hread
  split at hread
  case isTrue halone =>
    cases hread
    refine ⟨part, rfl, fun t => ?_⟩
    simp only [readUnicode, Option.bind_eq_bind, hpart, Option.bind_some, if_pos halone]
  case isFalse hpair =>
    split at hread
    case isTrue => cases hread
    case isFalse hhigh =>
      split at hread
      case h_2 => cases hread
      case h_1 more =>
        obtain ⟨⟨low, after⟩, hlow, hlast⟩ := Option.bind_eq_some_iff.mp hread
        obtain ⟨second, hmore, hsecond⟩ := readUnit_part hlow
        subst hmore
        dsimp only at hlast
        split at hlast
        case isFalse => cases hlast
        case isTrue hrange =>
          obtain ⟨rfl, rfl⟩ := Prod.mk.inj (Option.some.inj hlast)
          refine ⟨part ++ '\\' :: 'u' :: second, by simp, fun t => ?_⟩
          simp only [readUnicode, Option.bind_eq_bind, List.append_assoc, List.cons_append, hpart,
            Option.bind_some, if_neg hpair, if_neg hhigh, hsecond, if_pos hrange]

theorem readEscape_part {c : Char} (h : readEscape cs = some (c, rest)) :
    ∃ part, cs = part ++ rest ∧ ∀ t, readEscape (part ++ t) = some (c, t) := by
  unfold readEscape at h
  split at h
  case h_9 r =>
    obtain ⟨part, rfl, hpart⟩ := readUnicode_part h
    exact ⟨'u' :: part, rfl, hpart⟩
  case h_10 => cases h
  all_goals
    cases h
    exact ⟨[_], rfl, fun _ => rfl⟩

/-- The characters of a string end with its closing quote. -/
theorem readChars_part {ds : List Char} (h : readChars fuel cs = some (ds, rest)) :
    ∃ part, cs = part ++ rest ∧ Takes readChars part ds := by
  induction fuel generalizing cs ds with
  | zero => cases h
  | succ fuel ih =>
    cases cs with
    | nil => cases h
    | cons c cs =>
      rw [readChars] at h
      split at h
      case isTrue hquote =>
        cases h
        refine ⟨[c], rfl, fun fuel' hfuel t => ?_⟩
        obtain ⟨f, rfl⟩ := Nat.exists_eq_add_one.mpr hfuel
        exact if_pos hquote
      case isFalse hquote =>
        split at h
        case isTrue hescape =>
          split at h
          case h_1 => cases h
          case h_2 d r hd =>
            obtain ⟨⟨more, after⟩, hmore, heq⟩ := Option.map_eq_some_iff.mp h
            cases heq
            obtain ⟨escape, rfl, hescaped⟩ := readEscape_part hd
            obtain ⟨part, rfl, hpart⟩ := ih hmore
            subst hescape
            refine ⟨'\\' :: (escape ++ part), by simp, fun fuel' hfuel t => ?_⟩
            obtain ⟨f, rfl⟩ := Nat.exists_eq_add_one.mpr (Nat.zero_lt_of_lt hfuel)
            simp only [List.length_cons, List.length_append] at hfuel
            simp only [List.cons_append, List.append_assoc, readChars, hescaped,
              hpart (by omega : part.length ≤ f), Option.map_some]
            rfl
        case isFalse hplain =>
          split at h
          case isTrue => cases h
          case isFalse hallowed =>
            obtain ⟨⟨more, after⟩, hmore, heq⟩ := Option.map_eq_some_iff.mp h
            cases heq
            obtain ⟨part, rfl, hpart⟩ := ih hmore
            refine ⟨c :: part, rfl, fun fuel' hfuel t => ?_⟩
            obtain ⟨f, rfl⟩ := Nat.exists_eq_add_one.mpr (Nat.zero_lt_of_lt hfuel)
            rw [List.cons_append, readChars, if_neg hquote, if_neg hplain, if_neg hallowed,
              hpart (Nat.le_of_succ_le_succ hfuel)]
            rfl

theorem readString_part {s : String} (h : readString fuel cs = some (s, rest)) :
    ∃ part, cs = part ++ rest ∧ Takes readString part s := by
  obtain ⟨⟨ds, after⟩, hds, heq⟩ := Option.map_eq_some_iff.mp h
  cases heq
  obtain ⟨part, rfl, hpart⟩ := readChars_part hds
  refine ⟨part, rfl, fun fuel' hfuel t => ?_⟩
  rw [readString, hpart hfuel]
  rfl

end Strings

section Dispatch

variable {fuel depth : Nat} {cs rest : List Char}

/-- What the first characters of a value decide. -/
inductive ReadsValue (fuel depth : Nat) : List Char → Json → List Char → Prop where
  | null {r : List Char} : ReadsValue fuel depth ('n' :: 'u' :: 'l' :: 'l' :: r) .null r
  | yes {r : List Char} : ReadsValue fuel depth ('t' :: 'r' :: 'u' :: 'e' :: r) (.bool true) r
  | no {r : List Char} :
    ReadsValue fuel depth ('f' :: 'a' :: 'l' :: 's' :: 'e' :: r) (.bool false) r
  | string {r rest : List Char} {s : String} (chars : readString fuel r = some (s, rest)) :
    ReadsValue fuel depth ('"' :: r) (.string s) rest
  | emptyArray {r rest : List Char} (room : depth ≠ 0) (close : skipBlanks r = ']' :: rest) :
    ReadsValue fuel depth ('[' :: r) (.array []) rest
  | array {r rest : List Char} {vs : List Json} (room : depth ≠ 0)
    (elements : readElements fuel (depth - 1) r = some (vs, rest)) :
    ReadsValue fuel depth ('[' :: r) (.array vs) rest
  | emptyObject {r rest : List Char} (room : depth ≠ 0) (close : skipBlanks r = '\x7d' :: rest) :
    ReadsValue fuel depth ('\x7b' :: r) (.object []) rest
  | object {r rest : List Char} {ms : List (String × Json)} (room : depth ≠ 0)
    (members : readMembers fuel (depth - 1) r = some (ms, rest)) :
    ReadsValue fuel depth ('\x7b' :: r) (.object ms) rest
  | number {r rest : List Char} {n : Number} (digits : readNumber r = some (n, rest)) :
    ReadsValue fuel depth r (.number n) rest

/-- A key, a colon and a value. -/
structure ReadsMember (fuel depth : Nat) (cs : List Char) (m : String × Json) (rest : List Char) :
    Prop where
  reads : ∃ r after body, skipBlanks cs = '"' :: r ∧ readString fuel r = some (m.1, after) ∧
    skipBlanks after = ':' :: body ∧ readValue fuel depth body = some (m.2, rest)

/-- After an item of a list comes the end of the list or a comma and more items. -/
inductive ReadsList {α : Type} (item : List Char → α → List Char → Prop)
    (list : List Char → Option (List α × List Char)) (close : Char) (cs : List Char) :
    List α → List Char → Prop where
  | last {rest after : List Char} {a : α} (reads : item cs a rest)
    (closed : skipBlanks rest = close :: after) : ReadsList item list close cs [a] after
  | more {rest r after : List Char} {a : α} {as : List α} (reads : item cs a rest)
    (comma : skipBlanks rest = ',' :: r) (tail : list r = some (as, after)) :
    ReadsList item list close cs (a :: as) after

theorem readElements_eq_some_iff {vs : List Json} :
    readElements (fuel + 1) depth cs = some (vs, rest) ↔
      ReadsList (fun cs v rest => readValue fuel depth cs = some (v, rest))
        (readElements fuel depth) ']' cs vs rest := by
  constructor
  · intro h
    unfold readElements at h
    split at h
    case h_1 => cases h
    case h_2 v after hv =>
      split at h
      case h_1 r hcomma =>
        obtain ⟨⟨ws, end'⟩, hws, heq⟩ := Option.map_eq_some_iff.mp h
        cases heq
        exact .more hv hcomma hws
      case h_2 r hclose =>
        cases h
        exact .last hv hclose
      case h_3 => cases h
  · intro h
    cases h with
    | last value closed => simp only [readElements, value, closed]
    | more value comma tail => simp only [readElements, value, comma, tail, Option.map_some]

theorem readMembers_eq_some_iff {ms : List (String × Json)} :
    readMembers (fuel + 1) depth cs = some (ms, rest) ↔
      ReadsList (ReadsMember fuel depth) (readMembers fuel depth) '\x7d' cs ms rest := by
  constructor
  · intro h
    unfold readMembers at h
    split at h
    case h_2 => cases h
    case h_1 r hquote =>
    split at h
    case h_1 => cases h
    case h_2 key after hkey =>
    split at h
    case h_2 => cases h
    case h_1 body hcolon =>
    split at h
    case h_1 => cases h
    case h_2 v more hv =>
    have hmember : ReadsMember fuel depth cs (key, v) more :=
      ⟨r, after, body, hquote, hkey, hcolon, hv⟩
    split at h
    case h_1 r hcomma =>
      obtain ⟨⟨ws, end'⟩, hws, heq⟩ := Option.map_eq_some_iff.mp h
      cases heq
      exact .more hmember hcomma hws
    case h_2 r hclose =>
      cases h
      exact .last hmember hclose
    case h_3 => cases h
  · intro h
    cases h with
    | last member closed =>
      obtain ⟨r, after, body, hquote, hkey, hcolon, hv⟩ := member
      simp only [readMembers, hquote, hkey, hcolon, hv, closed]
    | more member comma tail =>
      obtain ⟨r, after, body, hquote, hkey, hcolon, hv⟩ := member
      simp only [readMembers, hquote, hkey, hcolon, hv, comma, tail, Option.map_some]

theorem ReadsValue.of_readValue {v : Json} (h : readValue (fuel + 1) depth cs = some (v, rest)) :
    ReadsValue fuel depth (skipBlanks cs) v rest := by
  unfold readValue at h
  split at h
  case h_1 hcs =>
    cases h
    exact hcs ▸ .null
  case h_2 hcs =>
    cases h
    exact hcs ▸ .yes
  case h_3 hcs =>
    cases h
    exact hcs ▸ .no
  case h_4 r hcs =>
    obtain ⟨⟨s, after⟩, hs, heq⟩ := Option.map_eq_some_iff.mp h
    cases heq
    exact hcs ▸ .string hs
  case h_5 r hcs =>
    split at h
    case isTrue => cases h
    case isFalse hroom =>
    split at h
    case h_1 hclose =>
      cases h
      exact hcs ▸ .emptyArray hroom hclose
    case h_2 =>
      obtain ⟨⟨vs, after⟩, hvs, heq⟩ := Option.map_eq_some_iff.mp h
      cases heq
      exact hcs ▸ .array hroom hvs
  case h_6 r hcs =>
    split at h
    case isTrue => cases h
    case isFalse hroom =>
    split at h
    case h_1 hclose =>
      cases h
      exact hcs ▸ .emptyObject hroom hclose
    case h_2 =>
      obtain ⟨⟨ms, after⟩, hms, heq⟩ := Option.map_eq_some_iff.mp h
      cases heq
      exact hcs ▸ .object hroom hms
  case h_7 =>
    obtain ⟨⟨n, after⟩, hn, heq⟩ := Option.map_eq_some_iff.mp h
    cases heq
    exact .number hn

/-- No value starts with a closing bracket. -/
theorem ne_close_of_readElements {vs : List Json}
    (h : readElements fuel depth cs = some (vs, rest)) (r : List Char) :
    skipBlanks cs ≠ ']' :: r := by
  intro hclose
  have hvalue {fuel : Nat} {v : Json} {after : List Char} :
      readValue fuel depth cs ≠ some (v, after) := by
    intro hv
    cases fuel with
    | zero => cases hv
    | succ fuel =>
      have hreads := ReadsValue.of_readValue hv
      rw [hclose] at hreads
      cases hreads with
      | number digits =>
        obtain ⟨c, part, hc, heq, -⟩ := readNumber_local digits
        cases heq
        exact absurd hc (by decide)
  cases fuel with
  | zero => cases h
  | succ fuel =>
    cases readElements_eq_some_iff.mp h with
    | last value => exact hvalue value
    | more value => exact hvalue value

/-- No key starts with a closing brace. -/
theorem ne_close_of_readMembers {ms : List (String × Json)}
    (h : readMembers fuel depth cs = some (ms, rest)) (r : List Char) :
    skipBlanks cs ≠ '\x7d' :: r := by
  intro hclose
  have hmember {fuel : Nat} {m : String × Json} {after : List Char} :
      ¬ReadsMember fuel depth cs m after := by
    rintro ⟨_, _, _, hquote, -⟩
    rw [hclose] at hquote
    cases hquote
  cases fuel with
  | zero => cases h
  | succ fuel =>
    cases readMembers_eq_some_iff.mp h with
    | last member => exact hmember member
    | more member => exact hmember member

/-- A number starts with none of the characters that other values start with. -/
theorem readNumber_ne {n : Number} (h : readNumber cs = some (n, rest)) {c : Char}
    (hc : c ≠ '-' ∧ c.isDigit = false) (r : List Char) : cs ≠ c :: r := by
  rintro rfl
  obtain ⟨d, part, hd, heq, -⟩ := readNumber_local h
  cases heq
  rcases hd with rfl | hd
  · exact hc.1 rfl
  · exact absurd hd (Bool.eq_false_iff.mp hc.2)

theorem readValue_eq_some_iff {v : Json} :
    readValue (fuel + 1) depth cs = some (v, rest) ↔
      ReadsValue fuel depth (skipBlanks cs) v rest := by
  refine ⟨.of_readValue, fun h => ?_⟩
  unfold readValue
  generalize skipBlanks cs = s at h ⊢
  cases h with
  | null => rfl
  | yes => rfl
  | no => rfl
  | string chars => simp only [chars, Option.map_some]
  | emptyArray room close => simp only [if_neg room, close]
  | array room elements =>
    simp only [if_neg room]
    split
    case h_1 close => exact absurd close (ne_close_of_readElements elements _)
    case h_2 => rw [elements, Option.map_some]
  | emptyObject room close => simp only [if_neg room, close]
  | object room members =>
    simp only [if_neg room]
    split
    case h_1 close => exact absurd close (ne_close_of_readMembers members _)
    case h_2 => rw [members, Option.map_some]
  | number digits =>
    split
    case h_1 => exact absurd rfl (readNumber_ne digits (by decide) _)
    case h_2 => exact absurd rfl (readNumber_ne digits (by decide) _)
    case h_3 => exact absurd rfl (readNumber_ne digits (by decide) _)
    case h_4 => exact absurd rfl (readNumber_ne digits (by decide) _)
    case h_5 => exact absurd rfl (readNumber_ne digits (by decide) _)
    case h_6 => exact absurd rfl (readNumber_ne digits (by decide) _)
    case h_7 => rw [digits, Option.map_some]

end Dispatch

section Local

variable {fuel depth : Nat} {cs rest : List Char}

/-- What is read with an amount of fuel is a part of the text, and it is read alike elsewhere. -/
structure ReadsLocally (fuel : Nat) : Prop where
  value : ∀ {depth cs v rest}, readValue fuel depth cs = some (v, rest) →
    ∃ part, part ≠ [] ∧ cs = part ++ rest ∧ TakesBefore (readValue · depth) part rest v
  elements : ∀ {depth cs vs rest}, readElements fuel depth cs = some (vs, rest) →
    ∃ body, cs = body ++ ']' :: rest ∧ Takes (readElements · depth) (body ++ [']']) vs
  members : ∀ {depth cs ms rest}, readMembers fuel depth cs = some (ms, rest) →
    ∃ body, cs = body ++ '\x7d' :: rest ∧ Takes (readMembers · depth) (body ++ ['\x7d']) ms

theorem ReadsValue.array_part (ih : ReadsLocally fuel) {vs : List Json}
    (h : ReadsValue fuel depth cs (.array vs) rest) :
    ∃ body, cs = '[' :: body ++ ']' :: rest ∧ ∀ fuel t, (body ++ [']']).length ≤ fuel →
      ReadsValue fuel depth ('[' :: body ++ ']' :: t) (.array vs) t := by
  cases h with
  | emptyArray room close =>
    obtain ⟨b, rfl, hclose⟩ := exists_part_of_skipBlanks close
    exact ⟨b, rfl, fun fuel t _ => .emptyArray room (hclose t)⟩
  | array room elements =>
    obtain ⟨body, rfl, hbody⟩ := ih.elements elements
    refine ⟨body, rfl, fun fuel t hfuel => .array room ?_⟩
    have htaken := hbody hfuel t
    rwa [List.append_assoc] at htaken

theorem ReadsValue.object_part (ih : ReadsLocally fuel) {ms : List (String × Json)}
    (h : ReadsValue fuel depth cs (.object ms) rest) :
    ∃ body, cs = '\x7b' :: body ++ '\x7d' :: rest ∧ ∀ fuel t, (body ++ ['\x7d']).length ≤ fuel →
      ReadsValue fuel depth ('\x7b' :: body ++ '\x7d' :: t) (.object ms) t := by
  cases h with
  | emptyObject room close =>
    obtain ⟨b, rfl, hclose⟩ := exists_part_of_skipBlanks close
    exact ⟨b, rfl, fun fuel t _ => .emptyObject room (hclose t)⟩
  | object room members =>
    obtain ⟨body, rfl, hbody⟩ := ih.members members
    refine ⟨body, rfl, fun fuel t hfuel => .object room ?_⟩
    have htaken := hbody hfuel t
    rwa [List.append_assoc] at htaken

/-- A value is read from a part of a text that does not start with a blank. -/
theorem ReadsValue.part (ih : ReadsLocally fuel) {v : Json} (h : ReadsValue fuel depth cs v rest) :
    ∃ part, part ≠ [] ∧ cs = part ++ rest ∧ ∀ fuel t, part.length ≤ fuel + 1 →
      t.head? = rest.head? → ReadsValue fuel depth (skipBlanks (part ++ t)) v t := by
  cases v with
  | null =>
    cases h
    exact ⟨['n', 'u', 'l', 'l'], by simp, rfl, fun _ _ _ _ => .null⟩
  | bool value =>
    cases h with
    | yes => exact ⟨['t', 'r', 'u', 'e'], by simp, rfl, fun _ _ _ _ => .yes⟩
    | no => exact ⟨['f', 'a', 'l', 's', 'e'], by simp, rfl, fun _ _ _ _ => .no⟩
  | number n =>
    cases h with
    | number digits =>
      obtain ⟨c, part, hc, rfl, hpart⟩ := readNumber_local digits
      refine ⟨c :: part, by simp, rfl, fun fuel t _ ht => ?_⟩
      rw [List.cons_append, skipBlanks_cons (isJsonBlank_eq_false hc)]
      exact .number (hpart t ht)
  | string s =>
    cases h with
    | string chars =>
      obtain ⟨part, rfl, hpart⟩ := readString_part chars
      exact ⟨'"' :: part, by simp, rfl, fun fuel t hfuel _ =>
        .string (hpart (Nat.le_of_succ_le_succ hfuel) t)⟩
  | array vs =>
    obtain ⟨body, rfl, hbody⟩ := h.array_part ih
    refine ⟨'[' :: body ++ [']'], by simp, by simp, fun fuel t hfuel _ => ?_⟩
    rw [List.append_assoc]
    exact hbody fuel t (Nat.le_of_succ_le_succ hfuel)
  | object ms =>
    obtain ⟨body, rfl, hbody⟩ := h.object_part ih
    refine ⟨'\x7b' :: body ++ ['\x7d'], by simp, by simp, fun fuel t hfuel _ => ?_⟩
    rw [List.append_assoc]
    exact hbody fuel t (Nat.le_of_succ_le_succ hfuel)

theorem ReadsLocally.value_succ (ih : ReadsLocally fuel) {v : Json}
    (h : readValue (fuel + 1) depth cs = some (v, rest)) :
    ∃ part, part ≠ [] ∧ cs = part ++ rest ∧ TakesBefore (readValue · depth) part rest v := by
  obtain ⟨b, hb, hcs⟩ := exists_isBlank cs
  obtain ⟨part, hpart, hs, hreads⟩ := (readValue_eq_some_iff.mp h).part ih
  refine ⟨b ++ part, by simp [hpart], by rw [List.append_assoc, ← hs, ← hcs], ?_⟩
  intro fuel' hfuel t ht
  rw [List.length_append] at hfuel
  have hpos : 0 < part.length := List.length_pos_iff.mpr hpart
  obtain ⟨f, rfl⟩ : ∃ f, fuel' = f + 1 := Nat.exists_eq_add_one.mpr (by omega)
  refine readValue_eq_some_iff.mpr ?_
  rw [List.append_assoc, hb.skipBlanks_append]
  exact hreads f t (by omega) ht

/-- A list ends with its own closing character, if its items and its tail are read locally. -/
theorem ReadsList.part {α : Type} {item : Nat → List Char → α → List Char → Prop}
    {list : Nat → List Char → Option (List α × List Char)} {close : Char} {as : List α}
    (hitem : ∀ {cs a rest}, item fuel cs a rest → ∃ part, cs = part ++ rest ∧
      ∀ f t, part.length ≤ f → t.head? = rest.head? → item f (part ++ t) a t)
    (htail : ∀ {cs as rest}, list fuel cs = some (as, rest) →
      ∃ body, cs = body ++ close :: rest ∧ Takes list (body ++ [close]) as)
    (hlist : ∀ {f cs as rest}, ReadsList (item f) (list f) close cs as rest →
      list (f + 1) cs = some (as, rest))
    (h : ReadsList (item fuel) (list fuel) close cs as rest) :
    ∃ body, cs = body ++ close :: rest ∧ Takes list (body ++ [close]) as := by
  cases h with
  | @last _ _ a reads closed =>
    obtain ⟨part, rfl, hpart⟩ := hitem reads
    obtain ⟨b, rfl, hclose⟩ := exists_part_of_skipBlanks closed
    refine ⟨part ++ b, by simp, fun fuel' hfuel t => ?_⟩
    simp only [List.length_append, List.length_singleton] at hfuel
    obtain ⟨f, rfl⟩ : ∃ f, fuel' = f + 1 := Nat.exists_eq_add_one.mpr (by omega)
    have hread : item f (part ++ (b ++ close :: t)) a (b ++ close :: t) :=
      hpart _ _ (by omega) (head?_append_congr b rfl)
    simp only [List.append_assoc, List.cons_append, List.nil_append]
    exact hlist (.last hread (hclose t))
  | @more _ r _ a as reads comma tail =>
    obtain ⟨part, rfl, hpart⟩ := hitem reads
    obtain ⟨b, rfl, hcomma⟩ := exists_part_of_skipBlanks comma
    obtain ⟨body, rfl, hbody⟩ := htail tail
    refine ⟨part ++ (b ++ ',' :: body), by simp, fun fuel' hfuel t => ?_⟩
    simp only [List.length_append, List.length_cons, List.length_nil] at hfuel
    obtain ⟨f, rfl⟩ : ∃ f, fuel' = f + 1 := Nat.exists_eq_add_one.mpr (by omega)
    have hread : item f (part ++ (b ++ ',' :: (body ++ close :: t))) a
        (b ++ ',' :: (body ++ close :: t)) :=
      hpart _ _ (by omega) (head?_append_congr b rfl)
    have hmore : list f (body ++ close :: t) = some (as, t) := by
      rw [List.append_cons]
      exact hbody (by simp only [List.length_append, List.length_singleton]; omega) t
    simp only [List.append_assoc, List.cons_append, List.nil_append]
    exact hlist (.more hread (hcomma _) hmore)

theorem ReadsLocally.member (ih : ReadsLocally fuel) {m : String × Json}
    (h : ReadsMember fuel depth cs m rest) :
    ∃ part, cs = part ++ rest ∧ ∀ f t, part.length ≤ f → t.head? = rest.head? →
      ReadsMember f depth (part ++ t) m t := by
  obtain ⟨r, after, body, hquote, hkey, hcolon, hvalue⟩ := h
  obtain ⟨value, -, rfl, hvalues⟩ := ih.value hvalue
  obtain ⟨c, rfl, hcolons⟩ := exists_part_of_skipBlanks hcolon
  obtain ⟨key, rfl, hkeys⟩ := readString_part hkey
  obtain ⟨b, rfl, hquotes⟩ := exists_part_of_skipBlanks hquote
  refine ⟨b ++ '"' :: (key ++ (c ++ ':' :: value)), by simp, fun f t hfuel ht => ?_⟩
  simp only [List.length_append, List.length_cons] at hfuel
  simp only [List.append_assoc, List.cons_append]
  exact ⟨_, _, _, hquotes _, hkeys (by omega) _, hcolons _, hvalues (by omega) t ht⟩

theorem readsLocally (fuel : Nat) : ReadsLocally fuel := by
  induction fuel with
  | zero =>
    constructor
    case value =>
      intro _ _ _ _ h
      cases h
    case elements =>
      intro _ _ _ _ h
      cases h
    case members =>
      intro _ _ _ _ h
      cases h
  | succ fuel ih =>
    constructor
    case value => exact ih.value_succ
    case elements =>
      intro _ _ _ _ h
      refine ReadsList.part (fun hv => ?_) ih.elements readElements_eq_some_iff.mpr
        (readElements_eq_some_iff.mp h)
      obtain ⟨part, -, hcs, hpart⟩ := ih.value hv
      exact ⟨part, hcs, fun f t hf ht => hpart hf t ht⟩
    case members =>
      intro _ _ _ _ h
      refine ReadsList.part (fun hm => ?_) ih.members readMembers_eq_some_iff.mpr
        (readMembers_eq_some_iff.mp h)
      exact ih.member hm

/-- An array is read from its opening bracket to its own closing bracket, whatever follows. -/
theorem array_part {vs : List Json} (h : readValue fuel depth cs = some (.array vs, rest)) :
    ∃ b body, IsBlank b ∧ cs = b ++ '[' :: body ++ ']' :: rest ∧
      Takes (readValue · depth) ('[' :: body ++ [']']) (.array vs) := by
  cases fuel with
  | zero => cases h
  | succ fuel =>
    obtain ⟨b, hb, hcs⟩ := exists_isBlank cs
    obtain ⟨body, hs, hbody⟩ := (readValue_eq_some_iff.mp h).array_part (readsLocally fuel)
    refine ⟨b, body, hb, by rw [List.append_assoc, ← hs, ← hcs], fun fuel' hfuel t => ?_⟩
    obtain ⟨f, rfl⟩ : ∃ f, fuel' = f + 1 := Nat.exists_eq_add_one.mpr (Nat.zero_lt_of_lt hfuel)
    rw [List.append_assoc]
    exact readValue_eq_some_iff.mpr (hbody f t (Nat.le_of_succ_le_succ hfuel))

/-- After a value only blanks may follow. -/
theorem readText_append {part : List Char} {v : Json} (h : Takes (readValue · maxDepth) part v)
    (t : List Char) :
    readText (part ++ t) = if (skipBlanks t).isEmpty then some v else none := by
  have hfuel : part.length ≤ (part ++ t).length + 1 := by
    rw [List.length_append]
    omega
  have hvalue : readValue ((part ++ t).length + 1) maxDepth (part ++ t) = some (v, t) := h hfuel t
  rw [readText, hvalue]

end Local

end ChangeImpact.Json
