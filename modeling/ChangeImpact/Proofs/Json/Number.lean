import ChangeImpact.Json.Number

/-!
# Where a number ends

A reader returns a value and the rest of the text; what stands in front of the rest is the part it
takes away. A number has no closing character: its reader stops at the first character that does
not belong to it. So it takes the same part away from every text that starts with the part and
goes on with the same character.
-/

namespace ChangeImpact.Json

/-- A reader decides by the part that it takes away and by the character after it. -/
def IsLocal {α : Type} (read : List Char → Option (α × List Char)) : Prop :=
  ∀ ⦃cs a rest⦄, read cs = some (a, rest) →
    ∃ part, cs = part ++ rest ∧ ∀ t, t.head? = rest.head? → read (part ++ t) = some (a, t)

section Digits

variable {p : Char → Bool} {cs t part rest : List Char}

theorem head?_append_congr (part : List Char) (h : t.head? = rest.head?) :
    (part ++ t).head? = (part ++ rest).head? := by
  rw [List.head?_append, List.head?_append, h]

/-- A text that goes on as another one does after its first characters of a kind. -/
theorem dropWhile_eq_self (h : t.head? = (cs.dropWhile p).head?) : t.dropWhile p = t := by
  have hstop := List.head?_dropWhile_not p cs
  rw [← h] at hstop
  cases t with
  | nil => rfl
  | cons c t => exact List.dropWhile_cons_of_neg (Bool.eq_false_iff.mp hstop)

theorem dropWhile_takeWhile_append (h : t.head? = (cs.dropWhile p).head?) :
    (cs.takeWhile p ++ t).dropWhile p = t := by
  rw [List.dropWhile_append_of_pos (List.all_eq_true.mp List.all_takeWhile), dropWhile_eq_self h]

theorem takeWhile_takeWhile_append (h : t.head? = (cs.dropWhile p).head?) :
    (cs.takeWhile p ++ t).takeWhile p = cs.takeWhile p := by
  have hnone : t.takeWhile p = [] :=
    List.append_left_eq_self.mp ((dropWhile_eq_self h).symm ▸ List.takeWhile_append_dropWhile)
  rw [List.takeWhile_append_of_pos (List.all_eq_true.mp List.all_takeWhile), hnone, List.append_nil]

theorem spanDigits_append (h : t.head? = (spanDigits cs).2.head?) :
    spanDigits ((spanDigits cs).1 ++ t) = ((spanDigits cs).1, t) :=
  Prod.ext (takeWhile_takeWhile_append h) (dropWhile_takeWhile_append h)

theorem spanDigits_eq (cs : List Char) : (spanDigits cs).1 ++ (spanDigits cs).2 = cs :=
  List.takeWhile_append_dropWhile

/-- Digits are collected up to the same place. -/
theorem collectDigits_local {significand s count : Nat}
    (h : collectDigits significand cs = (s, count, rest)) :
    ∃ part, cs = part ++ rest ∧
      ∀ t, t.head? = rest.head? → collectDigits significand (part ++ t) = (s, count, t) := by
  induction cs generalizing significand s count with
  | nil =>
    cases h
    refine ⟨[], rfl, fun t ht => ?_⟩
    rw [List.head?_nil, List.head?_eq_none_iff] at ht
    rw [ht]
    rfl
  | cons c cs ih =>
    -- Where nothing is collected, the first character decides.
    have hstay {t : List Char} (ht : t.head? = (c :: cs).head?)
        (hsame : ∀ r, collectDigits significand (c :: r) = (significand, 0, c :: r)) :
        collectDigits significand t = (significand, 0, t) := by
      obtain ⟨r, rfl⟩ := List.head?_eq_some_iff.mp ht
      exact hsame r
    cases hd : digit? c with
    | none =>
      have hsame (r : List Char) : collectDigits significand (c :: r) = (significand, 0, c :: r) := by
        simp only [collectDigits, hd]
      rw [hsame] at h
      cases h
      exact ⟨[], rfl, fun t ht => hstay ht hsame⟩
    | some d =>
      by_cases hfits : significand * 10 + d < wordLimit
      case neg =>
        have hsame (r : List Char) :
            collectDigits significand (c :: r) = (significand, 0, c :: r) := by
          simp only [collectDigits, hd, if_neg hfits]
        rw [hsame] at h
        cases h
        exact ⟨[], rfl, fun t ht => hstay ht hsame⟩
      case pos =>
        have hnext (r : List Char) : collectDigits significand (c :: r) =
            ((collectDigits (significand * 10 + d) r).1,
              (collectDigits (significand * 10 + d) r).2.1 + 1,
              (collectDigits (significand * 10 + d) r).2.2) := by
          simp only [collectDigits, hd, if_pos hfits]
        rw [hnext] at h
        cases h
        obtain ⟨part, hcs, hpart⟩ := ih rfl
        refine ⟨c :: part, congrArg (c :: ·) hcs, fun t ht => ?_⟩
        rw [List.cons_append, hnext, hpart t ht]

/-- Collect digits, pass over those that do not fit, and read on. -/
def overDigits {α : Type} (significand : Nat)
    (next : Nat → Nat → List Char → List Char → Option (α × List Char)) (cs : List Char) :
    Option (α × List Char) :=
  let (s, count, after) := collectDigits significand cs
  next s count (spanDigits after).1 (spanDigits after).2

theorem overDigits_local {α : Type} {significand : Nat}
    {next : Nat → Nat → List Char → List Char → Option (α × List Char)}
    (hnext : ∀ s count excess, IsLocal (next s count excess)) :
    IsLocal (overDigits significand next) := by
  intro cs a rest h
  rcases hc : collectDigits significand cs with ⟨s, count, after⟩
  simp only [overDigits, hc] at h
  obtain ⟨collected, hcs, hcollected⟩ := collectDigits_local hc
  obtain ⟨tail, htail, hread⟩ := hnext _ _ _ h
  have hafter : after = (spanDigits after).1 ++ (tail ++ rest) :=
    htail ▸ (spanDigits_eq after).symm
  refine ⟨collected ++ ((spanDigits after).1 ++ tail), ?_, fun t ht => ?_⟩
  · rw [List.append_assoc, List.append_assoc, ← hafter, hcs]
  have htail' : (tail ++ t).head? = (spanDigits after).2.head? :=
    (head?_append_congr tail ht).trans (congrArg List.head? htail.symm)
  have hafter' : ((spanDigits after).1 ++ (tail ++ t)).head? = after.head? :=
    (head?_append_congr _ htail').trans (congrArg List.head? (spanDigits_eq after))
  rw [List.append_assoc, List.append_assoc, overDigits, hcollected _ hafter']
  simp only [spanDigits_append htail']
  exact hread t ht

end Digits

section Parts

variable {positive : Bool} {significand : Nat} {exponent : Int} {cs rest : List Char} {n : Number}

/-- The number of the digits of an exponent. -/
def ofExponent (positive : Bool) (significand : Nat) (exponent : Int) (up : Bool)
    (digits : List Char) : Option Number :=
  if digits.isEmpty then none
  else
    let value := digits.foldl (fun n c => n * 10 + (c.toNat - '0'.toNat)) 0
    if exponentLimit < value then
      if significand ≠ 0 ∧ up then none
      else some (.float (if positive then 0.0 else -0.0))
    else
      floatOfParts positive significand
        (clampExponent (if up then exponent + value else exponent - value))

/-- The digits of an exponent whose sign is known. -/
def readPower (positive : Bool) (significand : Nat) (exponent : Int) (up : Bool)
    (cs : List Char) : Option (Number × List Char) :=
  (ofExponent positive significand exponent up (spanDigits cs).1).map (·, (spanDigits cs).2)

/-- Whether an exponent goes up, and what follows its sign. -/
def exponentSign : List Char → Bool × List Char
  | '+' :: r => (true, r)
  | '-' :: r => (false, r)
  | r => (true, r)

theorem readExponent_eq (cs : List Char) :
    readExponent positive significand exponent cs =
      readPower positive significand exponent (exponentSign cs).1 (exponentSign cs).2 := by
  have hpower (up : Bool) (body : List Char) :
      (if (spanDigits body).1.isEmpty then none
      else
        let value := (spanDigits body).1.foldl (fun n c => n * 10 + (c.toNat - '0'.toNat)) 0
        if exponentLimit < value then
          if significand ≠ 0 ∧ up then none
          else some (.float (if positive then 0.0 else -0.0), (spanDigits body).2)
        else
          let total := clampExponent (if up then exponent + value else exponent - value)
          (floatOfParts positive significand total).map (·, (spanDigits body).2)) =
        readPower positive significand exponent up body := by
    simp only [readPower, ofExponent]
    split
    · rfl
    · split
      · split <;> rfl
      · rfl
  exact hpower (exponentSign cs).1 (exponentSign cs).2

/-- The digits of an exponent start with a digit. -/
theorem readPower_local {up : Bool}
    (h : readPower positive significand exponent up cs = some (n, rest)) :
    ∃ d part, d.isDigit = true ∧ cs = d :: part ++ rest ∧ ∀ t, t.head? = rest.head? →
      readPower positive significand exponent up (d :: part ++ t) = some (n, t) := by
  obtain ⟨m, hm, heq⟩ := Option.map_eq_some_iff.mp h
  cases heq
  cases hdigits : (spanDigits cs).1 with
  | nil =>
    rw [ofExponent, hdigits] at hm
    cases hm
  | cons d part =>
    have hd : d ∈ (spanDigits cs).1 := hdigits ▸ List.mem_cons_self
    refine ⟨d, part, List.all_eq_true.mp List.all_takeWhile d hd,
      hdigits ▸ (spanDigits_eq cs).symm, fun t ht => ?_⟩
    rw [readPower, ← hdigits, spanDigits_append ht, hm]
    rfl

theorem readExponent_local : IsLocal (readExponent positive significand exponent) := by
  intro cs n rest h
  rw [readExponent_eq] at h
  unfold exponentSign at h
  split at h
  case h_1 r =>
    obtain ⟨d, part, -, rfl, hpart⟩ := readPower_local h
    exact ⟨'+' :: d :: part, rfl, fun t ht => (readExponent_eq _).trans (hpart t ht)⟩
  case h_2 r =>
    obtain ⟨d, part, -, rfl, hpart⟩ := readPower_local h
    exact ⟨'-' :: d :: part, rfl, fun t ht => (readExponent_eq _).trans (hpart t ht)⟩
  case h_3 r hplus hminus =>
    obtain ⟨d, part, hd, rfl, hpart⟩ := readPower_local h
    refine ⟨d :: part, rfl, fun t ht => ?_⟩
    have hsign : exponentSign (d :: part ++ t) = (true, d :: part ++ t) := by
      unfold exponentSign
      split
      case h_1 heq =>
        cases heq
        exact absurd hd (by decide)
      case h_2 heq =>
        cases heq
        exact absurd hd (by decide)
      case h_3 => rfl
    rw [readExponent_eq, hsign]
    exact hpart t ht

theorem readTail_of_ne (hlower : cs.head? ≠ some 'e') (hupper : cs.head? ≠ some 'E') :
    readTail positive significand exponent cs =
      (floatOfParts positive significand exponent).map (·, cs) := by
  unfold readTail
  split
  · exact absurd rfl hlower
  · exact absurd rfl hupper
  · rfl

theorem readTail_local : IsLocal (readTail positive significand exponent) := by
  intro cs n rest h
  by_cases hlower : cs.head? = some 'e'
  · obtain ⟨r, rfl⟩ := List.head?_eq_some_iff.mp hlower
    obtain ⟨part, rfl, hpart⟩ := readExponent_local h
    exact ⟨'e' :: part, rfl, hpart⟩
  by_cases hupper : cs.head? = some 'E'
  · obtain ⟨r, rfl⟩ := List.head?_eq_some_iff.mp hupper
    obtain ⟨part, rfl, hpart⟩ := readExponent_local h
    exact ⟨'E' :: part, rfl, hpart⟩
  rw [readTail_of_ne hlower hupper] at h
  obtain ⟨m, hm, heq⟩ := Option.map_eq_some_iff.mp h
  cases heq
  refine ⟨[], rfl, fun t ht => ?_⟩
  rw [List.nil_append, readTail_of_ne (ht ▸ hlower) (ht ▸ hupper), hm]
  rfl

theorem readFraction_eq (cs : List Char) :
    readFraction positive significand exponent cs =
      if cs.head?.any Char.isDigit then
        overDigits significand (fun s count _ => readTail positive s (exponent - count)) cs
      else none := by
  cases cs <;> rfl

theorem readFraction_local : IsLocal (readFraction positive significand exponent) := by
  intro cs n rest h
  rw [readFraction_eq] at h
  split at h
  case isFalse => cases h
  case isTrue hdigit =>
    obtain ⟨part, rfl, hpart⟩ := overDigits_local (fun _ _ _ => readTail_local) h
    refine ⟨part, rfl, fun t ht => ?_⟩
    rw [readFraction_eq, head?_append_congr part ht, if_pos hdigit, hpart t ht]

/-- What may follow the digits in front: a fraction, an exponent or nothing. -/
def readRest (positive : Bool) (significand : Nat) (exponent : Int) (whole : Option Number) :
    List Char → Option (Number × List Char)
  | '.' :: r => readFraction positive significand exponent r
  | 'e' :: r => readExponent positive significand exponent r
  | 'E' :: r => readExponent positive significand exponent r
  | r => whole.map (·, r)

theorem readRest_of_ne {whole : Option Number} (hpoint : cs.head? ≠ some '.')
    (hlower : cs.head? ≠ some 'e') (hupper : cs.head? ≠ some 'E') :
    readRest positive significand exponent whole cs = whole.map (·, cs) := by
  unfold readRest
  split
  · exact absurd rfl hpoint
  · exact absurd rfl hlower
  · exact absurd rfl hupper
  · rfl

theorem readRest_local {whole : Option Number} :
    IsLocal (readRest positive significand exponent whole) := by
  intro cs n rest h
  by_cases hpoint : cs.head? = some '.'
  · obtain ⟨r, rfl⟩ := List.head?_eq_some_iff.mp hpoint
    obtain ⟨part, rfl, hpart⟩ := readFraction_local h
    exact ⟨'.' :: part, rfl, hpart⟩
  by_cases hlower : cs.head? = some 'e'
  · obtain ⟨r, rfl⟩ := List.head?_eq_some_iff.mp hlower
    obtain ⟨part, rfl, hpart⟩ := readExponent_local h
    exact ⟨'e' :: part, rfl, hpart⟩
  by_cases hupper : cs.head? = some 'E'
  · obtain ⟨r, rfl⟩ := List.head?_eq_some_iff.mp hupper
    obtain ⟨part, rfl, hpart⟩ := readExponent_local h
    exact ⟨'E' :: part, rfl, hpart⟩
  rw [readRest_of_ne hpoint hlower hupper] at h
  obtain ⟨m, hm, heq⟩ := Option.map_eq_some_iff.mp h
  cases heq
  refine ⟨[], rfl, fun t ht => ?_⟩
  rw [List.nil_append, readRest_of_ne (ht ▸ hpoint) (ht ▸ hlower) (ht ▸ hupper), hm]
  rfl

theorem readMagnitude_zero (cs : List Char) :
    readMagnitude positive ('0' :: cs) =
      if cs.head?.any Char.isDigit then none
      else readRest positive 0 0 (some (integer positive 0)) cs := by
  unfold readMagnitude
  dsimp only
  rw [if_pos rfl]
  split
  case h_1 => rfl
  case h_2 => rfl
  case h_3 => rfl
  case h_4 d r hpoint hlower hupper =>
    have hd {c : Char} (hc : d ≠ c) : (d :: r).head? ≠ some c := fun h => hc (Option.some.inj h)
    rw [readRest_of_ne (hd hpoint) (hd hlower) (hd hupper)]
    rfl
  case h_5 => rfl

theorem readMagnitude_digit {c : Char} (hzero : c ≠ '0') (hdigit : c.isDigit = true)
    (cs : List Char) :
    readMagnitude positive (c :: cs) =
      overDigits (c.toNat - '0'.toNat) (fun s _ excess => readRest positive s excess.length
        (if excess.isEmpty then some (integer positive s)
        else floatOfParts positive s excess.length)) cs := by
  have hvalue : digit? c = some (c.toNat - '0'.toNat) := if_pos hdigit
  have hfits : c.toNat - '0'.toNat < wordLimit := by
    have hnine : c.toNat ≤ 57 := (Char.isDigit_iff_toNat.mp hdigit).2
    have hlimit : 57 < wordLimit := by decide
    omega
  rcases hcollect : collectDigits (c.toNat - '0'.toNat) cs with ⟨s, count, after⟩
  rcases hspan : spanDigits after with ⟨excess, tail⟩
  have hfirst : collectDigits 0 (c :: cs) = (s, count + 1, after) := by
    simp only [collectDigits, hvalue, Nat.zero_mul, Nat.zero_add, if_pos hfits, hcollect]
  unfold readMagnitude overDigits
  dsimp only
  rw [if_neg hzero, if_pos hdigit, hfirst, hcollect]
  dsimp only
  rw [hspan]
  dsimp only
  split
  case h_1 => rfl
  case h_2 => rfl
  case h_3 => rfl
  case h_4 hpoint hlower hupper =>
    rw [readRest.eq_4 _ _ _ _ _ hpoint hlower hupper]
    split <;> rfl

/-- A number starts with a digit. -/
theorem readMagnitude_local (h : readMagnitude positive cs = some (n, rest)) :
    ∃ c part, c.isDigit = true ∧ cs = c :: part ++ rest ∧ ∀ t, t.head? = rest.head? →
      readMagnitude positive (c :: part ++ t) = some (n, t) := by
  cases cs with
  | nil => cases h
  | cons c cs =>
    by_cases hzero : c = '0'
    · subst hzero
      rw [readMagnitude_zero] at h
      split at h
      case isTrue => cases h
      case isFalse hfree =>
        obtain ⟨part, rfl, hpart⟩ := readRest_local h
        refine ⟨'0', part, by decide, rfl, fun t ht => ?_⟩
        rw [List.cons_append, readMagnitude_zero, head?_append_congr part ht, if_neg hfree,
          hpart t ht]
    · by_cases hdigit : c.isDigit = true
      case pos =>
        rw [readMagnitude_digit hzero hdigit] at h
        obtain ⟨part, rfl, hpart⟩ := overDigits_local (fun _ _ _ => readRest_local) h
        refine ⟨c, part, hdigit, rfl, fun t ht => ?_⟩
        rw [List.cons_append, readMagnitude_digit hzero hdigit]
        exact hpart t ht
      case neg =>
        simp only [readMagnitude, if_neg hzero, if_neg hdigit] at h
        cases h

/-- A number starts with a sign or a digit. -/
theorem readNumber_local (h : readNumber cs = some (n, rest)) :
    ∃ c part, (c = '-' ∨ c.isDigit = true) ∧ cs = c :: part ++ rest ∧
      ∀ t, t.head? = rest.head? → readNumber (c :: part ++ t) = some (n, t) := by
  unfold readNumber at h
  split at h
  case h_1 r =>
    obtain ⟨c, part, -, rfl, hpart⟩ := readMagnitude_local h
    exact ⟨'-', c :: part, .inl rfl, rfl, hpart⟩
  case h_2 r hminus =>
    obtain ⟨c, part, hdigit, rfl, hpart⟩ := readMagnitude_local h
    refine ⟨c, part, .inr hdigit, rfl, fun t ht => ?_⟩
    unfold readNumber
    split
    case h_1 heq =>
      cases heq
      exact absurd hdigit (by decide)
    case h_2 => exact hpart t ht

end Parts

end ChangeImpact.Json
