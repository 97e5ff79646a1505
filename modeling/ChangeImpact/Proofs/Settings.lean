import ChangeImpact.Settings
import Mathlib.Data.Nat.Notation

/-!
# Numbers in texts

A signed number is written in decimal digits, and reading them gives it back, whether it
has a sign or not. Numbers that variables give are bounded by the number of their bits.
-/

namespace ChangeImpact.Settings

/-- Decimal digits spell the number that they come from. -/
theorem digits?_toDigits (n : Nat) : digits? (Nat.toDigits 10 n) = some n := by
  have hdigits : (Nat.toDigits 10 n).any (!·.isDigit) = false := by
    rw [List.any_eq_false]
    intro c hc
    simp [Nat.isDigit_of_mem_toDigits (by decide) (by decide) hc]
  have hvalue : (Nat.toDigits 10 n).foldl (fun n c => n * 10 + (c.toNat - '0'.toNat)) 0 = n := by
    simp only [Nat.mul_comm _ 10]
    rw [← Nat.ofDigitChars_eq_foldl]
    exact Nat.ofDigitChars_ten_toDigits
  rw [digits?, if_neg (by simp [hdigits, Nat.toDigits_ne_nil]), hvalue]

/-- A text that starts with a digit has no sign. -/
theorem signed?_of_unsigned {bits : Nat} {text : String} (hminus : text.toList.head? ≠ some '-')
    (hplus : text.toList.head? ≠ some '+') :
    signed? bits text =
      ((digits? text.toList).filter (· < Nat.pow 2 bits)).map fun n => (n : Int) := by
  rw [signed?]
  split
  · rename_i h
    rw [h] at hminus
    exact absurd rfl hminus
  · rename_i h
    rw [h] at hplus
    exact absurd rfl hplus
  · rfl

/-- A number is read back from its text. -/
theorem signed?_toString {bits : Nat} {n : Int} (hlow : -(Nat.pow 2 bits : Int) ≤ n)
    (hhigh : n < Nat.pow 2 bits) : signed? bits (toString n) = some n := by
  cases n with
  | ofNat m =>
    have htext : (toString (Int.ofNat m)).toList = Nat.toDigits 10 m := by
      change (Nat.repr m).toList = _
      rw [Nat.repr_eq_ofList_toDigits, String.toList_ofList]
    have hm : m < Nat.pow 2 bits := by
      rw [Int.ofNat_eq_natCast] at hhigh
      omega
    have hhead (c : Char) (hc : c.isDigit = false) : (Nat.toDigits 10 m).head? ≠ some c := by
      intro h
      have hdigit := Nat.isDigit_of_mem_toDigits (by decide) (by decide) (List.mem_of_head? h)
      rw [hc] at hdigit
      cases hdigit
    rw [signed?_of_unsigned (htext ▸ hhead '-' (by decide)) (htext ▸ hhead '+' (by decide)), htext,
      digits?_toDigits, Option.filter_some, if_pos (decide_eq_true hm)]
    rfl
  | negSucc m =>
    have htext : (toString (Int.negSucc m)).toList = '-' :: Nat.toDigits 10 (m + 1) := by
      change ("-" ++ Nat.repr (m + 1)).toList = _
      rw [Nat.repr_eq_ofList_toDigits, String.toList_append, String.toList_ofList]
      exact congrArg (['-'] ++ ·) (String.toList_ofList ..)
    have hm : m + 1 ≤ Nat.pow 2 bits := by
      rw [Int.negSucc_eq] at hlow
      omega
    simp only [signed?, htext, digits?_toDigits, Option.filter_some, decide_eq_true hm, if_true]
    rfl

/-- A number that is read has so many bits. -/
theorem bounds_of_signed? {bits : Nat} {text : String} {n : Int}
    (h : signed? bits text = some n) : -(Nat.pow 2 bits : Int) ≤ n ∧ n < Nat.pow 2 bits := by
  have hpos : 0 < Nat.pow 2 bits := Nat.two_pow_pos bits
  rw [signed?] at h
  split at h
  all_goals
    obtain ⟨k, hk, rfl⟩ := Option.map_eq_some_iff.mp h
    obtain ⟨m, hm, hmk⟩ := Option.bind_eq_some_iff.mp hk
    have hle := (Option.filter_eq_some_iff.mp hm).2
    rw [decide_eq_true_eq] at hle
    cases hmk
    omega

/-- Whatever the variables say, impacts age for a positive number of hours. -/
theorem autoconfirmAfterHours_pos (lookup : String → Option String) :
    0 < (load lookup).autoconfirmAfterHours := by
  rw [load]
  dsimp only
  cases h : ((value? lookup "RIPPLE_AUTOCONFIRM_AFTER_HOURS").bind (signed? 63)).filter
      (fun n => decide (0 < n)) with
  | none => decide
  | some n => exact of_decide_eq_true (Option.filter_eq_some_iff.mp h).2

end ChangeImpact.Settings
