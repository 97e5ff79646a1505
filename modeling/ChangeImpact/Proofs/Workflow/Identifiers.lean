import ChangeImpact.Workflow.World
import Mathlib.Data.Nat.Notation

/-!
# Identifiers

The number of an identifier can be read off its digits, so different numbers have
different identifiers, however many have been handed out.
-/

namespace ChangeImpact.Operation

/-- What a hexadecimal digit is worth. -/
def digitValue (c : Char) : ℕ :=
  if c.toNat < 'a'.toNat then c.toNat - '0'.toNat else c.toNat - 'a'.toNat + 10

/-- The number that hexadecimal digits stand for. -/
def numberOf (digits : List Char) : ℕ :=
  digits.foldl (fun n c => 16 * n + digitValue c) 0

theorem digitValue_digitChar : ∀ d < 16, digitValue d.digitChar = d := by
  decide

theorem numberOf_append (digits : List Char) (c : Char) :
    numberOf (digits ++ [c]) = 16 * numberOf digits + digitValue c :=
  List.foldl_append

/-- Leading zeros do not count. -/
theorem numberOf_padded (k : ℕ) (digits : List Char) :
    numberOf (List.replicate k '0' ++ digits) = numberOf digits := by
  induction k with
  | zero => rfl
  | succ k ih => exact ih

theorem numberOf_toDigits (n : ℕ) : numberOf (Nat.toDigits 16 n) = n := by
  induction n using Nat.strongRecOn with
  | ind n ih =>
    by_cases h : n < 16
    · rw [Nat.toDigits_of_lt_base h]
      exact (Nat.zero_add _).trans (digitValue_digitChar n h)
    · have hdiv : n / 16 < n := by omega
      rw [Nat.toDigits_of_base_le (by decide) (by omega), numberOf_append, ih (n / 16) hdiv,
        digitValue_digitChar _ (Nat.mod_lt n (by decide))]
      exact Nat.div_add_mod n 16

/-- No identifier is handed out twice. -/
theorem idOf_injective : Function.Injective idOf := by
  intro m n h
  have hdigits := congrArg String.toList h
  simp only [idOf, String.toList_append, String.toList_ofList,
    List.append_cancel_left_eq] at hdigits
  have hnumber := congrArg numberOf hdigits
  rwa [numberOf_padded, numberOf_padded, numberOf_toDigits, numberOf_toDigits] at hnumber

end ChangeImpact.Operation
