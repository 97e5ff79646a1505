import ChangeImpact.Text.Utf8
import Mathlib.Algebra.Group.Nat.Defs

/-!
# Reading what was written

A character takes a lead octet and the octets that continue it. While the reader goes over
them, the sequence it keeps open holds the bits of the character that were read and admits the
octet that comes next; so it ends with that character and with nothing open. Every text is
read back as it was written. An octet of the first 128 is a character of its own, so a text can be
cut there.
-/

namespace ChangeImpact.Utf8

theorem toNat_octet {b : Nat} (hb : b < 256) : (UInt8.ofNat b).toNat = b :=
  UInt8.toNat_ofNat_of_lt' hb

/-- The octets that continue the value `v` when `n` of them are missing. -/
def continuation (v : Nat) : Nat → Bytes
  | 0 => []
  | n + 1 => UInt8.ofNat (v / 64 ^ n % 64 + 0x80) :: continuation v n

theorem encodeChar_of_lt {c : Char} (h : c.toNat < 0x80) :
    String.utf8EncodeChar c = [UInt8.ofNat c.toNat] :=
  if_pos (Nat.le_of_lt_succ h)

/-- An open sequence leads to the value `v`: it has the bits above the `n + 1` octets that are
missing, and the next of these is in its range. -/
structure Open.Leads (o : Open) (v n : Nat) : Prop where
  missing : o.missing = n + 1
  bits : o.bits = v / 64 ^ (n + 1)
  low : o.low ≤ v / 64 ^ n % 64 + 0x80
  high : v / 64 ^ n % 64 + 0x80 ≤ o.high

variable {v n : Nat} {rest : Bytes}

/-- The octets that are missing finish the character. -/
theorem decodeFrom_continuation {o : Open} (h : o.Leads v n) :
    decodeFrom (some o) (continuation v (n + 1) ++ rest) =
      Char.ofNat v :: decodeFrom none rest := by
  have hoctet (n : Nat) : (UInt8.ofNat (v / 64 ^ n % 64 + 0x80)).toNat =
      v / 64 ^ n % 64 + 0x80 := toNat_octet (by omega)
  induction n generalizing o with
  | zero =>
    have hbits : v / 64 ^ (0 + 1) * 64 + v / 64 ^ 0 % 64 = v := by omega
    rw [continuation, List.cons_append, decodeFrom, step]
    simp only [hoctet, h.low, h.high, h.missing, h.bits, Nat.add_sub_cancel, hbits]
    rfl
  | succ n ih =>
    have hbits : v / 64 ^ (n + 1 + 1) * 64 + v / 64 ^ (n + 1) % 64 = v / 64 ^ (n + 1) := by
      rw [Nat.pow_succ 64 (n + 1), ← Nat.div_div_eq_div_mul]
      omega
    have hmore : ¬n + 1 + 1 ≤ 1 := by omega
    rw [continuation, List.cons_append, decodeFrom, step]
    simp only [hoctet, h.low, h.high, h.missing, h.bits, Nat.add_sub_cancel, hbits, and_self,
      if_true, if_neg hmore, List.nil_append]
    have hlast : v / 64 ^ n % 64 + 0x80 ≤ 0xBF := by omega
    exact ih ⟨rfl, rfl, Nat.le_add_left .., hlast⟩

/-- What an octet from 0xC2 on opens. -/
private theorem begin_ofNat {b : Nat} (hb : 0xC2 ≤ b) (hb' : b ≤ 0xF4) :
    begin (UInt8.ofNat b) = ([], some
      (if b < 0xE0 then ⟨b - 0xC0, 1, 0x80, 0xBF⟩
      else if b < 0xF0 then
        ⟨b - 0xE0, 2, if b = 0xE0 then 0xA0 else 0x80, if b = 0xED then 0x9F else 0xBF⟩
      else ⟨b - 0xF0, 3, if b = 0xF0 then 0x90 else 0x80, if b = 0xF4 then 0x8F else 0xBF⟩)) := by
  have hoctet : (UInt8.ofNat b).toNat = b := toNat_octet (by omega)
  simp only [begin, hoctet]
  grind

/-- A character beyond the first 128 is a lead octet, which opens a sequence, and what continues
it. Some octets that lead admit fewer values of the next one, because shorter forms and surrogates
are not characters. -/
theorem exists_lead {c : Char} (hc : 0x80 ≤ c.toNat) :
    ∃ lead o n, begin lead = ([], some o) ∧ o.Leads c.toNat n ∧
      String.utf8EncodeChar c = lead :: continuation c.toNat (n + 1) := by
  have hvalid : c.toNat < 0xD800 ∨ 0xDFFF < c.toNat ∧ c.toNat < 0x110000 := c.valid
  generalize hv : c.toNat = v at hc hvalid
  have hencode : String.utf8EncodeChar c =
      if v ≤ 0x7f then [UInt8.ofNat v]
      else if v ≤ 0x7ff then UInt8.ofNat (v / 64 % 0x20 + 0xc0) :: continuation v 1
      else if v ≤ 0xffff then UInt8.ofNat (v / 4096 % 0x10 + 0xe0) :: continuation v 2
      else UInt8.ofNat (v / 262144 % 0x08 + 0xf0) :: continuation v 3 := by
    rw [← hv]
    simp only [continuation, Nat.reducePow, Nat.div_one]
    rfl
  rw [hencode, if_neg (by omega)]
  by_cases htwo : v ≤ 0x7ff
  · refine ⟨_, _, 0, begin_ofNat (b := v / 64 % 0x20 + 0xc0) (by omega) (by omega), ?_,
      if_pos htwo⟩
    rw [if_pos (by omega)]
    constructor <;> simp only [Nat.reducePow, Nat.reduceAdd] <;> omega
  · rw [if_neg htwo]
    by_cases hthree : v ≤ 0xffff
    · refine ⟨_, _, 1, begin_ofNat (b := v / 4096 % 0x10 + 0xe0) (by omega) (by omega), ?_,
        if_pos hthree⟩
      rw [if_neg (by omega), if_pos (by omega)]
      constructor <;> simp only [Nat.reducePow, Nat.reduceAdd]
      case bits => omega
      case low => split <;> omega
      case high => split <;> omega
    · refine ⟨_, _, 2, begin_ofNat (b := v / 262144 % 0x08 + 0xf0) (by omega) (by omega), ?_,
        if_neg hthree⟩
      rw [if_neg (by omega), if_neg (by omega)]
      constructor <;> simp only [Nat.reducePow, Nat.reduceAdd]
      case bits => omega
      case low => split <;> omega
      case high => split <;> omega

/-- The octets of a character are read as it. -/
theorem decodeFrom_encodeChar (c : Char) :
    decodeFrom none (String.utf8EncodeChar c ++ rest) = c :: decodeFrom none rest := by
  by_cases hc : 0x80 ≤ c.toNat
  · obtain ⟨lead, o, n, hbegin, hleads, hencode⟩ := exists_lead hc
    rw [hencode, List.cons_append, decodeFrom, step, hbegin]
    simp only [List.nil_append]
    rw [decodeFrom_continuation hleads, Char.ofNat_toNat]
  · have hoctet : (UInt8.ofNat c.toNat).toNat = c.toNat := toNat_octet (by omega)
    rw [encodeChar_of_lt (Nat.not_le.mp hc), List.singleton_append, decodeFrom, step, begin]
    simp only [hoctet, if_pos (Nat.not_le.mp hc), Char.ofNat_toNat, List.singleton_append]

/-- A text is read back as it was written. -/
theorem decode_encode (text : String) : decode (encode text) = text := by
  have hchars (chars : List Char) :
      decodeFrom none (chars.flatMap String.utf8EncodeChar) = chars := by
    induction chars with
    | nil => rfl
    | cons c chars ih => rw [List.flatMap_cons, decodeFrom_encodeChar, ih]
  rw [decode, encode, hchars, String.ofList_toList]

/-- A small octet stands for a character of its own. -/
theorem eq_of_mem_encodeChar {b : UInt8} {c : Char} (h : b ∈ String.utf8EncodeChar c)
    (hb : b.toNat < 0x80) : String.utf8EncodeChar c = [b] ∧ c.toNat = b.toNat := by
  by_cases hc : 0x80 ≤ c.toNat
  case pos =>
    obtain ⟨lead, o, n, hbegin, -, hencode⟩ := exists_lead hc
    rw [hencode] at h
    have hcontinue {v m : Nat} : b ∉ continuation v m := by
      induction m with
      | zero => exact List.not_mem_nil
      | succ m ih =>
        rw [continuation, List.mem_cons]
        rintro (rfl | h)
        · rw [toNat_octet (by omega)] at hb
          omega
        · exact ih h
    rcases List.mem_cons.mp h with rfl | h
    · rw [begin] at hbegin
      simp [hb] at hbegin
    · exact absurd h hcontinue
  case neg =>
    have hencode := encodeChar_of_lt (Nat.not_le.mp hc)
    rw [hencode, List.mem_singleton] at h
    subst h
    exact ⟨hencode, (toNat_octet (by omega)).symm⟩

/-- A text is cut before and after a small octet between two characters. -/
theorem exists_split {u t : Bytes} {b : UInt8} {cs : List Char} (hb : b.toNat < 0x80)
    (h : cs.flatMap String.utf8EncodeChar = u ++ b :: t) :
    ∃ front c back, cs = front ++ c :: back ∧ front.flatMap String.utf8EncodeChar = u ∧
      c.toNat = b.toNat ∧ back.flatMap String.utf8EncodeChar = t := by
  induction cs generalizing u with
  | nil =>
    rw [List.flatMap_nil, eq_comm, List.append_eq_nil_iff] at h
    cases h.2
  | cons d cs ih =>
    rw [List.flatMap_cons] at h
    rcases List.append_eq_append_iff.mp h with ⟨v, hu, hrest⟩ | ⟨v, hd, hrest⟩
    · obtain ⟨front, c, back, rfl, rfl, hc, hback⟩ := ih hrest
      exact ⟨d :: front, c, back, rfl, by rw [List.flatMap_cons, hu], hc, hback⟩
    · cases v with
      | nil =>
        obtain ⟨front, c, back, rfl, hfront, hc, hback⟩ := ih (u := []) hrest.symm
        refine ⟨d :: front, c, back, rfl, ?_, hc, hback⟩
        rw [List.flatMap_cons, hfront, hd, List.append_nil, List.append_nil]
      | cons b' v =>
        injection hrest with hb' hrest
        subst hb'
        obtain ⟨hencode, htoNat⟩ :=
          eq_of_mem_encodeChar (hd ▸ List.mem_append_right u List.mem_cons_self) hb
        rw [hencode] at hd
        obtain ⟨rfl, rfl⟩ : u = [] ∧ v = [] := by
          cases u with
          | nil => exact ⟨rfl, (List.cons.inj hd).2.symm⟩
          | cons x u =>
            have hlength := congrArg List.length hd
            simp only [List.length_append, List.length_cons, List.length_nil] at hlength
            omega
        exact ⟨[], d, cs, rfl, rfl, htoNat, hrest.symm⟩

end ChangeImpact.Utf8
