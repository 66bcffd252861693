import Mathlib.Algebra.Group.Nat.Defs
import Mathlib.Data.List.TakeWhile
import Mathlib.Tactic.Common

namespace FastdlMm

/-- A `std::string`: each `Char` stands for one byte of it. -/
abbrev Text := List Char

/-- A string literal as text. It stays folded in proofs, where decoding it would cost too much. -/
@[irreducible] def text (s : String) : Text := s.toList

/-- The characters of a literal without decoding it: `h` is `rfl` for a list left to unification. -/
theorem text_eq {s : String} {l : Text} (h : s = String.ofList l) : text s = l := by
  rw [h, text]
  exact String.toList_ofList

/-- A fact about each character of a text, checked along the text. -/
theorem forall_of_all {p : Char → Prop} [DecidablePred p] {l : Text}
    (h : l.all (fun c => decide (p c)) = true) : ∀ c ∈ l, p c := by
  intro c hc
  exact of_decide_eq_true (List.all_eq_true.mp h c hc)

/-- The address of a client as text. -/
abbrev Ip := Text

def isBlank (c : Char) : Bool := c = ' ' || c = '\t'

/-- A text without the blanks at its ends. -/
def trimAscii (value : Text) : Text :=
  ((value.dropWhile isBlank).reverse.dropWhile isBlank).reverse

def lowerAscii (value : Text) : Text := value.map Char.toLower

/-- What the callee sees of `c_str()`. -/
def cString (value : Text) : Text := value.takeWhile (· ≠ '\x00')

/-- `std::to_string`. -/
def decimal (n : Nat) : Text := Nat.toDigits 10 n

/-- `std::hex` formatting. -/
def hexadecimal (n : Nat) : Text := Nat.toDigits 16 n

/-- `%0*d` formatting. -/
def zeroPadded (width : Nat) (n : Int) : Text :=
  if n < 0 then '-' :: (decimal n.natAbs).leftpad (width - 1) '0'
  else (decimal n.natAbs).leftpad width '0'

/-- Digit by digit as the unsigned 64-bit parsers read a number, with their overflow check. -/
def parseDigits (parsed : Nat) : Text → Option Nat
  | [] => some parsed
  | c :: cs =>
      if c < '0' ∨ '9' < c then none
      else
        let digit := c.toNat - '0'.toNat
        if (2 ^ 64 - 1 - digit) / 10 < parsed then none else parseDigits (parsed * 10 + digit) cs

theorem trimAscii_eq_self {value : Text} (hhead : ∀ c ∈ value.head?, isBlank c = false)
    (hlast : ∀ c ∈ value.getLast?, isBlank c = false) : trimAscii value = value := by
  have hstop {v : Text} (h : ∀ c ∈ v.head?, isBlank c = false) : v.dropWhile isBlank = v := by
    cases v with
    | nil => rfl
    | cons c cs => rw [List.dropWhile_cons_of_neg (by simp [h c rfl])]
  rw [trimAscii, hstop hhead, hstop (by rwa [List.head?_reverse]), List.reverse_reverse]

theorem not_mem_blanks {c : Char} (hc : isBlank c = false) {blanks : Text}
    (h : ∀ b ∈ blanks, isBlank b) : c ∉ blanks := by
  intro hmem
  rw [h c hmem] at hc
  cases hc

/-- `raw` is `v` with blanks around it. -/
def Padded (v raw : Text) : Prop :=
  ∃ before after, raw = before ++ v ++ after ∧ (∀ c ∈ before, isBlank c) ∧ ∀ c ∈ after, isBlank c

/-- Blanks around a text do not change what is left of it. -/
theorem trimAscii_of_padded {v raw : Text} (h : Padded v raw) : trimAscii raw = trimAscii v := by
  obtain ⟨before, after, rfl, hbefore, hafter⟩ := h
  have hgone : after.dropWhile isBlank = [] := List.dropWhile_eq_nil_iff.mpr hafter
  have hback : after.reverse.dropWhile isBlank = [] := by
    simpa only [List.dropWhile_eq_nil_iff, List.mem_reverse] using hafter
  rw [trimAscii, trimAscii, List.append_assoc, List.dropWhile_append_of_pos hbefore,
    List.dropWhile_append, hgone]
  cases hv : v.dropWhile isBlank with
  | nil => simp
  | cons c cs =>
    simp only [List.isEmpty_cons, Bool.false_eq_true, if_false, List.reverse_append]
    rw [List.dropWhile_append, hback]
    simp

theorem padded_trimAscii (raw : Text) : Padded (trimAscii raw) raw := by
  refine ⟨raw.takeWhile isBlank, ((raw.dropWhile isBlank).reverse.takeWhile isBlank).reverse, ?_,
    fun c hc => List.mem_takeWhile_imp hc, ?_⟩
  · rw [trimAscii, List.append_assoc, ← List.reverse_append, List.takeWhile_append_dropWhile,
      List.reverse_reverse, List.takeWhile_append_dropWhile]
  · intro c hc
    exact List.mem_takeWhile_imp (List.mem_reverse.mp hc)

/-- Trimming takes nothing but blanks. -/
theorem count_trimAscii {c : Char} (hc : isBlank c = false) (value : Text) :
    (trimAscii value).count c = value.count c := by
  obtain ⟨before, after, heq, hbefore, hafter⟩ := padded_trimAscii value
  have hnone {blanks : Text} (h : ∀ b ∈ blanks, isBlank b) : blanks.count c = 0 :=
    List.count_eq_zero_of_not_mem (not_mem_blanks hc h)
  have hcount := congrArg (List.count c) heq
  rw [List.count_append, List.count_append, hnone hbefore, hnone hafter] at hcount
  omega

/-- No blank stands at either end. -/
def Bare (v : Text) : Prop :=
  (∀ c ∈ v.head?, isBlank c = false) ∧ ∀ c ∈ v.getLast?, isBlank c = false

theorem trimAscii_eq {v raw : Text} (h : Padded v raw) (hbare : Bare v) : trimAscii raw = v := by
  rw [trimAscii_of_padded h]
  exact trimAscii_eq_self hbare.1 hbare.2

private theorem isDigit_iff (c : Char) : c.isDigit ↔ ¬ (c < '0' ∨ '9' < c) := by
  rw [Char.isDigit_iff_toNat, not_or, Char.not_lt, Char.not_lt]
  exact Iff.rfl

theorem le_ofDigitChars (value : Text) (parsed : Nat) :
    parsed ≤ Nat.ofDigitChars 10 value parsed := by
  rw [Nat.ofDigitChars_eq_ofDigitChars_zero]
  have hpos : 0 < 10 ^ value.length := Nat.pow_pos (by omega)
  have := Nat.le_mul_of_pos_left parsed hpos
  omega

/-- The parser accepts exactly the digit strings of a value below `2 ^ 64`. -/
theorem parseDigits_iff {parsed : Nat} (hp : parsed < 2 ^ 64) (value : Text) (n : Nat) :
    parseDigits parsed value = some n ↔
      (∀ c ∈ value, c.isDigit) ∧ Nat.ofDigitChars 10 value parsed = n ∧ n < 2 ^ 64 := by
  induction value generalizing parsed with
  | nil =>
    simp only [parseDigits, Option.some.injEq, List.not_mem_nil, false_implies, implies_true,
      true_and, Nat.ofDigitChars_nil]
    constructor
    · intro hn
      exact ⟨hn, hn ▸ hp⟩
    · exact fun h => h.1
  | cons c cs ih =>
    simp only [parseDigits, List.forall_mem_cons, Nat.ofDigitChars_cons]
    by_cases hc : c < '0' ∨ '9' < c
    · rw [if_pos hc]
      have hno : ¬ c.isDigit = true := fun h => (isDigit_iff c).mp h hc
      simp [hno]
    · rw [if_neg hc]
      have hdigit : c.isDigit = true := (isDigit_iff c).mpr hc
      have hrange := Char.isDigit_iff_toNat.mp hdigit
      generalize hd : c.toNat - '0'.toNat = digit
      have hsmall : digit ≤ 9 := by
        have h0 : '0'.toNat = 48 := rfl
        have h9 : '9'.toNat = 57 := rfl
        omega
      have hcomm : parsed * 10 + digit = 10 * parsed + digit := by omega
      split_ifs with hover
      · have hle := le_ofDigitChars cs (10 * parsed + digit)
        constructor
        · intro h
          cases h
        · intro hdigits
          obtain ⟨_, rfl, hlt⟩ := hdigits
          omega
      · rw [ih (by omega), hcomm]
        simp [hdigit]

theorem decimal_ne_nil (n : Nat) : decimal n ≠ [] := Nat.toDigits_ne_nil

theorem decimal_digits (n : Nat) : ∀ c ∈ decimal n, c.isDigit :=
  fun _ hc => Nat.isDigit_of_mem_toDigits (by omega) (by omega) hc

theorem not_mem_decimal {c : Char} (hc : c.isDigit = false) (n : Nat) : c ∉ decimal n := by
  intro hmem
  rw [decimal_digits n c hmem] at hc
  cases hc

theorem hexadecimal_digits (n : Nat) : ∀ c ∈ hexadecimal n,
    (c.isDigit || ('a' ≤ c && c ≤ 'f') || ('A' ≤ c && c ≤ 'F')) = true := by
  have hdigit : ∀ m < 16, (m.digitChar.isDigit || ('a' ≤ m.digitChar && m.digitChar ≤ 'f') ||
      ('A' ≤ m.digitChar && m.digitChar ≤ 'F')) = true := by decide
  induction n using Nat.strongRecOn with
  | ind n ih =>
    intro c hc
    rw [hexadecimal, Nat.toDigits_eq_if (by omega)] at hc
    split_ifs at hc with hlt
    · rw [List.mem_singleton.mp hc]
      exact hdigit n hlt
    · obtain hc | hc := List.mem_append.mp hc
      · exact ih (n / 16) (Nat.div_lt_self (by omega) (by omega)) c hc
      · rw [List.mem_singleton.mp hc]
        exact hdigit (n % 16) (Nat.mod_lt n (by omega))

theorem not_mem_hexadecimal {c : Char}
    (hc : (c.isDigit || ('a' ≤ c && c ≤ 'f') || ('A' ≤ c && c ≤ 'F')) = false) (n : Nat) :
    c ∉ hexadecimal n := by
  intro hmem
  rw [hexadecimal_digits n c hmem] at hc
  cases hc

theorem hexadecimal_length_le {n : Nat} (h : n < 2 ^ 64) : (hexadecimal n).length ≤ 16 :=
  (Nat.length_toDigits_le_iff (by omega) (by omega)).mpr (by omega)

theorem decimal_length_le {n : Nat} (h : n < 2 ^ 64) : (decimal n).length ≤ 20 :=
  (Nat.length_toDigits_le_iff (by omega) (by omega)).mpr (by omega)

theorem parseDigits_decimal {n : Nat} (h : n < 2 ^ 64) : parseDigits 0 (decimal n) = some n :=
  (parseDigits_iff (by omega) _ _).mpr ⟨decimal_digits n, Nat.ofDigitChars_ten_toDigits, h⟩

private theorem digitChar_inj {m n : Nat} (hm : m < 16) (hn : n < 16)
    (h : m.digitChar = n.digitChar) : m = n := by
  have hall : ∀ a < 16, ∀ b < 16, Nat.digitChar a = Nat.digitChar b → a = b := by decide
  exact hall m hm n hn h

/-- Two numbers with the same digits are the same. -/
theorem toDigits_inj {b : Nat} (hb : 1 < b) (hb' : b ≤ 16) {m n : Nat}
    (h : Nat.toDigits b m = Nat.toDigits b n) : m = n := by
  induction m using Nat.strongRecOn generalizing n with
  | ind m ih =>
    rw [Nat.toDigits_eq_if hb, Nat.toDigits_eq_if (n := n) hb] at h
    have hmore (k : Nat) (c d : Char) : [c] ≠ Nat.toDigits b k ++ [d] := by
      intro hone
      have hlength := congrArg List.length hone
      have hpos : 0 < (Nat.toDigits b k).length := Nat.length_toDigits_pos
      simp only [List.length_append, List.length_singleton] at hlength
      omega
    split_ifs at h with hm hn hn
    · exact digitChar_inj (by omega) (by omega) (List.singleton_inj.mp h)
    · exact absurd h (hmore _ _ _)
    · exact absurd h.symm (hmore _ _ _)
    · obtain ⟨hdiv, hmod⟩ := List.append_inj' h rfl
      have hquotient : m / b = n / b := ih (m / b) (Nat.div_lt_self (by omega) hb) hdiv
      have hlast : m % b = n % b := by
        have hm' := Nat.mod_lt m (by omega : b > 0)
        have hn' := Nat.mod_lt n (by omega : b > 0)
        exact digitChar_inj (by omega) (by omega) (List.singleton_inj.mp hmod)
      rw [← Nat.div_add_mod m b, ← Nat.div_add_mod n b, hquotient, hlast]

theorem decimal_inj {m n : Nat} (h : decimal m = decimal n) : m = n :=
  toDigits_inj (by decide) (by decide) h

theorem hexadecimal_inj {m n : Nat} (h : hexadecimal m = hexadecimal n) : m = n :=
  toDigits_inj (by decide) (by decide) h

theorem zeroPadded_natCast (width n : Nat) :
    zeroPadded width n = List.replicate (width - (decimal n).length) '0' ++ decimal n := by
  rw [zeroPadded, if_neg (by omega), Int.natAbs_natCast, List.leftpad]

theorem length_zeroPadded {width n : Nat} (hpos : 0 < width) (h : n < 10 ^ width) :
    (zeroPadded width n).length = width := by
  have hle : (decimal n).length ≤ width := (Nat.length_toDigits_le_iff (by omega) hpos).mpr h
  rw [zeroPadded_natCast, List.length_append, List.length_replicate]
  omega

theorem zeroPadded_digits (width n : Nat) : ∀ c ∈ zeroPadded width n, c.isDigit := by
  intro c hc
  rw [zeroPadded_natCast, List.mem_append] at hc
  obtain hzero | hdigit := hc
  · rw [(List.mem_replicate.mp hzero).2]
    rfl
  · exact decimal_digits n c hdigit

/-- The zeros in front do not change the number. -/
theorem ofDigitChars_zeroPadded (width n : Nat) :
    Nat.ofDigitChars 10 (zeroPadded width n) 0 = n := by
  rw [zeroPadded_natCast, Nat.ofDigitChars_append, Nat.ofDigitChars_replicate_zero, Nat.mul_zero,
    decimal, Nat.ofDigitChars_ten_toDigits]

end FastdlMm
