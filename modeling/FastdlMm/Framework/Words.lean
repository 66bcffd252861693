import Mathlib.Data.Nat.ModEq

namespace FastdlMm

/-- `std::size_t` of the 32-bit HLDS process. -/
def sizeBits : Nat := 32

/-- `a - b` on unsigned words of `w` bits. -/
def wrapSub (w a b : Nat) : Nat := (a + (2 ^ w - b % 2 ^ w)) % 2 ^ w

/-- `a + b` on unsigned words of `w` bits. -/
def wrapAdd (w a b : Nat) : Nat := (a + b) % 2 ^ w

/-- `a * b` on unsigned words of `w` bits. -/
def wrapMul (w a b : Nat) : Nat := (a * b) % 2 ^ w

/-- `std::numeric_limits<std::int64_t>::max()`. -/
def int64Max : Nat := 9223372036854775807

/-- A number as `int`, where an overflow wraps. -/
def toInt32 (n : Int) : Int := (n + 2 ^ 31) % 2 ^ 32 - 2 ^ 31

theorem wrapSub_of_le {w a b : Nat} (hb : b ≤ a) (ha : a < 2 ^ w) : wrapSub w a b = a - b := by
  have hmod : b % 2 ^ w = b := Nat.mod_eq_of_lt (by omega)
  have hsum : a + (2 ^ w - b) = (a - b) + 2 ^ w := by omega
  rw [wrapSub, hmod, hsum, Nat.add_mod_right, Nat.mod_eq_of_lt (by omega)]

theorem wrapAdd_of_lt {w a b : Nat} (h : a + b < 2 ^ w) : wrapAdd w a b = a + b :=
  Nat.mod_eq_of_lt h

theorem wrapMul_of_lt {w a b : Nat} (h : a * b < 2 ^ w) : wrapMul w a b = a * b :=
  Nat.mod_eq_of_lt h

/-- A subtraction undoes a wrap of the addition before it. -/
theorem wrapSub_wrapAdd {w a b c : Nat} (hc : c ≤ a + b) (h : a + b - c < 2 ^ w) :
    wrapSub w (wrapAdd w a b) c = a + b - c := by
  have hpos : 0 < 2 ^ w := Nat.two_pow_pos w
  have hlt : c % 2 ^ w < 2 ^ w := Nat.mod_lt c hpos
  have hmod : (a + b) % 2 ^ w + (2 ^ w - c % 2 ^ w) ≡ a + b - c [MOD 2 ^ w] := by
    apply Nat.ModEq.add_right_cancel' (c % 2 ^ w)
    have hleft : (a + b) % 2 ^ w + (2 ^ w - c % 2 ^ w) + c % 2 ^ w = (a + b) % 2 ^ w + 2 ^ w := by
      omega
    calc (a + b) % 2 ^ w + (2 ^ w - c % 2 ^ w) + c % 2 ^ w
        ≡ a + b [MOD 2 ^ w] := by
          rw [hleft, Nat.ModEq, Nat.add_mod_right, Nat.mod_mod]
      _ = a + b - c + c := by omega
      _ ≡ a + b - c + c % 2 ^ w [MOD 2 ^ w] := (Nat.mod_modEq c _).symm.add_left _
  rw [wrapSub, wrapAdd]
  exact Eq.trans hmod (Nat.mod_eq_of_lt h)

end FastdlMm
