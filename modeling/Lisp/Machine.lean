import Mathlib.Data.Nat.Init
import Mathlib.Tactic.Ring

/-! Fixed-width C integers, as conversions on unbounded ones. -/
namespace Lisp

/-- Conversion to a 32-bit `int`, as gcc defines it: reduction into the signed range. -/
def toInt (z : Int) : Int := Int.bmod z (2 ^ 32)

/-- Conversion to a 32-bit `unsigned int`. -/
def toUnsigned (z : Int) : Nat := (z % 2 ^ 32).toNat

/-- Conversion to a 64-bit `size_t`. -/
def toSize (z : Int) : Nat := (z % 2 ^ 64).toNat

/-- The values of an `int`. -/
def InInt (z : Int) : Prop := -2 ^ 31 ≤ z ∧ z < 2 ^ 31

instance (z : Int) : Decidable (InInt z) := inferInstanceAs (Decidable (_ ∧ _))

theorem toInt_eq_self {z : Int} (hl : -2 ^ 31 ≤ z) (hu : z < 2 ^ 31) : toInt z = z := by
  unfold toInt Int.bmod
  simp only [Nat.reducePow, Nat.cast_ofNat]
  split <;> omega

theorem inInt_toInt (z : Int) : InInt (toInt z) := by
  unfold InInt toInt Int.bmod
  simp only [Nat.reducePow, Nat.cast_ofNat]
  split <;> omega

theorem toInt_natCast {n : Nat} (h : n < 2 ^ 31) : toInt n = n :=
  toInt_eq_self (by omega) (by omega)

/-- Sums may be reduced before the last step. -/
theorem toInt_toInt_add (a b : Int) : toInt (toInt a + b) = toInt (a + b) := Int.bmod_add_bmod

theorem toInt_add_toInt (a b : Int) : toInt (a + toInt b) = toInt (a + b) := Int.add_bmod_bmod

theorem toUnsigned_natCast {n : Nat} (h : n < 2 ^ 32) : toUnsigned n = n := by
  unfold toUnsigned
  omega

theorem toSize_natCast {n : Nat} (h : n < 2 ^ 64) : toSize n = n := by
  unfold toSize
  omega

end Lisp
