import Mathlib.Data.BitVec
import Mathlib.Logic.Function.Basic

/-! Steps that mix the bits of a word without losing any, and hashes that run such steps over the
blocks of a message. -/
namespace Mixing
open Function
variable {w r : Nat} {σ β : Type}

section words

theorem mul_injective {m d : BitVec w} (h : m * d = 1) : Injective fun x => x * m := by
  intro x y hxy
  have hd := congrArg (· * d) hxy
  simpa only [mul_assoc, h, mul_one] using hd

theorem add_injective (c : BitVec w) : Injective fun x => x + c := add_left_injective c

theorem xor_injective (c : BitVec w) : Injective fun x => x ^^^ c :=
  fun _ _ h => (BitVec.xor_left_inj c).1 h

theorem rotate_injective (hr : r < w) : Injective fun x : BitVec w => x.rotateLeft r := by
  intro x y hxy
  refine BitVec.eq_of_getLsbD_eq fun i hi => ?_
  -- Bit `i` moves up by `r`, or around to the beginning.
  rcases Nat.lt_or_ge (i + r) w with hlt | hge
  · have hbit := congrArg (fun z : BitVec w => z.getLsbD (i + r)) hxy
    have hnot : ¬i + r < r := Nat.not_lt.2 (Nat.le_add_left r i)
    simpa [BitVec.getLsbD_rotateLeft, Nat.mod_eq_of_lt hr, hnot, hlt, hi] using hbit
  · have hbit := congrArg (fun z : BitVec w => z.getLsbD (i + r - w)) hxy
    have hback : i + r - w < r := by omega
    have hi' : w - r + (i + r - w) = i := by omega
    simpa [BitVec.getLsbD_rotateLeft, Nat.mod_eq_of_lt hr, hback, hi', hi] using hbit

/-- A word is known from its sum without carries with its own upper bits: from the top down. -/
theorem xorShift_injective (hr : 0 < r) : Injective fun x : BitVec w => x ^^^ (x >>> r) := by
  intro x y hxy
  have hbits : ∀ k i, w ≤ i + k → x.getLsbD i = y.getLsbD i := by
    intro k
    induction k with
    | zero => exact fun i hi => by rw [BitVec.getLsbD_of_ge x i hi, BitVec.getLsbD_of_ge y i hi]
    | succ k ih =>
      intro i hi
      have hbit := congrArg (fun z : BitVec w => z.getLsbD i) hxy
      simp only [BitVec.getLsbD_xor, BitVec.getLsbD_ushiftRight, ih (r + i) (by omega)] at hbit
      exact Bool.xor_left_inj.1 hbit
  exact BitVec.eq_of_getLsbD_eq fun i _ => hbits w i (Nat.le_add_left w i)

end words

section chains
variable {f : σ → β → σ} {pre post : List β} {x y : β} {s : σ}

theorem foldl_injective (hf : ∀ b, Injective fun s => f s b) (bs : List β) :
    Injective fun s => bs.foldl f s := by
  induction bs with
  | nil => exact injective_id
  | cons b bs ih => exact ih.comp (hf b)

/-- A difference in one block is never undone. -/
theorem foldl_ne (hf : ∀ b, Injective fun s => f s b) (hb : ∀ s, Injective (f s)) (hxy : x ≠ y) :
    (pre ++ x :: post).foldl f s ≠ (pre ++ y :: post).foldl f s := by
  rw [List.foldl_append, List.foldl_append]
  intro h
  exact hxy (hb _ (foldl_injective hf post h))

end chains

section polynomials
variable {m d : BitVec w} {value : β → BitVec w}

/-- The hash that takes the characters as the digits of a number in base `m`. -/
def polynomial (m : BitVec w) (value : β → BitVec w) (seed : BitVec w) (l : List β) : BitVec w :=
  l.foldl (fun h c => h * m + value c) seed

theorem polynomial_ne (h : m * d = 1) (hvalue : Injective value) {x y : β} (hxy : x ≠ y)
    (seed : BitVec w) {pre post : List β} :
    polynomial m value seed (pre ++ x :: post) ≠ polynomial m value seed (pre ++ y :: post) := by
  refine foldl_ne (fun b => ?_) (fun s => ?_) hxy
  · exact (add_injective (value b)).comp (mul_injective h)
  · exact (add_right_injective (s * m)).comp hvalue

end polynomials
end Mixing
