import Mathlib.Combinatorics.Enumerative.DyckWord

/-! Balanced brackets: the words of the grammar `S ::= empty | ( S ) S`, and the scan that
recognizes them by counting the open brackets. -/
namespace Brackets
open DyckStep
variable {n m k : Nat} {u v w : List DyckStep}

/-- The grammar `S ::= empty | ( S ) S`. -/
inductive Dyck : List DyckStep → Prop
  | empty : Dyck []
  | nest {u v : List DyckStep} (hu : Dyck u) (hv : Dyck v) : Dyck (U :: (u ++ D :: v))

/-- The words that close `n` open brackets: balanced words with `n` closing brackets between. -/
inductive Closes : Nat → List DyckStep → Prop
  | dyck {u : List DyckStep} (hu : Dyck u) : Closes 0 u
  | close {n : Nat} {u v : List DyckStep} (hu : Dyck u) (hv : Closes n v) :
      Closes (n + 1) (u ++ D :: v)

/-- The number of open brackets after a word, unless one is closed that is not open. -/
def height : Nat → List DyckStep → Option Nat
  | n, [] => some n
  | n, U :: w => height (n + 1) w
  | 0, D :: _ => none
  | n + 1, D :: w => height n w

theorem height_append (n : Nat) (u v : List DyckStep) :
    height n (u ++ v) = (height n u).bind fun m => height m v := by
  induction u generalizing n with
  | nil => rfl
  | cons c u ih =>
    cases c with
    | U => exact ih (n + 1)
    | D =>
      cases n with
      | zero => rfl
      | succ n => exact ih n

theorem Dyck.height (hw : Dyck w) (n : Nat) : Brackets.height n w = some n := by
  induction hw generalizing n with
  | empty => rfl
  | nest _ _ ihu ihv =>
    rw [Brackets.height, height_append, ihu]
    exact ihv n

/-- A balanced word in brackets before a word that closes `n`. -/
theorem Closes.nest (hu : Dyck u) (hv : Closes n v) : Closes n (U :: (u ++ D :: v)) := by
  cases hv with
  | dyck hv => exact .dyck (.nest hu hv)
  | @close n u' v' hu' hv =>
    have h := Closes.close (.nest hu hu') hv
    simpa only [List.cons_append, List.append_assoc] using h

theorem closes_of_height (hw : height n w = some 0) : Closes n w := by
  induction w generalizing n with
  | nil =>
    obtain rfl := Option.some.inj hw
    exact .dyck .empty
  | cons c w ih =>
    cases c with
    | U =>
      -- the rest closes one bracket more: the first closing bracket at its level is the partner
      obtain - | ⟨hu, hv⟩ := ih hw
      exact .nest hu hv
    | D =>
      cases n with
      | zero => cases hw
      | succ n => exact .close .empty (ih hw)

theorem dyck_iff : Dyck w ↔ height 0 w = some 0 := by
  constructor
  · exact fun hw => hw.height 0
  · intro hw
    obtain hu | - := closes_of_height hw
    exact hu

theorem height_replicate (m k : Nat) (h : k ≤ m) :
    height m (List.replicate k D) = some (m - k) := by
  induction k generalizing m with
  | zero => rfl
  | succ k ih =>
    obtain ⟨m, rfl⟩ := Nat.exists_eq_add_of_lt h
    rw [List.replicate_succ, height, ih _ (by omega)]
    congr 1
    omega

theorem height_replicate_lt (m k : Nat) (h : m < k) : height m (List.replicate k D) = none := by
  induction k generalizing m with
  | zero => omega
  | succ k ih =>
    cases m with
    | zero => rfl
    | succ m => exact ih m (by omega)

/-- The closing brackets that complete a word are as many as are open after it. -/
theorem dyck_append_replicate (hw : height 0 w = some m) :
    Dyck (w ++ List.replicate k D) ↔ k = m := by
  rw [dyck_iff, height_append, hw, Option.bind_some]
  rcases Nat.lt_or_ge m k with hlt | hle
  · rw [height_replicate_lt m k hlt]
    exact iff_of_false nofun (by omega)
  · rw [height_replicate m k hle, Option.some.injEq]
    omega

/-- A word is the beginning of a balanced one if and only if it never closes too much. -/
theorem completes_iff : (∃ v, Dyck (w ++ v)) ↔ ∃ m, height 0 w = some m := by
  constructor
  · rintro ⟨v, hv⟩
    rw [dyck_iff, height_append, Option.bind_eq_some_iff] at hv
    obtain ⟨m, hm, -⟩ := hv
    exact ⟨m, hm⟩
  · rintro ⟨m, hm⟩
    exact ⟨_, (dyck_append_replicate hm).2 rfl⟩

end Brackets
