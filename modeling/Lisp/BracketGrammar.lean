import Lisp.Library.Dyck
import Lisp.Balance

/-! The bracket checks of the readers against the grammar of balanced parentheses. -/
namespace Lisp
open Brackets DyckStep
variable {n m : Nat} {e p : Text} {net : Int}

/-- `update_net_balance`. -/
def updateNetBalance (nextCharacter : Char) (net : Int) : Int :=
  let net := if nextCharacter = '(' then net + 1 else net
  if nextCharacter = ')' then net - 1 else net

/-- The loop of `get_net_balance`. -/
def netBalanceFrom : Int → Text → Int
  | net, [] => net
  | net, c :: e =>
    if updateNetBalance c net < 0 then 0 else netBalanceFrom (updateNetBalance c net) e

/-- `get_net_balance`. -/
def getNetBalance (expr : Text) : Int :=
  netBalanceFrom 0 expr

/-- The sequence of parentheses of a text. -/
def brackets (e : Text) : List DyckStep :=
  e.filterMap fun c => if c = '(' then some U else if c = ')' then some D else none

theorem brackets_append (e p : Text) : brackets (e ++ p) = brackets e ++ brackets p :=
  List.filterMap_append

theorem brackets_replicate (k : Nat) :
    brackets (List.replicate k ')') = List.replicate k D := by
  simp [brackets]

/-- The counting loops follow the number of open brackets. -/
theorem counts_iff_height : Counts n m e ↔ height n (brackets e) = some m := by
  induction e generalizing n with
  | nil =>
    constructor
    · rintro ⟨-, hn⟩
      exact congrArg some (Int.ofNat.inj hn)
    · intro hn
      obtain rfl := Option.some.inj hn
      exact .nil (Int.natCast_nonneg n)
  | cons c e ih =>
    rw [counts_cons]
    by_cases hopen : c = '('
    · have hb : brackets (c :: e) = U :: brackets e := by simp [brackets, hopen]
      have hstep : netStep n c = (n + 1 : Nat) := by simp [netStep, hopen]
      rw [hb, height, hstep, ih]
      exact and_iff_right (Int.natCast_nonneg _)
    · by_cases hclose : c = ')'
      · have hb : brackets (c :: e) = D :: brackets e := by simp [brackets, hclose]
        have hstep : netStep n c = n - 1 := by simp [netStep, hclose]
        rw [hb, hstep]
        cases n with
        | zero =>
          refine iff_of_false (fun h => by omega) fun h => ?_
          cases h
        | succ n =>
          rw [height, Int.natCast_succ, Int.add_sub_cancel, ih]
          exact and_iff_right (Int.natCast_nonneg n)
      · have hb : brackets (c :: e) = brackets e := by simp [brackets, hopen, hclose]
        have hstep : netStep n c = n := by simp [netStep, hopen, hclose]
        rw [hb, hstep, ih]
        exact and_iff_right (Int.natCast_nonneg n)

theorem isValid_iff_height : isValid e = true ↔ ∃ m, height 0 (brackets e) = some m := by
  constructor
  · intro hv
    have hc : Counts 0 (netFrom 0 e) e := ⟨hv, rfl⟩
    obtain ⟨m, hm⟩ := Int.eq_ofNat_of_zero_le hc.nonneg
    rw [hm] at hc
    exact ⟨m, counts_iff_height.1 hc⟩
  · rintro ⟨m, hm⟩
    exact (counts_iff_height.2 hm).valid

/-- On a valid text the early exit is not taken. -/
theorem netBalanceFrom_valid (hv : validFrom net e = true) :
    netBalanceFrom net e = netFrom net e := by
  induction e generalizing net with
  | nil => rfl
  | cons c e ih =>
    obtain ⟨hpos, hrest⟩ := counts_cons.1 (⟨hv, rfl⟩ : Counts net _ (c :: e))
    have hc : updateNetBalance c net = netStep net c := rfl
    rw [netBalanceFrom, hc, if_neg (Int.not_lt.2 hpos), ih hrest.valid]
    rfl

theorem getNetBalance_height (hm : height 0 (brackets e) = some m) : getNetBalance e = m := by
  have hc : Counts 0 m e := counts_iff_height.2 hm
  rw [getNetBalance, netBalanceFrom_valid hc.valid, hc.net]

/-- What the readers use the checks for: a text is both valid and balanced if and only if its
parentheses are balanced words of the grammar; it is valid if and only if some text completes it;
and `get_net_balance` is then the least number of closing parentheses that do. -/
theorem bracket_checks (e : Text) :
    (isValid e = true ∧ isBalanced e = true ↔ Dyck (brackets e)) ∧
    (isValid e = true ↔ ∃ s, Dyck (brackets (e ++ s))) ∧
    (isValid e = true → ∃ k : Nat, getNetBalance e = k ∧
      IsLeast { j | Dyck (brackets (e ++ List.replicate j ')')) } k) := by
  refine ⟨?_, ?_, ?_⟩
  · rw [dyck_iff, ← counts_iff_height]
    constructor
    · rintro ⟨hv, hb⟩
      exact ⟨hv, beq_iff_eq.1 hb⟩
    · intro hc
      exact ⟨hc.valid, beq_iff_eq.2 hc.net⟩
  · rw [isValid_iff_height]
    constructor
    · rintro ⟨m, hm⟩
      refine ⟨List.replicate m ')', ?_⟩
      rw [brackets_append, brackets_replicate]
      exact (dyck_append_replicate hm).2 rfl
    · rintro ⟨s, hs⟩
      rw [brackets_append] at hs
      exact completes_iff.1 ⟨_, hs⟩
  · intro hv
    obtain ⟨m, hm⟩ := isValid_iff_height.1 hv
    refine ⟨m, getNetBalance_height hm, ?_⟩
    have hset (j : Nat) : Dyck (brackets (e ++ List.replicate j ')')) ↔ j = m := by
      rw [brackets_append, brackets_replicate]
      exact dyck_append_replicate hm
    constructor
    · exact (hset m).2 rfl
    · intro j hj
      exact ((hset j).1 hj).ge

end Lisp
