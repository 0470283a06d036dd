import Lisp.CMapLookup
import Lisp.Hash
import Lisp.Library.BalancedTree

/-! The comparison functions for the containers (`ops.c`). -/
namespace Lisp
open BalancedTree Hash

section source

def cmpInt (one two : Int) : Int := if two < one then 1 else if one < two then -1 else 0

/-- `cmp_ptr`, which reads its operands as `unsigned long`. -/
def cmpPtr (p1 p2 : Nat) : Int := if p2 < p1 then 1 else if p1 < p2 then -1 else 0

/-- `strcmp`: the characters are compared as `unsigned char`. -/
def strcmp : List Byte → List Byte → Int
  | [], [] => 0
  | [], _ :: _ => -1
  | _ :: _, [] => 1
  | a :: s, b :: t => if a = b then strcmp s t else a.toNat - b.toNat

/-- A string, without the character that ends it. -/
abbrev CStr := { s : List Byte // 0 ∉ s }

def cmpCstr (a b : CStr) : Int := strcmp a b

end source

section orders
variable {s t u : List Byte}

theorem strictOrder_cmpInt : StrictOrder cmpInt := by
  constructor
  case eq_zero =>
    intro a b
    unfold cmpInt
    split_ifs with hba hab
    · simp [hba.ne']
    · simp [hab.ne]
    · simp [le_antisymm (Int.not_lt.1 hba) (Int.not_lt.1 hab)]
  case swap =>
    intro a b
    unfold cmpInt
    split_ifs <;> omega
  case trans =>
    intro a b c
    unfold cmpInt
    split_ifs <;> omega

theorem strictOrder_cmpPtr : StrictOrder cmpPtr := by
  have hcmp : ∀ a b : Nat, cmpPtr a b = cmpInt a b := by simp [cmpPtr, cmpInt]
  constructor
  case eq_zero => exact fun a b => by rw [hcmp, strictOrder_cmpInt.eq_zero]; exact Int.ofNat_inj
  case swap => exact fun a b => by rw [hcmp, hcmp]; exact strictOrder_cmpInt.swap a b
  case trans => exact fun a b c => by rw [hcmp, hcmp, hcmp]; exact strictOrder_cmpInt.trans a b c

theorem strcmp_eq_zero : strcmp s t = 0 ↔ s = t := by
  fun_induction strcmp s t with
  | case1 => simp
  | case2 => simp
  | case3 => simp
  | case4 a s t ih => simpa using ih
  | case5 a s b t hne =>
    have hlt : a.toNat ≠ b.toNat := fun h => hne (BitVec.eq_of_toNat_eq h)
    simp only [List.cons.injEq, hne, false_and, iff_false]
    omega

theorem strcmp_swap : strcmp s t < 0 ↔ 0 < strcmp t s := by
  fun_induction strcmp s t with
  | case1 => simp [strcmp]
  | case2 => simp [strcmp]
  | case3 => simp [strcmp]
  | case4 a s t ih => simpa [strcmp] using ih
  | case5 a s b t hne =>
    rw [strcmp, if_neg (Ne.symm hne)]
    omega

theorem strcmp_trans (hst : strcmp s t < 0) (htu : strcmp t u < 0) : strcmp s u < 0 := by
  induction s generalizing t u with
  | nil =>
    cases u with
    | nil => cases t <;> simp [strcmp] at hst htu
    | cons c u => simp [strcmp]
  | cons a s ih =>
    cases t with
    | nil => simp [strcmp] at hst
    | cons b t =>
      cases u with
      | nil => simp [strcmp] at htu
      | cons c u =>
        simp only [strcmp] at hst htu ⊢
        by_cases hab : a = b
        · subst hab
          rw [if_pos rfl] at hst
          split_ifs at htu ⊢ with hac
          · exact ih hst htu
          · exact htu
        · rw [if_neg hab] at hst
          by_cases hbc : b = c
          · subst hbc
            rwa [if_neg hab]
          · rw [if_neg hbc] at htu
            have hac : a ≠ c := by
              rintro rfl
              omega
            rw [if_neg hac]
            omega

theorem strictOrder_cmpCstr : StrictOrder cmpCstr :=
  ⟨fun _ _ => strcmp_eq_zero.trans Subtype.ext_iff.symm, fun _ _ => strcmp_swap,
    fun _ _ _ => strcmp_trans⟩

/-- Maps with strings for keys may use `string_hash`. -/
theorem keyEquality_cmpCstr (signed : Bool) :
    CMap.KeyEquality (fun s : CStr => (stringHash signed s).toNat) cmpCstr := by
  have heq {a b : CStr} : cmpCstr a b = 0 ↔ a = b := strictOrder_cmpCstr.eq_zero a b
  constructor
  case refl => exact fun a => heq.2 rfl
  case symm => exact fun a b h => heq.2 (heq.1 h).symm
  case trans => exact fun a b c hab hbc => heq.2 ((heq.1 hab).trans (heq.1 hbc))
  case hash_eq => exact fun a b h => by rw [heq.1 h]

end orders
end Lisp
