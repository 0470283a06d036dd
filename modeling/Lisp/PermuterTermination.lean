import Lisp.Library.RowPotential
import Lisp.Permutations

/-! The calls of `next_permutation` come to an end, also with equal elements in the array. -/
namespace Lisp
open PlainChanges
variable {α : Type} {n : Nat}

namespace Permuter
variable {p q : Permuter α n} {cmp : α → α → Int} {elems : Vector α n} {xs : List α}
  {qsort : (α → α → Int) → Vector α n → Vector α n}

section source

/-- `cmp_char`, the difference of two characters. -/
def cmpChar (char1 char2 : Char) : Int := char1.toNat - char2.toNat

/-- `new_cstring_permuter`; the copy of the string is allocated. -/
def newCstringPermuter (qsort : ∀ {n : Nat}, (Char → Char → Int) → Vector Char n → Vector Char n)
    (string : List Char) : Permuter Char string.length :=
  let str : Vector Char string.length := ⟨string.toArray, by simp⟩
  newPermuter qsort (qsort cmpChar str) cmpChar

end source

/-- A call returns `NULL`, or an element passes a smaller one. -/
theorem nextPermutation_cases (hcmp : TotalPreorder p.cmp) :
    nextPermutation p = some (none, p) ∨ ∃ q x r, nextPermutation p = some (some q.elems, q) ∧
      Passes (Larger p.cmp) x (facing p) r ∧ facing q = turned (Larger p.cmp) x r ∧
      q.cmp = p.cmp := by
  cases hfound : findLargestMobile p with
  | none => exact .inl (by simp only [nextPermutation, hfound])
  | some i =>
    obtain ⟨j, hfaces, hlarger⟩ := isMobile_iff.1 (findLargestMobile_some hcmp hfound).1
    obtain ⟨q, hnext, hq, hcmp'⟩ := nextPermutation_found hcmp hfound hfaces hlarger
    have hpass := passes_of_places hfaces (facing_get p i) (facing_get p j) hlarger
    exact .inr ⟨q, _, _, hnext, hpass, hq, hcmp'⟩

theorem calls_succ (h : nextPermutation p = some (some q.elems, q)) (k : Nat) :
    calls p (k + 1) = calls q k := by
  induction k with
  | zero => exact h
  | succ k ih =>
    rw [calls, ih]
    rfl

/-- The row of a permuter, with the potential that the order of its elements gives it. -/
def rest (p : Permuter α n) (xs : List α) : Nat :=
  potential (Larger p.cmp) (weight (Larger p.cmp) xs) [] (facing p)

/-- Each call that returns an arrangement lessens the potential, so that a last one comes. -/
theorem calls_end (hcmp : TotalPreorder p.cmp) (helems : p.elems.toList.Perm xs) :
    ∃ m, (∀ k < m, ∃ ys q, calls p k = some (some ys, q) ∧ ys.toList.Perm xs) ∧
      ∃ q, calls p m = some (none, q) ∧ q.elems.toList.Perm xs := by
  induction hrest : rest p xs using Nat.strong_induction_on generalizing p with
  | _ b ih =>
    have hfirst : calls p 0 = some (some p.elems, p) := rfl
    rcases nextPermutation_cases hcmp with hnext | ⟨q, x, r, hnext, hpass, hq, hcmp'⟩
    · refine ⟨1, ?_, p, hnext, helems⟩
      intro k hk
      obtain rfl : k = 0 := by omega
      exact ⟨p.elems, p, hfirst, helems⟩
    · have hrow : ((facing p).map Prod.fst).Perm xs := by rwa [facing_fst]
      have hlt : rest q xs < b := by
        rw [← hrest, rest, hcmp', hq]
        exact hpass.potential_turned_lt (Larger.irrefl hcmp)
          (fun _ _ _ => Larger.trans hcmp) hrow
      have helems' : q.elems.toList.Perm xs := by
        rw [← facing_fst, hq, turned_fst]
        exact (hpass.perm.map Prod.fst).symm.trans hrow
      obtain ⟨m, hcalls, hend⟩ := ih _ hlt (hcmp' ▸ hcmp) helems' rfl
      refine ⟨m + 1, ?_, ?_⟩
      · intro k hk
        cases k with
        | zero => exact ⟨p.elems, p, hfirst, helems⟩
        | succ k =>
          rw [calls_succ hnext]
          exact hcalls k (by omega)
      · rw [calls_succ hnext]
        exact hend

/-- From a start on, `next_permutation` returns rearrangements of the array and, after finitely
many calls, `NULL`. -/
theorem permuter_ends (hcmp : TotalPreorder cmp) (hqsort : Sorts qsort cmp)
    (hstart : Started qsort cmp elems p) :
    ∃ m, (∀ k < m, ∃ ys q, calls p k = some (some ys, q) ∧ ys.toList.Perm elems.toList) ∧
      ∃ q, calls p m = some (none, q) ∧ q.elems.toList.Perm elems.toList := by
  obtain rfl := hstart.eq
  exact calls_end hcmp (hqsort elems).1

theorem totalPreorder_cmpChar : TotalPreorder cmpChar := by
  constructor
  case swap => exact fun a b => by simp only [cmpChar]; omega
  case trans => exact fun a b c hab hbc => by simp only [cmpChar] at *; omega

theorem permuter_ends_cstring : ∃ m,
    (∀ k < m, ∃ ys q, calls (newCstringPermuter insertionQsort ['b', 'a', 'b']) k =
      some (some ys, q) ∧ ys.toList.Perm ['a', 'b', 'b']) ∧
    ∃ q, calls (newCstringPermuter insertionQsort ['b', 'a', 'b']) m = some (none, q) ∧
      q.elems.toList.Perm ['a', 'b', 'b'] :=
  permuter_ends totalPreorder_cmpChar (sorts_insertionQsort totalPreorder_cmpChar)
    (Started.new : Started insertionQsort cmpChar #v['a', 'b', 'b'] _)

end Permuter
end Lisp
