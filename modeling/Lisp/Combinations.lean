import Lisp.Machine
import Mathlib.Data.Nat.Bitwise
import Mathlib.Data.List.Sublists

/-! The combinations of an array, indexed by bit masks (`nth_combination` of `permutations.c`). -/
namespace Lisp
variable {α : Type}

section source

/-- The loop of `nth_combination`, for at most the given number of rounds, with the next place of
the result and its memory. A read or write outside an array has no result. -/
def combinationLoop (elements : List α) : Nat → BitVec 32 → Nat → List α → Option (Nat × List α)
  | 0, _, _, _ => none
  | rounds + 1, n, i, combination =>
    if n = 0 then some (i, combination)
    else do
      let firstOffset := n.ctz.toNat
      let src ← elements[firstOffset]?
      if i < combination.length then
        combinationLoop elements rounds (n &&& (n - 1)) (i + 1) (combination.set i src)
      else none

def nthCombination (rounds : Nat) (elements : List α) (n : Int) (endElem : α)
    (combination : List α) : Option (List α) := do
  let (i, combination) ← combinationLoop elements rounds (BitVec.ofInt 32 n) 0 combination
  if i < combination.length then return combination.set i endElem else none

end source

/-- The elements whose index is a bit of the mask. -/
def selected (elements : List α) (n : Nat) : List α :=
  (elements.zipIdx.filter fun e => n.testBit e.2).map Prod.fst

variable {elements combination xs : List α} {n : BitVec 32} {k m rounds t x : Nat} {e : α}

section bits

/-- A number and its predecessor differ at the lowest bit, and agree above it. -/
theorem testBit_and_pred (hbit : x.testBit t = true) (hlow : ∀ j < t, x.testBit j = false)
    (j : Nat) : (x &&& (x - 1)).testBit j = (x.testBit j && decide (j ≠ t)) := by
  rw [Nat.testBit_and]
  induction t generalizing x j with
  | zero =>
    have hodd : x % 2 = 1 := by simpa using hbit
    cases j with
    | zero =>
      have heven : (x - 1) % 2 = 0 := by omega
      simp [heven]
    | succ j =>
      have hhalf : (x - 1) / 2 = x / 2 := by omega
      simp [Nat.testBit_succ, hhalf]
  | succ t ih =>
    have heven : x % 2 = 0 := by simpa using hlow 0 (Nat.succ_pos t)
    cases j with
    | zero => simp [heven]
    | succ j =>
      rw [Nat.testBit_succ] at hbit
      have hpos : 0 < x := by
        rcases Nat.eq_zero_or_pos x with rfl | hpos
        · simp at hbit
        · exact hpos
      have hhalf : (x - 1) / 2 = x / 2 - 1 := by omega
      have hrest := ih hbit (fun j hj => by
        rw [← Nat.testBit_succ]
        exact hlow (j + 1) (Nat.succ_lt_succ hj)) j
      rw [Nat.testBit_succ, Nat.testBit_succ, hhalf, hrest]
      simp

/-- A round of the loop clears the bit that it finds, the lowest one. -/
theorem testBit_cleared (hn : n ≠ 0) (j : Nat) : (n &&& (n - 1)).toNat.testBit j =
    (n.toNat.testBit j && decide (j ≠ n.ctz.toNat)) := by
  have hpos : 1 ≤ n.toNat := by
    have hne : n.toNat ≠ 0 := fun h => hn (BitVec.eq_of_toNat_eq h)
    omega
  have hpred : (n - 1).toNat = n.toNat - 1 := BitVec.toNat_sub_of_le hpos
  rw [BitVec.toNat_and, hpred]
  exact testBit_and_pred (BitVec.getLsbD_true_ctz_of_ne_zero hn)
    (fun j hj => BitVec.getLsbD_false_of_lt_ctz hj) j

/-- The indices of the set bits, from the lowest on. -/
def bits (k x : Nat) : List Nat := (List.range k).filter x.testBit

theorem bits_zero (k : Nat) : bits k 0 = [] := by simp [bits]

theorem bits_cleared (hn : n ≠ 0) (hlt : n.ctz.toNat < k) :
    bits k n.toNat = n.ctz.toNat :: bits k (n &&& (n - 1)).toNat := by
  obtain ⟨l, hk⟩ : ∃ l, k = n.ctz.toNat + (l + 1) := ⟨k - n.ctz.toNat - 1, by omega⟩
  have hbit : n.toNat.testBit n.ctz.toNat = true := BitVec.getLsbD_true_ctz_of_ne_zero hn
  have hlow : (List.range n.ctz.toNat).filter n.toNat.testBit = [] := by
    refine List.filter_eq_nil_iff.2 fun j hj => ?_
    have hj' : n.toNat.testBit j = false := BitVec.getLsbD_false_of_lt_ctz (List.mem_range.1 hj)
    simp [hj']
  have hlow' : (List.range n.ctz.toNat).filter (n &&& (n - 1)).toNat.testBit = [] := by
    refine List.filter_eq_nil_iff.2 fun j hj => ?_
    have hj' : n.toNat.testBit j = false := BitVec.getLsbD_false_of_lt_ctz (List.mem_range.1 hj)
    rw [testBit_cleared hn, hj', Bool.false_and]
    exact Bool.false_ne_true
  have hself : (n &&& (n - 1)).toNat.testBit n.ctz.toNat = false := by
    rw [testBit_cleared hn, decide_eq_false fun h => h rfl, Bool.and_false]
  have hhigh : ∀ j, (n &&& (n - 1)).toNat.testBit (n.ctz.toNat + (j + 1)) =
      n.toNat.testBit (n.ctz.toNat + (j + 1)) := by
    intro j
    rw [testBit_cleared hn, decide_eq_true (by omega), Bool.and_true]
  rw [hk, bits, bits, List.range_add, List.filter_append, List.filter_append, hlow, hlow',
    List.range_succ_eq_map]
  simp only [List.map_cons, Nat.add_zero, List.filter_cons, hbit, hself, if_true,
    Bool.false_eq_true, if_false, List.nil_append, List.map_map, List.filter_map]
  congr 3
  funext j
  exact (hhigh j).symm

theorem bits_succ (k x : Nat) : bits (k + 1) x =
    (if x.testBit 0 then [0] else []) ++ (bits k (x / 2)).map (· + 1) := by
  have htail : ((List.range k).map Nat.succ).filter x.testBit =
      (bits k (x / 2)).map (· + 1) := by
    rw [List.filter_map, bits]
    congr 2
    funext j
    exact Nat.testBit_succ x j
  rw [bits, List.range_succ_eq_map, List.filter_cons, htail]
  split <;> rfl

end bits

section selection

theorem selected_cons (a : α) (l : List α) (x : Nat) : selected (a :: l) x =
    (if x.testBit 0 then [a] else []) ++ selected l (x / 2) := by
  have htail : ((l.zipIdx 1).filter fun e => x.testBit e.2).map Prod.fst =
      selected l (x / 2) := by
    have hbit : (fun e : α × Nat => x.testBit e.2) ∘ (fun e : α × Nat => (e.1, e.2 + 1)) =
        fun e : α × Nat => (x / 2).testBit e.2 := by
      funext e
      exact Nat.testBit_succ x e.2
    rw [← Nat.zero_add 1, List.zipIdx_succ, List.filter_map, List.map_map, hbit]
    rfl
  rw [selected, List.zipIdx_cons, List.filter_cons]
  split
  · rw [List.map_cons, htail]
    rfl
  · rw [htail]
    rfl

/-- The selected elements, by their indices. -/
theorem bits_selected (elements : List α) (x : Nat) :
    (bits elements.length x).map (elements[·]?) = (selected elements x).map some := by
  induction elements generalizing x with
  | nil => rfl
  | cons a l ih =>
    have htail := ih (x / 2)
    rw [selected_cons, List.length_cons, bits_succ, List.map_append, List.map_append, ← htail,
      List.map_map]
    split <;> rfl

theorem selected_sublist (elements : List α) (x : Nat) :
    (selected elements x).Sublist elements := by
  induction elements generalizing x with
  | nil => exact .refl _
  | cons a l ih =>
    rw [selected_cons]
    split
    · exact (ih _).cons_cons a
    · exact (ih _).cons a

/-- Each sub-sequence is selected by a mask. -/
theorem exists_selected (h : xs.Sublist elements) :
    ∃ x < 2 ^ elements.length, selected elements x = xs := by
  induction h with
  | slnil => exact ⟨0, Nat.two_pow_pos _, rfl⟩
  | @cons l₁ l₂ a _ ih =>
    obtain ⟨x, hx, rfl⟩ := ih
    refine ⟨2 * x, by rw [List.length_cons, Nat.pow_succ]; omega, ?_⟩
    rw [selected_cons, Nat.mul_div_cancel_left x (by decide)]
    simp
  | @cons_cons l₁ l₂ a _ ih =>
    obtain ⟨x, hx, rfl⟩ := ih
    refine ⟨2 * x + 1, by rw [List.length_cons, Nat.pow_succ]; omega, ?_⟩
    have hhalf : (2 * x + 1) / 2 = x := by omega
    rw [selected_cons, hhalf]
    simp [Nat.testBit_zero]

/-- Two masks select the same elements only if they are the same mask. -/
theorem selected_inj {y : Nat} (hnodup : elements.Nodup) (hx : x < 2 ^ elements.length)
    (hy : y < 2 ^ elements.length) (h : selected elements x = selected elements y) : x = y := by
  induction elements generalizing x y with
  | nil =>
    simp only [List.length_nil, Nat.pow_zero] at hx hy
    omega
  | cons a l ih =>
    rw [List.nodup_cons] at hnodup
    rw [List.length_cons, Nat.pow_succ] at hx hy
    have hmem (z : Nat) : a ∈ selected (a :: l) z ↔ z.testBit 0 = true := by
      have hout : a ∉ selected l (z / 2) := fun h => hnodup.1 ((selected_sublist l _).mem h)
      rw [selected_cons, List.mem_append]
      split <;> simp_all
    have hbit : x.testBit 0 = y.testBit 0 := by
      rw [Bool.eq_iff_iff, ← hmem, ← hmem, h]
    rw [selected_cons, selected_cons, hbit] at h
    have hhalf := ih hnodup.2 (by omega) (by omega) (List.append_cancel_left h)
    simp only [Nat.testBit_zero, decide_eq_decide] at hbit
    omega

end selection

section loop

/-- The loop writes the elements at the set bits, one place after the other. -/
theorem combinationLoop_eq {i : Nat} (hn : n.toNat < 2 ^ k)
    (hxs : (bits k n.toNat).map (elements[·]?) = xs.map some)
    (hroom : i + xs.length ≤ combination.length) (hrounds : xs.length < rounds) :
    combinationLoop elements rounds n i combination =
      some (i + xs.length, combination.take i ++ xs ++ combination.drop (i + xs.length)) := by
  induction rounds generalizing n i xs combination with
  | zero => cases hrounds
  | succ rounds ih =>
    rw [combinationLoop]
    by_cases hzero : n = 0
    · subst hzero
      rw [show (0 : BitVec 32).toNat = 0 from rfl, bits_zero, List.map_nil] at hxs
      obtain rfl := List.map_eq_nil_iff.1 hxs.symm
      simp
    · have hctz : n.ctz.toNat < k :=
        (Nat.pow_lt_pow_iff_right (by decide)).1
          ((BitVec.two_pow_ctz_le_toNat_of_ne_zero hzero).trans_lt hn)
      rw [bits_cleared hzero hctz, List.map_cons] at hxs
      cases xs with
      | nil => cases hxs
      | cons a xs =>
        rw [List.map_cons, List.cons.injEq] at hxs
        rw [List.length_cons] at hroom hrounds
        have hless : (n &&& (n - 1)).toNat < 2 ^ k := by
          rw [BitVec.toNat_and]
          exact Nat.and_le_left.trans_lt hn
        have hrest := @ih (combination.set i a) xs _ (i + 1) hless hxs.2
          (by rw [List.length_set]; omega) (by omega)
        rw [if_neg hzero]
        simp only [hxs.1, Option.bind_eq_bind, Option.bind_some]
        have hi : i < combination.length := by omega
        have htake : (combination.set i a).take (i + 1) = combination.take i ++ [a] := by
          rw [List.take_add_one, List.take_set_of_le (Nat.le_refl i), List.getElem?_set_self hi]
          rfl
        have hdrop : (combination.set i a).drop (i + 1 + xs.length) =
            combination.drop (i + 1 + xs.length) := List.drop_set_of_lt (by omega)
        rw [if_pos hi, hrest, htake, hdrop, List.length_cons, List.append_assoc _ [a],
          Nat.add_assoc i, Nat.add_comm 1]
        rfl

end loop

/-- The `n`th combination consists of the elements whose index is a bit of `n`, in order, and the
end element, and so each sub-sequence of distinct elements is made from one `n`. -/
theorem nthCombination_selects (hk : elements.length ≤ 31) (hrounds : elements.length < rounds)
    (e : α) :
    (∀ n : Nat, n < 2 ^ elements.length → ∀ combination, elements.length + 1 ≤ combination.length →
      nthCombination rounds elements n e combination =
        some (selected elements n ++ e :: combination.drop ((selected elements n).length + 1))) ∧
    (∀ n, (selected elements n).Sublist elements) ∧
    (elements.Nodup → ∀ xs, xs.Sublist elements →
      ∃! n, n < 2 ^ elements.length ∧ selected elements n = xs) := by
  refine ⟨?_, selected_sublist elements, ?_⟩
  · intro n hn combination hroom
    have hn32 : n < 2 ^ 32 := hn.trans_le (Nat.pow_le_pow_right Nat.two_pos (by omega))
    have htoNat : (BitVec.ofInt 32 n).toNat = n := by
      rw [BitVec.toNat_ofInt]
      omega
    have hlength := (selected_sublist elements n).length_le
    have hloop := @combinationLoop_eq _ elements combination (selected elements n)
      (BitVec.ofInt 32 n) elements.length rounds 0 (by rwa [htoNat])
      (by rw [htoNat, bits_selected]) (by omega) (by omega)
    rw [Nat.zero_add, List.take_zero, List.nil_append] at hloop
    obtain ⟨y, rest, hrest⟩ := List.exists_cons_of_length_pos
      (l := combination.drop (selected elements n).length) (by rw [List.length_drop]; omega)
    have htail : rest = combination.drop ((selected elements n).length + 1) := by
      rw [← List.tail_drop, hrest, List.tail_cons]
    rw [nthCombination, hloop]
    simp only [Option.bind_eq_bind, Option.bind_some, hrest, List.length_append, List.length_cons]
    rw [if_pos (by omega), List.set_append_right _ _ (Nat.le_refl _), Nat.sub_self, ← htail]
    rfl
  · intro hnodup xs hxs
    obtain ⟨n, hn, rfl⟩ := exists_selected hxs
    exact ⟨n, ⟨hn, rfl⟩, fun m hm => selected_inj hnodup hm.1 hn hm.2⟩

theorem nthCombination_selects_five :
    nthCombination 4 [10, 20, 30] 5 0 [7, 7, 7, 7] = some [10, 30, 0, 7] :=
  have hlength : [10, 20, 30].length ≤ 31 := by decide
  have hrounds : [10, 20, 30].length < 4 := by decide
  (nthCombination_selects hlength hrounds 0).1 5 (by decide) [7, 7, 7, 7] (by decide)

end Lisp
