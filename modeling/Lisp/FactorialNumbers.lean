import Lisp.Machine
import Mathlib.Data.Nat.Factorial.Basic
import Mathlib.Data.List.Nodup
import Mathlib.Data.List.Perm.Basic
import Mathlib.Tactic.IntervalCases

/-! The permutations of a string, indexed by numbers (`nth_permutation` of `permutations.c`). The
factorials wrap around in an `int`. -/
namespace Lisp

section source

/-- `factorial`, in 32-bit arithmetic. -/
def factorial (n : Nat) : Int := (List.range' 2 (n - 1)).foldl (fun f (i : Nat) => toInt (f * i)) 1

/-- The loop of `ith_false`, at the place `j`. -/
def ithFalseFrom : Nat → List Bool → Int → Int
  | _, [], _ => -1
  | j, used :: booleans, i =>
    if used then ithFalseFrom (j + 1) booleans i
    else if i = 0 then j
    else ithFalseFrom (j + 1) booleans (i - 1)

def ithFalse (booleans : List Bool) (len : Nat) (i : Int) : Int :=
  ithFalseFrom 0 (booleans.take (toInt len).toNat) i

/-- The loop of `nth_permutation`, from the place before the given one down to 0. A division by
zero or an index outside an array has no result. -/
def permutationLoop (string : List Char) : Nat → Int → List Bool → List (Option Char) →
    Option (List (Option Char))
  | 0, _, _, perm => some perm
  | i + 1, n, used, perm =>
    if factorial i = 0 then none
    else
      let digit := n.tdiv (factorial i)
      let index := ithFalse used string.length digit
      if 0 ≤ index ∧ index < used.length ∧ i < perm.length then
        permutationLoop string i (n.tmod (factorial i)) (used.set index.toNat true)
          (perm.set i string[index.toNat]?)
      else none

/-- `nth_permutation`, with what it writes to a buffer for the string and its end. -/
def nthPermutation (string : List Char) (n : Int) : Option (List (Option Char)) := do
  let len := string.length
  let used := List.replicate len false
  let perm ← permutationLoop string (toInt len).toNat n used (List.replicate (len + 1) none)
  return perm.set len (some (Char.ofNat 0))

end source

variable {α : Type} {string perm : List Char} {used : List Bool} {i j n m : Nat} {d : Nat}

section digits

theorem factorial_succ (n : Nat) (hn : 1 ≤ n) :
    factorial (n + 1) = toInt (factorial n * (n + 1)) := by
  obtain ⟨k, rfl⟩ : ∃ k, n = k + 1 := ⟨n - 1, by omega⟩
  have hrange : List.range' 2 (k + 1) = List.range' 2 k ++ [k + 2] := by
    rw [List.range'_concat, Nat.one_mul, Nat.add_comm 2]
  rw [factorial, factorial, Nat.add_sub_cancel, Nat.add_sub_cancel, hrange, List.foldl_append]
  simp [add_assoc]

/-- The wrapped factorials end in zeros. -/
theorem factorial_zero (h : 34 ≤ n) : factorial n = 0 := by
  induction n, h using Nat.le_induction with
  | base => decide +kernel
  | succ n h ih =>
    rw [factorial_succ n (by omega), ih, Int.zero_mul]
    rfl

/-- Each digit of a number, from that of the place before `i` on, counts an unused character. -/
def Digits : Nat → Int → Prop
  | 0, _ => True
  | i + 1, n => factorial i ≠ 0 ∧ (0 ≤ n.tdiv (factorial i) ∧ n.tdiv (factorial i) ≤ i) ∧
    Digits i (n.tmod (factorial i))

theorem digits_pos {f : Nat} (hf : factorial i = f) (hpos : 0 < f) :
    Digits (i + 1) n ↔ n / f ≤ i ∧ Digits i (n % f : Nat) := by
  have hdiv : (n : Int).tdiv f = (n / f : Nat) := (Int.ofNat_tdiv n f).symm
  have hmod : (n : Int).tmod f = (n % f : Nat) := (Int.ofNat_tmod n f).symm
  rw [Digits, hf, hdiv, hmod]
  constructor
  · rintro ⟨-, ⟨-, h⟩, hrest⟩
    exact ⟨Int.ofNat_le.1 h, hrest⟩
  · rintro ⟨h, hrest⟩
    exact ⟨by omega, ⟨Int.natCast_nonneg _, Int.ofNat_le.2 h⟩, hrest⟩

/-- Where a factorial has become negative, only the digit zero is one. -/
theorem digits_neg {f : Nat} (hf : factorial i = -f) (hpos : 0 < f) :
    Digits (i + 1) n ↔ n < f ∧ Digits i n := by
  have hdiv : (n : Int).tdiv (-f) = -(n / f : Nat) := by
    rw [Int.tdiv_neg, ← Int.ofNat_tdiv]
  have hmod : (n : Int).tmod (-f) = (n % f : Nat) := by
    rw [Int.tmod_neg, ← Int.ofNat_tmod]
  rw [Digits, hf, hdiv, hmod]
  constructor
  · rintro ⟨-, ⟨h, -⟩, hrest⟩
    have hzero : n / f = 0 := by
      generalize n / f = q at h
      omega
    have hlt : n < f := by
      rcases Nat.div_eq_zero_iff.1 hzero with h | h
      · omega
      · exact h
    rw [Nat.mod_eq_of_lt hlt] at hrest
    exact ⟨hlt, hrest⟩
  · rintro ⟨hlt, hrest⟩
    rw [Nat.div_eq_of_lt hlt, Nat.mod_eq_of_lt hlt]
    exact ⟨by omega, ⟨by simp, by simp⟩, hrest⟩

/-- As long as the factorials are exact, all numbers below the next one have digits. -/
theorem digits_exact (hi : i ≤ 13) (hn : n < i.factorial) : Digits i n := by
  induction i generalizing n with
  | zero => trivial
  | succ i ih =>
    have hexact : factorial i = i.factorial := by
      have hsmall : ∀ i < 13, factorial i = (Nat.factorial i : Nat) := by decide +kernel
      exact hsmall i hi
    have hpos := Nat.factorial_pos i
    rw [digits_pos hexact hpos]
    refine ⟨?_, ih (by omega) (Nat.mod_lt _ hpos)⟩
    rw [Nat.factorial_succ] at hn
    have hlt := Nat.div_lt_of_lt_mul (Nat.mul_comm (i + 1) _ ▸ hn)
    omega

/-- The factor by which the first factorials of a length reduce a number. -/
def period : Nat → Nat
  | 24 => 862453760
  | 26 => 2076180480
  | 28 => 1484783616
  | 31 => 1409286144
  | 32 | 33 | 34 => 738197504
  | _ => 2147483648

/-- The numbers of 31 bits that the wrapped factorials can decode for a string of a length. -/
def Decodable (len n : Nat) : Prop :=
  len ≤ 17 ∨ len = 20 ∨ (len ≤ 19 ∧ n < 288522240) ∨ (len = 21 ∧ n < 2102132736) ∨
    (len = 22 ∧ n < 1195114496) ∨ (23 ≤ len ∧ len ≤ 34 ∧ n % period len < 522715136)

instance (len n : Nat) : Decidable (Decodable len n) :=
  inferInstanceAs (Decidable (_ ∨ _ ∨ _ ∨ _ ∨ _ ∨ _))

theorem digits_small (h : n < 2 ^ 31) (hi : 13 ≤ i) (hi' : i ≤ 17) : Digits i n := by
  have h13 {n : Nat} (h : n < 2 ^ 31) : Digits 13 n :=
    digits_exact (by decide) (h.trans (by decide))
  have h14 {n : Nat} (h : n < 2 ^ 31) : Digits 14 n :=
    (@digits_pos 13 n 1932053504 (by decide +kernel) (by decide)).2 ⟨by omega, h13 (by omega)⟩
  have h15 {n : Nat} (h : n < 2 ^ 31) : Digits 15 n :=
    (@digits_pos 14 n 1278945280 (by decide +kernel) (by decide)).2 ⟨by omega, h14 (by omega)⟩
  have h16 {n : Nat} (h : n < 2 ^ 31) : Digits 16 n :=
    (@digits_pos 15 n 2004310016 (by decide +kernel) (by decide)).2 ⟨by omega, h15 (by omega)⟩
  have h17 {n : Nat} (h : n < 2 ^ 31) : Digits 17 n :=
    (@digits_pos 16 n 2004189184 (by decide +kernel) (by decide)).2 ⟨by omega, h16 (by omega)⟩
  obtain rfl | rfl | rfl | rfl | rfl : i = 13 ∨ i = 14 ∨ i = 15 ∨ i = 16 ∨ i = 17 := by omega
  · exact h13 h
  · exact h14 h
  · exact h15 h
  · exact h16 h
  · exact h17 h

/-- What the step to the next place asks for, with a condition for the places before it. -/
theorem digits_wrapped {f : Nat} {P : Nat → Prop} (hpos : 0 < f) (h : n < 2 ^ 31)
    (hP : ∀ n : Nat, n < 2 ^ 31 → (Digits i n ↔ P n)) :
    (factorial i = f → (Digits (i + 1) n ↔ n / f ≤ i ∧ P (n % f))) ∧
    (factorial i = -f → (Digits (i + 1) n ↔ n < f ∧ P n)) := by
  constructor
  · intro hf
    rw [digits_pos hf hpos, hP _ ((Nat.mod_le n f).trans_lt h)]
  · intro hf
    rw [digits_neg hf hpos, hP n h]

/-- From the eighteenth character on, a factorial may be negative, and its place takes the digit
zero only. -/
theorem digits_large (h : n < 2 ^ 31) (hi : 18 ≤ i) (hi' : i ≤ 34) :
    Digits i n ↔ Decodable i n := by
  have h17 : ∀ n : Nat, n < 2 ^ 31 → (Digits 17 n ↔ True) :=
    fun n h => iff_true_intro (digits_small h (by decide) (by decide))
  have h18 : ∀ n : Nat, n < 2 ^ 31 → (Digits 18 n ↔ n < 288522240) := by
    intro n h
    rw [(@digits_wrapped 17 n 288522240 _ (by decide) h h17).2 (by decide +kernel)]
    exact and_iff_left trivial
  have h19 : ∀ n : Nat, n < 2 ^ 31 → (Digits 19 n ↔ n < 288522240) := by
    intro n h
    rw [(@digits_wrapped 18 n 898433024 _ (by decide) h h18).2 (by decide +kernel)]
    omega
  have h20 : ∀ n : Nat, n < 2 ^ 31 → (Digits 20 n ↔ True) := by
    intro n h
    rw [(@digits_wrapped 19 n 109641728 _ (by decide) h h19).1 (by decide +kernel)]
    exact iff_true_intro ⟨by omega, by omega⟩
  have h21 : ∀ n : Nat, n < 2 ^ 31 → (Digits 21 n ↔ n < 2102132736) := by
    intro n h
    rw [(@digits_wrapped 20 n 2102132736 _ (by decide) h h20).2 (by decide +kernel)]
    exact and_iff_left trivial
  have h22 : ∀ n : Nat, n < 2 ^ 31 → (Digits 22 n ↔ n < 1195114496) := by
    intro n h
    rw [(@digits_wrapped 21 n 1195114496 _ (by decide) h h21).2 (by decide +kernel)]
    omega
  have h23 : ∀ n : Nat, n < 2 ^ 31 → (Digits 23 n ↔ n < 522715136) := by
    intro n h
    rw [(@digits_wrapped 22 n 522715136 _ (by decide) h h22).2 (by decide +kernel)]
    omega
  have h24 : ∀ n : Nat, n < 2 ^ 31 → (Digits 24 n ↔ n % 862453760 < 522715136) := by
    intro n h
    rw [(@digits_wrapped 23 n 862453760 _ (by decide) h h23).1 (by decide +kernel)]
    omega
  have h25 : ∀ n : Nat, n < 2 ^ 31 → (Digits 25 n ↔ n < 522715136) := by
    intro n h
    rw [(@digits_wrapped 24 n 775946240 _ (by decide) h h24).2 (by decide +kernel)]
    omega
  have h26 : ∀ n : Nat, n < 2 ^ 31 → (Digits 26 n ↔ n % 2076180480 < 522715136) := by
    intro n h
    rw [(@digits_wrapped 25 n 2076180480 _ (by decide) h h25).1 (by decide +kernel)]
    omega
  have h27 : ∀ n : Nat, n < 2 ^ 31 → (Digits 27 n ↔ n < 522715136) := by
    intro n h
    rw [(@digits_wrapped 26 n 1853882368 _ (by decide) h h26).2 (by decide +kernel)]
    omega
  have h28 : ∀ n : Nat, n < 2 ^ 31 → (Digits 28 n ↔ n % 1484783616 < 522715136) := by
    intro n h
    rw [(@digits_wrapped 27 n 1484783616 _ (by decide) h h27).1 (by decide +kernel)]
    omega
  have h29 : ∀ n : Nat, n < 2 ^ 31 → (Digits 29 n ↔ n < 522715136) := by
    intro n h
    rw [(@digits_wrapped 28 n 1375731712 _ (by decide) h h28).2 (by decide +kernel)]
    omega
  have h30 : ∀ n : Nat, n < 2 ^ 31 → (Digits 30 n ↔ n < 522715136) := by
    intro n h
    rw [(@digits_wrapped 29 n 1241513984 _ (by decide) h h29).2 (by decide +kernel)]
    omega
  have h31 : ∀ n : Nat, n < 2 ^ 31 → (Digits 31 n ↔ n % 1409286144 < 522715136) := by
    intro n h
    rw [(@digits_wrapped 30 n 1409286144 _ (by decide) h h30).1 (by decide +kernel)]
    omega
  have h32 : ∀ n : Nat, n < 2 ^ 31 → (Digits 32 n ↔ n % 738197504 < 522715136) := by
    intro n h
    rw [(@digits_wrapped 31 n 738197504 _ (by decide) h h31).1 (by decide +kernel)]
    omega
  have h33 : ∀ n : Nat, n < 2 ^ 31 → (Digits 33 n ↔ n % 738197504 < 522715136) := by
    intro n h
    rw [(@digits_wrapped 32 n 2147483648 _ (by decide) h h32).2 (by decide +kernel)]
    omega
  have h34 : ∀ n : Nat, n < 2 ^ 31 → (Digits 34 n ↔ n % 738197504 < 522715136) := by
    intro n h
    rw [(@digits_wrapped 33 n 2147483648 _ (by decide) h h33).2 (by decide +kernel)]
    omega
  have hself : n % 2147483648 = n := Nat.mod_eq_of_lt h
  interval_cases i
  · simpa [Decodable, period, hself] using h18 n h
  · simpa [Decodable, period, hself] using h19 n h
  · simpa [Decodable, period, hself] using h20 n h
  · simpa [Decodable, period, hself] using h21 n h
  · simpa [Decodable, period, hself] using h22 n h
  · simpa [Decodable, period, hself] using h23 n h
  · simpa [Decodable, period, hself] using h24 n h
  · simpa [Decodable, period, hself] using h25 n h
  · simpa [Decodable, period, hself] using h26 n h
  · simpa [Decodable, period, hself] using h27 n h
  · simpa [Decodable, period, hself] using h28 n h
  · simpa [Decodable, period, hself] using h29 n h
  · simpa [Decodable, period, hself] using h30 n h
  · simpa [Decodable, period, hself] using h31 n h
  · simpa [Decodable, period, hself] using h32 n h
  · simpa [Decodable, period, hself] using h33 n h
  · simpa [Decodable, period, hself] using h34 n h

/-- A number has all its digits if and only if the wrapped factorials can decode it. -/
theorem digits_iff (h : n < 2 ^ 31) (hn : n < i.factorial) : Digits i n ↔ Decodable i n := by
  by_cases h13 : i ≤ 13
  · exact iff_of_true (digits_exact h13 hn) (.inl (by omega))
  · by_cases h17 : i ≤ 17
    · exact iff_of_true (digits_small h (by omega) h17) (.inl h17)
    · by_cases h34 : i ≤ 34
      · exact digits_large h (by omega) h34
      · obtain ⟨k, rfl⟩ : ∃ k, i = k + 1 := ⟨i - 1, by omega⟩
        refine iff_of_false (fun hd => hd.1 (factorial_zero (by omega))) ?_
        simp only [Decodable]
        omega

end digits

section loop

/-- The characters that are not used yet. -/
def unused : List Char → List Bool → List Char
  | c :: string, u :: used => if u then unused string used else c :: unused string used
  | _, _ => []

theorem unused_replicate (string : List Char) :
    unused string (List.replicate string.length false) = string := by
  induction string with
  | nil => rfl
  | cons c string ih =>
    rw [List.length_cons, List.replicate_succ, unused, if_neg Bool.false_ne_true, ih]

/-- `ith_false` finds an unused character by its number among them. -/
theorem ithFalseFrom_some (hlen : string.length = used.length)
    (hd : d < (unused string used).length) : ∃ k : Nat, ithFalseFrom j used d = (j + k : Nat) ∧
      k < used.length ∧ string[k]? = (unused string used)[d]? ∧
      unused string (used.set k true) = (unused string used).eraseIdx d := by
  induction used generalizing string j d with
  | nil =>
    cases string with
    | nil => cases hd
    | cons => cases hlen
  | cons u used ih =>
    cases string with
    | nil => cases hlen
    | cons c string =>
      have hlen' : string.length = used.length := Nat.succ.inj hlen
      cases u with
      | true =>
        obtain ⟨k, hk, hlt, hget, hset⟩ := @ih string (j + 1) d hlen' hd
        refine ⟨k + 1, ?_, Nat.succ_lt_succ hlt, hget, hset⟩
        rw [ithFalseFrom, if_pos rfl, hk, Nat.add_assoc, Nat.add_comm 1]
      | false =>
        cases d with
        | zero => exact ⟨0, rfl, Nat.succ_pos _, rfl, rfl⟩
        | succ d =>
          obtain ⟨k, hk, hlt, hget, hset⟩ := @ih string (j + 1) d hlen' (Nat.lt_of_succ_lt_succ hd)
          refine ⟨k + 1, ?_, Nat.succ_lt_succ hlt, hget, ?_⟩
          · have hpred : ((d + 1 : Nat) : Int) - 1 = d := by omega
            rw [ithFalseFrom, if_neg Bool.false_ne_true, if_neg (by omega), hpred, hk,
              Nat.add_assoc, Nat.add_comm 1]
          · rw [List.set_cons_succ, unused, unused, if_neg Bool.false_ne_true,
              if_neg Bool.false_ne_true, hset, List.eraseIdx_cons_succ]

theorem ithFalseFrom_none {d : Int} (hlen : string.length = used.length)
    (hd : d < 0 ∨ (unused string used).length ≤ d) : ithFalseFrom j used d = -1 := by
  induction used generalizing string j d with
  | nil => rfl
  | cons u used ih =>
    cases string with
    | nil => cases hlen
    | cons c string =>
      have hlen' : string.length = used.length := Nat.succ.inj hlen
      cases u with
      | true => exact ih hlen' hd
      | false =>
        rw [unused, if_neg Bool.false_ne_true, List.length_cons] at hd
        rw [ithFalseFrom, if_neg Bool.false_ne_true, if_neg (by omega)]
        exact ih hlen' (by omega)

/-- The characters that the digits of a number pick, the last one first. -/
def picked : Nat → Int → List Char → List Char
  | 0, _, _ => []
  | i + 1, n, cs =>
    let digit := (n.tdiv (factorial i)).toNat
    picked i (n.tmod (factorial i)) (cs.eraseIdx digit) ++ cs[digit]?.toList

variable {cs : List Char} {n m : Int} {cells : List (Option Char)}

theorem picked_succ (hlt : (n.tdiv (factorial i)).toNat < cs.length) :
    picked (i + 1) n cs = picked i (n.tmod (factorial i))
      (cs.eraseIdx (n.tdiv (factorial i)).toNat) ++ [cs[(n.tdiv (factorial i)).toNat]] := by
  rw [picked, List.getElem?_eq_getElem hlt]
  rfl

theorem picked_perm (h : Digits i n) (hcs : cs.length = i) : (picked i n cs).Perm cs := by
  induction i generalizing n cs with
  | zero => rw [List.length_eq_zero_iff.1 hcs, picked]
  | succ i ih =>
    obtain ⟨-, ⟨h0, hle⟩, hrest⟩ := h
    have hlt : (n.tdiv (factorial i)).toNat < cs.length := by omega
    have hlength : (cs.eraseIdx (n.tdiv (factorial i)).toNat).length = i := by
      rw [List.length_eraseIdx_of_lt hlt, hcs, Nat.add_sub_cancel]
    rw [picked_succ hlt]
    exact ((ih hrest hlength).append_right _).trans
      (List.perm_append_comm.trans (List.getElem_cons_eraseIdx_perm hlt))

/-- Distinct characters tell the digits that picked them, and so the number. -/
theorem picked_inj (h : Digits (i + 1) n) (h' : Digits (i + 1) m) (hcs : cs.length = i + 1)
    (hnodup : cs.Nodup) (heq : picked (i + 1) n cs = picked (i + 1) m cs) : n = m := by
  induction i generalizing n m cs with
  | zero =>
    obtain ⟨-, ⟨h0, hle⟩, -⟩ := h
    obtain ⟨-, ⟨h0', hle'⟩, -⟩ := h'
    rw [show factorial 0 = 1 from rfl, Int.tdiv_one] at h0 hle h0' hle'
    rw [Nat.cast_zero] at hle hle'
    omega
  | succ i ih =>
    obtain ⟨-, ⟨h0, hle⟩, hrest⟩ := h
    obtain ⟨-, ⟨h0', hle'⟩, hrest'⟩ := h'
    have hlt : (n.tdiv (factorial (i + 1))).toNat < cs.length := by omega
    have hlt' : (m.tdiv (factorial (i + 1))).toNat < cs.length := by omega
    rw [picked_succ hlt, picked_succ hlt'] at heq
    obtain ⟨hinit, hlast⟩ := List.append_inj' heq rfl
    have hdigit := hnodup.getElem_inj_iff.1 (List.singleton_inj.1 hlast)
    rw [← hdigit] at hinit
    have hlength : (cs.eraseIdx (n.tdiv (factorial (i + 1))).toNat).length = i + 1 := by
      rw [List.length_eraseIdx_of_lt hlt, hcs, Nat.add_sub_cancel]
    have hmod := ih hrest hrest' hlength (hnodup.eraseIdx _) hinit
    have hdiv : n.tdiv (factorial (i + 1)) = m.tdiv (factorial (i + 1)) := by omega
    rw [← Int.mul_tdiv_add_tmod n (factorial (i + 1)), hdiv, hmod, Int.mul_tdiv_add_tmod]

/-- A round with a digit for an unused character writes this character and uses it. -/
theorem permutationLoop_round (hlen : string.length = used.length) (hint : used.length < 2 ^ 31)
    (hne : factorial i ≠ 0) (hd : n.tdiv (factorial i) = d) (hlt : d < (unused string used).length)
    (hi : i < cells.length) : ∃ k,
      permutationLoop string (i + 1) n used cells = permutationLoop string i (n.tmod (factorial i))
        (used.set k true) (cells.set i (unused string used)[d]?) ∧
      unused string (used.set k true) = (unused string used).eraseIdx d := by
  obtain ⟨k, hk, hklt, hget, hset⟩ := @ithFalseFrom_some string used 0 d hlen hlt
  have hindex : ithFalse used string.length d = k := by
    rw [ithFalse, hlen, toInt_natCast hint, Int.toNat_natCast, List.take_length, hk, Nat.zero_add]
  refine ⟨k, ?_, hset⟩
  rw [permutationLoop, if_neg hne, hd]
  simp only [hindex, Int.toNat_natCast]
  rw [if_pos (by omega), hget]

/-- The loop writes the picked characters if the number has all its digits. -/
theorem permutationLoop_some (hlen : string.length = used.length) (hint : used.length < 2 ^ 31)
    (hcs : (unused string used).length = i) (hroom : i ≤ cells.length) (h : Digits i n) :
    permutationLoop string i n used cells =
      some ((picked i n (unused string used)).map some ++ cells.drop i) := by
  induction i generalizing n used cells with
  | zero => rfl
  | succ i ih =>
    obtain ⟨hne, ⟨h0, hle⟩, hrest⟩ := h
    obtain ⟨d, hd⟩ : ∃ d : Nat, n.tdiv (factorial i) = d := ⟨_, (Int.toNat_of_nonneg h0).symm⟩
    have hlt : d < (unused string used).length := by omega
    have hi : i < cells.length := by omega
    obtain ⟨k, hround, hset⟩ := permutationLoop_round hlen hint hne hd hlt hi
    have hloop := @ih (used.set k true) _ (cells.set i (unused string used)[d]?)
      (hlen.trans List.length_set.symm) (List.length_set.trans_lt hint)
      (by rw [hset, List.length_eraseIdx_of_lt hlt, hcs, Nat.add_sub_cancel])
      (by rw [List.length_set]; omega) hrest
    have hdrop : (cells.set i (unused string used)[d]?).drop i =
        (unused string used)[d]? :: cells.drop (i + 1) := by
      rw [List.drop_eq_getElem_cons (by rwa [List.length_set]), List.getElem_set_self,
        List.drop_set_of_lt (Nat.lt_succ_self i)]
    rw [hround, hloop, picked, hset, hd, Int.toNat_natCast, List.map_append, hdrop,
      List.getElem?_eq_getElem hlt, List.append_assoc]
    rfl

/-- The loop fails at a place without a digit. -/
theorem permutationLoop_none (hlen : string.length = used.length) (hint : used.length < 2 ^ 31)
    (hcs : (unused string used).length = i) (hroom : i ≤ cells.length) (h : ¬Digits i n) :
    permutationLoop string i n used cells = none := by
  induction i generalizing n used cells with
  | zero => exact absurd trivial h
  | succ i ih =>
    by_cases hne : factorial i = 0
    · rw [permutationLoop, if_pos hne]
    · by_cases hdigit : 0 ≤ n.tdiv (factorial i) ∧ n.tdiv (factorial i) ≤ i
      · obtain ⟨d, hd⟩ : ∃ d : Nat, n.tdiv (factorial i) = d :=
          ⟨_, (Int.toNat_of_nonneg hdigit.1).symm⟩
        have hlt : d < (unused string used).length := by omega
        have hi : i < cells.length := by omega
        obtain ⟨k, hround, hset⟩ := permutationLoop_round hlen hint hne hd hlt hi
        rw [hround]
        exact ih (hlen.trans List.length_set.symm) (List.length_set.trans_lt hint)
          (by rw [hset, List.length_eraseIdx_of_lt hlt, hcs, Nat.add_sub_cancel])
          (by rw [List.length_set]; omega) fun hrest => h ⟨hne, hdigit, hrest⟩
      · have hindex : ithFalse used string.length (n.tdiv (factorial i)) = -1 := by
          rw [ithFalse, hlen, toInt_natCast hint, Int.toNat_natCast, List.take_length]
          exact ithFalseFrom_none hlen (by omega)
        rw [permutationLoop, if_neg hne]
        simp only [hindex]
        rw [if_neg (by omega)]

end loop

section indexing
variable {n m : Nat}

/-- The buffer gets a rearrangement of the string, and its end. -/
def Decoded (string : List Char) (n : Nat) : Prop := ∃ perm : List Char, perm.Perm string ∧
  nthPermutation string n = some (perm.map some ++ [some (Char.ofNat 0)])

theorem length_lt (hnodup : string.Nodup) : string.length < 2 ^ 31 := by
  have hsub : string.map Char.toNat ⊆ List.range 0x110000 := by
    intro k hk
    obtain ⟨c, -, rfl⟩ := List.mem_map.1 hk
    rw [List.mem_range]
    rcases c.valid with h | h
    · exact Nat.lt_trans h (by decide)
    · exact h.2
  have hmap : (string.map Char.toNat).Nodup :=
    hnodup.map fun a b h => Char.ext (UInt32.toNat_inj.1 h)
  have hle := (List.subperm_of_subset hmap hsub).length_le
  rw [List.length_map, List.length_range] at hle
  omega

theorem nthPermutation_some (hint : string.length < 2 ^ 31) (h : Digits string.length n) :
    nthPermutation string n =
      some ((picked string.length n string).map some ++ [some (Char.ofNat 0)]) := by
  have hloop := @permutationLoop_some string (List.replicate string.length false) string.length n
    (List.replicate (string.length + 1) none) (List.length_replicate).symm
    (by rwa [List.length_replicate]) (by rw [unused_replicate]) (by simp) h
  have hlength : (picked string.length n string).length = string.length :=
    (picked_perm h rfl).length_eq
  rw [unused_replicate] at hloop
  simp only [nthPermutation, toInt_natCast hint, Int.toNat_natCast, hloop, Option.bind_eq_bind,
    Option.bind_some]
  rw [List.drop_replicate, Nat.add_sub_cancel_left, List.set_append_right _ _ (by simp [hlength])]
  simp [hlength]

theorem nthPermutation_none (hint : string.length < 2 ^ 31) (h : ¬Digits string.length n) :
    nthPermutation string n = none := by
  have hloop := @permutationLoop_none string (List.replicate string.length false) string.length n
    (List.replicate (string.length + 1) none) (List.length_replicate).symm
    (by rwa [List.length_replicate]) (by rw [unused_replicate]) (by simp) h
  simp only [nthPermutation, toInt_natCast hint, Int.toNat_natCast, hloop, Option.bind_eq_bind,
    Option.bind_none]

theorem decoded_iff (hint : string.length < 2 ^ 31) :
    Decoded string n ↔ Digits string.length n := by
  constructor
  · rintro ⟨perm, -, h⟩
    by_contra hd
    rw [nthPermutation_none hint hd] at h
    cases h
  · intro h
    exact ⟨_, picked_perm h rfl, nthPermutation_some hint h⟩

/-- Different numbers that are decoded give different permutations. -/
theorem nthPermutation_inj (hnodup : string.Nodup) (hn : n < string.length.factorial)
    (hm : m < string.length.factorial) (hdn : Decoded string n) (hdm : Decoded string m)
    (heq : nthPermutation string n = nthPermutation string m) : n = m := by
  have hint := length_lt hnodup
  rw [decoded_iff hint] at hdn hdm
  rw [nthPermutation_some hint hdn, nthPermutation_some hint hdm] at heq
  have hpicked := List.map_injective_iff.2 (Option.some_injective _)
    (List.append_cancel_right (Option.some.inj heq))
  generalize hlength : string.length = l at *
  cases l with
  | zero =>
    rw [Nat.factorial_zero] at hn hm
    omega
  | succ l => exact Int.ofNat_inj.1 (picked_inj hdn hdm hlength hnodup hpicked)

/-- For all lengths but those up to 17 and 20 there is a number that is not decoded. -/
theorem exists_not_decodable {l : Nat} (h17 : 17 < l) (h20 : l ≠ 20) :
    ∃ n < l.factorial, n < 2 ^ 31 ∧ ¬Decodable l n := by
  have hfactorial : 2 ^ 31 < l.factorial :=
    (by decide : 2 ^ 31 < Nat.factorial 18).trans_le (Nat.factorial_le h17)
  by_cases h22 : l ≤ 22
  · refine ⟨2102132736, by omega, by omega, ?_⟩
    simp only [Decodable]
    omega
  · have hperiod : 522715136 < period l := by
      unfold period
      split <;> decide
    refine ⟨522715136, by omega, by omega, ?_⟩
    simp only [Decodable, Nat.mod_eq_of_lt hperiod]
    omega

/-- `nth_permutation` writes a rearrangement of distinct characters if and only if the wrapped
factorials can decode the number, and then different numbers give different ones. So it works for
all numbers if and only if the string has at most 17 characters, or 20. -/
theorem nthPermutation_iff (hnodup : string.Nodup) :
    (∀ n < string.length.factorial, n < 2 ^ 31 →
      (Decoded string n ↔ Decodable string.length n)) ∧
    (∀ n < string.length.factorial, ∀ m < string.length.factorial, Decoded string n →
      Decoded string m → nthPermutation string n = nthPermutation string m → n = m) ∧
    (((∀ n < string.length.factorial, n < 2 ^ 31 → Decoded string n) ∧
        ∀ n < string.length.factorial, ∀ m < string.length.factorial, n < 2 ^ 31 → m < 2 ^ 31 →
          nthPermutation string n = nthPermutation string m → n = m) ↔
      string.length ≤ 17 ∨ string.length = 20) := by
  have hint := length_lt hnodup
  have hiff {n : Nat} (hn : n < string.length.factorial) (h : n < 2 ^ 31) :
      Decoded string n ↔ Decodable string.length n := (decoded_iff hint).trans (digits_iff h hn)
  refine ⟨fun n hn h => hiff hn h,
    fun n hn m hm hdn hdm heq => nthPermutation_inj hnodup hn hm hdn hdm heq, ?_⟩
  constructor
  · rintro ⟨hall, -⟩
    by_contra hlength
    rw [not_or] at hlength
    obtain ⟨n, hn, h, hnot⟩ := exists_not_decodable (Nat.not_le.1 hlength.1) hlength.2
    exact hnot ((hiff hn h).1 (hall n hn h))
  · intro hlength
    have hall {n : Nat} (hn : n < string.length.factorial) (h : n < 2 ^ 31) : Decoded string n := by
      refine (hiff hn h).2 ?_
      rcases hlength with hlength | hlength
      · exact .inl hlength
      · exact .inr (.inl hlength)
    exact ⟨fun n hn h => hall hn h, fun n hn m hm h h' heq =>
      nthPermutation_inj hnodup hn hm (hall hn h) (hall hm h') heq⟩

theorem nthPermutation_iff_three : Decoded ['a', 'b', 'c'] 5 :=
  ((nthPermutation_iff (by decide : ['a', 'b', 'c'].Nodup)).1 5 (by decide) (by decide)).2
    (.inl (by decide))

/-- For 35 characters the first divisor is zero. -/
theorem nthPermutation_zero : ¬∀ (string : List Char) (n : Nat), string.Nodup →
    n < string.length.factorial → n < 2 ^ 31 → Decoded string n := by
  intro h
  let string := (List.range 35).map fun i => Char.ofNat (i + 65)
  obtain ⟨perm, -, hperm⟩ := h string 0 (by decide +kernel) (Nat.factorial_pos _) (by decide)
  have hnone : nthPermutation string 0 = none := by decide +kernel
  rw [Nat.cast_zero, hnone] at hperm
  cases hperm

end indexing
end Lisp
