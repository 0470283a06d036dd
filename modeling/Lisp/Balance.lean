import Lisp.Grammar

/-! What `is_valid` and `is_balanced` say of the texts of expressions. -/
namespace Lisp
variable {n m k : Int} {a b s t u ws name : Text} {c : Char}

/-- The count of open parentheses goes from `n` to `m` along `s` and is never negative. -/
structure Counts (n m : Int) (s : Text) : Prop where
  valid : validFrom n s = true
  net : netFrom n s = m

theorem netStep_eq (n : Int) (c : Char) : netStep n c = n + netStep 0 c := by
  simp only [netStep]
  split_ifs
  all_goals omega

theorem netFrom_eq (n : Int) (s : Text) : netFrom n s = n + netFrom 0 s := by
  induction s generalizing n with
  | nil => simp [netFrom]
  | cons c s ih =>
    have hcons : ∀ z, netFrom z (c :: s) = netFrom (netStep z c) s := fun z => rfl
    rw [hcons, hcons, ih, ih (netStep 0 c), netStep_eq n]
    omega

theorem Counts.nil (hn : 0 ≤ n) : Counts n n [] := by
  constructor
  · simpa [validFrom] using hn
  · rfl

theorem counts_cons : Counts n m (c :: s) ↔ 0 ≤ netStep n c ∧ Counts (netStep n c) m s := by
  constructor
  · rintro ⟨hv, hn⟩
    by_cases hneg : netStep n c < 0
    · simp [validFrom, hneg] at hv
    · exact ⟨by omega, by simpa [validFrom, hneg] using hv, hn⟩
  · rintro ⟨hpos, hv, hn⟩
    exact ⟨by simp [validFrom, Int.not_lt.2 hpos, hv], hn⟩

theorem Counts.nonneg (h : Counts n m s) : 0 ≤ m := by
  induction s generalizing n with
  | nil =>
    obtain ⟨hv, rfl⟩ := h
    have hn : 0 ≤ n := by simpa [validFrom] using hv
    exact hn
  | cons c s ih => exact ih (counts_cons.1 h).2

theorem Counts.append (ha : Counts n m a) (hb : Counts m k b) : Counts n k (a ++ b) := by
  induction a generalizing n with
  | nil =>
    obtain ⟨-, rfl⟩ := ha
    exact hb
  | cons c a ih =>
    obtain ⟨hpos, ha⟩ := counts_cons.1 ha
    exact counts_cons.2 ⟨hpos, ih ha⟩

/-- A beginning of a valid text is valid. -/
theorem Counts.take (hn : 0 ≤ n) (h : Counts n m (a ++ b)) :
    ∃ k, Counts n k a ∧ Counts k m b := by
  induction a generalizing n with
  | nil => exact ⟨n, .nil hn, h⟩
  | cons c a ih =>
    obtain ⟨hpos, h⟩ := counts_cons.1 h
    obtain ⟨k, ha, hb⟩ := ih hpos h
    exact ⟨k, counts_cons.2 ⟨hpos, ha⟩, hb⟩

theorem Counts.isBalanced (h : Counts 0 m s) : isBalanced s = true ↔ m = 0 := by
  rw [Lisp.isBalanced, h.net, beq_iff_eq]

theorem counts_neutral (hn : 0 ≤ n) (h : ∀ c ∈ s, c ≠ '(' ∧ c ≠ ')') : Counts n n s := by
  induction s with
  | nil => exact .nil hn
  | cons c s ih =>
    have hc := h c (by simp)
    have hstep : netStep n c = n := by simp [netStep, hc]
    rw [counts_cons, hstep]
    exact ⟨hn, ih fun d hd => h d (by simp [hd])⟩

theorem counts_white (hn : 0 ≤ n) (hw : AllWhite ws) : Counts n n ws := by
  apply counts_neutral hn
  intro c hc
  rcases hw c hc with rfl | rfl | rfl | rfl <;> decide

theorem counts_token (hn : 0 ≤ n) (ht : IsToken name) : Counts n n name := by
  apply counts_neutral hn
  intro c hc
  have h := ht.2.2 c hc
  simp only [isAtomChar, Bool.not_eq_true', Bool.or_eq_false_iff, beq_eq_false_iff_ne] at h
  exact ⟨h.1.2, h.2⟩

theorem counts_open (hn : 0 ≤ n) : Counts n (n + 1) ['('] :=
  counts_cons.2 ⟨by simp [netStep]; omega, by simpa [netStep] using Counts.nil (by omega)⟩

theorem counts_close (hn : 1 ≤ n) : Counts n (n - 1) [')'] :=
  counts_cons.2 ⟨by simp [netStep]; omega, by simpa [netStep] using Counts.nil (by omega)⟩

mutual

theorem Layout.counts {e : SExpr} {t : Text} : Layout e t → ∀ n, 0 ≤ n → Counts n n t
  | .token hw ht => fun _ hn => (counts_white hn hw).append (counts_token hn ht)
  | .paren hw h => fun n hn => by
    have helements := h.counts (n + 1) (by omega)
    rw [Int.add_sub_cancel] at helements
    exact (counts_white hn hw).append ((counts_open hn).append helements)
  | .quote hw h => fun n hn => by
    have hquote : Counts n n ['\''] := counts_neutral hn (by simp)
    exact (counts_white hn hw).append (hquote.append (h.counts n hn))

/-- The elements of a list and the parenthesis that closes it. -/
theorem ElementsLayout.counts {es : List SExpr} {t : Text} :
    ElementsLayout es t → ∀ n, 1 ≤ n → Counts n (n - 1) t
  | .nil hw => fun _ hn => (counts_white (by omega) hw).append (counts_close hn)
  | .cons h hs _ => fun n hn => (h.counts n (by omega)).append (hs.counts n hn)

end

end Lisp
