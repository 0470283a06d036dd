import Lisp.Library.PlainChanges
import Mathlib.Data.List.Count
import Mathlib.Tactic.Ring

/-! A potential of the rows in which each element faces left or right, where elements may be equal.
An element that passes a smaller one lessens it, though those larger turn around. -/
namespace PlainChanges
variable {α : Type} {gt : α → α → Prop} [DecidableRel gt] {w : α → Nat} {x y z : α}
  {before before' after after' xs : List α} {r r' : List (α × Direction)} {N : Nat}

/-- The number of smaller elements that an element faces, with what is left and right of it. -/
def ahead (gt : α → α → Prop) [DecidableRel gt] (before after : List α) : α × Direction → Nat
  | (z, .left) => before.countP (gt z ·)
  | (z, .right) => after.countP (gt z ·)

/-- The weighted sum of what the elements of a row have ahead. -/
def potential (gt : α → α → Prop) [DecidableRel gt] (w : α → Nat) (before : List α) :
    List (α × Direction) → Nat
  | [] => 0
  | e :: r => w e.1 * ahead gt before (r.map Prod.fst) e + potential gt w (e.1 :: before) r

theorem ahead_perm (hb : before.Perm before') (ha : after.Perm after') (e : α × Direction) :
    ahead gt before after e = ahead gt before' after' e := by
  obtain ⟨z, d⟩ := e
  cases d with
  | left => exact hb.countP_eq _
  | right => exact ha.countP_eq _

theorem ahead_le (before after : List α) (e : α × Direction) :
    ahead gt before after e ≤ before.length + after.length := by
  obtain ⟨z, d⟩ := e
  cases d with
  | left => exact List.countP_le_length.trans (Nat.le_add_right ..)
  | right => exact List.countP_le_length.trans (Nat.le_add_left ..)

/-- An element that is not larger than `x` does not see which side `x` is on. -/
theorem ahead_skip (h : ¬gt y x) (before after : List α) (d : Direction) :
    ahead gt (x :: before) after (y, d) = ahead gt before (x :: after) (y, d) := by
  cases d with
  | left => simp [ahead, h]
  | right => simp [ahead, h]

theorem potential_perm (h : before.Perm before') (r : List (α × Direction)) :
    potential gt w before r = potential gt w before' r := by
  induction r generalizing before before' with
  | nil => rfl
  | cons e r ih => rw [potential, potential, ih (h.cons e.1), ahead_perm h (.refl _)]

/-- Who passes a smaller element has one less ahead; nothing changes for the others. -/
theorem Passes.potential (hasymm : ∀ y, gt x y → ¬gt y x) (h : Passes gt x r r')
    (before : List α) : PlainChanges.potential gt w before r' + w x =
      PlainChanges.potential gt w before r := by
  induction h generalizing before with
  | @left y d r hgt =>
    have hswap : PlainChanges.potential gt w (y :: x :: before) r =
        PlainChanges.potential gt w (x :: y :: before) r := potential_perm (.swap x y before) r
    have hx : ahead gt (y :: before) (r.map Prod.fst) (x, .left) =
        ahead gt before (y :: r.map Prod.fst) (x, .left) + 1 := by
      simp [ahead, hgt]
    have hy := ahead_skip (hasymm y hgt) before (r.map Prod.fst) d
    simp only [PlainChanges.potential, List.map_cons, hx, hswap, hy]
    ring
  | @right y d r hgt =>
    have hswap : PlainChanges.potential gt w (y :: x :: before) r =
        PlainChanges.potential gt w (x :: y :: before) r := potential_perm (.swap x y before) r
    have hx : ahead gt before (y :: r.map Prod.fst) (x, .right) =
        ahead gt (y :: before) (r.map Prod.fst) (x, .right) + 1 := by
      simp [ahead, hgt]
    have hy := ahead_skip (hasymm y hgt) before (r.map Prod.fst) d
    simp only [PlainChanges.potential, List.map_cons, hx, hswap, hy]
    ring
  | cons e h ih =>
    have hperm := (h.perm.map Prod.fst).symm
    rw [PlainChanges.potential, PlainChanges.potential, Nat.add_assoc, ih,
      ahead_perm (.refl before) hperm]

/-- What those larger than `x` gain at most when they turn around. -/
theorem potential_turned (x : α) (r : List (α × Direction)) (hN : before.length + r.length ≤ N) :
    potential gt w before (turned gt x r) ≤ potential gt w before r +
      ((r.map Prod.fst).filter (gt · x)).foldr (fun z s => w z * N + s) 0 := by
  induction r generalizing before with
  | nil => exact Nat.zero_le _
  | cons e r ih =>
    obtain ⟨z, d⟩ := e
    rw [List.length_cons] at hN
    have hrest := @ih (z :: before) (by rw [List.length_cons]; omega)
    have htail : (turned gt x r).map Prod.fst = r.map Prod.fst := turned_fst x r
    by_cases hgt : gt z x
    · have hturned : turned gt x ((z, d) :: r) = (z, d.flip) :: turned gt x r := by
        simp [turned, hgt]
      have hle : ahead gt before (r.map Prod.fst) (z, d.flip) ≤ N :=
        (ahead_le ..).trans (by rw [List.length_map]; omega)
      have hmul := Nat.mul_le_mul_left (w z) hle
      simp only [hturned, potential, htail, List.map_cons, List.filter_cons, hgt, decide_true,
        if_true, List.foldr_cons]
      omega
    · have hturned : turned gt x ((z, d) :: r) = (z, d) :: turned gt x r := by
        simp [turned, hgt]
      simp only [hturned, potential, htail, List.map_cons, List.filter_cons, hgt, decide_false,
        Bool.false_eq_true, if_false]
      omega

/-- A weight that exceeds all that the larger elements of the list can gain. -/
def weight (gt : α → α → Prop) [DecidableRel gt] (xs : List α) (z : α) : Nat :=
  (xs.length * xs.length + 1) ^ xs.countP (gt · z)

/-- A larger element has fewer that are larger still. -/
theorem countP_lt (hirrefl : ∀ a, ¬gt a a) (htrans : ∀ a b c, gt a b → gt b c → gt a c)
    (hz : z ∈ xs) (hgt : gt z x) : xs.countP (gt · z) < xs.countP (gt · x) := by
  obtain ⟨l, l', rfl⟩ := List.append_of_mem hz
  have hmono (l : List α) : l.countP (gt · z) ≤ l.countP (gt · x) :=
    List.countP_mono_left fun a _ h => by simpa using htrans a z x (by simpa using h) hgt
  have hl := hmono l
  have hl' := hmono l'
  simp only [List.countP_append, List.countP_cons, hirrefl z, hgt, decide_true, decide_false,
    if_true, Bool.false_eq_true, if_false]
  omega

theorem foldr_le {b : Nat} (l : List α) (h : ∀ z ∈ l, w z ≤ b) :
    l.foldr (fun z s => w z * N + s) 0 ≤ l.length * (b * N) := by
  induction l with
  | nil => exact Nat.zero_le _
  | cons z l ih =>
    have hz := Nat.mul_le_mul_right N (h z List.mem_cons_self)
    have hl := ih fun z hz => h z (List.mem_cons_of_mem _ hz)
    rw [List.foldr_cons, List.length_cons, Nat.add_mul, Nat.one_mul]
    omega

theorem gain_lt_weight (hirrefl : ∀ a, ¬gt a a) (htrans : ∀ a b c, gt a b → gt b c → gt a c)
    (x : α) (xs : List α) :
    (xs.filter (gt · x)).foldr (fun z s => weight gt xs z * xs.length + s) 0 < weight gt xs x := by
  have hlength : (xs.filter (gt · x)).length = xs.countP (gt · x) :=
    List.countP_eq_length_filter.symm
  have hcount : xs.countP (gt · x) ≤ xs.length := List.countP_le_length
  cases hk : xs.countP (gt · x) with
  | zero =>
    have hnil : xs.filter (gt · x) = [] := List.length_eq_zero_iff.1 (hlength.trans hk)
    rw [hnil]
    exact Nat.pow_pos (Nat.succ_pos _)
  | succ k =>
    let B := xs.length * xs.length + 1
    have hle : ∀ z ∈ xs.filter (gt · x), weight gt xs z ≤ B ^ k := by
      intro z hz
      rw [List.mem_filter] at hz
      have hlt := countP_lt hirrefl htrans hz.1 (by simpa using hz.2)
      exact Nat.pow_le_pow_right (Nat.succ_pos _) (by omega)
    have hgain := foldr_le (N := xs.length) _ hle
    have hpos : 0 < B ^ k := Nat.pow_pos (Nat.succ_pos _)
    calc _ ≤ (xs.filter (gt · x)).length * (B ^ k * xs.length) := hgain
      _ ≤ xs.length * (B ^ k * xs.length) := Nat.mul_le_mul_right _ (hlength ▸ hcount)
      _ = B ^ k * (xs.length * xs.length) := by ring
      _ < B ^ k * B := Nat.mul_lt_mul_of_pos_left (Nat.lt_succ_self _) hpos
      _ = weight gt xs x := by rw [weight, hk, Nat.pow_succ]

/-- A move lessens the potential of the row, whichever element makes it. -/
theorem Passes.potential_turned_lt (hirrefl : ∀ a, ¬gt a a)
    (htrans : ∀ a b c, gt a b → gt b c → gt a c) (h : Passes gt x r r')
    (hxs : (r.map Prod.fst).Perm xs) :
    PlainChanges.potential gt (weight gt xs) [] (turned gt x r') <
      PlainChanges.potential gt (weight gt xs) [] r := by
  have hperm : (r'.map Prod.fst).Perm xs := (h.perm.map Prod.fst).symm.trans hxs
  have hlength : r'.length = xs.length := by simpa using hperm.length_eq
  have hasymm : ∀ y, gt x y → ¬gt y x := fun y hxy hyx => hirrefl x (htrans x y x hxy hyx)
  have hpass := h.potential (w := weight gt xs) hasymm []
  have hturn := @potential_turned _ gt _ (weight gt xs) [] xs.length x r' (by simp [hlength])
  have hgain := gain_lt_weight hirrefl htrans x xs
  have hsame : ((r'.map Prod.fst).filter (gt · x)).foldr
      (fun z s => weight gt xs z * xs.length + s) 0 =
        (xs.filter (gt · x)).foldr (fun z s => weight gt xs z * xs.length + s) 0 :=
    (hperm.filter _).foldr_eq' (fun a _ b _ s => by ring) 0
  omega

end PlainChanges
