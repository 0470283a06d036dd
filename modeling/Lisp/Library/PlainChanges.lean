import Mathlib.Data.List.Permutation

/-! The plain changes of Steinhaus, Johnson and Trotter: the permutations of a list, each made from
the one before by an exchange of two neighbours. In a row each element faces left or right. -/
namespace PlainChanges

inductive Direction where
  | left
  | right
deriving DecidableEq, Repr

def Direction.flip : Direction → Direction
  | left => right
  | right => left

variable {α : Type} {gt : α → α → Prop} {m x z : α} {d : Direction}
  {r r' s : List (α × Direction)} {rs : List (List (α × Direction))} {xs ys : List α}

/-- Two lists differ by an exchange of two neighbours. -/
inductive AdjacentSwap : List α → List α → Prop
  | swap (x y : α) (l : List α) : AdjacentSwap (x :: y :: l) (y :: x :: l)
  | cons (x : α) {l l' : List α} : AdjacentSwap l l' → AdjacentSwap (x :: l) (x :: l')

/-- `x` changes places with the smaller neighbour that it faces. -/
inductive Passes (gt : α → α → Prop) (x : α) :
    List (α × Direction) → List (α × Direction) → Prop
  | left {y : α} {d : Direction} {r : List (α × Direction)} : gt x y →
      Passes gt x ((y, d) :: (x, .left) :: r) ((x, .left) :: (y, d) :: r)
  | right {y : α} {d : Direction} {r : List (α × Direction)} : gt x y →
      Passes gt x ((x, .right) :: (y, d) :: r) ((y, d) :: (x, .right) :: r)
  | cons (e : α × Direction) {r r' : List (α × Direction)} :
      Passes gt x r r' → Passes gt x (e :: r) (e :: r')

/-- `x` faces a smaller neighbour. -/
def Mobile (gt : α → α → Prop) (x : α) (r : List (α × Direction)) : Prop := ∃ r', Passes gt x r r'

/-- The elements larger than `x` turn around. -/
def turned (gt : α → α → Prop) [DecidableRel gt] (x : α) (r : List (α × Direction)) :
    List (α × Direction) :=
  r.map fun e => if gt e.1 x then (e.1, e.2.flip) else e

/-- The largest of the mobile elements passes its neighbour, and those larger turn around. -/
inductive Change (gt : α → α → Prop) [DecidableRel gt] :
    List (α × Direction) → List (α × Direction) → Prop
  | intro {x : α} {r r' : List (α × Direction)} : Passes gt x r r' →
      (∀ z, Mobile gt z r → ¬gt z x) → Change gt r (turned gt x r')

/-- The rows that changes make one after the other, until no element is mobile. -/
inductive Run (gt : α → α → Prop) [DecidableRel gt] :
    List (α × Direction) → List (List (α × Direction)) → Prop
  | last {r : List (α × Direction)} : (∀ x, ¬Mobile gt x r) → Run gt r [r]
  | next {r r' : List (α × Direction)} {rs : List (List (α × Direction))} :
      Change gt r r' → Run gt r' rs → Run gt r (r :: rs)

/-- `m` is larger than the elements of the row. -/
def Tops (gt : α → α → Prop) (m : α) (r : List (α × Direction)) : Prop :=
  ∀ e ∈ r, gt m e.1 ∧ ¬gt e.1 m

theorem AdjacentSwap.perm (h : AdjacentSwap xs ys) : xs.Perm ys := by
  induction h with
  | swap x y l => exact .swap y x l
  | cons x _ ih => exact ih.cons x

theorem Passes.adjacentSwap (h : Passes gt x r r') :
    AdjacentSwap (r.map Prod.fst) (r'.map Prod.fst) := by
  induction h with
  | left => exact .swap ..
  | right => exact .swap ..
  | cons e _ ih => exact .cons _ ih

theorem Passes.mem (h : Passes gt x r r') : ∃ d, (x, d) ∈ r := by
  induction h with
  | left => exact ⟨.left, by simp⟩
  | right => exact ⟨.right, by simp⟩
  | cons e _ ih =>
    obtain ⟨d, hd⟩ := ih
    exact ⟨d, List.mem_cons_of_mem _ hd⟩

theorem Passes.perm (h : Passes gt x r r') : r.Perm r' := by
  induction h with
  | left => exact .swap ..
  | right => exact .swap ..
  | cons e _ ih => exact ih.cons e

/-- `j` is the place that an element in the place `i` faces. -/
def Faces : Direction → Nat → Nat → Prop
  | .left, i, j => j + 1 = i
  | .right, i, j => i + 1 = j

theorem Faces.succ {i j : Nat} (h : Faces d i j) : Faces d (i + 1) (j + 1) := by
  cases d with
  | left => exact congrArg Nat.succ h
  | right => exact congrArg Nat.succ h

theorem Passes.places (h : Passes gt x r r') : ∃ i j y d e, Faces d i j ∧ r[i]? = some (x, d) ∧
    r[j]? = some (y, e) ∧ gt x y ∧ r' = (r.set i (y, e)).set j (x, d) := by
  induction h with
  | left h => exact ⟨1, 0, _, .left, _, rfl, rfl, rfl, h, rfl⟩
  | right h => exact ⟨0, 1, _, .right, _, rfl, rfl, rfl, h, rfl⟩
  | cons e _ ih =>
    obtain ⟨i, j, y, d, e, hfaces, hi, hj, hgt, rfl⟩ := ih
    exact ⟨i + 1, j + 1, y, d, e, hfaces.succ, hi, hj, hgt, rfl⟩

theorem passes_of_places {i j : Nat} {y : α} {e : Direction} (hfaces : Faces d i j)
    (hi : r[i]? = some (x, d)) (hj : r[j]? = some (y, e)) (hgt : gt x y) :
    Passes gt x r ((r.set i (y, e)).set j (x, d)) := by
  induction r generalizing i j with
  | nil => cases hi
  | cons a r ih =>
    cases i with
    | zero =>
      cases d with
      | left => cases hfaces
      | right =>
        obtain rfl : j = 1 := hfaces.symm
        obtain rfl : a = (x, .right) := Option.some.inj hi
        cases r with
        | nil => cases hj
        | cons b r =>
          obtain rfl : b = (y, e) := Option.some.inj hj
          exact .right hgt
    | succ i =>
      cases j with
      | zero =>
        cases d with
        | right => cases hfaces
        | left =>
          obtain rfl : 0 = i := Nat.succ.inj hfaces
          obtain rfl : a = (y, e) := Option.some.inj hj
          cases r with
          | nil => cases hi
          | cons b r =>
            obtain rfl : b = (x, .left) := Option.some.inj hi
            exact .left hgt
      | succ j =>
        refine .cons a (ih ?_ hi hj)
        cases d with
        | left => exact Nat.succ.inj hfaces
        | right => exact Nat.succ.inj hfaces

theorem Passes.append (h : Passes gt x r r') (s : List (α × Direction)) :
    Passes gt x (r ++ s) (r' ++ s) := by
  induction h with
  | left h => exact .left h
  | right h => exact .right h
  | cons e _ ih => exact .cons e ih

theorem Passes.prepend (h : Passes gt x r r') (s : List (α × Direction)) :
    Passes gt x (s ++ r) (s ++ r') := by
  induction s with
  | nil => exact h
  | cons e s ih => exact .cons e ih

theorem Tops.of_cons {e : α × Direction} (hm : Tops gt m (e :: r)) : Tops gt m r :=
  fun _ he => hm _ (List.mem_cons_of_mem _ he)

theorem Tops.le {p : List (α × Direction)} (hm : Tops gt m (p ++ r)) (hirrefl : ¬gt m m) :
    ∀ e ∈ p ++ (m, d) :: r, ¬gt e.1 m := by
  intro e he
  rw [List.perm_middle.mem_iff, List.mem_cons] at he
  rcases he with rfl | he
  · exact hirrefl
  · exact (hm e he).2

theorem Tops.passes (hm : Tops gt m r) (h : Passes gt x r r') : gt m x ∧ ¬gt x m := by
  obtain ⟨d, hd⟩ := h.mem
  exact hm _ hd

/-- The largest element at the left end, facing left, is not mobile and lets nothing pass. -/
theorem Mobile.of_leave_left (h : Mobile gt z ((m, .left) :: r)) (hm : Tops gt m r) :
    Mobile gt z r := by
  obtain ⟨r', h⟩ := h
  cases h with
  | left h => exact absurd h (hm (z, .left) (by simp)).2
  | cons _ h => exact ⟨_, h⟩

theorem Passes.of_leave_right (h : Passes gt z (r ++ [(m, .right)]) s) (hm : Tops gt m r) :
    Mobile gt z r := by
  induction r generalizing s with
  | nil =>
    cases h with
    | cons _ h => cases h
  | cons e r ih =>
    cases r with
    | nil =>
      cases h with
      | right h => exact absurd h (hm (z, .right) (by simp)).2
      | cons _ h => cases h with
        | cons _ h => cases h
    | cons e' r =>
      cases h with
      | left h => exact ⟨_, .left h⟩
      | right h => exact ⟨_, .right h⟩
      | cons _ h =>
        obtain ⟨s, hs⟩ := ih h hm.of_cons
        exact ⟨_, hs.cons e⟩

/-- `m` in front of the row or behind it, in the place from which it goes in the direction `d`. -/
def enter (m : α) : Direction → List (α × Direction) → List (α × Direction)
  | .left, r => r ++ [(m, .left)]
  | .right, r => (m, .right) :: r

/-- `m` in the place where it cannot go further in the direction `d`. -/
def leave (m : α) : Direction → List (α × Direction) → List (α × Direction)
  | .left, r => (m, .left) :: r
  | .right, r => r ++ [(m, .right)]

theorem Mobile.of_leave (h : Mobile gt z (leave m d r)) (hm : Tops gt m r) : Mobile gt z r := by
  cases d with
  | left => exact h.of_leave_left hm
  | right =>
    obtain ⟨_, h⟩ := h
    exact h.of_leave_right hm

/-- `m` goes to the right end. -/
def sweepRight (m : α) (passed : List (α × Direction)) :
    List (α × Direction) → List (List (α × Direction))
  | [] => [passed ++ [(m, .right)]]
  | e :: r => (passed ++ (m, .right) :: e :: r) :: sweepRight m (passed ++ [e]) r

/-- `m` goes to the left end; the row before it is given from right to left. -/
def sweepLeft (m : α) : List (α × Direction) → List (α × Direction) →
    List (List (α × Direction))
  | [], passed => [(m, .left) :: passed]
  | e :: r, passed => (r.reverse ++ e :: (m, .left) :: passed) :: sweepLeft m r (e :: passed)

/-- The rows with `m` in each place of one row. -/
def sweep (m : α) : Direction → List (α × Direction) → List (List (α × Direction))
  | .left, r => sweepLeft m r.reverse []
  | .right, r => sweepRight m [] r

/-- `m` goes through the rows, through each in the direction opposite to the one before. -/
def weave (m : α) : Direction → List (List (α × Direction)) → List (List (α × Direction))
  | _, [] => []
  | d, r :: rs => sweep m d r ++ weave m d.flip rs

/-- The plain changes of the elements, which are given from the largest to the smallest. -/
def plainChanges : List α → List (List (α × Direction))
  | [] => [[]]
  | m :: xs => weave m .left (plainChanges xs)

section runs
variable [DecidableRel gt]

theorem turned_fst (x : α) (r : List (α × Direction)) :
    (turned gt x r).map Prod.fst = r.map Prod.fst := by
  rw [turned, List.map_map]
  refine List.map_congr_left ?_
  intro e _
  simp only [Function.comp_apply]
  split <;> rfl

theorem Change.adjacentSwap (h : Change gt r r') :
    AdjacentSwap (r.map Prod.fst) (r'.map Prod.fst) := by
  obtain ⟨hpass, -⟩ := h
  rw [turned_fst]
  exact hpass.adjacentSwap

/-- When `m` cannot go further, the largest mobile element is that of the row without `m`. -/
theorem Change.turn (h : Change gt r r') (hm : Tops gt m r) (d : Direction) :
    Change gt (leave m d r) (enter m d.flip r') := by
  obtain ⟨hpass, hlargest⟩ := h
  have hx := hm.passes hpass
  cases d with
  | left =>
    have hchange := Change.intro (hpass.cons (m, .left)) fun z hz =>
      hlargest z (hz.of_leave (d := .left) hm)
    simpa [turned, enter, leave, Direction.flip, hx.1] using hchange
  | right =>
    have hchange := Change.intro (hpass.append [(m, .right)]) fun z hz =>
      hlargest z (hz.of_leave (d := .right) hm)
    simpa [turned, enter, leave, Direction.flip, hx.1] using hchange

/-- While `m` is mobile, it moves and nothing turns around. -/
theorem Change.move (hpass : Passes gt m r r') (hr : ∀ e ∈ r, ¬gt e.1 m) : Change gt r r' := by
  have hchange : Change gt r (turned gt m r') := by
    refine .intro hpass ?_
    rintro z ⟨_, hz⟩
    obtain ⟨d, hd⟩ := hz.mem
    exact hr _ hd
  have hsame : turned gt m r' = r' := by
    refine (List.map_congr_left ?_).trans (List.map_id r')
    intro e he
    simp [hr e (hpass.perm.mem_iff.2 he)]
  rwa [hsame] at hchange

theorem run_sweepRight {p : List (α × Direction)} (hirrefl : ¬gt m m) (hm : Tops gt m (p ++ r))
    (h : Run gt (p ++ r ++ [(m, .right)]) ((p ++ r ++ [(m, .right)]) :: rs)) :
    Run gt (p ++ (m, .right) :: r) (sweepRight m p r ++ rs) := by
  induction r generalizing p with
  | nil => simpa [sweepRight] using h
  | cons e r ih =>
    have hpass := (Passes.right (r := r) (d := e.2) (hm e (by simp)).1).prepend p
    have hrest := ih (p := p ++ [e]) (by simpa using hm) (by simpa using h)
    rw [List.append_assoc] at hrest
    exact .next (.move hpass (hm.le hirrefl)) hrest

theorem run_sweepLeft {p : List (α × Direction)} (hirrefl : ¬gt m m)
    (hm : Tops gt m (p.reverse ++ r))
    (h : Run gt ((m, .left) :: (p.reverse ++ r)) (((m, .left) :: (p.reverse ++ r)) :: rs)) :
    Run gt (p.reverse ++ (m, .left) :: r) (sweepLeft m p r ++ rs) := by
  induction p generalizing r with
  | nil => simpa [sweepLeft] using h
  | cons e p ih =>
    have hpass := (Passes.left (r := r) (d := e.2) (hm e (by simp)).1).prepend p.reverse
    have hrest := ih (r := e :: r) (by simpa using hm) (by simpa using h)
    rw [List.reverse_cons, List.append_assoc] at hm ⊢
    rw [sweepLeft, List.cons_append]
    refine .next (.move (by simpa using hpass) ?_) hrest
    simpa using Tops.le (r := r) (p := p.reverse ++ [e]) (d := .left) (by simpa using hm) hirrefl

theorem run_sweep (hirrefl : ¬gt m m) (hm : Tops gt m r) (d : Direction)
    (h : Run gt (leave m d r) (leave m d r :: rs)) : Run gt (enter m d r) (sweep m d r ++ rs) := by
  cases d with
  | left =>
    have hleave : Run gt ((m, .left) :: (r.reverse.reverse ++ []))
        (((m, .left) :: (r.reverse.reverse ++ [])) :: rs) := by
      simpa [leave] using h
    have hrun := run_sweepLeft hirrefl (by simpa using hm) hleave
    simpa [enter, sweep] using hrun
  | right => exact run_sweepRight (p := []) hirrefl (by simpa using hm) (by simpa [leave] using h)

theorem Run.head (h : Run gt r rs) : ∃ s, rs = r :: s := by
  cases h with
  | last => exact ⟨_, rfl⟩
  | next => exact ⟨_, rfl⟩

/-- The largest element goes through each row of a run of the others. -/
theorem Run.weave (h : Run gt r rs) (hirrefl : ¬gt m m) (hm : ∀ s ∈ rs, Tops gt m s)
    (d : Direction) : Run gt (enter m d r) (weave m d rs) := by
  induction h generalizing d with
  | @last r hstuck =>
    have htops := hm r (by simp)
    refine run_sweep hirrefl htops d (.last ?_)
    intro z hz
    exact hstuck z (hz.of_leave htops)
  | @next r r' rs hchange hrun ih =>
    have htops := hm r (by simp)
    refine run_sweep hirrefl htops d (.next (hchange.turn htops d) ?_)
    exact ih (fun s hs => hm s (List.mem_cons_of_mem _ hs)) d.flip

end runs

theorem mem_sweepRight {p : List (α × Direction)} {t : List (α × Direction)} :
    t ∈ sweepRight m p r ↔ ∃ a b, r = a ++ b ∧ t = p ++ a ++ (m, .right) :: b := by
  induction r generalizing p with
  | nil => simp [sweepRight]
  | cons e r ih =>
    rw [sweepRight, List.mem_cons, ih]
    constructor
    · rintro (rfl | ⟨a, b, rfl, rfl⟩)
      · exact ⟨[], e :: r, rfl, by simp⟩
      · exact ⟨e :: a, b, rfl, by simp⟩
    · rintro ⟨a, b, hsplit, rfl⟩
      rcases List.cons_eq_append_iff.1 hsplit with ⟨rfl, rfl⟩ | ⟨a, rfl, rfl⟩
      · exact Or.inl (by simp)
      · exact Or.inr ⟨a, b, rfl, by simp⟩

theorem mem_sweepLeft {p : List (α × Direction)} {t : List (α × Direction)} :
    t ∈ sweepLeft m p r ↔ ∃ a b, p.reverse = a ++ b ∧ t = a ++ (m, .left) :: (b ++ r) := by
  induction p generalizing r with
  | nil => simp [sweepLeft]
  | cons e p ih =>
    rw [sweepLeft, List.mem_cons, ih, List.reverse_cons]
    constructor
    · rintro (rfl | ⟨a, b, hsplit, rfl⟩)
      · exact ⟨p.reverse ++ [e], [], by simp, by simp⟩
      · exact ⟨a, b ++ [e], by simp [hsplit], by simp⟩
    · rintro ⟨a, b, hsplit, rfl⟩
      rcases List.eq_nil_or_concat b with rfl | ⟨b, c, rfl⟩
      · obtain rfl : a = p.reverse ++ [e] := by simpa using hsplit.symm
        exact Or.inl (by simp)
      · rw [List.concat_eq_append, ← List.append_assoc] at hsplit
        obtain ⟨hfront, hlast⟩ := List.append_inj' hsplit rfl
        obtain rfl : e = c := by simpa using hlast
        exact Or.inr ⟨a, b, hfront, by simp⟩

/-- In a sweep `m` stands in each place once. -/
theorem mem_sweep {t : List (α × Direction)} :
    t ∈ sweep m d r ↔ ∃ a b, r = a ++ b ∧ t = a ++ (m, d) :: b := by
  cases d with
  | left => simp [sweep, mem_sweepLeft]
  | right => simp [sweep, mem_sweepRight]

theorem length_sweepRight (m : α) (p r : List (α × Direction)) :
    (sweepRight m p r).length = r.length + 1 := by
  induction r generalizing p with
  | nil => rfl
  | cons e r ih => rw [sweepRight, List.length_cons, ih, List.length_cons]

theorem length_sweepLeft (m : α) (p r : List (α × Direction)) :
    (sweepLeft m p r).length = p.length + 1 := by
  induction p generalizing r with
  | nil => rfl
  | cons e p ih => rw [sweepLeft, List.length_cons, ih, List.length_cons]

theorem length_sweep (m : α) (d : Direction) (r : List (α × Direction)) :
    (sweep m d r).length = r.length + 1 := by
  cases d with
  | left => rw [sweep, length_sweepLeft, List.length_reverse]
  | right => exact length_sweepRight m [] r

theorem length_weave {n : Nat} (h : ∀ r ∈ rs, r.length = n) (m : α) (d : Direction) :
    (weave m d rs).length = (n + 1) * rs.length := by
  induction rs generalizing d with
  | nil => rfl
  | cons r rs ih =>
    have hrest := ih (fun s hs => h s (List.mem_cons_of_mem _ hs)) d.flip
    rw [weave, List.length_append, length_sweep, hrest, h r (by simp), List.length_cons,
      Nat.mul_succ, Nat.add_comm]

/-- The elements of the rows of a weave: `m` is put in each place of each row. -/
theorem mem_weave : ys ∈ (weave m d rs).map (List.map Prod.fst) ↔
    ∃ a b, a ++ b ∈ rs.map (List.map Prod.fst) ∧ ys = a ++ m :: b := by
  induction rs generalizing d with
  | nil => simp [weave]
  | cons r rs ih =>
    rw [weave, List.map_append, List.mem_append, ih]
    constructor
    · rintro (h | ⟨a, b, h, rfl⟩)
      · obtain ⟨t, ht, rfl⟩ := List.mem_map.1 h
        obtain ⟨a, b, rfl, rfl⟩ := mem_sweep.1 ht
        exact ⟨a.map Prod.fst, b.map Prod.fst, by simp, by simp⟩
      · exact ⟨a, b, List.mem_cons_of_mem _ h, rfl⟩
    · rintro ⟨a, b, h, rfl⟩
      rcases List.mem_cons.1 h with h | h
      · obtain ⟨a, b, rfl, rfl, rfl⟩ := List.map_eq_append_iff.1 h.symm
        refine Or.inl (List.mem_map.2 ⟨a ++ (m, d) :: b, mem_sweep.2 ⟨a, b, rfl, rfl⟩, by simp⟩)
      · exact Or.inr ⟨a, b, h, rfl⟩

/-- The plain changes go through the permutations. -/
theorem mem_plainChanges :
    ys ∈ (plainChanges xs).map (List.map Prod.fst) ↔ ys.Perm xs := by
  induction xs generalizing ys with
  | nil => simp [plainChanges]
  | cons m xs ih =>
    rw [plainChanges, mem_weave]
    constructor
    · rintro ⟨a, b, h, rfl⟩
      exact List.perm_middle.trans ((ih.1 h).cons m)
    · intro h
      obtain ⟨a, b, rfl⟩ := List.append_of_mem (h.mem_iff.2 (List.mem_cons_self ..))
      exact ⟨a, b, ih.2 (List.perm_middle.symm.trans h).cons_inv, rfl⟩

theorem length_of_mem_plainChanges (h : r ∈ plainChanges xs) : r.length = xs.length := by
  have hperm := mem_plainChanges.1 (List.mem_map_of_mem (f := List.map Prod.fst) h)
  simpa using hperm.length_eq

theorem length_plainChanges (xs : List α) : (plainChanges xs).length = xs.length.factorial := by
  induction xs with
  | nil => rfl
  | cons m xs ih =>
    rw [plainChanges, length_weave fun _ => length_of_mem_plainChanges, ih, List.length_cons,
      Nat.factorial_succ]

/-- There are as many plain changes as permutations, so none comes twice. -/
theorem nodup_plainChanges (h : xs.Nodup) :
    ((plainChanges xs).map (List.map Prod.fst)).Nodup := by
  have hsub : xs.permutations.Subperm ((plainChanges xs).map (List.map Prod.fst)) := by
    refine List.subperm_of_subset (List.nodup_permutations xs h) ?_
    intro ys hys
    exact mem_plainChanges.2 (List.mem_permutations.1 hys)
  have hperm := hsub.perm_of_length_le (by
    rw [List.length_map, length_plainChanges, List.length_permutations])
  exact hperm.nodup_iff.1 (List.nodup_permutations xs h)

theorem Run.isChain [DecidableRel gt] (h : Run gt r rs) :
    (rs.map (List.map Prod.fst)).IsChain AdjacentSwap := by
  induction h with
  | last => exact .singleton _
  | next hchange hrun ih =>
    obtain ⟨s, rfl⟩ := hrun.head
    exact .cons_cons hchange.adjacentSwap ih

/-- From the ascending row, in which all face left, the changes go through all permutations. -/
theorem run_plainChanges [DecidableRel gt] (h : xs.Pairwise fun a b => gt a b ∧ ¬gt b a)
    (hirrefl : ∀ a, ¬gt a a) :
    Run gt (xs.reverse.map fun a => (a, .left)) (plainChanges xs) := by
  induction xs with
  | nil =>
    refine .last ?_
    rintro x ⟨_, hx⟩
    cases hx
  | cons m xs ih =>
    rw [List.pairwise_cons] at h
    have hrun := (ih h.2).weave (hirrefl m) ?_ .left
    · simpa [enter, plainChanges] using hrun
    · intro s hs e he
      have hperm := mem_plainChanges.1 (List.mem_map_of_mem (f := List.map Prod.fst) hs)
      exact h.1 e.1 (hperm.mem_iff.1 (List.mem_map_of_mem he))

end PlainChanges
