import Mathlib.Data.Nat.Fib.Basic
import Mathlib.Tactic.Tauto

/-! Search trees in which the heights of two siblings differ by at most one. A comparison
returns a negative number, zero or a positive number. -/
namespace BalancedTree
variable {α : Type}

inductive SearchTree (α : Type) where
  | nil
  | node (left : SearchTree α) (data : α) (right : SearchTree α)

/-- The comparison is a strict total order. -/
structure StrictOrder (cmp : α → α → Int) : Prop where
  eq_zero : ∀ a b, cmp a b = 0 ↔ a = b
  swap : ∀ a b, cmp a b < 0 ↔ 0 < cmp b a
  trans : ∀ a b c, cmp a b < 0 → cmp b c < 0 → cmp a c < 0

theorem StrictOrder.irrefl {cmp : α → α → Int} (hcmp : StrictOrder cmp) (x : α) :
    ¬cmp x x < 0 := by
  rw [(hcmp.eq_zero x x).2 rfl]
  exact Int.lt_irrefl 0

/-- The order of the integers. -/
theorem strictOrder_sub : StrictOrder fun a b : Int => a - b := by
  constructor
  case eq_zero => exact fun a b => Int.sub_eq_zero
  case swap => exact fun a b => ⟨fun h => by omega, fun h => by omega⟩
  case trans => exact fun a b c h1 h2 => by omega

namespace SearchTree

/-- The elements from left to right. -/
def toList : SearchTree α → List α
  | nil => []
  | node l x r => l.toList ++ x :: r.toList

def levels : SearchTree α → Nat
  | nil => 0
  | node l _ r => max l.levels r.levels + 1

def Balanced : SearchTree α → Prop
  | nil => True
  | node l _ r => l.levels ≤ r.levels + 1 ∧ r.levels ≤ l.levels + 1 ∧ l.Balanced ∧ r.Balanced

/-- Each element is smaller than those to its right. -/
def Sorted (cmp : α → α → Int) (t : SearchTree α) : Prop := t.toList.Pairwise fun a b => cmp a b < 0

def rotateRight : SearchTree α → SearchTree α
  | node (node ll y lr) x r => node ll y (node lr x r)
  | t => t

def rotateLeft : SearchTree α → SearchTree α
  | node l x (node rl y rr) => node (node l x rl) y rr
  | t => t

def leansLeft : SearchTree α → Bool
  | node l _ r => decide (r.levels < l.levels)
  | nil => false

def leansRight : SearchTree α → Bool
  | node l _ r => decide (l.levels < r.levels)
  | nil => false

/-- A node over two trees whose levels differ by two at most, after rotations. -/
def balance (l : SearchTree α) (x : α) (r : SearchTree α) : SearchTree α :=
  if r.levels + 1 < l.levels then
    rotateRight (node (if l.leansRight then rotateLeft l else l) x r)
  else if l.levels + 1 < r.levels then
    rotateLeft (node l x (if r.leansLeft then rotateRight r else r))
  else node l x r

def insert (cmp : α → α → Int) (x : α) : SearchTree α → SearchTree α
  | nil => node nil x nil
  | node l y r =>
    if cmp y x = 0 then node l y r
    else if 0 < cmp y x then balance (insert cmp x l) y r
    else balance l y (insert cmp x r)

/-- The last element. -/
def last? : SearchTree α → Option α
  | nil => none
  | node _ x nil => some x
  | node _ _ (node l x r) => last? (node l x r)

/-- The last element of the left subtree takes the place of the one that is erased. -/
def erase (cmp : α → α → Int) (x : α) : SearchTree α → SearchTree α
  | nil => nil
  | node l y r =>
    if cmp y x = 0 then
      match l.last?, r with
      | none, r => r
      | some _, nil => l
      | some z, r => balance (erase cmp z l) z r
    else if 0 < cmp y x then balance (erase cmp x l) y r
    else balance l y (erase cmp x r)

variable {cmp : α → α → Int} {l r t : SearchTree α} {x y z : α}

/-- A tree of a given height is not small. -/
theorem fib_le (ht : t.Balanced) : Nat.fib (t.levels + 2) ≤ t.toList.length + 1 := by
  induction t with
  | nil => simp [levels, toList]
  | node l x r ihl ihr =>
    obtain ⟨h1, h2, hl, hr⟩ := ht
    have hl' := ihl hl
    have hr' := ihr hr
    have hsize : (node l x r).toList.length = l.toList.length + r.toList.length + 1 := by
      simp only [toList, List.length_append, List.length_cons]
      omega
    have hfib : Nat.fib (max l.levels r.levels + 3) =
        Nat.fib (max l.levels r.levels + 1) + Nat.fib (max l.levels r.levels + 2) :=
      Nat.fib_add_two
    show Nat.fib (max l.levels r.levels + 3) ≤ _
    rcases Nat.le_total l.levels r.levels with h | h
    · have hmono : Nat.fib (r.levels + 1) ≤ Nat.fib (l.levels + 2) := Nat.fib_mono (by omega)
      rw [Nat.max_eq_right h] at hfib ⊢
      omega
    · have hmono : Nat.fib (l.levels + 1) ≤ Nat.fib (r.levels + 2) := Nat.fib_mono (by omega)
      rw [Nat.max_eq_left h] at hfib ⊢
      omega

/-- Two levels more double a Fibonacci number. -/
theorem two_pow_le_fib (k : Nat) : 2 ^ k ≤ Nat.fib (k + 2) ^ 2 := by
  induction k using Nat.twoStepInduction with
  | zero => decide
  | one => decide
  | more k ih _ =>
    have hfib : Nat.fib (k + 2 + 2) = Nat.fib (k + 2) + Nat.fib (k + 2 + 1) := Nat.fib_add_two
    have hmono : Nat.fib (k + 2) ≤ Nat.fib (k + 2 + 1) := Nat.fib_mono (Nat.le_succ _)
    calc 2 ^ (k + 2) = 2 ^ 2 * 2 ^ k := by rw [Nat.pow_add, Nat.mul_comm]
      _ ≤ 2 ^ 2 * Nat.fib (k + 2) ^ 2 := Nat.mul_le_mul_left _ ih
      _ = (2 * Nat.fib (k + 2)) ^ 2 := (Nat.mul_pow _ _ _).symm
      _ ≤ Nat.fib (k + 2 + 2) ^ 2 := Nat.pow_le_pow_left (by omega) 2

section balance

theorem toList_rotateRight (t : SearchTree α) : t.rotateRight.toList = t.toList := by
  unfold rotateRight
  split
  · simp [toList]
  · rfl

theorem toList_rotateLeft (t : SearchTree α) : t.rotateLeft.toList = t.toList := by
  unfold rotateLeft
  split
  · simp [toList]
  · rfl

theorem toList_balance : (balance l x r).toList = l.toList ++ x :: r.toList := by
  unfold balance
  split_ifs
  · rw [toList_rotateRight, toList, toList_rotateLeft]
  · rw [toList_rotateRight, toList]
  · rw [toList_rotateLeft, toList, toList_rotateRight]
  · rw [toList_rotateLeft, toList]
  · rw [toList]

/-- What balancing makes of two balanced trees. -/
structure Rebalanced (l r t : SearchTree α) : Prop where
  balanced : t.Balanced
  lower : max l.levels r.levels ≤ t.levels
  upper : t.levels ≤ max l.levels r.levels + 1
  level : l.levels ≤ r.levels + 1 → r.levels ≤ l.levels + 1 →
    t.levels = max l.levels r.levels + 1

/-- The left tree is higher by two. -/
theorem rebalanced_right (hl : l.Balanced) (hr : r.Balanced) (h : l.levels = r.levels + 2) :
    Rebalanced l r (rotateRight (node (if l.leansRight then rotateLeft l else l) x r)) := by
  cases l with
  | nil => simp [levels] at h
  | node ll y lr =>
    obtain ⟨h1, h2, hll, hlr⟩ := hl
    simp only [levels] at h
    by_cases hlean : ll.levels < lr.levels
    · -- The inner grandchild comes to the top.
      cases lr with
      | nil => simp [levels] at hlean
      | node lrl z lrr =>
        obtain ⟨h3, h4, hlrl, hlrr⟩ := hlr
        simp only [levels] at h h1 h2 hlean
        simp only [leansRight, levels, hlean, decide_true, if_true, rotateLeft, rotateRight]
        constructor
        case balanced => exact ⟨by simp only [levels]; omega, by simp only [levels]; omega,
          ⟨by omega, by omega, hll, hlrl⟩, by omega, by omega, hlrr, hr⟩
        all_goals
          simp only [levels]
          omega
    · simp only [leansRight, hlean, decide_false, Bool.false_eq_true, if_false, rotateRight]
      constructor
      case balanced => exact ⟨by simp only [levels]; omega, by simp only [levels]; omega, hll,
        by omega, by omega, hlr, hr⟩
      all_goals
        simp only [levels]
        omega

/-- The right tree is higher by two. -/
theorem rebalanced_left (hl : l.Balanced) (hr : r.Balanced) (h : r.levels = l.levels + 2) :
    Rebalanced l r (rotateLeft (node l x (if r.leansLeft then rotateRight r else r))) := by
  cases r with
  | nil => simp [levels] at h
  | node rl y rr =>
    obtain ⟨h1, h2, hrl, hrr⟩ := hr
    simp only [levels] at h
    by_cases hlean : rr.levels < rl.levels
    · -- The inner grandchild comes to the top.
      cases rl with
      | nil => simp [levels] at hlean
      | node rll z rlr =>
        obtain ⟨h3, h4, hrll, hrlr⟩ := hrl
        simp only [levels] at h h1 h2 hlean
        simp only [leansLeft, levels, hlean, decide_true, if_true, rotateLeft, rotateRight]
        constructor
        case balanced => exact ⟨by simp only [levels]; omega, by simp only [levels]; omega,
          ⟨by omega, by omega, hl, hrll⟩, by omega, by omega, hrlr, hrr⟩
        all_goals
          simp only [levels]
          omega
    · simp only [leansLeft, hlean, decide_false, Bool.false_eq_true, if_false, rotateLeft]
      constructor
      case balanced => exact ⟨by simp only [levels]; omega, by simp only [levels]; omega,
        ⟨by omega, by omega, hl, hrl⟩, hrr⟩
      all_goals
        simp only [levels]
        omega

theorem rebalanced_balance (hl : l.Balanced) (hr : r.Balanced) (h1 : l.levels ≤ r.levels + 2)
    (h2 : r.levels ≤ l.levels + 2) : Rebalanced l r (balance l x r) := by
  unfold balance
  by_cases hleft : r.levels + 1 < l.levels
  · rw [if_pos hleft]
    exact rebalanced_right hl hr (by omega)
  · rw [if_neg hleft]
    by_cases hright : l.levels + 1 < r.levels
    · rw [if_pos hright]
      exact rebalanced_left hl hr (by omega)
    · rw [if_neg hright]
      constructor
      case balanced => exact ⟨by omega, by omega, hl, hr⟩
      case lower => exact Nat.le_succ _
      case upper => exact Nat.le_refl _
      case level => exact fun _ _ => rfl

end balance

section search
variable (hcmp : StrictOrder cmp)

include hcmp in
/-- A tree is sorted if its subtrees are, with the element of the root between them. -/
theorem sorted_node : Sorted cmp (node l x r) ↔ Sorted cmp l ∧ Sorted cmp r ∧
    (∀ a ∈ l.toList, cmp a x < 0) ∧ ∀ b ∈ r.toList, cmp x b < 0 := by
  simp only [Sorted, toList, List.pairwise_append, List.pairwise_cons, List.mem_cons]
  constructor
  · rintro ⟨hl, ⟨hxr, hr⟩, hlr⟩
    exact ⟨hl, hr, fun a ha => hlr a ha x (Or.inl rfl), hxr⟩
  · rintro ⟨hl, hr, hlx, hxr⟩
    refine ⟨hl, ⟨hxr, hr⟩, fun a ha b hb => ?_⟩
    rcases hb with rfl | hb
    · exact hlx a ha
    · exact hcmp.trans _ _ _ (hlx a ha) (hxr b hb)

theorem sorted_balance : Sorted cmp (balance l x r) ↔ Sorted cmp (node l x r) := by
  rw [Sorted, toList_balance, Sorted, toList]

theorem mem_balance : y ∈ (balance l x r).toList ↔ y ∈ l.toList ∨ y = x ∨ y ∈ r.toList := by
  rw [toList_balance, List.mem_append, List.mem_cons]

theorem mem_node : y ∈ (node l x r).toList ↔ y ∈ l.toList ∨ y = x ∨ y ∈ r.toList := by
  rw [toList, List.mem_append, List.mem_cons]

include hcmp

theorem mem_insert : y ∈ (insert cmp x t).toList ↔ y = x ∨ y ∈ t.toList := by
  induction t with
  | nil => simp [insert, toList]
  | node l z r ihl ihr =>
    unfold insert
    by_cases h0 : cmp z x = 0
    · obtain rfl := (hcmp.eq_zero z x).1 h0
      rw [if_pos h0, mem_node]
      tauto
    · rw [if_neg h0]
      by_cases hlt : 0 < cmp z x
      · rw [if_pos hlt, mem_balance, mem_node, ihl]
        tauto
      · rw [if_neg hlt, mem_balance, mem_node, ihr]
        tauto

theorem sorted_insert (ht : Sorted cmp t) : Sorted cmp (insert cmp x t) := by
  induction t with
  | nil => simp [insert, Sorted, toList]
  | node l z r ihl ihr =>
    obtain ⟨hl, hr, hlz, hzr⟩ := (sorted_node hcmp).1 ht
    unfold insert
    by_cases h0 : cmp z x = 0
    · rw [if_pos h0]
      exact ht
    · rw [if_neg h0]
      by_cases hlt : 0 < cmp z x
      · rw [if_pos hlt, sorted_balance, sorted_node hcmp]
        refine ⟨ihl hl, hr, fun a ha => ?_, hzr⟩
        rcases (mem_insert hcmp).1 ha with rfl | ha
        · exact (hcmp.swap a z).2 hlt
        · exact hlz a ha
      · rw [if_neg hlt, sorted_balance, sorted_node hcmp]
        refine ⟨hl, ihr hr, hlz, fun a ha => ?_⟩
        rcases (mem_insert hcmp).1 ha with rfl | ha
        · omega
        · exact hzr a ha

omit hcmp in
theorem balanced_insert (cmp : α → α → Int) (x : α) (ht : t.Balanced) : (insert cmp x t).Balanced ∧
    t.levels ≤ (insert cmp x t).levels ∧ (insert cmp x t).levels ≤ t.levels + 1 := by
  induction t with
  | nil => simp [insert, Balanced, levels]
  | node l z r ihl ihr =>
    obtain ⟨h1, h2, hl, hr⟩ := ht
    unfold insert
    by_cases h0 : cmp z x = 0
    · rw [if_pos h0]
      exact ⟨⟨h1, h2, hl, hr⟩, Nat.le_refl _, Nat.le_succ _⟩
    · rw [if_neg h0]
      by_cases hlt : 0 < cmp z x
      · rw [if_pos hlt]
        obtain ⟨hb, hlow, hup⟩ := ihl hl
        have hreb := rebalanced_balance (x := z) hb hr (by omega) (by omega)
        have h3 := hreb.lower
        have h4 := hreb.upper
        have h5 := hreb.level
        refine ⟨hreb.balanced, ?_, ?_⟩
        · simp only [levels]
          omega
        · simp only [levels]
          omega
      · rw [if_neg hlt]
        obtain ⟨hb, hlow, hup⟩ := ihr hr
        have hreb := rebalanced_balance (x := z) hl hb (by omega) (by omega)
        have h3 := hreb.lower
        have h4 := hreb.upper
        have h5 := hreb.level
        refine ⟨hreb.balanced, ?_, ?_⟩
        · simp only [levels]
          omega
        · simp only [levels]
          omega

omit hcmp in
theorem last?_eq_getLast? (t : SearchTree α) : t.last? = t.toList.getLast? := by
  induction t with
  | nil => rfl
  | node l x r _ ihr =>
    cases r with
    | nil => simp [last?, toList]
    | node rl y rr =>
      have hsplit : (node l x (node rl y rr)).toList =
          (l.toList ++ [x]) ++ (node rl y rr).toList := by
        simp [toList]
      have hne : (node rl y rr).toList ≠ [] := by simp [toList]
      rw [last?, ihr, hsplit, List.getLast?_append_of_ne_nil _ hne]

omit hcmp in
theorem last?_eq_none : t.last? = none ↔ t = nil := by
  cases t with
  | nil => simp [last?]
  | node l x r => simp [last?_eq_getLast?, toList]

omit hcmp in
/-- The last element is the greatest. -/
theorem mem_last? (ht : Sorted cmp t) (hz : t.last? = some z) :
    y ∈ t.toList ↔ y = z ∨ y ∈ t.toList ∧ cmp y z < 0 := by
  rw [last?_eq_getLast?, List.getLast?_eq_some_iff] at hz
  obtain ⟨front, hfront⟩ := hz
  rw [Sorted, hfront, List.pairwise_append] at ht
  obtain ⟨-, -, hlt⟩ := ht
  rw [hfront]
  constructor
  · intro hy
    rcases List.mem_append.1 hy with h | h
    · exact Or.inr ⟨hy, hlt y h z List.mem_cons_self⟩
    · exact Or.inl (List.mem_singleton.1 h)
  · rintro (rfl | ⟨hy, -⟩)
    · exact List.mem_append_right _ List.mem_cons_self
    · exact hy

/-- The greatest element between two sorted trees. -/
theorem sorted_last? (ht : Sorted cmp (node l x r)) (hz : l.last? = some z) :
    cmp z x < 0 ∧ ∀ b ∈ r.toList, cmp z b < 0 := by
  obtain ⟨hl, hr, hlx, hxr⟩ := (sorted_node hcmp).1 ht
  have hzx : cmp z x < 0 := hlx z ((mem_last? hl hz).2 (Or.inl rfl))
  exact ⟨hzx, fun b hb => hcmp.trans _ _ _ hzx (hxr b hb)⟩

omit hcmp in
/-- The three ways of taking out the root. -/
theorem erase_root (h : cmp y x = 0) :
    l = nil ∧ erase cmp x (node l y r) = r ∨ r = nil ∧ erase cmp x (node l y r) = l ∨
      ∃ z, l.last? = some z ∧ erase cmp x (node l y r) = balance (erase cmp z l) z r := by
  cases hz : l.last? with
  | none => exact Or.inl ⟨last?_eq_none.1 hz, by simp [erase, h, hz]⟩
  | some z =>
    cases r with
    | nil => exact Or.inr (Or.inl ⟨rfl, by simp [erase, h, hz]⟩)
    | node rl w rr => exact Or.inr (Or.inr ⟨z, rfl, by simp [erase, h, hz]⟩)

theorem mem_erase (ht : Sorted cmp t) :
    y ∈ (erase cmp x t).toList ↔ y ∈ t.toList ∧ y ≠ x := by
  induction t generalizing x with
  | nil => simp [erase, toList]
  | node l w r ihl ihr =>
    obtain ⟨hl, hr, hlw, hwr⟩ := (sorted_node hcmp).1 ht
    have hirr := hcmp.irrefl
    by_cases h0 : cmp w x = 0
    · obtain rfl := (hcmp.eq_zero w x).1 h0
      have hne : ∀ a, a ∈ l.toList ∨ a ∈ r.toList → a ≠ w := by
        rintro a (ha | ha) rfl
        · exact hirr a (hlw a ha)
        · exact hirr a (hwr a ha)
      have hside : y ∈ (node l w r).toList ∧ y ≠ w ↔ y ∈ l.toList ∨ y ∈ r.toList := by
        rw [mem_node]
        constructor
        · tauto
        · intro h
          exact ⟨by tauto, hne y h⟩
      rw [hside]
      rcases erase_root (l := l) (r := r) h0 with ⟨rfl, h⟩ | ⟨rfl, h⟩ | ⟨z, hz, h⟩
      · simp [h, toList]
      · simp [h, toList]
      · have hmax := mem_last? (y := y) hl hz
        rw [h, mem_balance, ihl hl]
        have hlt : y ∈ l.toList ∧ cmp y z < 0 → y ≠ z := by
          rintro ⟨-, h⟩ rfl
          exact hirr y h
        grind
    · have hwx : w ≠ x := fun h => h0 ((hcmp.eq_zero w x).2 h)
      by_cases hlt : 0 < cmp w x
      · have hxw : cmp x w < 0 := (hcmp.swap x w).2 hlt
        have hxr : y ∈ r.toList → y ≠ x := by
          rintro hy rfl
          exact hirr w (hcmp.trans _ _ _ (hwr y hy) hxw)
        unfold erase
        rw [if_neg h0, if_pos hlt, mem_balance, mem_node, ihl hl]
        have : y = w → y ≠ x := fun h => h ▸ hwx
        grind
      · have hxl : y ∈ l.toList → y ≠ x := by
          rintro hy rfl
          have := hlw y hy
          rw [hcmp.swap] at this
          exact hlt this
        unfold erase
        rw [if_neg h0, if_neg hlt, mem_balance, mem_node, ihr hr]
        have : y = w → y ≠ x := fun h => h ▸ hwx
        grind

theorem sorted_erase (ht : Sorted cmp t) : Sorted cmp (erase cmp x t) := by
  induction t generalizing x with
  | nil => exact ht
  | node l w r ihl ihr =>
    obtain ⟨hl, hr, hlw, hwr⟩ := (sorted_node hcmp).1 ht
    by_cases h0 : cmp w x = 0
    · rcases erase_root (l := l) (r := r) h0 with ⟨rfl, h⟩ | ⟨rfl, h⟩ | ⟨z, hz, h⟩
      · rwa [h]
      · rwa [h]
      · rw [h, sorted_balance, sorted_node hcmp]
        refine ⟨ihl hl, hr, fun a ha => ?_, (sorted_last? hcmp ht hz).2⟩
        obtain ⟨ha, hne⟩ := (mem_erase hcmp hl).1 ha
        rcases (mem_last? hl hz).1 ha with h | ⟨-, h⟩
        · exact absurd h hne
        · exact h
    · by_cases hlt : 0 < cmp w x
      · unfold erase
        rw [if_neg h0, if_pos hlt, sorted_balance, sorted_node hcmp]
        exact ⟨ihl hl, hr, fun a ha => hlw a ((mem_erase hcmp hl).1 ha).1, hwr⟩
      · unfold erase
        rw [if_neg h0, if_neg hlt, sorted_balance, sorted_node hcmp]
        exact ⟨hl, ihr hr, hlw, fun a ha => hwr a ((mem_erase hcmp hr).1 ha).1⟩

omit hcmp in
/-- A subtree loses at most one level. -/
theorem balanced_erase (cmp : α → α → Int) (x : α) (ht : t.Balanced) : (erase cmp x t).Balanced ∧
    (erase cmp x t).levels ≤ t.levels ∧ t.levels ≤ (erase cmp x t).levels + 1 := by
  induction t generalizing x with
  | nil => exact ⟨ht, Nat.le_refl _, Nat.le_succ _⟩
  | node l w r ihl ihr =>
    obtain ⟨h1, h2, hl, hr⟩ := ht
    have hleft : ∀ z v, (balance (erase cmp z l) v r).Balanced ∧
        (balance (erase cmp z l) v r).levels ≤ (node l w r).levels ∧
        (node l w r).levels ≤ (balance (erase cmp z l) v r).levels + 1 := by
      intro z v
      obtain ⟨hb, hlow, hup⟩ := ihl z hl
      have hreb := rebalanced_balance (x := v) hb hr (by omega) (by omega)
      have h3 := hreb.lower
      have h4 := hreb.upper
      have h5 := hreb.level
      refine ⟨hreb.balanced, ?_, ?_⟩
      · simp only [levels]
        omega
      · simp only [levels]
        omega
    by_cases h0 : cmp w x = 0
    · rcases erase_root (l := l) (r := r) h0 with ⟨rfl, h⟩ | ⟨rfl, h⟩ | ⟨z, hz, h⟩
      · rw [h]
        simp only [levels] at *
        exact ⟨hr, by omega, by omega⟩
      · rw [h]
        simp only [levels] at *
        exact ⟨hl, by omega, by omega⟩
      · rw [h]
        exact hleft z z
    · by_cases hlt : 0 < cmp w x
      · unfold erase
        rw [if_neg h0, if_pos hlt]
        exact hleft x w
      · unfold erase
        rw [if_neg h0, if_neg hlt]
        obtain ⟨hb, hlow, hup⟩ := ihr x hr
        have hreb := rebalanced_balance (x := w) hl hb (by omega) (by omega)
        have h3 := hreb.lower
        have h4 := hreb.upper
        have h5 := hreb.level
        refine ⟨hreb.balanced, ?_, ?_⟩
        · simp only [levels]
          omega
        · simp only [levels]
          omega

end search
end SearchTree
end BalancedTree
