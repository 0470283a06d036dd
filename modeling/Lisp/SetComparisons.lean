import Lisp.CSet
import Lisp.Ops

/-! How often the operations of the ordered set call its comparison function. -/
namespace Lisp
open BalancedTree
variable {α : Type}

namespace CSet
open Direction

section source

/-- `lookup`, with the number of its calls of `cmp`. -/
def lookupCounted (cmp : α → α → Int) (data : α) : SetNode α → SetNode α × Nat
  | .null => (.null, 0)
  | .node l r h nr nl x =>
    let comparison := cmp x data
    if comparison = 0 then (.node l r h nr nl x, 1) else
    let (node, calls) := match getDirection comparison with
      | left => lookupCounted cmp data l
      | right => lookupCounted cmp data r
    (node, calls + 1)

/-- The loop of `set_rank`. -/
def rankCounted (cmp : α → α → Int) (data : α) : SetNode α → Int → Int × Nat
  | .null, _ => (CSET_ERROR, 0)
  | .node l r _ _ nl x, rank =>
    let comparison := cmp x data
    if comparison = 0 then (toInt (rank + nl), 1) else
    let (rank, calls) :=
      if comparison < 0 then rankCounted cmp data r (toInt (rank + (1 + nl)))
      else rankCounted cmp data l rank
    (rank, calls + 1)

/-- `insert_at` -/
def insertCounted (cmp : α → α → Int) (rounds : Nat) (data : α) :
    SetNode α → Option (SetNode α × Nat)
  | .null => some (newNode data, 0)
  | .node l r h nr nl x =>
    let node := SetNode.node l r h nr nl x
    let comparison := cmp x data
    if comparison = 0 then some (node, 1) else do
    let dir := getDirection comparison
    let (newChild, calls) ← match dir with
      | left => insertCounted cmp rounds data l
      | right => insertCounted cmp rounds data r
    let node ← balance rounds (assignChild node newChild dir)
    return (node, calls + 1)

/-- `remove_node` -/
def removeNodeCounted (rounds : Nat)
    (removeLeft : α → Option ((SetNode α × SetNode α) × Nat)) (node : SetNode α) :
    Option (SetNode α × Nat) :=
  match child node left, child node right with
  | .null, r => some (r, 0)
  | l, .null => some (l, 0)
  | l, r => do
    let next ← data? (extrema right l)
    let ((newLeft, newRoot), calls) ← removeLeft next
    let node ← balance rounds (assignChild (assignChild newRoot r right) newLeft left)
    return (node, calls)

/-- `remove_at` -/
def removeCounted (cmp : α → α → Int) (rounds : Nat) :
    SetNode α → α → Option ((SetNode α × SetNode α) × Nat)
  | .null, _ => some ((.null, .null), 0)
  | .node l r h nr nl x, data =>
    let node := SetNode.node l r h nr nl x
    let comparison := cmp x data
    if comparison = 0 then do
      let removeLeft := fun next => removeCounted cmp rounds l next
      let (rest, calls) ← removeNodeCounted rounds removeLeft node
      return ((rest, node), calls + 1)
    else do
      let dir := getDirection comparison
      let ((newChild, removed), calls) ← match dir with
        | left => removeCounted cmp rounds l data
        | right => removeCounted cmp rounds r data
      let rest ← balance rounds (assignChild node newChild dir)
      return ((rest, removed), calls + 1)

end source

section costs
variable {cmp : α → α → Int} {n l r : SetNode α} {x : α} {rounds : Nat}

/-- As many comparisons as the tree has levels, at most. -/
theorem lookupCounted_eq (cmp : α → α → Int) (x : α) (n : SetNode α) :
    ∃ k ≤ (shape n).levels, lookupCounted cmp x n = (lookup cmp x n, k) := by
  induction n with
  | null => exact ⟨0, le_rfl, rfl⟩
  | node l r h nr nl y ihl ihr =>
    obtain ⟨kl, hkl, hl⟩ := ihl
    obtain ⟨kr, hkr, hr⟩ := ihr
    unfold lookupCounted lookup
    by_cases h0 : cmp y x = 0
    · exact ⟨1, by simp [shape, SearchTree.levels], by simp [h0]⟩
    · by_cases hlt : 0 < cmp y x
      · refine ⟨kl + 1, ?_, by simp [h0, getDirection, hlt, hl]⟩
        simp only [shape, SearchTree.levels]
        omega
      · refine ⟨kr + 1, ?_, by simp [h0, getDirection, hlt, hr]⟩
        simp only [shape, SearchTree.levels]
        omega

theorem rankCounted_eq (cmp : α → α → Int) (x : α) (n : SetNode α) (rank : Int) :
    ∃ k ≤ (shape n).levels, rankCounted cmp x n rank = (rankFrom cmp x n rank, k) := by
  induction n generalizing rank with
  | null => exact ⟨0, le_rfl, rfl⟩
  | node l r h nr nl y ihl ihr =>
    obtain ⟨kl, hkl, hl⟩ := ihl rank
    obtain ⟨kr, hkr, hr⟩ := ihr (toInt (rank + (1 + nl)))
    unfold rankCounted rankFrom
    by_cases h0 : cmp y x = 0
    · exact ⟨1, by simp [shape, SearchTree.levels], by simp [h0]⟩
    · by_cases hlt : cmp y x < 0
      · refine ⟨kr + 1, ?_, by simp [h0, hlt, hr]⟩
        simp only [shape, SearchTree.levels]
        omega
      · refine ⟨kl + 1, ?_, by simp [h0, hlt, hl]⟩
        simp only [shape, SearchTree.levels]
        omega

theorem insertCounted_eq (cmp : α → α → Int) (rounds : Nat) (x : α) (n : SetNode α) :
    ∃ k ≤ (shape n).levels,
      insertCounted cmp rounds x n = (insertAt cmp rounds x n).map fun n' => (n', k) := by
  induction n with
  | null => exact ⟨0, le_rfl, rfl⟩
  | node l r h nr nl y ihl ihr =>
    obtain ⟨kl, hkl, hl⟩ := ihl
    obtain ⟨kr, hkr, hr⟩ := ihr
    unfold insertCounted insertAt
    by_cases h0 : cmp y x = 0
    · exact ⟨1, by simp [shape, SearchTree.levels], by simp [h0]⟩
    · by_cases hlt : 0 < cmp y x
      · refine ⟨kl + 1, ?_, ?_⟩
        · simp only [shape, SearchTree.levels]
          omega
        · simp [h0, getDirection, hlt, hl, Option.map_eq_bind, Option.bind_assoc]
      · refine ⟨kr + 1, ?_, ?_⟩
        · simp only [shape, SearchTree.levels]
          omega
        · simp [h0, getDirection, hlt, hr, Option.map_eq_bind, Option.bind_assoc]

theorem removeNodeCounted_eq (rounds : Nat) {removeLeft : α → Option (SetNode α × SetNode α)}
    {counted : α → Option ((SetNode α × SetNode α) × Nat)} {levels : Nat}
    (hleft : ∀ z, ∃ k ≤ levels, counted z = (removeLeft z).map fun rest => (rest, k))
    (n : SetNode α) : ∃ k ≤ levels, removeNodeCounted rounds counted n =
      (removeNode rounds removeLeft n).map fun n' => (n', k) := by
  unfold removeNodeCounted removeNode
  cases child n left with
  | null => exact ⟨0, Nat.zero_le _, rfl⟩
  | node ll lr lh lnr lnl w =>
    cases child n right with
    | null => exact ⟨0, Nat.zero_le _, rfl⟩
    | node rl rr rh rnr rnl z =>
      cases hnext : data? (extrema right (.node ll lr lh lnr lnl w)) with
      | none => exact ⟨0, Nat.zero_le _, by simp [hnext]⟩
      | some next =>
        obtain ⟨k, hk, hcounted⟩ := hleft next
        refine ⟨k, hk, ?_⟩
        simp [hnext, hcounted, Option.map_eq_bind, Option.bind_assoc]

/-- The second descent, to the greatest element on the left, begins below the node that is found. -/
theorem removeCounted_eq (cmp : α → α → Int) (rounds : Nat) (n : SetNode α) (x : α) :
    ∃ k ≤ (shape n).levels,
      removeCounted cmp rounds n x = (removeAt cmp rounds n x).map fun rest => (rest, k) := by
  induction n generalizing x with
  | null => exact ⟨0, le_rfl, rfl⟩
  | node l r h nr nl y ihl ihr =>
    unfold removeCounted removeAt
    by_cases h0 : cmp y x = 0
    · obtain ⟨k, hk, hnode⟩ := removeNodeCounted_eq rounds (fun z => ihl z)
        (.node l r h nr nl y)
      refine ⟨k + 1, ?_, by simp [h0, hnode, Option.map_eq_bind, Option.bind_assoc]⟩
      simp only [shape, SearchTree.levels]
      omega
    · obtain ⟨kl, hkl, hl⟩ := ihl x
      obtain ⟨kr, hkr, hr⟩ := ihr x
      by_cases hlt : 0 < cmp y x
      · refine ⟨kl + 1, ?_, ?_⟩
        · simp only [shape, SearchTree.levels]
          omega
        · simp [h0, getDirection, hlt, hl, Option.map_eq_bind, Option.bind_assoc]
      · refine ⟨kr + 1, ?_, ?_⟩
        · simp only [shape, SearchTree.levels]
          omega
        · simp [h0, getDirection, hlt, hr, Option.map_eq_bind, Option.bind_assoc]

end costs

section calls
variable {cmp : α → α → Int} {set : CSet α} {rounds : Nat}

/-- A number of comparisons that is logarithmic in the number of elements. -/
def Logarithmic (set : CSet α) (k : Nat) : Prop :=
  Nat.fib (k + 2) ≤ numNodes set.root + 1 ∧ 2 ^ k ≤ (numNodes set.root + 1) ^ 2

theorem Ordered.logarithmic {k : Nat} (h : Ordered cmp set) (hk : k ≤ (shape set.root).levels) :
    Logarithmic set k := by
  have hfib : Nat.fib (k + 2) ≤ numNodes set.root + 1 := by
    rw [numNodes_eq]
    exact (Nat.fib_mono (by omega)).trans (SearchTree.fib_le h.balanced)
  exact ⟨hfib, (SearchTree.two_pow_le_fib k).trans (Nat.pow_le_pow_left hfib 2)⟩

/-- After any operations, each operation of the set makes a logarithmic number of comparisons. -/
theorem runSet_comparisons (hcmp : StrictOrder cmp) (hrounds : 2 ≤ rounds) (cleanup : Bool)
    (ops : List (CSetOp α)) : ∃ set, runSet rounds (newSet cmp cleanup) ops = some set ∧ ∀ x,
      (∃ k, Logarithmic set k ∧
        lookupCounted set.cmp x set.root = (lookup set.cmp x set.root, k)) ∧
      (∃ k, Logarithmic set k ∧ rankCounted set.cmp x set.root 0 = (setRank set x, k)) ∧
      (∃ k root, Logarithmic set k ∧ insertCounted set.cmp rounds x set.root = some (root, k) ∧
        setInsert rounds set x = some { set with root := root }) ∧
      ∃ k root removed, Logarithmic set k ∧
        removeCounted set.cmp rounds set.root x = some ((root, removed), k) ∧
        setRemove rounds set x = some (disposeNode false { set with root := root } removed) := by
  obtain ⟨set, hset, hord⟩ := ordered_runSet hcmp hrounds cleanup ops
  refine ⟨set, hset, fun x => ⟨?_, ?_, ?_, ?_⟩⟩
  · obtain ⟨k, hk, heq⟩ := lookupCounted_eq set.cmp x set.root
    exact ⟨k, hord.logarithmic hk, heq⟩
  · obtain ⟨k, hk, heq⟩ := rankCounted_eq set.cmp x set.root 0
    exact ⟨k, hord.logarithmic hk, heq⟩
  · obtain ⟨k, hk, heq⟩ := insertCounted_eq set.cmp rounds x set.root
    obtain ⟨root, hroot, -, -⟩ := insertAt_sound set.cmp x hrounds hord.sound hord.balanced
    exact ⟨k, root, hord.logarithmic hk, by simp [heq, hroot], by simp [setInsert, hroot]⟩
  · obtain ⟨k, hk, heq⟩ := removeCounted_eq set.cmp rounds set.root x
    rw [hord.cmp_eq] at heq ⊢
    obtain ⟨root, removed, hroot, -⟩ := removeAt_sound (x := x) hcmp hrounds hord.sound
      hord.balanced hord.sorted
    refine ⟨k, root, removed, hord.logarithmic hk, by simp [heq, hroot], ?_⟩
    simp [setRemove, hord.cmp_eq, hroot]

theorem runSet_comparisons_remove : ∃ set k root removed,
    runSet 2 (newSet cmpInt true) [.insert 1, .insert 2, .insert 3] = some set ∧
    removeCounted set.cmp 2 set.root 2 = some ((root, removed), k) ∧
    2 ^ k ≤ (numNodes set.root + 1) ^ 2 := by
  obtain ⟨set, hset, hcalls⟩ := runSet_comparisons strictOrder_cmpInt (by decide : 2 ≤ 2) true
    [.insert 1, .insert 2, .insert 3]
  obtain ⟨-, -, -, k, root, removed, hk, hremove, -⟩ := hcalls 2
  exact ⟨set, k, root, removed, hset, hremove, hk.2⟩

end calls
end CSet
end Lisp
