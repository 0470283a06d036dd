import Lisp.PackedDirections
import Lisp.PermuterTermination

/-! The calls of a permuter on its memory. Each does with bytes and bits what the call on values
does. -/
namespace Lisp
open Packing PlainChanges
variable {α : Type} {n elemSize : Nat}

/-- A call on a permuter. -/
inductive PermuterOp where
  | next
  | reset

namespace Permuter
variable {p : Permuter α n} {cmp : α → α → Int} {qsort : (α → α → Int) → Vector α n → Vector α n}
  {xs : List α}

/-- A call, after those that have returned the arrangements of a list. -/
def step (qsort : (α → α → Int) → Vector α n → Vector α n)
    (s : List (Option (Vector α n)) × Permuter α n) :
    PermuterOp → Option (List (Option (Vector α n)) × Permuter α n)
  | .next => do
    let (ret, p) ← nextPermutation s.2
    return (s.1 ++ [ret], p)
  | .reset => some (s.1, resetPermuter qsort s.2)

def run (qsort : (α → α → Int) → Vector α n → Vector α n) (p : Permuter α n)
    (ops : List PermuterOp) : Option (List (Option (Vector α n)) × Permuter α n) :=
  ops.foldlM (step qsort) ([], p)

/-- What holds between two calls. -/
structure Arranges (cmp : α → α → Int) (xs : List α)
    (s : List (Option (Vector α n)) × Permuter α n) : Prop where
  order : s.2.cmp = cmp
  elems : s.2.elems.toList.Perm xs
  seen : ∀ v, some v ∈ s.1 → v.toList.Perm xs

theorem Arranges.step {s : List (Option (Vector α n)) × Permuter α n} (hcmp : TotalPreorder cmp)
    (hqsort : Sorts qsort cmp) (h : Arranges cmp xs s) (op : PermuterOp) :
    ∃ s', Permuter.step qsort s op = some s' ∧ Arranges cmp xs s' := by
  obtain ⟨rets, p⟩ := s
  obtain ⟨rfl, helems, hseen⟩ := h
  cases op with
  | next =>
    rcases nextPermutation_cases hcmp with hnext | ⟨q, x, r, hnext, hpass, hq, hcmp'⟩
    · refine ⟨(rets ++ [none], p), by simp [Permuter.step, hnext], rfl, helems, fun v hv => ?_⟩
      rcases List.mem_append.1 hv with hv | hv
      · exact hseen v hv
      · cases List.mem_singleton.1 hv
    · have helems' : q.elems.toList.Perm xs := by
        have hrow : ((facing p).map Prod.fst).Perm xs := by rwa [facing_fst]
        rw [← facing_fst, hq, turned_fst]
        exact (hpass.perm.map Prod.fst).symm.trans hrow
      refine ⟨(rets ++ [some q.elems], q), by simp [Permuter.step, hnext], hcmp', helems',
        fun v hv => ?_⟩
      rcases List.mem_append.1 hv with hv | hv
      · exact hseen v hv
      · obtain rfl := Option.some.inj (List.mem_singleton.1 hv)
        exact helems'
  | reset => exact ⟨_, rfl, rfl, (hqsort p.elems).1.trans helems, hseen⟩

theorem Arranges.run {s : List (Option (Vector α n)) × Permuter α n} (hcmp : TotalPreorder cmp)
    (hqsort : Sorts qsort cmp) (h : Arranges cmp xs s) (ops : List PermuterOp) :
    ∃ s', ops.foldlM (Permuter.step qsort) s = some s' ∧ Arranges cmp xs s' := by
  induction ops generalizing s with
  | nil => exact ⟨s, rfl, h⟩
  | cons op ops ih =>
    obtain ⟨s₁, hstep, h₁⟩ := h.step hcmp hqsort op
    obtain ⟨s₂, hrun, h₂⟩ := ih h₁
    exact ⟨s₂, by rw [List.foldlM_cons, hstep]; exact hrun, h₂⟩

end Permuter

namespace PackedPermuter

section source

/-- `compare`, which asserts that both indices are in range. -/
def compare (p : PackedPermuter n elemSize) (i j : Int) : Option Int := do
  if !(0 ≤ i && i < n) then none
  if !(0 ≤ j && j < n) then none
  let elemI ← readAt p.elems (← permuterIth elemSize i) elemSize
  let elemJ ← readAt p.elems (← permuterIth elemSize j) elemSize
  return p.cmp elemI elemJ

def isMobile (p : PackedPermuter n elemSize) (i : Int) : Option Bool := do
  let dir ← p.ithDirection i
  if dir = .left then
    if 0 < i then return decide (0 < (← p.compare i (i - 1))) else return false
  else
    if i < n - 1 then return decide (0 < (← p.compare i (i + 1))) else return false

/-- One round of the loop of `find_largest_mobile`. -/
def largerMobile (p : PackedPermuter n elemSize) (maxMobileIdx : Int) (i : Nat) : Option Int := do
  if !(← p.isMobile i) then return maxMobileIdx else
  if maxMobileIdx = -1 then return i else
  return if 0 < (← p.compare i maxMobileIdx) then i else maxMobileIdx

def findLargestMobile (p : PackedPermuter n elemSize) : Option Int :=
  (List.range n).foldlM p.largerMobile (-1)

/-- One round of the loop of `next_permutation`. -/
def flipIfLarger (charSigned : Bool) (maxMobileIdx : Int) (p : PackedPermuter n elemSize)
    (i : Nat) : Option (PackedPermuter n elemSize) := do
  if 0 < (← p.compare i maxMobileIdx) then p.flipIthDirection charSigned i else return p

def flipLarger (charSigned : Bool) (p : PackedPermuter n elemSize) (maxMobileIdx : Int) :
    Option (PackedPermuter n elemSize) :=
  (List.range n).foldlM (flipIfLarger charSigned maxMobileIdx) p

def swapAdjacent (charSigned : Bool) (p : PackedPermuter n elemSize) (i : Int)
    (dir : Permuter.Direction) : Option (PackedPermuter n elemSize) := do
  if !(0 ≤ i && i < n) then none
  let adjacent := if dir = .left then i - 1 else i + 1
  p.swap charSigned i adjacent

def swapFacing (charSigned : Bool) (p : PackedPermuter n elemSize) (i : Int) :
    Option (PackedPermuter n elemSize) := do
  if !(0 ≤ i && i < n) then none
  p.swapAdjacent charSigned i (← p.ithDirection i)

/-- `next_permutation`, with the bytes that the returned pointer leads to. -/
def nextPermutation (charSigned : Bool) (p : PackedPermuter n elemSize) :
    Option (Option (Vector (BitVec 8) (n * elemSize)) × PackedPermuter n elemSize) := do
  let maxMobileIdx ← p.findLargestMobile
  if maxMobileIdx < 0 then return (none, p) else
  let p ← p.flipLarger charSigned maxMobileIdx
  let p ← p.swapFacing charSigned maxMobileIdx
  let p := { p with index := toInt (p.index + 1) }
  return (some p.elems, p)

def resetDirections (p : PackedPermuter n elemSize) : Option (PackedPermuter n elemSize) :=
  (List.range (directionArrLen n)).foldlM (fun p (i : Nat) => p.storeByte i 0) p

/-- The elements in an array of bytes. -/
def elements (v : Vector (BitVec 8) (n * elemSize)) : Vector (Vector (BitVec 8) elemSize) n :=
  Vector.ofFn (element v)

/-- `reset_permuter`, with the `qsort` of the C library, which moves whole elements. -/
def resetPermuter (qsort : (Vector (BitVec 8) elemSize → Vector (BitVec 8) elemSize → Int) →
    Vector (Vector (BitVec 8) elemSize) n → Vector (Vector (BitVec 8) elemSize) n)
    (p : PackedPermuter n elemSize) : Option (PackedPermuter n elemSize) := do
  let p := { p with elems := (qsort p.cmp (elements p.elems)).flatten }
  let p ← p.resetDirections
  return { p with index := 0 }

/-- `new_permuter`. The memory that is allocated may contain anything. -/
def newPermuter (qsort : (Vector (BitVec 8) elemSize → Vector (BitVec 8) elemSize → Int) →
    Vector (Vector (BitVec 8) elemSize) n → Vector (Vector (BitVec 8) elemSize) n)
    (memory : PackedPermuter n elemSize) (elems : Vector (BitVec 8) (n * elemSize))
    (cmp : Vector (BitVec 8) elemSize → Vector (BitVec 8) elemSize → Int) :
    Option (PackedPermuter n elemSize) :=
  resetPermuter qsort { memory with elems := elems, cmp := cmp }

/-- `cmp_char`, for elements of one byte. -/
def cmpChar (charSigned : Bool) (char1 char2 : Vector (BitVec 8) 1) : Int :=
  (promoteChar charSigned char1[0]).toInt - (promoteChar charSigned char2[0]).toInt

/-- A call, after those that have returned the arrangements of a list. -/
def step (charSigned : Bool)
    (qsort : (Vector (BitVec 8) elemSize → Vector (BitVec 8) elemSize → Int) →
      Vector (Vector (BitVec 8) elemSize) n → Vector (Vector (BitVec 8) elemSize) n)
    (s : List (Option (Vector (BitVec 8) (n * elemSize))) × PackedPermuter n elemSize) :
    PermuterOp →
      Option (List (Option (Vector (BitVec 8) (n * elemSize))) × PackedPermuter n elemSize)
  | .next => do
    let (ret, p) ← s.2.nextPermutation charSigned
    return (s.1 ++ [ret], p)
  | .reset => do
    let p ← s.2.resetPermuter qsort
    return (s.1, p)

def run (charSigned : Bool)
    (qsort : (Vector (BitVec 8) elemSize → Vector (BitVec 8) elemSize → Int) →
      Vector (Vector (BitVec 8) elemSize) n → Vector (Vector (BitVec 8) elemSize) n)
    (p : PackedPermuter n elemSize) (ops : List PermuterOp) :
    Option (List (Option (Vector (BitVec 8) (n * elemSize))) × PackedPermuter n elemSize) :=
  ops.foldlM (step charSigned qsort) ([], p)

end source

variable {charSigned : Bool}
  {qsort : (Vector (BitVec 8) elemSize → Vector (BitVec 8) elemSize → Int) →
    Vector (Vector (BitVec 8) elemSize) n → Vector (Vector (BitVec 8) elemSize) n}

section search

theorem compare_unpack (p : PackedPermuter n elemSize) (i j : Fin n) :
    p.compare i j = some (p.unpack.compare i j) := by
  simp only [compare, asserted, Bool.not_true, Bool.false_eq_true, if_false, Option.pure_def,
    Option.bind_eq_bind, Option.bind_some, permuterIth_natCast, readAt_element]
  rw [Permuter.compare, Permuter.permuterIth, Permuter.permuterIth, get_unpack, get_unpack]
  rfl

theorem isMobile_unpack (p : PackedPermuter n elemSize) (i : Fin n) :
    p.isMobile i = some (p.unpack.isMobile i) := by
  rw [isMobile, ithDirection_unpack, Option.bind_eq_bind, Option.bind_some, Permuter.isMobile]
  cases p.unpack.ithDirection i with
  | left =>
    by_cases hi : 0 < i.val
    · have hpos : (0 : Int) < (i : Nat) := by omega
      have hprev : p.compare i (i - 1) = some (p.unpack.compare i ⟨i - 1, by omega⟩) := by
        rw [← compare_unpack]
        congr 1
        simp only
        omega
      simp only [hi, hpos, if_true, dif_pos, hprev]
      rfl
    · have hpos : ¬(0 : Int) < (i : Nat) := by omega
      simp only [hi, hpos, if_true, if_false, dif_neg, not_false_eq_true]
      rfl
  | right =>
    by_cases hi : i.val < n - 1
    · have hlast : ((i : Nat) : Int) < n - 1 := by omega
      have hnext : p.compare i (i + 1) = some (p.unpack.compare i ⟨i + 1, by omega⟩) :=
        compare_unpack p i ⟨i + 1, by omega⟩
      simp only [hi, hlast, if_true, dif_pos, reduceCtorEq, if_false, hnext]
      rfl
    · have hlast : ¬((i : Nat) : Int) < n - 1 := by omega
      simp only [hi, hlast, if_false, dif_neg, not_false_eq_true, reduceCtorEq]
      rfl

/-- The index -1 stands for none. -/
def indexOf : Option (Fin n) → Int
  | none => -1
  | some i => i

theorem largerMobile_unpack (p : PackedPermuter n elemSize) (max : Option (Fin n)) (i : Fin n) :
    p.largerMobile (indexOf max) i = some (indexOf (p.unpack.largerMobile max i)) := by
  rw [largerMobile, isMobile_unpack, Option.bind_eq_bind, Option.bind_some]
  unfold Permuter.largerMobile
  cases p.unpack.isMobile i with
  | false => rfl
  | true =>
    cases max with
    | none => rfl
    | some j =>
      have hj : indexOf (some j) ≠ -1 := by
        simp only [indexOf]
        omega
      have hcmp : p.compare i (indexOf (some j)) = some (p.unpack.compare i j) :=
        compare_unpack p i j
      simp only [hj, hcmp, Bool.not_true, Bool.false_eq_true, if_false, Option.bind_eq_bind,
        Option.bind_some]
      split
      · rfl
      · rfl

theorem range_eq (n : Nat) : List.range n = (List.finRange n).map Fin.val := by
  rw [List.map_coe_finRange_eq_range]

theorem findLargestMobile_unpack (p : PackedPermuter n elemSize) :
    p.findLargestMobile = some (indexOf p.unpack.findLargestMobile) := by
  have hloop : ∀ (is : List (Fin n)) (max : Option (Fin n)),
      (is.map Fin.val).foldlM p.largerMobile (indexOf max) =
        some (indexOf (is.foldl p.unpack.largerMobile max)) := by
    intro is
    induction is with
    | nil => exact fun _ => rfl
    | cons i is ih =>
      intro max
      rw [List.map_cons, List.foldlM_cons, largerMobile_unpack, Option.bind_eq_bind,
        Option.bind_some, ih, List.foldl_cons]
  rw [findLargestMobile, range_eq]
  exact hloop _ none

end search

section steps

theorem flipIfLarger_unpack (charSigned : Bool) (p : PackedPermuter n elemSize) (i j : Fin n) :
    (flipIfLarger charSigned i p j).map unpack = some (Permuter.flipIfLarger i p.unpack j) := by
  rw [flipIfLarger, compare_unpack, Option.bind_eq_bind, Option.bind_some, Permuter.flipIfLarger]
  split
  · exact flipIthDirection_unpack charSigned p j
  · rfl

theorem flipLarger_unpack (charSigned : Bool) (p : PackedPermuter n elemSize) (i : Fin n) :
    (p.flipLarger charSigned i).map unpack = some (p.unpack.flipLarger i) := by
  have hloop : ∀ (is : List (Fin n)) (p : PackedPermuter n elemSize),
      ((is.map Fin.val).foldlM (flipIfLarger charSigned i) p).map unpack =
        some (is.foldl (Permuter.flipIfLarger i) p.unpack) := by
    intro is
    induction is with
    | nil => exact fun _ => rfl
    | cons j is ih =>
      intro p
      obtain ⟨q, hq, hqp⟩ := Option.map_eq_some_iff.1 (p.flipIfLarger_unpack charSigned i j)
      rw [List.map_cons, List.foldlM_cons, hq, Option.bind_eq_bind, Option.bind_some, ih,
        List.foldl_cons, hqp]
  rw [flipLarger, range_eq]
  exact hloop _ p

theorem swapFacing_unpack (charSigned : Bool) (p : PackedPermuter n elemSize) (i : Fin n) :
    (p.swapFacing charSigned i).map unpack = p.unpack.swapFacing i := by
  simp only [swapFacing, swapAdjacent, asserted, Bool.not_true, Bool.false_eq_true, if_false,
    Option.bind_eq_bind, Option.bind_some, ithDirection_unpack, swap_unpack]
  rfl

/-- A call of `next_permutation` does to the memory what the call on values does. -/
theorem nextPermutation_unpack (charSigned : Bool) (p : PackedPermuter n elemSize) :
    (p.nextPermutation charSigned).map (fun s => (s.1.map elements, s.2.unpack)) =
      p.unpack.nextPermutation := by
  rw [nextPermutation, findLargestMobile_unpack, Option.bind_eq_bind, Option.bind_some,
    Permuter.nextPermutation]
  cases p.unpack.findLargestMobile with
  | none => rfl
  | some i =>
    have hi : ¬indexOf (some i) < 0 := by
      simp only [indexOf]
      omega
    obtain ⟨q, hq, hqp⟩ := Option.map_eq_some_iff.1 (p.flipLarger_unpack charSigned i)
    have hswap := q.swapFacing_unpack charSigned i
    simp only [hi, if_false, ← hqp, ← hswap]
    simp only [indexOf, hq, Option.bind_eq_bind, Option.bind_some]
    cases q.swapFacing charSigned i with
    | none => rfl
    | some r => rfl

end steps

section resets

/-- The loop stores a zero in each byte. -/
theorem resetDirections_eq (p : PackedPermuter n elemSize) : p.resetDirections =
    some { p with directions := Vector.replicate (directionArrLen n) 0 } := by
  have hloop : ∀ k ≤ directionArrLen n, ∃ v : Vector (BitVec 8) (directionArrLen n),
      (∀ i, (h : i < directionArrLen n) → i < k → v[i] = 0) ∧
      (List.range k).foldlM (fun p (i : Nat) => p.storeByte i 0) p =
        some { p with directions := v } := by
    intro k
    induction k with
    | zero => exact fun _ => ⟨p.directions, fun _ _ h => absurd h (Nat.not_lt_zero _), rfl⟩
    | succ k ih =>
      intro hk
      obtain ⟨v, hv, hrun⟩ := ih (Nat.le_of_succ_le hk)
      refine ⟨v.set k 0, fun i h hi => ?_, ?_⟩
      · rcases eq_or_ne k i with rfl | hne
        · exact Vector.getElem_set_self _
        · rw [Vector.getElem_set_ne _ _ hne]
          exact hv i h (by omega)
      · have hstore : storeByte { p with directions := v } k 0 =
            some { p with directions := v.set k 0 } := dif_pos ⟨Int.natCast_nonneg k, hk⟩
        rw [List.range_succ, List.foldlM_append, hrun, Option.bind_eq_bind, Option.bind_some,
          List.foldlM_cons, hstore]
        rfl
  obtain ⟨v, hv, hrun⟩ := hloop _ le_rfl
  have hzero : v = Vector.replicate (directionArrLen n) 0 := by
    ext i hi
    rw [hv i hi hi, Vector.getElem_replicate]
  rw [resetDirections, hrun, hzero]

theorem elements_flatten (es : Vector (Vector (BitVec 8) elemSize) n) :
    elements es.flatten = es := by
  refine Vector.ext fun i hi => Vector.ext fun k hk => ?_
  have hpos : 0 < elemSize := Nat.zero_lt_of_lt hk
  have hdiv : (i * elemSize + k) / elemSize = i := by
    rw [Nat.add_comm, Nat.add_mul_div_right _ _ hpos, Nat.div_eq_of_lt hk, Nat.zero_add]
  simp [elements, element, Vector.getElem_flatten, hdiv, Nat.mod_eq_of_lt hk]

theorem resetPermuter_unpack (p : PackedPermuter n elemSize) :
    (p.resetPermuter qsort).map unpack = some (p.unpack.resetPermuter qsort) := by
  rw [resetPermuter, resetDirections_eq, Option.bind_eq_bind, Option.bind_some]
  have helems := elements_flatten (qsort p.cmp (elements p.elems))
  exact congrArg (fun es => some (Permuter.mk es p.cmp 0 (Vector.replicate _ 0))) helems

theorem newPermuter_unpack (memory : PackedPermuter n elemSize)
    (elems : Vector (BitVec 8) (n * elemSize))
    (cmp : Vector (BitVec 8) elemSize → Vector (BitVec 8) elemSize → Int) :
    (newPermuter qsort memory elems cmp).map unpack =
      some (Permuter.newPermuter qsort (elements elems) cmp) :=
  resetPermuter_unpack _

end resets

section runs
variable {s : List (Option (Vector (BitVec 8) (n * elemSize))) × PackedPermuter n elemSize}

/-- What has been returned and the permuter, as values. -/
def values (s : List (Option (Vector (BitVec 8) (n * elemSize))) × PackedPermuter n elemSize) :
    List (Option (Vector (Vector (BitVec 8) elemSize) n)) ×
      Permuter (Vector (BitVec 8) elemSize) n :=
  (s.1.map (Option.map elements), s.2.unpack)

theorem step_values (op : PermuterOp) :
    (step charSigned qsort s op).map values = Permuter.step qsort (values s) op := by
  cases op with
  | next =>
    have hnext := s.2.nextPermutation_unpack charSigned
    simp only [step, Permuter.step, values, ← hnext]
    cases s.2.nextPermutation charSigned with
    | none => rfl
    | some r => simp [values]
  | reset =>
    have hreset : (s.2.resetPermuter qsort).map unpack = _ := resetPermuter_unpack s.2
    obtain ⟨q, hq, hqp⟩ := Option.map_eq_some_iff.1 hreset
    simp only [step, Permuter.step, values, hq, ← hqp]
    rfl

theorem run_values (ops : List PermuterOp) :
    (ops.foldlM (step charSigned qsort) s).map values =
      ops.foldlM (Permuter.step qsort) (values s) := by
  induction ops generalizing s with
  | nil => rfl
  | cons op ops ih =>
    rw [List.foldlM_cons, List.foldlM_cons, ← step_values]
    cases step charSigned qsort s op with
    | none => rfl
    | some t => exact ih

/-- In any calls on a new permuter every access is in its memory, no assertion fails and no shift is
undefined. What is returned is what the calls on values return, arrangements of the array. -/
theorem run_newPermuter {cmp : Vector (BitVec 8) elemSize → Vector (BitVec 8) elemSize → Int}
    (hcmp : Permuter.TotalPreorder cmp) (hqsort : Permuter.Sorts qsort cmp) (charSigned : Bool)
    (memory : PackedPermuter n elemSize) (elems : Vector (BitVec 8) (n * elemSize))
    (ops : List PermuterOp) : ∃ p rets q, newPermuter qsort memory elems cmp = some p ∧
      p.run charSigned qsort ops = some (rets, q) ∧
      (Permuter.newPermuter qsort (elements elems) cmp).run qsort ops =
        some (rets.map (Option.map elements), q.unpack) ∧
      (elements q.elems).toList.Perm (elements elems).toList ∧
      ∀ v, some v ∈ rets → (elements v).toList.Perm (elements elems).toList := by
  have hunpack : (newPermuter qsort memory elems cmp).map unpack = _ :=
    newPermuter_unpack memory elems cmp
  obtain ⟨p, hp, hnew⟩ := Option.map_eq_some_iff.1 hunpack
  have hstart : Permuter.Arranges cmp (elements elems).toList (values ([], p)) := by
    refine ⟨congrArg Permuter.cmp hnew, ?_, fun v hv => by cases hv⟩
    rw [values, hnew]
    exact (hqsort _).1
  obtain ⟨s, hrun, harranges⟩ := hstart.run hcmp hqsort ops
  have hvalues : (p.run charSigned qsort ops).map values = _ := run_values ops
  rw [hrun] at hvalues
  obtain ⟨⟨rets, q⟩, hpacked, rfl⟩ := Option.map_eq_some_iff.1 hvalues
  refine ⟨p, rets, q, hp, hpacked, ?_, harranges.elems, fun v hv => ?_⟩
  · rw [← hnew]
    exact hrun
  · exact harranges.seen _ (List.mem_map.2 ⟨_, hv, rfl⟩)

theorem totalPreorder_cmpChar (charSigned : Bool) :
    Permuter.TotalPreorder (cmpChar charSigned) := by
  constructor
  case swap => exact fun a b => by simp only [cmpChar]; omega
  case trans => exact fun a b c hab hbc => by simp only [cmpChar] at *; omega

/-- The permuter of the string `bab`, in memory that contains something else. -/
theorem run_newPermuter_string : ∃ p rets q,
    newPermuter Permuter.insertionQsort
      (⟨#v[7, 7, 7], #v[7], fun _ _ => 7, 7, #v[7]⟩ : PackedPermuter 3 1)
      #v[98, 97, 98] (cmpChar true) = some p ∧
    p.run true Permuter.insertionQsort [.next, .next, .next, .reset, .next] = some (rets, q) ∧
    ∀ v, some v ∈ rets → (elements v).toList.Perm [#v[98], #v[97], #v[98]] := by
  have hcmp := totalPreorder_cmpChar true
  let elems : Vector (BitVec 8) (3 * 1) := #v[98, 97, 98]
  have helems : (elements elems).toList = [#v[98], #v[97], #v[98]] := by decide
  obtain ⟨p, rets, q, hnew, hrun, -, -, hseen⟩ := run_newPermuter hcmp
    (Permuter.sorts_insertionQsort hcmp) true _ elems [.next, .next, .next, .reset, .next]
  exact ⟨p, rets, q, hnew, hrun, fun v hv => helems ▸ hseen v hv⟩

end runs

end PackedPermuter
end Lisp
