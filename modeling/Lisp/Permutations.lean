import Lisp.Library.BalancedTree
import Lisp.Library.Packing
import Lisp.Library.PlainChanges
import Lisp.Machine

/-! The permuter of the library (`permutations.c`). -/
namespace Lisp
open PlainChanges BalancedTree Packing
variable {α : Type} {n : Nat}

def CHAR_BIT : Nat := 8

def divRoundUp (numer denom : Nat) : Nat := if numer = 0 then 0 else 1 + (numer - 1) / denom

def directionArrLen (numElems : Nat) : Nat := divRoundUp numElems CHAR_BIT

/-- `struct permuter`. The directions are packed, eight in a byte. -/
structure Permuter (α : Type) (n : Nat) where
  elems : Vector α n
  cmp : α → α → Int
  index : Int
  directions : Vector (BitVec 8) (directionArrLen n)

namespace Permuter

/-- `enum Direction` -/
abbrev Direction := PlainChanges.Direction

section source

theorem bucket_lt (i : Fin n) : i / CHAR_BIT < directionArrLen n := by
  have := i.isLt
  simp only [directionArrLen, divRoundUp, CHAR_BIT]
  split <;> omega

/-- The index of the byte with a direction. -/
def bucket (i : Fin n) : Fin (directionArrLen n) := ⟨i / CHAR_BIT, bucket_lt i⟩

def mask (i : Fin n) : BitVec 8 := 1 <<< (i % CHAR_BIT)

def ithDirection (p : Permuter α n) (i : Fin n) : Direction :=
  let dirBucket := p.directions.get (bucket i)
  if dirBucket &&& mask i ≠ 0 then .right else .left

def setIthDirection (p : Permuter α n) (i : Fin n) (direction : Direction) : Permuter α n :=
  let dirBucket := p.directions.get (bucket i)
  match direction with
  | .left => { p with directions := p.directions.set (bucket i) (dirBucket &&& ~~~mask i) }
  | .right => { p with directions := p.directions.set (bucket i) (dirBucket ||| mask i) }

def flipIthDirection (p : Permuter α n) (i : Fin n) : Permuter α n :=
  let dir := ithDirection p i
  setIthDirection p i (if dir = .left then .right else .left)

def permuterIth (p : Permuter α n) (i : Fin n) : α := p.elems.get i

def compare (p : Permuter α n) (i j : Fin n) : Int := p.cmp (permuterIth p i) (permuterIth p j)

def isMobile (p : Permuter α n) (i : Fin n) : Bool :=
  match ithDirection p i with
  | .left => if h : 0 < i.val then 0 < compare p i ⟨i - 1, by omega⟩ else false
  | .right => if h : i.val < n - 1 then 0 < compare p i ⟨i + 1, by omega⟩ else false

/-- One round of the loop of `find_largest_mobile`. -/
def largerMobile (p : Permuter α n) (maxMobileIdx : Option (Fin n)) (i : Fin n) :
    Option (Fin n) :=
  if !isMobile p i then maxMobileIdx
  else match maxMobileIdx with
    | none => some i
    | some j => if 0 < compare p i j then some i else maxMobileIdx

/-- The index -1 of the source is `none`. -/
def findLargestMobile (p : Permuter α n) : Option (Fin n) :=
  (List.finRange n).foldl (largerMobile p) none

/-- The body of `swap`, after its assertions. -/
def exchange (p : Permuter α n) (i j : Fin n) : Permuter α n :=
  let dirI := ithDirection p i
  let p := setIthDirection p i (ithDirection p j)
  let p := setIthDirection p j dirI
  let tmp := permuterIth p i
  let p := { p with elems := p.elems.set i (permuterIth p j) }
  { p with elems := p.elems.set j tmp }

/-- `swap`; an index outside the array fails an assertion. -/
def swap (p : Permuter α n) (i : Fin n) (j : Int) : Option (Permuter α n) :=
  if h : 0 ≤ j ∧ j < n then some (exchange p i ⟨j.toNat, by omega⟩) else none

def swapAdjacent (p : Permuter α n) (i : Fin n) (dir : Direction) : Option (Permuter α n) :=
  let adjacent : Int := if dir = .left then i - 1 else i + 1
  swap p i adjacent

def swapFacing (p : Permuter α n) (i : Fin n) : Option (Permuter α n) :=
  swapAdjacent p i (ithDirection p i)

/-- One round of the loop of `next_permutation`, which flips the elements larger than one. -/
def flipIfLarger (i : Fin n) (p : Permuter α n) (j : Fin n) : Permuter α n :=
  if 0 < compare p j i then flipIthDirection p j else p

def flipLarger (p : Permuter α n) (i : Fin n) : Permuter α n :=
  (List.finRange n).foldl (flipIfLarger i) p

def getPermutation (p : Permuter α n) : Vector α n := p.elems

/-- `next_permutation`, with the arrangement that the returned pointer shows, or `none` for
`NULL`. Where an assertion fails there is no result. -/
def nextPermutation (p : Permuter α n) : Option (Option (Vector α n) × Permuter α n) :=
  match findLargestMobile p with
  | none => some (none, p)
  | some maxMobileIdx => do
    let p := flipLarger p maxMobileIdx
    let p ← swapFacing p maxMobileIdx
    let p := { p with index := toInt (p.index + 1) }
    some (some p.elems, p)

def resetDirections (p : Permuter α n) : Permuter α n :=
  { p with directions := Vector.replicate (directionArrLen n) 0 }

/-- `reset_permuter`, with the `qsort` of the C library. -/
def resetPermuter (qsort : (α → α → Int) → Vector α n → Vector α n) (p : Permuter α n) :
    Permuter α n :=
  let p := { p with elems := qsort p.cmp p.elems }
  let p := resetDirections p
  { p with index := 0 }

/-- `new_permuter`. The memory is allocated; `reset_permuter` overwrites what it contains. -/
def newPermuter (qsort : (α → α → Int) → Vector α n → Vector α n) (elems : Vector α n)
    (cmp : α → α → Int) : Permuter α n :=
  resetPermuter qsort ⟨elems, cmp, 0, Vector.replicate (directionArrLen n) 0⟩

end source

/-- What the last call has returned, and the permuter, after `k` calls of `next_permutation` on a
permuter whose arrangement has been read first. -/
def calls (p : Permuter α n) : Nat → Option (Option (Vector α n) × Permuter α n)
  | 0 => some (some (getPermutation p), p)
  | k + 1 => do
    let (_, q) ← calls p k
    nextPermutation q

variable {p q : Permuter α n} {i j k : Fin n} {d : Direction} {x y : α}
  {cmp : α → α → Int} {r : List (α × Direction)} {rs : List (List (α × Direction))}

section directions

theorem get_set (v : Vector α n) (i j : Fin n) (x : α) :
    (v.set i x).get j = if i = j then x else v.get j := by
  rcases eq_or_ne i j with rfl | hne
  · rw [if_pos rfl]
    exact Vector.getElem_set_self ..
  · rw [if_neg hne]
    exact Vector.getElem_set_ne _ _ fun h => hne (Fin.ext h)

theorem bit_lt (i : Nat) : i % CHAR_BIT < 8 := Nat.mod_lt _ (by decide)

theorem mask_eq (i : Fin n) : mask i = BitVec.twoPow 8 (i % CHAR_BIT) := rfl

/-- The direction is read from one bit of its byte. -/
theorem ithDirection_eq (p : Permuter α n) (i : Fin n) : ithDirection p i =
    if readBit p.directions i (bucket_lt i) then .right else .left := by
  simp only [ithDirection, mask_eq, and_twoPow_ne_zero (bit_lt i)]
  rfl

theorem setIthDirection_eq (p : Permuter α n) (i : Fin n) (d : Direction) : setIthDirection p i d =
    { p with directions := writeBit p.directions i (bucket_lt i) (d == .right) } := by
  cases d <;> rfl

theorem ithDirection_setIthDirection (p : Permuter α n) (i j : Fin n) (d : Direction) :
    ithDirection (setIthDirection p i d) j = if i = j then d else ithDirection p j := by
  have hbit := readBit_writeBit (v := p.directions) (b := d == .right) (by decide) (bucket_lt i)
    (bucket_lt j)
  rw [ithDirection_eq, setIthDirection_eq, ithDirection_eq, hbit]
  by_cases hij : i = j
  · subst hij
    cases d <;> simp
  · have hne : j.val ≠ i.val := fun h => hij (Fin.ext h.symm)
    rw [if_neg hij, if_neg hne]

@[simp] theorem setIthDirection_elems : (setIthDirection p i d).elems = p.elems := by
  cases d <;> rfl

@[simp] theorem setIthDirection_cmp : (setIthDirection p i d).cmp = p.cmp := by
  cases d <;> rfl

@[simp] theorem permuterIth_setIthDirection (j : Fin n) :
    permuterIth (setIthDirection p i d) j = permuterIth p j := by
  rw [permuterIth, setIthDirection_elems, permuterIth]

end directions

section rows

/-- The elements with the directions that they face. -/
def facing (p : Permuter α n) : List (α × Direction) :=
  List.ofFn fun i => (permuterIth p i, ithDirection p i)

def Larger (cmp : α → α → Int) (a b : α) : Prop := 0 < cmp a b

instance : DecidableRel (Larger cmp) := fun a b => inferInstanceAs (Decidable (0 < cmp a b))

/-- The comparison is a total preorder: elements that are not the same may be equal in it. -/
structure TotalPreorder (cmp : α → α → Int) : Prop where
  swap : ∀ a b, cmp a b < 0 ↔ 0 < cmp b a
  trans : ∀ a b c, cmp a b ≤ 0 → cmp b c ≤ 0 → cmp a c ≤ 0

theorem totalPreorder (hcmp : StrictOrder cmp) : TotalPreorder cmp := by
  refine ⟨hcmp.swap, fun a b c hab hbc => ?_⟩
  rcases Int.lt_or_eq_of_le hab with hab | hab
  · rcases Int.lt_or_eq_of_le hbc with hbc | hbc
    · exact Int.le_of_lt (hcmp.trans a b c hab hbc)
    · exact (hcmp.eq_zero b c).1 hbc ▸ Int.le_of_lt hab
  · exact ((hcmp.eq_zero a b).1 hab).symm ▸ hbc

theorem larger_iff (hcmp : TotalPreorder cmp) : Larger cmp x y ↔ cmp y x < 0 := (hcmp.swap y x).symm

theorem Larger.trans (hcmp : TotalPreorder cmp) {z : α} (hxy : Larger cmp x y)
    (hyz : Larger cmp y z) : Larger cmp x z := by
  by_contra hxz
  have hyx := hcmp.trans x z y (Int.not_lt.1 hxz) (Int.le_of_lt ((larger_iff hcmp).1 hyz))
  exact absurd hxy (Int.not_lt.2 hyx)

theorem Larger.asymm (hcmp : TotalPreorder cmp) (h : Larger cmp x y) : ¬Larger cmp y x := by
  intro h'
  have hlt := (larger_iff hcmp).1 h'
  simp only [Larger] at h
  omega

theorem Larger.irrefl (hcmp : TotalPreorder cmp) (x : α) : ¬Larger cmp x x :=
  fun h => h.asymm hcmp h

theorem Larger.total (hcmp : StrictOrder cmp) (hxy : ¬Larger cmp x y) (hyx : ¬Larger cmp y x) :
    x = y := by
  rw [larger_iff (totalPreorder hcmp)] at hyx
  exact (hcmp.eq_zero x y).1 (by simp only [Larger] at hxy; omega)

theorem facing_get (p : Permuter α n) (i : Fin n) :
    (facing p)[i.val]? = some (permuterIth p i, ithDirection p i) := by
  simp [facing]

theorem facing_some {e : α × Direction} {m : Nat} (h : (facing p)[m]? = some e) :
    ∃ i : Fin n, i.val = m ∧ (permuterIth p i, ithDirection p i) = e := by
  obtain ⟨hm, he⟩ := List.getElem?_eq_some_iff.1 h
  have hn : m < n := by simpa [facing] using hm
  exact ⟨⟨m, hn⟩, rfl, by simpa [facing] using he⟩

theorem length_facing (p : Permuter α n) : (facing p).length = n := List.length_ofFn

theorem facing_fst (p : Permuter α n) : (facing p).map Prod.fst = p.elems.toList := by
  refine List.ext_getElem (by simp [facing]) ?_
  intro m _ _
  simp [facing, permuterIth]
  rfl

/-- Two permuters with the same elements in the same places, and the same directions. -/
theorem facing_ext {s : List (α × Direction)} (hlen : s.length = n)
    (h : ∀ i : Fin n, s[i.val]? = some (permuterIth p i, ithDirection p i)) : facing p = s := by
  refine List.ext_getElem? ?_
  intro m
  by_cases hm : m < n
  · rw [facing_get p ⟨m, hm⟩, h ⟨m, hm⟩]
  · rw [List.getElem?_eq_none (by rw [length_facing]; omega), List.getElem?_eq_none (by omega)]

theorem isMobile_iff : isMobile p i = true ↔ ∃ j : Fin n, Faces (ithDirection p i) i j ∧
    Larger p.cmp (permuterIth p i) (permuterIth p j) := by
  unfold isMobile
  cases ithDirection p i with
  | left =>
    simp only [Faces]
    constructor
    · intro h
      split at h
      next hi => exact ⟨⟨i - 1, by omega⟩, Nat.sub_add_cancel hi, of_decide_eq_true h⟩
      next => cases h
    · rintro ⟨j, hj, hlarger⟩
      have hlt : i - 1 < n := (Nat.sub_le ..).trans_lt i.isLt
      obtain rfl : j = ⟨i - 1, hlt⟩ := Fin.ext (Nat.eq_sub_of_add_eq hj)
      rw [dif_pos (by omega)]
      exact decide_eq_true hlarger
  | right =>
    simp only [Faces]
    constructor
    · intro h
      split at h
      next hi => exact ⟨⟨i + 1, by omega⟩, rfl, of_decide_eq_true h⟩
      next => cases h
    · rintro ⟨j, hj, hlarger⟩
      have hlt : i + 1 < n := hj ▸ j.isLt
      obtain rfl : j = ⟨i + 1, hlt⟩ := Fin.ext hj.symm
      rw [dif_pos (by omega)]
      exact decide_eq_true hlarger

theorem passes_facing (h : Passes (Larger p.cmp) x (facing p) r) :
    ∃ i j : Fin n, permuterIth p i = x ∧ Faces (ithDirection p i) i j ∧
      Larger p.cmp (permuterIth p i) (permuterIth p j) ∧
      r = ((facing p).set i (permuterIth p j, ithDirection p j)).set j
        (permuterIth p i, ithDirection p i) := by
  obtain ⟨i, j, y, d, e, hfaces, hi, hj, hlarger, rfl⟩ := h.places
  obtain ⟨i, rfl, he⟩ := facing_some hi
  obtain ⟨j, rfl, he'⟩ := facing_some hj
  cases he
  cases he'
  exact ⟨i, j, rfl, hfaces, hlarger, rfl⟩

theorem mobile_facing :
    Mobile (Larger p.cmp) x (facing p) ↔ ∃ i, permuterIth p i = x ∧ isMobile p i = true := by
  constructor
  · rintro ⟨r, h⟩
    obtain ⟨i, j, hi, hfaces, hlarger, -⟩ := passes_facing h
    exact ⟨i, hi, isMobile_iff.2 ⟨j, hfaces, hlarger⟩⟩
  · rintro ⟨i, rfl, hi⟩
    obtain ⟨j, hfaces, hlarger⟩ := isMobile_iff.1 hi
    exact ⟨_, passes_of_places hfaces (facing_get p i) (facing_get p j) hlarger⟩

end rows

section loops

/-- What `find_largest_mobile` has found after the indices of the list. -/
def Largest (p : Permuter α n) (seen : List (Fin n)) : Option (Fin n) → Prop
  | none => ∀ j ∈ seen, isMobile p j = false
  | some i => isMobile p i = true ∧
    ∀ j ∈ seen, isMobile p j = true → ¬Larger p.cmp (permuterIth p j) (permuterIth p i)

theorem Largest.step {seen : List (Fin n)} {max : Option (Fin n)} (hcmp : TotalPreorder p.cmp)
    (h : Largest p seen max) (i : Fin n) : Largest p (i :: seen) (largerMobile p max i) := by
  unfold largerMobile
  cases hmobile : isMobile p i with
  | false =>
    cases max with
    | none => exact List.forall_mem_cons.2 ⟨hmobile, h⟩
    | some j =>
      refine ⟨h.1, List.forall_mem_cons.2 ⟨?_, h.2⟩⟩
      intro hi
      rw [hmobile] at hi
      cases hi
  | true =>
    have hself : ¬Larger p.cmp (permuterIth p i) (permuterIth p i) := Larger.irrefl hcmp _
    cases max with
    | none =>
      refine ⟨hmobile, List.forall_mem_cons.2 ⟨fun _ => hself, ?_⟩⟩
      intro j hj hmobile'
      rw [h j hj] at hmobile'
      cases hmobile'
    | some j =>
      by_cases hlarger : 0 < compare p i j
      · simp only [Bool.not_true, Bool.false_eq_true, if_false, if_pos hlarger]
        refine ⟨hmobile, List.forall_mem_cons.2 ⟨fun _ => hself, ?_⟩⟩
        intro k hk hmobile' hki
        exact h.2 k hk hmobile' (hki.trans hcmp hlarger)
      · simp only [Bool.not_true, Bool.false_eq_true, if_false, if_neg hlarger]
        exact ⟨h.1, List.forall_mem_cons.2 ⟨fun _ => hlarger, h.2⟩⟩

theorem Largest.foldl {seen : List (Fin n)} {max : Option (Fin n)} (hcmp : TotalPreorder p.cmp)
    (h : Largest p seen max) (is : List (Fin n)) :
    Largest p (is.reverse ++ seen) (is.foldl (largerMobile p) max) := by
  induction is generalizing seen max with
  | nil => exact h
  | cons i is ih =>
    rw [List.reverse_cons, List.append_assoc]
    exact ih (h.step hcmp i)

theorem findLargestMobile_none (hcmp : TotalPreorder p.cmp) (h : findLargestMobile p = none)
    (i : Fin n) : isMobile p i = false := by
  have hlargest : Largest p [] none := fun _ h => absurd h (List.not_mem_nil)
  have hfold := hlargest.foldl hcmp (List.finRange n)
  rw [show (List.finRange n).foldl (largerMobile p) none = none from h] at hfold
  exact hfold i (by simp)

theorem findLargestMobile_some (hcmp : TotalPreorder p.cmp) (h : findLargestMobile p = some i) :
    isMobile p i = true ∧ ∀ j, isMobile p j = true →
      ¬Larger p.cmp (permuterIth p j) (permuterIth p i) := by
  have hlargest : Largest p [] none := fun _ h => absurd h (List.not_mem_nil)
  have hfold := hlargest.foldl hcmp (List.finRange n)
  rw [show (List.finRange n).foldl (largerMobile p) none = some i from h] at hfold
  exact ⟨hfold.1, fun j => hfold.2 j (by simp)⟩

theorem ithDirection_flipIthDirection (p : Permuter α n) (i j : Fin n) :
    ithDirection (flipIthDirection p i) j =
      if i = j then (ithDirection p j).flip else ithDirection p j := by
  rw [flipIthDirection, ithDirection_setIthDirection]
  split
  next h =>
    subst h
    cases ithDirection p i <;> rfl
  next => rfl

/-- After a part of the loop the directions of the larger elements in it are turned. -/
theorem flipIfLarger_foldl (is : List (Fin n)) (hnodup : is.Nodup) (p : Permuter α n) (i : Fin n) :
    let q := is.foldl (flipIfLarger i) p
    q.elems = p.elems ∧ q.cmp = p.cmp ∧ ∀ j, ithDirection q j =
      if j ∈ is ∧ 0 < compare p j i then (ithDirection p j).flip else ithDirection p j := by
  induction is generalizing p with
  | nil => simp
  | cons k is ih =>
    rw [List.nodup_cons] at hnodup
    obtain ⟨helems, hcmp, hdir⟩ := ih hnodup.2 (flipIfLarger i p k)
    have hstep : (flipIfLarger i p k).elems = p.elems ∧ (flipIfLarger i p k).cmp = p.cmp := by
      unfold flipIfLarger flipIthDirection
      split <;> simp
    have hcompare (j : Fin n) : compare (flipIfLarger i p k) j i = compare p j i := by
      simp only [compare, permuterIth, hstep.1, hstep.2]
    refine ⟨helems.trans hstep.1, hcmp.trans hstep.2, ?_⟩
    intro j
    rw [List.foldl_cons, hdir, hcompare]
    have hround : ithDirection (flipIfLarger i p k) j =
        if k = j ∧ 0 < compare p j i then (ithDirection p j).flip else ithDirection p j := by
      unfold flipIfLarger
      split
      next h =>
        rw [ithDirection_flipIthDirection]
        split
        next hkj => rw [if_pos ⟨hkj, hkj ▸ h⟩]
        next hkj => rw [if_neg fun h => hkj h.1]
      next h =>
        rw [if_neg]
        rintro ⟨rfl, h'⟩
        exact h h'
    rw [hround]
    by_cases hkj : k = j
    · subst hkj
      simp [hnodup.1]
    · have hjk : j ≠ k := fun h => hkj h.symm
      simp [hkj, hjk]

theorem flipLarger_spec (p : Permuter α n) (i : Fin n) :
    (flipLarger p i).elems = p.elems ∧ (flipLarger p i).cmp = p.cmp ∧ ∀ j,
      ithDirection (flipLarger p i) j = if Larger p.cmp (permuterIth p j) (permuterIth p i)
        then (ithDirection p j).flip else ithDirection p j := by
  obtain ⟨helems, hcmp, hdir⟩ := flipIfLarger_foldl (List.finRange n) (List.nodup_finRange n) p i
  refine ⟨helems, hcmp, fun j => (hdir j).trans ?_⟩
  simp only [List.mem_finRange, true_and]
  rfl

theorem facing_flipLarger (p : Permuter α n) (i : Fin n) :
    facing (flipLarger p i) = turned (Larger p.cmp) (permuterIth p i) (facing p) := by
  obtain ⟨helems, -, hdir⟩ := flipLarger_spec p i
  refine facing_ext (by simp [turned, length_facing]) ?_
  intro j
  have hsame : permuterIth (flipLarger p i) j = permuterIth p j := by
    rw [permuterIth, helems, permuterIth]
  rw [turned, List.getElem?_map, facing_get, hdir, hsame, Option.map_some]
  by_cases hlarger : Larger p.cmp (permuterIth p j) (permuterIth p i)
  · rw [if_pos hlarger, if_pos hlarger]
  · rw [if_neg hlarger, if_neg hlarger]

end loops

section swaps

theorem ithDirection_exchange (p : Permuter α n) (i j k : Fin n) : ithDirection (exchange p i j) k =
    if j = k then ithDirection p i else if i = k then ithDirection p j else ithDirection p k := by
  rw [← ithDirection_setIthDirection, ← ithDirection_setIthDirection]
  rfl

theorem permuterIth_exchange (p : Permuter α n) (i j k : Fin n) : permuterIth (exchange p i j) k =
    if j = k then permuterIth p i else if i = k then permuterIth p j else permuterIth p k := by
  simp [exchange, permuterIth, get_set]

theorem exchange_cmp (p : Permuter α n) (i j : Fin n) : (exchange p i j).cmp = p.cmp := by
  simp [exchange]

/-- The directions travel with the elements. -/
theorem facing_exchange (p : Permuter α n) (i j : Fin n) : facing (exchange p i j) =
    ((facing p).set i (permuterIth p j, ithDirection p j)).set j
      (permuterIth p i, ithDirection p i) := by
  refine facing_ext (by simp [length_facing]) ?_
  intro k
  have hlen := length_facing p
  rw [ithDirection_exchange, permuterIth_exchange, List.getElem?_set, List.getElem?_set,
    facing_get]
  by_cases hjk : j = k
  · simp [hjk, hlen]
  · by_cases hik : i = k
    · simp [hjk, hik, hlen, Fin.val_inj]
    · simp [hjk, hik, Fin.val_inj]

theorem swapFacing_eq (h : Faces (ithDirection p i) i j) :
    swapFacing p i = some (exchange p i j) := by
  have hadjacent : (if ithDirection p i = .left then (i : Int) - 1 else i + 1) = j := by
    cases hdir : ithDirection p i with
    | left =>
      rw [hdir] at h
      have h : j.val + 1 = i.val := h
      rw [if_pos rfl]
      omega
    | right =>
      rw [hdir] at h
      have h : i.val + 1 = j.val := h
      rw [if_neg (by decide)]
      omega
  rw [swapFacing, swapAdjacent, hadjacent, swap, dif_pos (by omega)]
  rfl

end swaps

section steps

theorem permuterIth_inj (hnodup : p.elems.toList.Nodup) (h : permuterIth p i = permuterIth p j) :
    i = j := by
  have hi : i < p.elems.toList.length := by simp
  have hj : j < p.elems.toList.length := by simp
  have h : p.elems.toList[i.val] = p.elems.toList[j.val] := h
  exact Fin.ext (hnodup.getElem_inj_iff.1 h)

/-- The element that a change moves is the one that the loop of `find_largest_mobile` finds. -/
theorem findLargestMobile_eq (hcmp : StrictOrder p.cmp) (hnodup : p.elems.toList.Nodup)
    (hmobile : isMobile p i = true)
    (hlargest : ∀ z, Mobile (Larger p.cmp) z (facing p) → ¬Larger p.cmp z (permuterIth p i)) :
    findLargestMobile p = some i := by
  cases hk : findLargestMobile p with
  | none =>
    rw [findLargestMobile_none (totalPreorder hcmp) hk i] at hmobile
    cases hmobile
  | some k =>
    obtain ⟨hkmobile, hkmax⟩ := findLargestMobile_some (totalPreorder hcmp) hk
    have hik := hkmax i hmobile
    have hki := hlargest _ (mobile_facing.2 ⟨k, rfl, hkmobile⟩)
    rw [permuterIth_inj hnodup (Larger.total hcmp hik hki)]

/-- The element that was found changes places with the smaller neighbour that it faces, and those
larger turn around. -/
theorem nextPermutation_found (hcmp : TotalPreorder p.cmp) (hfound : findLargestMobile p = some i)
    (hfaces : Faces (ithDirection p i) i j)
    (hlarger : Larger p.cmp (permuterIth p i) (permuterIth p j)) :
    ∃ q, nextPermutation p = some (some q.elems, q) ∧
      facing q = turned (Larger p.cmp) (permuterIth p i) (((facing p).set i
        (permuterIth p j, ithDirection p j)).set j (permuterIth p i, ithDirection p i)) ∧
      q.cmp = p.cmp := by
  have hii : ¬Larger p.cmp (permuterIth p i) (permuterIth p i) := Larger.irrefl hcmp _
  have hji : ¬Larger p.cmp (permuterIth p j) (permuterIth p i) := hlarger.asymm hcmp
  obtain ⟨helems, hcmp', hdir⟩ := flipLarger_spec p i
  have hdiri : ithDirection (flipLarger p i) i = ithDirection p i := by
    rw [hdir, if_neg hii]
  have hdirj : ithDirection (flipLarger p i) j = ithDirection p j := by
    rw [hdir, if_neg hji]
  have hith (k : Fin n) : permuterIth (flipLarger p i) k = permuterIth p k := by
    rw [permuterIth, helems, permuterIth]
  let q := exchange (flipLarger p i) i j
  refine ⟨{ q with index := toInt (q.index + 1) }, ?_, ?_, (exchange_cmp _ i j).trans hcmp'⟩
  · have hswap := swapFacing_eq (hdiri ▸ hfaces)
    simp only [nextPermutation, hfound, hswap]
    rfl
  · show facing (exchange (flipLarger p i) i j) = _
    rw [facing_exchange, facing_flipLarger, hdiri, hdirj, hith, hith]
    simp [turned, List.map_set, hii, hji]

/-- A call makes a change of the row. -/
theorem nextPermutation_change (hcmp : StrictOrder p.cmp) (hnodup : p.elems.toList.Nodup)
    (h : Change (Larger p.cmp) (facing p) r) :
    ∃ q, nextPermutation p = some (some q.elems, q) ∧ facing q = r ∧ q.cmp = p.cmp := by
  obtain ⟨hpass, hlargest⟩ := h
  obtain ⟨i, j, rfl, hfaces, hlarger, rfl⟩ := passes_facing hpass
  have hmobile : isMobile p i = true := isMobile_iff.2 ⟨j, hfaces, hlarger⟩
  have hfound := findLargestMobile_eq hcmp hnodup hmobile hlargest
  exact nextPermutation_found (totalPreorder hcmp) hfound hfaces hlarger

theorem nextPermutation_stuck (hcmp : StrictOrder p.cmp)
    (h : ∀ x, ¬Mobile (Larger p.cmp) x (facing p)) : nextPermutation p = some (none, p) := by
  have hfound : findLargestMobile p = none := by
    cases hk : findLargestMobile p with
    | none => rfl
    | some k =>
      have hmobile := (findLargestMobile_some (totalPreorder hcmp) hk).1
      exact absurd (mobile_facing.2 ⟨k, rfl, hmobile⟩) (h _)
  simp only [nextPermutation, hfound]

/-- The row that the permuter is at after `k` calls, of the rows of a run. -/
structure At (cmp : α → α → Int) (rs : List (List (α × Direction))) (k : Nat)
    (ret : Option (Vector α n)) (q : Permuter α n) : Prop where
  order : q.cmp = cmp
  nodup : q.elems.toList.Nodup
  seen : ret.map Vector.toList = (rs.map (List.map Prod.fst))[k]?
  run : Run (Larger cmp) (facing q) (rs.drop (min k (rs.length - 1)))

theorem At.next (hcmp : StrictOrder cmp) {k : Nat} {ret : Option (Vector α n)}
    (h : At cmp rs k ret q) :
    ∃ ret' q', nextPermutation q = some (ret', q') ∧ At cmp rs (k + 1) ret' q' := by
  obtain ⟨rfl, hnodup, -, hrun⟩ := h
  generalize hs : rs.drop (min k (rs.length - 1)) = s at hrun
  have hlength := congrArg List.length hs
  rw [List.length_drop] at hlength
  cases hrun with
  | last hstuck =>
    refine ⟨none, q, nextPermutation_stuck hcmp hstuck, rfl, hnodup, ?_, ?_⟩
    · rw [List.length_singleton] at hlength
      rw [List.getElem?_eq_none (by rw [List.length_map]; omega)]
      rfl
    · rw [List.length_singleton] at hlength
      rw [show min (k + 1) (rs.length - 1) = min k (rs.length - 1) by omega, hs]
      exact .last hstuck
  | @next _ r rest hchange hrun =>
    obtain ⟨q', hnext, rfl, hcmp'⟩ := nextPermutation_change hcmp hnodup hchange
    obtain ⟨tail, rfl⟩ := hrun.head
    simp only [List.length_cons] at hlength
    have hk : min k (rs.length - 1) = k := by omega
    have hdrop : rs.drop (k + 1) = facing q' :: tail := by
      rw [← List.tail_drop, ← hk, hs, List.tail_cons]
    refine ⟨_, q', hnext, hcmp', ?_, ?_, ?_⟩
    · have hperm := hchange.adjacentSwap.perm
      rw [facing_fst, facing_fst] at hperm
      exact hperm.nodup_iff.1 hnodup
    · have hhead : rs[k + 1]? = some (facing q') := by
        rw [← List.head?_drop, hdrop, List.head?_cons]
      rw [List.getElem?_map, hhead, Option.map_some, Option.map_some, facing_fst]
    · rw [show min (k + 1) (rs.length - 1) = k + 1 by omega, hdrop]
      exact hrun

theorem At.calls (hcmp : StrictOrder cmp) (h : At cmp rs 0 (some (getPermutation p)) p) (k : Nat) :
    ∃ ret q, calls p k = some (ret, q) ∧ At cmp rs k ret q := by
  induction k with
  | zero => exact ⟨_, p, rfl, h⟩
  | succ k ih =>
    obtain ⟨ret, q, hcalls, hat⟩ := ih
    obtain ⟨ret', q', hnext, hat'⟩ := hat.next hcmp
    refine ⟨ret', q', ?_, hat'⟩
    rw [Permuter.calls, hcalls]
    exact hnext

end steps

section enumeration
variable {qsort : (α → α → Int) → Vector α n → Vector α n} {elems : Vector α n}

/-- What `qsort` does with an array. -/
def Sorts (qsort : (α → α → Int) → Vector α n → Vector α n) (cmp : α → α → Int) : Prop :=
  ∀ xs, (qsort cmp xs).toList.Perm xs.toList ∧
    (qsort cmp xs).toList.Pairwise fun a b => cmp a b ≤ 0

/-- The permuter has just been made for the array, or reset. -/
inductive Started (qsort : (α → α → Int) → Vector α n → Vector α n) (cmp : α → α → Int)
    (elems : Vector α n) : Permuter α n → Prop
  | new : Started qsort cmp elems (newPermuter qsort elems cmp)
  | reset (p : Permuter α n) : p.elems = elems → p.cmp = cmp →
      Started qsort cmp elems (resetPermuter qsort p)

theorem Started.eq (h : Started qsort cmp elems p) :
    p = ⟨qsort cmp elems, cmp, 0, Vector.replicate (directionArrLen n) 0⟩ := by
  cases h with
  | new => rfl
  | reset q helems hcmp =>
    subst helems hcmp
    rfl

theorem facing_start (elems : Vector α n) (cmp : α → α → Int) (index : Int) :
    facing ⟨elems, cmp, index, Vector.replicate (directionArrLen n) 0⟩ =
      elems.toList.map fun a => (a, .left) := by
  refine facing_ext (by simp) ?_
  intro i
  rw [ithDirection_eq]
  simp [permuterIth, readBit, Vector.get]

theorem Sorts.pairwise (h : Sorts qsort cmp) (hcmp : StrictOrder cmp)
    (hnodup : elems.toList.Nodup) :
    (qsort cmp elems).toList.Pairwise fun a b => cmp a b < 0 := by
  obtain ⟨hperm, hsorted⟩ := h elems
  have hdistinct : (qsort cmp elems).toList.Nodup := hperm.nodup_iff.2 hnodup
  refine (hsorted.and hdistinct).imp ?_
  rintro a b ⟨hle, hne⟩
  have := (hcmp.eq_zero a b).not.2 hne
  omega

/-- From a start on, the calls of `next_permutation` go through the permutations of the array. -/
theorem permuter_enumerates (hcmp : StrictOrder cmp) (hqsort : Sorts qsort cmp)
    (hnodup : elems.toList.Nodup) (hstart : Started qsort cmp elems p) :
    ∃ rows : List (List α),
      rows.length = n.factorial ∧ rows.Nodup ∧ (∀ ys, ys ∈ rows ↔ ys.Perm elems.toList) ∧
      (∃ sorted, rows.head? = some sorted ∧ sorted.Pairwise fun a b => cmp a b < 0) ∧
      rows.IsChain AdjacentSwap ∧
      ∀ k, ∃ ret q, calls p k = some (ret, q) ∧ ret.map Vector.toList = rows[k]? ∧
        (n.factorial ≤ k → some q.elems.toList = rows.getLast?) := by
  obtain rfl := hstart.eq
  have hperm := (hqsort elems).1
  have hsorted := hqsort.pairwise hcmp hnodup
  generalize hstarted : qsort cmp elems = sorted at hperm hsorted
  have hpairwise : sorted.toList.reverse.Pairwise fun a b => Larger cmp a b ∧ ¬Larger cmp b a := by
    rw [List.pairwise_reverse]
    refine hsorted.imp fun hab => ?_
    have hlarger := (larger_iff (totalPreorder hcmp)).2 hab
    exact ⟨hlarger, hlarger.asymm (totalPreorder hcmp)⟩
  have hrun := run_plainChanges hpairwise (Larger.irrefl (totalPreorder hcmp))
  rw [List.reverse_reverse, ← facing_start sorted cmp 0] at hrun
  have hlength : (plainChanges sorted.toList.reverse).length = n.factorial := by
    simp [length_plainChanges]
  have hdistinct : sorted.toList.Nodup := hperm.nodup_iff.2 hnodup
  obtain ⟨tail, hrows⟩ := hrun.head
  have hhead : ((plainChanges sorted.toList.reverse).map (List.map Prod.fst))[0]? =
      some sorted.toList := by
    rw [hrows, List.map_cons, List.getElem?_cons_zero, facing_fst]
  refine ⟨(plainChanges sorted.toList.reverse).map (List.map Prod.fst), ?_, ?_, ?_,
    ⟨sorted.toList, ?_, hsorted⟩, hrun.isChain, ?_⟩
  · rw [List.length_map, hlength]
  · exact nodup_plainChanges (List.nodup_reverse.2 hdistinct)
  · intro ys
    rw [mem_plainChanges]
    have hreverse := (List.reverse_perm sorted.toList).trans hperm
    exact ⟨fun h => h.trans hreverse, fun h => h.trans hreverse.symm⟩
  · rw [List.head?_eq_getElem?, hhead]
  · intro k
    have hat : At cmp (plainChanges sorted.toList.reverse) 0 (some (getPermutation
        ⟨sorted, cmp, 0, Vector.replicate (directionArrLen n) 0⟩)) _ :=
      ⟨rfl, hdistinct, hhead.symm, by rwa [Nat.zero_min, List.drop_zero]⟩
    obtain ⟨ret, q, hcalls, hq⟩ := hat.calls hcmp k
    refine ⟨ret, q, hcalls, hq.seen, ?_⟩
    intro hk
    obtain ⟨s, hs⟩ := hq.run.head
    have hlast : (plainChanges sorted.toList.reverse).getLast? = some (facing q) := by
      rw [List.getLast?_eq_getElem?, ← List.head?_drop,
        show (plainChanges sorted.toList.reverse).length - 1 =
          min k ((plainChanges sorted.toList.reverse).length - 1) by omega, hs, List.head?_cons]
    rw [List.getLast?_map, hlast, Option.map_some, facing_fst]

/-- `insertionSort` does what `qsort` is to do. -/
def insertionQsort (cmp : α → α → Int) (xs : Vector α n) : Vector α n :=
  ⟨(xs.toList.insertionSort fun a b => cmp a b ≤ 0).toArray, by simp⟩

theorem sorts_insertionQsort (hcmp : TotalPreorder cmp) :
    Sorts (n := n) insertionQsort cmp := by
  intro xs
  let r := fun a b : α => cmp a b ≤ 0
  have : Std.Total r := by
    refine ⟨fun a b => ?_⟩
    by_contra h
    rw [not_or] at h
    have hlt := (hcmp.swap b a).2 (Int.not_le.1 h.1)
    exact h.2 (Int.le_of_lt hlt)
  have : IsTrans α r := ⟨hcmp.trans⟩
  exact ⟨List.perm_insertionSort r xs.toList, List.pairwise_insertionSort r xs.toList⟩

example : (List.range 7).map (fun k =>
      (calls (newPermuter insertionQsort #v[2, 3, 1] fun a b : Int => a - b) k).map fun c =>
        c.1.map Vector.toList) =
    [[1, 2, 3], [1, 3, 2], [3, 1, 2], [3, 2, 1], [2, 3, 1], [2, 1, 3]].map (some ∘ some) ++
      [some none] := by
  decide +kernel

theorem permuter_enumerates_three : ∃ rows : List (List Int),
    rows.length = Nat.factorial 3 ∧ rows.Nodup ∧ (∀ ys, ys ∈ rows ↔ ys.Perm [2, 3, 1]) ∧
    (∃ sorted, rows.head? = some sorted ∧ sorted.Pairwise fun a b => a - b < 0) ∧
    rows.IsChain AdjacentSwap ∧
    ∀ k, ∃ ret q, calls (newPermuter insertionQsort #v[2, 3, 1] fun a b => a - b) k =
        some (ret, q) ∧
      ret.map Vector.toList = rows[k]? ∧
      (Nat.factorial 3 ≤ k → some q.elems.toList = rows.getLast?) :=
  permuter_enumerates strictOrder_sub (sorts_insertionQsort (totalPreorder strictOrder_sub))
    (show (#v[2, 3, 1] : Vector Int 3).toList.Nodup by decide) .new

end enumeration

end Permuter
end Lisp
