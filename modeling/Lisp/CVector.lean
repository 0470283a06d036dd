import Lisp.Library.Ledger
import Lisp.Machine
import Mathlib.Data.List.Induction

/-! The growing vector of the library (`cvector.c`). A pointer to an element is its index. -/
namespace Lisp
open scoped List
variable {α σ : Type}

/-- `CVector`: a cell for each element there is room for, without contents until one is stored.
The record `cleaned` has the contents of the cells that were passed to `cleanup`. -/
structure CVector (α : Type) where
  elems : List (Option α)
  nelems : Int
  capacity : Int
  cleanup : Bool
  cleaned : List (Option α)
deriving DecidableEq, Repr

section source

/-- `cvec_init`, with or without a cleanup function. -/
def cvecInit (capacityHint : Nat) (cleanup : Bool) : CVector α :=
  let capacity := toInt (if 0 < capacityHint then capacityHint else 16)
  { elems := List.replicate capacity.toNat none
    nelems := 0
    capacity := capacity
    cleanup := cleanup
    cleaned := [] }

/-- The contents of a cell. -/
def cell (cv : CVector α) (el : Nat) : Option α := (cv.elems[el]?).join

/-- `memcpy` of one element to another place. -/
def copyCell (cv : CVector α) (target source : Nat) : CVector α :=
  { cv with elems := cv.elems.set target (cell cv source) }

/-- The call of the cleanup function on an element. -/
def cleanupAt (cv : CVector α) (el : Nat) : CVector α :=
  if cv.cleanup then { cv with cleaned := cv.cleaned ++ [cell cv el] } else cv

/-- `cvec_nth`, which asserts that the index is in range. -/
def cvecNth (cv : CVector α) (index : Int) : Option Nat :=
  if 0 ≤ index ∧ index < cv.nelems then some index.toNat else none

def cvecFirst (cv : CVector α) : Option Nat := if 0 < cv.nelems then some 0 else none

def cvecNext (cv : CVector α) (prev : Nat) : Option Nat :=
  if toInt prev = cv.nelems - 1 then none else some (prev + 1)

/-- A loop over elements from `el` on, for at most the given number of rounds. -/
def forVector (next : Nat → Option Nat) (body : σ → Nat → σ) : Nat → σ → Option Nat → Option σ
  | _, s, none => some s
  | 0, _, some _ => none
  | fuel + 1, s, some el => forVector next body fuel (body s el) (next el)

/-- `cvec_double_size`; the memory is allocated. -/
def cvecDoubleSize (cv : CVector α) : CVector α :=
  let newCapacity := toInt (2 * cv.capacity)
  { cv with
    elems := cv.elems.take newCapacity.toNat ++
      List.replicate (newCapacity.toNat - cv.elems.length) none
    capacity := newCapacity }

def cvecAppend (cv : CVector α) (x : α) : CVector α :=
  let cv := if cv.capacity = cv.nelems then cvecDoubleSize cv else cv
  { cv with elems := cv.elems.set cv.nelems.toNat (some x), nelems := toInt (cv.nelems + 1) }

/-- `cvec_insert`, whose loop copies each cell onto the one before it. -/
def cvecInsert (cv : CVector α) (x : α) (index : Int) : Option (CVector α) :=
  if 0 ≤ index ∧ index ≤ cv.nelems then
    let cv := if cv.capacity = cv.nelems then cvecDoubleSize cv else cv
    let moved := List.range' (index.toNat + 1) (cv.nelems - index).toNat
    let cv := moved.reverse.foldl (fun cv i => copyCell cv (i - 1) i) cv
    some { cv with elems := cv.elems.set index.toNat (some x), nelems := toInt (cv.nelems + 1) }
  else none

/-- The contents of the cells in use. -/
def contents (cv : CVector α) : List (Option α) := cv.elems.take cv.nelems.toNat

def cvecReplace (cv : CVector α) (x : α) (index : Int) : Option (CVector α) := do
  let destination ← cvecNth cv index
  let cv := cleanupAt cv destination
  return { cv with elems := cv.elems.set destination (some x) }

def cvecRemove (cv : CVector α) (index : Int) : Option (CVector α) := do
  let el ← cvecNth cv index
  let cv := cleanupAt cv el
  let cv ← forVector (cvecNext cv) (fun cv next => copyCell cv (next - 1) next) cv.nelems.toNat cv
    (cvecNext cv el)
  return { cv with nelems := toInt (cv.nelems - 1) }

def cvecClear (cv : CVector α) : Option (CVector α) := do
  if !cv.cleanup then return { cv with nelems := 0 } else
  let cv ← forVector (cvecNext cv) cleanupAt cv.nelems.toNat cv (cvecFirst cv)
  return { cv with nelems := 0 }

/-- The loop of `cvec_filter`, for at most the given number of rounds. -/
def filterFrom (predicate : α → Bool) :
    Nat → CVector α → Nat → Nat → Int → Int → Option (CVector α)
  | 0, cv, _, _, numKept, numRemoved =>
    if numKept + numRemoved < cv.nelems then none else some { cv with nelems := numKept }
  | fuel + 1, cv, removedStart, remaining, numKept, numRemoved =>
    if numKept + numRemoved < cv.nelems then
      if (cell cv remaining).any predicate then
        let cv := if 0 < numRemoved then copyCell cv removedStart remaining else cv
        filterFrom predicate fuel cv (removedStart + 1) (remaining + 1) (numKept + 1) numRemoved
      else
        filterFrom predicate fuel (cleanupAt cv remaining) removedStart (remaining + 1) numKept
          (numRemoved + 1)
    else some { cv with nelems := numKept }

def cvecFilter (cv : CVector α) (predicate : α → Bool) : Option (CVector α) :=
  filterFrom predicate cv.nelems.toNat cv 0 0 0 0

/-- `cvec_dispose`, which frees the storage. -/
def cvecDispose (cv : CVector α) : Option (CVector α) := do
  let cv ← cvecClear cv
  return { cv with elems := [] }

/-- The elements that `for_vector` visits. -/
def visited (cv : CVector α) : Option (List (Option α)) :=
  forVector (cvecNext cv) (fun seen el => seen ++ [cell cv el]) cv.nelems.toNat [] (cvecFirst cv)

end source

section runs

inductive CVectorOp (α : Type) where
  | append (x : α)
  | replace (x : α) (index : Int)
  | remove (index : Int)
  | filter (predicate : α → Bool)
  | clear

def CVectorOp.run (cv : CVector α) : CVectorOp α → Option (CVector α)
  | append x => some (cvecAppend cv x)
  | replace x index => cvecReplace cv x index
  | remove index => cvecRemove cv index
  | filter predicate => cvecFilter cv predicate
  | clear => cvecClear cv

def runVector (cv : CVector α) (ops : List (CVectorOp α)) : Option (CVector α) :=
  ops.foldlM CVectorOp.run cv

/-- The elements that an operation stores. -/
def CVectorOp.stored : CVectorOp α → List α
  | append x => [x]
  | replace x _ => [x]
  | remove _ => []
  | filter _ => []
  | clear => []

def storedBy (ops : List (CVectorOp α)) : List α := ops.flatMap CVectorOp.stored

/-- The same operations on a list with fewer than `2 ^ 30` elements: the list, and the
elements that left it, in order. -/
inductive ListRun : List (CVectorOp α) → List α → List α → Prop where
  | init : ListRun [] [] []
  | append {ops : List (CVectorOp α)} {xs gone : List α} (h : ListRun ops xs gone) (x : α)
      (hlen : xs.length + 1 < 2 ^ 30) : ListRun (ops ++ [.append x]) (xs ++ [x]) gone
  | replace {ops : List (CVectorOp α)} {xs gone : List α} (h : ListRun ops xs gone) (x : α)
      (i : Nat) (hi : i < xs.length) :
      ListRun (ops ++ [.replace x i]) (xs.set i x) (gone ++ [xs[i]])
  | remove {ops : List (CVectorOp α)} {xs gone : List α} (h : ListRun ops xs gone) (i : Nat)
      (hi : i < xs.length) : ListRun (ops ++ [.remove i]) (xs.eraseIdx i) (gone ++ [xs[i]])
  | filter {ops : List (CVectorOp α)} {xs gone : List α} (h : ListRun ops xs gone)
      (p : α → Bool) :
      ListRun (ops ++ [.filter p]) (xs.filter p) (gone ++ xs.filter fun x => !p x)
  | clear {ops : List (CVectorOp α)} {xs gone : List α} (h : ListRun ops xs gone) :
      ListRun (ops ++ [.clear]) [] (gone ++ xs)

end runs

/-- The vector holds `xs`, and `gone` was cleaned up. -/
structure Represents (withCleanup : Bool) (cv : CVector α) (xs gone : List α) : Prop where
  elems : ∃ rest, cv.elems = xs.map some ++ rest
  nelems : cv.nelems = xs.length
  room : (cv.elems.length : Int) = cv.capacity
  capacity : 0 < cv.capacity ∧ cv.capacity < 2 ^ 31
  cleanup : cv.cleanup = withCleanup
  cleaned : cv.cleaned = if withCleanup then gone.map some else []

variable {cv cv' : CVector α} {xs gone : List α} {i n fuel : Nat} {x : α} {index : Int}
  {ops : List (CVectorOp α)} {hint : Nat} {w : Bool}

section loops

theorem forVector_none (next : Nat → Option Nat) (body : σ → Nat → σ) (s : σ) :
    forVector next body fuel s none = some s := by
  cases fuel <;> rfl

theorem forVector_some (next : Nat → Option Nat) (body : σ → Nat → σ) (s : σ) :
    forVector next body (fuel + 1) s (some i) = forVector next body fuel (body s i) (next i) := rfl

theorem cvecNext_eq (hn : cv.nelems = n) (hlt : n < 2 ^ 31) (hi : i < n) :
    cvecNext cv i = if i + 1 < n then some (i + 1) else none := by
  rw [cvecNext, toInt_natCast (by omega), hn]
  by_cases hlast : i + 1 < n
  · rw [if_pos hlast, if_neg (by omega)]
  · rw [if_neg hlast, if_pos (by omega)]

/-- A loop goes over the indices from `i` up to the number of elements. -/
theorem forVector_eq (body : σ → Nat → σ) (i fuel : Nat) (s : σ) (hn : cv.nelems = n)
    (hlt : n < 2 ^ 31) (hfuel : n - i ≤ fuel) :
    forVector (cvecNext cv) body fuel s (if i < n then some i else none) =
      some ((List.range' i (n - i)).foldl body s) := by
  induction fuel generalizing i s with
  | zero =>
    have hi : ¬i < n := by omega
    rw [if_neg hi, forVector_none, Nat.sub_eq_zero_of_le (Nat.le_of_not_lt hi)]
    rfl
  | succ fuel ih =>
    by_cases hi : i < n
    · have hrange : List.range' i (n - i) = i :: List.range' (i + 1) (n - (i + 1)) := by
        rw [show n - i = n - (i + 1) + 1 by omega, List.range'_succ]
      rw [if_pos hi, forVector_some, cvecNext_eq hn hlt hi, ih _ _ (by omega), hrange,
        List.foldl_cons]
    · rw [if_neg hi, forVector_none, Nat.sub_eq_zero_of_le (Nat.le_of_not_lt hi)]
      rfl

theorem map_cell {rest : List (Option α)} (he : cv.elems = xs.map some ++ rest) :
    (List.range' 0 xs.length).map (cell cv) = xs.map some := by
  apply List.ext_getElem
  · simp
  · intro j hj _
    have hj' : j < xs.length := by simpa using hj
    simp [cell, he, List.getElem?_append_left, hj']

theorem foldl_cleanupAt (hc : cv.cleanup = true) (l : List Nat) (done : List (Option α)) :
    l.foldl cleanupAt { cv with cleaned := done } =
      { cv with cleaned := done ++ l.map (cell cv) } := by
  induction l generalizing done with
  | nil => simp
  | cons a l ih =>
    have hstep : cleanupAt { cv with cleaned := done } a =
        { cv with cleaned := done ++ [cell cv a] } := by
      simp [cleanupAt, hc, cell]
    rw [List.foldl_cons, hstep, ih]
    simp

/-- Each element after the first moves one place down. -/
theorem foldl_copyCell (cv : CVector α) (suf rest pre : List (Option α)) (y : Option α) : ∃ z,
    (List.range' (pre.length + 1) suf.length).foldl
      (fun cv next => copyCell cv (next - 1) next)
      { cv with elems := pre ++ y :: (suf ++ rest) } =
        { cv with elems := pre ++ (suf ++ z :: rest) } := by
  induction suf generalizing pre y with
  | nil => exact ⟨y, rfl⟩
  | cons z suf ih =>
    have hcopy : copyCell { cv with elems := pre ++ y :: (z :: suf ++ rest) } pre.length
        (pre.length + 1) = { cv with elems := (pre ++ [z]) ++ z :: (suf ++ rest) } := by
      simp [copyCell, cell]
    obtain ⟨w, hw⟩ := ih (pre ++ [z]) z
    refine ⟨w, ?_⟩
    rw [List.length_cons, List.range'_succ, List.foldl_cons, Nat.add_sub_cancel, hcopy]
    simpa using hw

/-- What the loop of `cvec_filter` leaves: `kept` and the elements of `todo` that satisfy the
predicate. -/
structure Filtered (cv cv' : CVector α) (kept removed : List α) : Prop where
  elems : ∃ rest, cv'.elems = kept.map some ++ rest
  nelems : cv'.nelems = kept.length
  length : cv'.elems.length = cv.elems.length
  capacity : cv'.capacity = cv.capacity
  cleanup : cv'.cleanup = cv.cleanup
  cleaned : cv'.cleaned = cv.cleaned ++ if cv.cleanup then removed.map some else []

/-- In front of the elements to do are the kept ones, and as many other cells as were removed. -/
theorem filterFrom_eq (p : α → Bool) (todo kept : List α) (gap rest : List (Option α))
    (cv : CVector α) (a b fuel : Nat) (k r : Int)
    (he : cv.elems = kept.map some ++ (gap ++ (todo.map some ++ rest)))
    (hn : cv.nelems = k + r + todo.length) (ha : a = kept.length) (hb : b = a + gap.length)
    (hk : k = kept.length) (hr : r = gap.length) (hfuel : todo.length ≤ fuel) :
    ∃ cv', filterFrom p fuel cv a b k r = some cv' ∧
      Filtered cv cv' (kept ++ todo.filter p) (todo.filter fun x => !p x) := by
  induction todo generalizing cv kept gap a b k r fuel with
  | nil =>
    have hend : ¬k + r < cv.nelems := by simp [hn]
    refine ⟨{ cv with nelems := k }, ?_, ?_⟩
    · cases fuel with
      | zero => simp [filterFrom, hend]
      | succ fuel => simp [filterFrom, hend]
    · exact ⟨⟨gap ++ rest, by simp [he]⟩, by simpa using hk, rfl, rfl, rfl, by simp⟩
  | cons x todo ih =>
    obtain _ | fuel := fuel
    · simp at hfuel
    simp only [List.length_cons, Nat.cast_add, Nat.cast_one] at hn hfuel
    have hcell : cell cv b = some x := by
      subst ha hb
      simp [cell, he]
    rw [filterFrom, if_pos (by omega), hcell, Option.any_some]
    cases hp : p x with
    | false =>
      -- The element is cleaned up, and its cell becomes one more to fill.
      rw [if_neg (by simp)]
      obtain ⟨hclean, he₁, hn₁, hcap₁, hc₁⟩ : (cleanupAt cv b).cleaned =
          cv.cleaned ++ (if cv.cleanup then [some x] else []) ∧
          (cleanupAt cv b).elems = cv.elems ∧ (cleanupAt cv b).nelems = cv.nelems ∧
          (cleanupAt cv b).capacity = cv.capacity ∧ (cleanupAt cv b).cleanup = cv.cleanup := by
        unfold cleanupAt
        by_cases hc : cv.cleanup = true
        · simp [hc, hcell]
        · simp [hc]
      obtain ⟨cv', hcv', hf⟩ := ih kept (gap ++ [some x]) (cleanupAt cv b) a (b + 1) fuel k (r + 1)
        (by simp [he₁, he]) (by omega) ha
        (by simp only [List.length_append, List.length_singleton]; omega) hk (by simp [hr])
        (by omega)
      refine ⟨cv', hcv', ?_⟩
      constructor
      case elems => simpa [hp] using hf.elems
      case nelems => simpa [hp] using hf.nelems
      case length => rw [hf.length, he₁]
      case capacity => rw [hf.capacity, hcap₁]
      case cleanup => rw [hf.cleanup, hc₁]
      case cleaned =>
        rw [hf.cleaned, hclean, hc₁]
        by_cases hc : cv.cleanup = true
        · simp [hc, hp]
        · simp [hc]
    | true =>
      rw [if_pos rfl]
      -- The element goes to the first cell to fill, if there is one.
      obtain ⟨cv₁, gap', hcv₁, he₁, hlen, hsame⟩ : ∃ (cv₁ : CVector α) (gap' : List (Option α)),
          (if 0 < r then copyCell cv a b else cv) = cv₁ ∧
          cv₁.elems = (kept ++ [x]).map some ++ (gap' ++ (todo.map some ++ rest)) ∧
          gap'.length = gap.length ∧ cv₁ = { cv with elems := cv₁.elems } := by
        cases gap with
        | nil =>
          refine ⟨cv, [], if_neg (by simp [hr]), by simp [he], rfl, rfl⟩
        | cons g gap =>
          refine ⟨_, gap ++ [some x], if_pos (by simp [hr]), ?_, by simp, rfl⟩
          subst ha
          simp [copyCell, hcell, he]
      rw [hcv₁]
      have hlen₁ : cv₁.elems.length = cv.elems.length := by
        rw [he₁, he]
        simp [hlen]
        omega
      have hn₁ : cv₁.nelems = cv.nelems := by rw [hsame]
      obtain ⟨cv', hcv', hf⟩ := ih (kept ++ [x]) gap' cv₁ (a + 1) (b + 1) fuel (k + 1) r
        he₁ (by omega) (by simp [ha]) (by omega) (by simp [hk]) (by omega) (by omega)
      refine ⟨cv', hcv', ?_⟩
      constructor
      case elems => simpa [hp] using hf.elems
      case nelems => simpa [hp] using hf.nelems
      case length => rw [hf.length, hlen₁]
      case capacity =>
        rw [hf.capacity, hsame]
      case cleanup =>
        rw [hf.cleanup, hsame]
      case cleaned =>
        rw [hf.cleaned, hsame]
        simp [hp]

end loops

section operations

theorem Represents.le (hr : Represents w cv xs gone) : cv.nelems ≤ cv.capacity := by
  obtain ⟨rest, hrest⟩ := hr.elems
  rw [hr.nelems, ← hr.room, hrest, List.length_append, List.length_map]
  omega

theorem Represents.lt (hr : Represents w cv xs gone) : xs.length < 2 ^ 31 := by
  have h1 := hr.le
  have h2 := hr.capacity.2
  have h3 := hr.nelems
  omega

theorem represents_init (hhint : hint < 2 ^ 31) (cleanup : Bool) :
    Represents cleanup (cvecInit hint cleanup : CVector α) [] [] := by
  have hcap : toInt (if 0 < hint then (hint : Int) else 16) =
      if 0 < hint then (hint : Int) else 16 := by
    apply toInt_eq_self
    · split <;> omega
    · split <;> omega
  constructor
  case elems => exact ⟨_, rfl⟩
  case nelems => rfl
  case room =>
    simp only [cvecInit, hcap, List.length_replicate]
    split <;> omega
  case capacity =>
    simp only [cvecInit, hcap]
    split <;> omega
  case cleanup => rfl
  case cleaned => cases cleanup <;> rfl

/-- Doubling keeps the elements and makes room. -/
theorem Represents.doubled (hr : Represents w cv xs gone) (hfull : cv.capacity = cv.nelems)
    (hlen : xs.length < 2 ^ 30) : Represents w (cvecDoubleSize cv) xs gone ∧
      (cvecDoubleSize cv).nelems < (cvecDoubleSize cv).capacity := by
  have hn := hr.nelems
  have hroom := hr.room
  have hpos := hr.capacity.1
  have hcap : toInt (2 * cv.capacity) = 2 * cv.capacity := toInt_eq_self (by omega) (by omega)
  have htake : cv.elems.take (2 * cv.capacity).toNat = cv.elems :=
    List.take_of_length_le (by omega)
  obtain ⟨rest, hrest⟩ := hr.elems
  refine ⟨?_, ?_⟩
  · constructor
    case elems =>
      simp only [cvecDoubleSize, hcap, htake]
      exact ⟨_, by rw [hrest, List.append_assoc]⟩
    case nelems => exact hn
    case room =>
      simp only [cvecDoubleSize, hcap, htake, List.length_append, List.length_replicate]
      omega
    case capacity =>
      simp only [cvecDoubleSize, hcap]
      omega
    case cleanup => exact hr.cleanup
    case cleaned => exact hr.cleaned
  · simp only [cvecDoubleSize, hcap]
    omega

/-- A vector without room is doubled before it takes one more element. -/
theorem Represents.grown (hr : Represents w cv xs gone)
    (hgrow : cv.capacity = cv.nelems → xs.length < 2 ^ 30) :
    ∃ cv', (if cv.capacity = cv.nelems then cvecDoubleSize cv else cv) = cv' ∧
      Represents w cv' xs gone ∧ cv'.nelems < cv'.capacity := by
  by_cases hfull : cv.capacity = cv.nelems
  · have hd := hr.doubled hfull (hgrow hfull)
    exact ⟨_, if_pos hfull, hd.1, hd.2⟩
  · have hle := hr.le
    exact ⟨_, if_neg hfull, hr, by omega⟩

theorem Represents.append (hr : Represents w cv xs gone) (hlen : xs.length + 1 < 2 ^ 30) (x : α) :
    Represents w (cvecAppend cv x) (xs ++ [x]) gone := by
  obtain ⟨cv', heq, hr', hlt⟩ := hr.grown fun _ => by omega
  have hn := hr'.nelems
  have hroom := hr'.room
  obtain ⟨rest, hrest⟩ := hr'.elems
  cases rest with
  | nil =>
    rw [hrest, List.append_nil, List.length_map] at hroom
    omega
  | cons y rest =>
    have hset : cv'.elems.set cv'.nelems.toNat (some x) = (xs ++ [x]).map some ++ rest := by
      rw [hrest, hn, Int.toNat_natCast]
      simp
    unfold cvecAppend
    simp only [heq]
    constructor
    case elems => exact ⟨rest, hset⟩
    case nelems =>
      simp only [hn, List.length_append, List.length_singleton]
      rw [toInt_eq_self (by omega) (by omega), Nat.cast_add, Nat.cast_one]
    case room => simpa using hroom
    case capacity => exact hr'.capacity
    case cleanup => exact hr'.cleanup
    case cleaned => exact hr'.cleaned

theorem Represents.nth (hr : Represents w cv xs gone) (hi : i < xs.length) :
    cvecNth cv i = some i := by
  have hn := hr.nelems
  rw [cvecNth, if_pos (by omega), Int.toNat_natCast]

/-- The cleanup function is called on an element of the vector. -/
theorem Represents.cleanupAt (hr : Represents w cv xs gone) (hi : i < xs.length) :
    Represents w (cleanupAt cv i) xs (gone ++ [xs[i]]) := by
  obtain ⟨rest, hrest⟩ := hr.elems
  have hcell : cell cv i = some xs[i] := by
    simp [cell, hrest, List.getElem?_append_left, hi]
  have hcleaned := hr.cleaned
  have hw := hr.cleanup
  unfold Lisp.cleanupAt
  cases w with
  | true =>
    rw [if_pos hw]
    exact ⟨hr.elems, hr.nelems, hr.room, hr.capacity, hw, by simp [hcleaned, hcell]⟩
  | false =>
    rw [if_neg (by simp [hw])]
    exact ⟨hr.elems, hr.nelems, hr.room, hr.capacity, hw, by simpa using hcleaned⟩

theorem Represents.replace (hr : Represents w cv xs gone) (hi : i < xs.length) (x : α) :
    ∃ cv', cvecReplace cv x i = some cv' ∧ Represents w cv' (xs.set i x) (gone ++ [xs[i]]) := by
  have hr' := hr.cleanupAt hi
  obtain ⟨rest, hrest⟩ := hr'.elems
  refine ⟨_, by simp only [cvecReplace, hr.nth hi, Option.bind_eq_bind, Option.bind_some]; rfl, ?_⟩
  constructor
  case elems =>
    refine ⟨rest, ?_⟩
    simp only [hrest]
    rw [List.set_append_left _ _ (by simpa using hi), List.map_set]
  case nelems => simpa using hr'.nelems
  case room => simpa using hr'.room
  case capacity => exact hr'.capacity
  case cleanup => exact hr'.cleanup
  case cleaned => exact hr'.cleaned

theorem Represents.remove (hr : Represents w cv xs gone) (hi : i < xs.length) :
    ∃ cv', cvecRemove cv i = some cv' ∧ Represents w cv' (xs.eraseIdx i) (gone ++ [xs[i]]) := by
  have hlt := hr.lt
  have hr' := hr.cleanupAt hi
  generalize hcv : Lisp.cleanupAt cv i = cv₁ at hr'
  have hn := hr'.nelems
  obtain ⟨rest, hrest⟩ := hr'.elems
  have hsplit : xs = xs.take i ++ xs[i] :: xs.drop (i + 1) := by simp
  have helems : cv₁.elems = (xs.take i).map some ++
      some xs[i] :: ((xs.drop (i + 1)).map some ++ rest) := by
    rw [hrest]
    conv_lhs => rw [hsplit]
    simp only [List.map_append, List.map_cons, List.append_assoc, List.cons_append]
  have hlen : ((xs.take i).map some).length = i := by
    simp
    omega
  obtain ⟨z, hz⟩ := foldl_copyCell cv₁ ((xs.drop (i + 1)).map some) rest ((xs.take i).map some)
    (some xs[i])
  rw [← helems, hlen] at hz
  have hloop := forVector_eq (fun cv next => copyCell cv (next - 1) next) (i + 1)
    cv₁.nelems.toNat cv₁ hn hlt (by omega)
  rw [← cvecNext_eq hn hlt hi, show xs.length - (i + 1) = ((xs.drop (i + 1)).map some).length by
    simp, hz] at hloop
  refine ⟨{ cv₁ with
    elems := (xs.take i).map some ++ ((xs.drop (i + 1)).map some ++ z :: rest)
    nelems := toInt (cv₁.nelems - 1) }, ?_, ?_⟩
  · simp only [cvecRemove, hr.nth hi, hcv, hloop, Option.bind_eq_bind, Option.bind_some]
    rfl
  · constructor
    case elems =>
      refine ⟨z :: rest, ?_⟩
      simp [List.eraseIdx_eq_take_drop_succ]
    case nelems =>
      show toInt (cv₁.nelems - 1) = _
      rw [toInt_eq_self (by omega) (by omega), hn, List.length_eraseIdx, if_pos hi]
      omega
    case room =>
      rw [← hr'.room, helems]
      simp
      omega
    case capacity => exact hr'.capacity
    case cleanup => exact hr'.cleanup
    case cleaned => exact hr'.cleaned

theorem Represents.first (hr : Represents w cv xs gone) :
    cvecFirst cv = if 0 < xs.length then some 0 else none := by
  simp [cvecFirst, hr.nelems]

theorem Represents.clear (hr : Represents w cv xs gone) :
    ∃ cv', cvecClear cv = some cv' ∧ Represents w cv' [] (gone ++ xs) := by
  have hcleaned := hr.cleaned
  have hw := hr.cleanup
  obtain ⟨rest, hrest⟩ := hr.elems
  cases w with
  | false =>
    refine ⟨{ cv with nelems := 0 }, by simp [cvecClear, hw], ?_⟩
    exact ⟨⟨_, rfl⟩, rfl, hr.room, hr.capacity, hw, by simpa using hcleaned⟩
  | true =>
    have hloop := forVector_eq Lisp.cleanupAt 0 cv.nelems.toNat cv hr.nelems hr.lt
      (by rw [hr.nelems]; omega)
    have hfold := foldl_cleanupAt hw (List.range' 0 xs.length) cv.cleaned
    rw [map_cell hrest] at hfold
    rw [← hr.first, Nat.sub_zero, hfold, hcleaned] at hloop
    refine ⟨{ cv with cleaned := gone.map some ++ xs.map some, nelems := 0 }, ?_, ?_⟩
    · simp [cvecClear, hw, hloop]
    · exact ⟨⟨_, rfl⟩, rfl, hr.room, hr.capacity, hw, by simp⟩

theorem Represents.visited (hr : Represents w cv xs gone) : visited cv = some (xs.map some) := by
  obtain ⟨rest, hrest⟩ := hr.elems
  have hfold : ∀ (l : List Nat) (s : List (Option α)),
      l.foldl (fun seen el => seen ++ [cell cv el]) s = s ++ l.map (cell cv) := by
    intro l
    induction l with
    | nil => simp
    | cons a l ih => simp [ih]
  have hloop := forVector_eq (fun seen el => seen ++ [cell cv el]) 0 cv.nelems.toNat []
    hr.nelems hr.lt (by rw [hr.nelems]; omega)
  rw [← hr.first, Nat.sub_zero, hfold, map_cell hrest] at hloop
  simpa [Lisp.visited] using hloop

theorem Represents.filter (hr : Represents w cv xs gone) (p : α → Bool) :
    ∃ cv', cvecFilter cv p = some cv' ∧
      Represents w cv' (xs.filter p) (gone ++ xs.filter fun x => !p x) := by
  obtain ⟨rest, hrest⟩ := hr.elems
  have hn := hr.nelems
  obtain ⟨cv', hcv', hf⟩ := filterFrom_eq p xs [] [] rest cv 0 0 cv.nelems.toNat 0 0
    (by simpa using hrest) (by simpa using hn) rfl rfl rfl rfl (by omega)
  refine ⟨cv', hcv', ?_⟩
  constructor
  case elems => exact hf.elems
  case nelems => exact hf.nelems
  case room => rw [hf.length, hf.capacity, hr.room]
  case capacity => exact hf.capacity ▸ hr.capacity
  case cleanup => rw [hf.cleanup, hr.cleanup]
  case cleaned =>
    rw [hf.cleaned, hr.cleanup, hr.cleaned]
    cases w with
    | false => simp
    | true => simp

end operations

section refinement

theorem runVector_append {op : CVectorOp α} (h : runVector cv ops = some cv') :
    runVector cv (ops ++ [op]) = op.run cv' := by
  unfold runVector at h ⊢
  rw [List.foldlM_append, h]
  simp

/-- Each operation on the vector is the one on the list. -/
theorem ListRun.represents (h : ListRun ops xs gone) (hhint : hint < 2 ^ 31) (cleanup : Bool) :
    ∃ cv, runVector (cvecInit hint cleanup) ops = some cv ∧ Represents cleanup cv xs gone := by
  induction h with
  | init => exact ⟨_, rfl, represents_init hhint cleanup⟩
  | append _ x hlen ih =>
    obtain ⟨cv, hcv, hr⟩ := ih
    exact ⟨_, runVector_append hcv, hr.append hlen x⟩
  | replace _ x i hi ih =>
    obtain ⟨cv, hcv, hr⟩ := ih
    obtain ⟨cv', hcv', hr'⟩ := hr.replace hi x
    exact ⟨cv', (runVector_append hcv).trans hcv', hr'⟩
  | remove _ i hi ih =>
    obtain ⟨cv, hcv, hr⟩ := ih
    obtain ⟨cv', hcv', hr'⟩ := hr.remove hi
    exact ⟨cv', (runVector_append hcv).trans hcv', hr'⟩
  | filter _ p ih =>
    obtain ⟨cv, hcv, hr⟩ := ih
    obtain ⟨cv', hcv', hr'⟩ := hr.filter p
    exact ⟨cv', (runVector_append hcv).trans hcv', hr'⟩
  | clear _ ih =>
    obtain ⟨cv, hcv, hr⟩ := ih
    obtain ⟨cv', hcv', hr'⟩ := hr.clear
    exact ⟨cv', (runVector_append hcv).trans hcv', hr'⟩

theorem storedBy_append (ops : List (CVectorOp α)) (op : CVectorOp α) :
    storedBy (ops ++ [op]) = storedBy ops ++ op.stored := by
  simp [storedBy]

/-- What was stored is in the list or has left it, each element once. -/
theorem ListRun.ledger (h : ListRun ops xs gone) : Ledger (storedBy ops) xs gone := by
  induction h with
  | init => exact .init
  | @append ops xs gone _ x _ ih =>
    rw [storedBy_append, CVectorOp.stored]
    exact (ih.enter x).perm (List.perm_append_singleton x xs).symm
  | @replace ops xs gone _ x i hi ih =>
    rw [storedBy_append, CVectorOp.stored]
    have hleft := (ih.perm (List.getElem_cons_eraseIdx_perm hi).symm).leave
    exact (hleft.enter x).perm (List.set_perm_cons_eraseIdx hi x).symm
  | @remove ops xs gone _ i hi ih =>
    rw [storedBy_append, CVectorOp.stored, List.append_nil]
    exact (ih.perm (List.getElem_cons_eraseIdx_perm hi).symm).leave
  | @filter ops xs gone _ p ih =>
    rw [storedBy_append, CVectorOp.stored, List.append_nil]
    exact (ih.perm (List.filter_append_perm p xs).symm).leaveAll
  | @clear ops xs gone _ ih =>
    rw [storedBy_append, CVectorOp.stored, List.append_nil]
    exact Ledger.leaveAll (ih : Ledger _ ([] ++ xs) gone)

/-- A run of the vector is a run of a list: its contents, in order, are the list, it has room for
them, a loop over it visits them and ends, and the elements that left the list, and no others, were
cleaned up, each once. Disposing of the vector cleans up the rest. -/
theorem cvector_refines (h : ListRun ops xs gone) (hhint : hint < 2 ^ 31) (cleanup : Bool) :
    ∃ cv cv', runVector (cvecInit hint cleanup) ops = some cv ∧
      cv.nelems = xs.length ∧ cv.nelems ≤ cv.capacity ∧
      (∀ i : Nat, i < xs.length → ∃ el, cvecNth cv i = some el ∧ cell cv el = xs[i]?) ∧
      visited cv = some (xs.map some) ∧
      cv.cleaned = (if cleanup then gone.map some else []) ∧
      cvecDispose cv = some cv' ∧
      cv'.cleaned = (if cleanup then (gone ++ xs).map some else []) ∧
      (storedBy ops).Perm (gone ++ xs) := by
  obtain ⟨cv, hcv, hr⟩ := h.represents hhint cleanup
  obtain ⟨cv', hcv', hr'⟩ := hr.clear
  refine ⟨cv, { cv' with elems := [] }, hcv, hr.nelems, hr.le, ?_, hr.visited, hr.cleaned, ?_,
    hr'.cleaned, h.ledger.trans List.perm_append_comm⟩
  · intro i hi
    obtain ⟨rest, hrest⟩ := hr.elems
    exact ⟨i, hr.nth hi, by simp [cell, hrest, List.getElem?_append_left, hi]⟩
  · simp [cvecDispose, hcv']

theorem cvector_refines_remove : ∃ cv cv' : CVector Nat,
    runVector (cvecInit 1 true) [.append 5, .append 6, .remove 0] = some cv ∧
      visited cv = some [some 6] ∧ cv.cleaned = [some 5] ∧ cvecDispose cv = some cv' ∧
      cv'.cleaned = [some 5, some 6] := by
  have hrun : ListRun [.append 5, .append 6, .remove 0] [6] [5] :=
    .remove (.append (.append .init 5 (by decide)) 6 (by decide)) 0 (by decide)
  obtain ⟨cv, cv', h1, -, -, -, h5, h6, h7, h8, -⟩ := 
    cvector_refines hrun (by decide : 1 < 2 ^ 31) true
  exact ⟨cv, cv', h1, h5, h6, h7, h8⟩

end refinement

section insertion

/-- The loop of `cvec_insert` carries the contents of the cell behind the last element back to the
cell of the index. -/
theorem foldl_copyBack (cv : CVector α) (pre mid rest : List (Option α)) (g : Option α) :
    (List.range' (pre.length + 1) mid.length).reverse.foldl (fun cv i => copyCell cv (i - 1) i)
      { cv with elems := pre ++ (mid ++ g :: rest) } =
        { cv with elems := pre ++ (List.replicate (mid.length + 1) g ++ rest) } := by
  induction mid using List.reverseRecOn generalizing rest with
  | nil => rfl
  | append_singleton mid y ih =>
    have hcopy : copyCell { cv with elems := pre ++ (mid ++ [y] ++ g :: rest) }
        (pre.length + mid.length) (pre.length + mid.length + 1) =
          { cv with elems := pre ++ (mid ++ g :: g :: rest) } := by
      simp [copyCell, cell, List.append_assoc, Nat.add_assoc]
    rw [List.length_append, List.length_singleton, List.range'_concat, List.reverse_concat,
      List.foldl_cons]
    simp only [Nat.one_mul, Nat.add_right_comm _ 1, Nat.add_sub_cancel]
    rw [hcopy, ih (g :: rest)]
    simp [List.replicate_succ']

/-- What the cell behind the last element holds when the loop of `cvec_insert` starts. -/
def behind (cv : CVector α) : Option α :=
  if cv.capacity = cv.nelems then none else cell cv cv.nelems.toNat

theorem behind_doubled (hr : Represents w cv xs gone) (hfull : cv.capacity = cv.nelems)
    {g : Option α} {rest : List (Option α)}
    (he : (cvecDoubleSize cv).elems = xs.map some ++ g :: rest) : g = none := by
  have hn := hr.nelems
  have hroom := hr.room
  have hlen : cv.elems.length = xs.length := by omega
  have hg : (cvecDoubleSize cv).elems[xs.length]? = some g := by simp [he]
  by_cases hlt : (cv.elems.take (toInt (2 * cv.capacity)).toNat).length ≤ xs.length
  · simp only [cvecDoubleSize] at hg
    rw [List.getElem?_append_right hlt] at hg
    exact (List.eq_of_mem_replicate (List.mem_of_getElem? hg)).symm ▸ rfl
  · rw [List.length_take] at hlt
    omega

/-- The elements in front of the index stay, and all behind it become what was in the cell behind
the last. -/
theorem Represents.insert (hr : Represents w cv xs gone) (hi : i ≤ xs.length)
    (hgrow : cv.capacity = cv.nelems → xs.length < 2 ^ 30) (x : α) :
    ∃ cv', cvecInsert cv x i = some cv' ∧ contents cv' = (xs.take i ++ [x]).map some ++
      List.replicate (xs.length - i) (behind cv) := by
  obtain ⟨cv', heq, hr', hlt⟩ := hr.grown hgrow
  have hn := hr'.nelems
  have hroom := hr'.room
  have hcap := hr'.capacity.2
  obtain ⟨rest, hrest⟩ := hr'.elems
  cases rest with
  | nil =>
    rw [hrest, List.append_nil, List.length_map] at hroom
    omega
  | cons g rest =>
    have hg : behind cv = g := by
      unfold behind
      by_cases hfull : cv.capacity = cv.nelems
      · rw [if_pos hfull] at heq ⊢
        exact (behind_doubled hr hfull (heq ▸ hrest)).symm
      · rw [if_neg hfull] at heq ⊢
        subst heq
        simp [cell, hn, hrest]
    have hloop := foldl_copyBack cv' ((xs.take i).map some) ((xs.drop i).map some) rest g
    have hsplit : (xs.take i).map some ++ ((xs.drop i).map some ++ g :: rest) = cv'.elems := by
      rw [hrest, ← List.append_assoc, ← List.map_append, List.take_append_drop]
    have hcount : (cv'.nelems - i).toNat = xs.length - i := by omega
    have hnext : (toInt (cv'.nelems + 1)).toNat = xs.length + 1 := by
      rw [toInt_eq_self (by omega) (by omega)]
      omega
    rw [hsplit] at hloop
    simp only [List.length_map, List.length_take, List.length_drop, Nat.min_eq_left hi] at hloop
    rw [cvecInsert, if_pos ⟨by omega, by rw [hr.nelems]; omega⟩, heq]
    refine ⟨_, rfl, ?_⟩
    have hset : ((xs.take i).map some ++ (List.replicate (xs.length - i + 1) g ++ rest)).set i
        (some x) = (xs.take i ++ [x]).map some ++ (List.replicate (xs.length - i) g ++ rest) := by
      rw [List.set_append_right _ _ (by simp), List.length_map, List.length_take,
        Nat.min_eq_left hi, Nat.sub_self, List.replicate_succ]
      simp
    simp only [Int.toNat_natCast, hcount, hloop, contents, hnext, hset, hg]
    rw [← List.append_assoc, List.take_left']
    simp only [List.length_append, List.length_map, List.length_take, List.length_replicate,
      List.length_singleton, Nat.min_eq_left hi]
    omega

theorem behind_iff (hr : Represents w cv xs gone) (hi : i ≤ xs.length) :
    (∀ y ∈ xs.drop i, behind cv = some y) ↔ i = xs.length ∨
      (cv.nelems < cv.capacity ∧ ∀ y ∈ xs.drop i, cell cv xs.length = some y) := by
  have hle := hr.le
  have hn := hr.nelems
  by_cases hend : i = xs.length
  · simp [hend]
  · have hmem : xs[i] ∈ xs.drop i := by
      rw [List.drop_eq_getElem_cons (by omega)]
      exact List.mem_cons_self
    by_cases hfull : cv.capacity = cv.nelems
    · have hbehind : behind cv = none := if_pos hfull
      constructor
      · intro h
        have hnone := h _ hmem
        rw [hbehind] at hnone
        cases hnone
      · rintro (h | ⟨hlt, -⟩)
        · exact absurd h hend
        · omega
    · have hbehind : behind cv = cell cv xs.length := by
        rw [behind, if_neg hfull, hn, Int.toNat_natCast]
      have hlt : cv.nelems < cv.capacity := by omega
      simp [hbehind, hend, hlt]

/-- Where the doubled capacity is no `int`, there is no memory left to write to. -/
theorem Represents.doubled_overflow (hr : Represents w cv xs gone) (hlen : 2 ^ 30 ≤ cv.capacity) :
    (cvecDoubleSize cv).elems = [] := by
  have hlt := hr.capacity.2
  have hwrap : toInt (2 * cv.capacity) = toInt (2 * cv.capacity - 2 ^ 32) :=
    (Int.sub_bmod_right _ (2 ^ 32)).symm
  have hcap : toInt (2 * cv.capacity) = 2 * cv.capacity - 2 ^ 32 := by
    rw [hwrap, toInt_eq_self (by omega) (by omega)]
  have hnone : (toInt (2 * cv.capacity)).toNat = 0 := by omega
  simp only [cvecDoubleSize, hnone, List.take_zero, Nat.zero_sub, List.replicate_zero,
    List.append_nil]

theorem elems_foldl_copyCell (l : List Nat) (h : cv.elems = []) :
    (l.foldl (fun cv i => copyCell cv (i - 1) i) cv).elems = [] := by
  induction l generalizing cv with
  | nil => exact h
  | cons i l ih => exact ih (by simp only [copyCell, h, List.set_nil])

/-- A vector whose capacity cannot be doubled within an `int` does not take one more element. -/
theorem Represents.insert_overflow (hr : Represents w cv xs gone)
    (hfull : cv.capacity = cv.nelems) (hlen : 2 ^ 30 ≤ xs.length)
    (h : cvecInsert cv x i = some cv') : contents cv' = [] := by
  have hn := hr.nelems
  have hnone := hr.doubled_overflow (by omega)
  by_cases hi : 0 ≤ (i : Int) ∧ i ≤ cv.nelems
  · rw [cvecInsert, if_pos hi, if_pos hfull] at h
    obtain rfl := Option.some.inj h
    simp only [contents, elems_foldl_copyCell _ hnone, List.set_nil, List.take_nil]
  · rw [cvecInsert, if_neg hi] at h
    cases h

/-- An insertion keeps the elements behind the index if and only if a capacity that must be doubled
stays an `int`, and the index is at the end or the cell behind the last element happens to hold each
of them. -/
theorem cvecInsert_iff (hr : Represents w cv xs gone) (hi : i ≤ xs.length) (x : α) :
    (∃ cv', cvecInsert cv x i = some cv' ∧
      contents cv' = (xs.take i ++ x :: xs.drop i).map some) ↔
    (cv.capacity = cv.nelems → xs.length < 2 ^ 30) ∧ (i = xs.length ∨
      (cv.nelems < cv.capacity ∧ ∀ y ∈ xs.drop i, cell cv xs.length = some y)) := by
  by_cases hgrow : cv.capacity = cv.nelems → xs.length < 2 ^ 30
  · obtain ⟨cv', hcv', hcontents⟩ := hr.insert hi hgrow x
    have hsplit : (xs.take i ++ x :: xs.drop i).map some =
        (xs.take i ++ [x]).map some ++ (xs.drop i).map some := by simp
    have hreplicate : List.replicate (xs.length - i) (behind cv) = (xs.drop i).map some ↔
        ∀ y ∈ xs.drop i, behind cv = some y := by
      rw [eq_comm, List.eq_replicate_iff, List.forall_mem_map]
      simp only [List.length_map, List.length_drop, true_and, eq_comm]
    rw [and_iff_right hgrow, ← behind_iff hr hi, ← hreplicate]
    constructor
    · rintro ⟨cv'', hcv'', h⟩
      obtain rfl : cv' = cv'' := Option.some.inj (hcv'.symm.trans hcv'')
      rw [hcontents, hsplit] at h
      exact List.append_cancel_left h
    · intro h
      exact ⟨cv', hcv', by rw [hcontents, hsplit, h]⟩
  · obtain ⟨hfull, hlen⟩ := Classical.not_imp.mp hgrow
    constructor
    · rintro ⟨cv', hcv', h⟩
      rw [hr.insert_overflow hfull (Nat.le_of_not_lt hlen) hcv'] at h
      simp at h
    · rintro ⟨hgrow', -⟩
      exact absurd hgrow' hgrow

theorem represents_two : Represents false
    (⟨[some 1, some 2], 2, 2, false, []⟩ : CVector Nat) [1, 2] [] :=
  ⟨⟨[], rfl⟩, rfl, rfl, by decide, rfl, rfl⟩

theorem cvecInsert_iff_end : (∃ cv', cvecInsert ⟨[some 1, some 2], 2, 2, false, []⟩ 9 2 = some cv' ∧
      contents cv' = ([1, 2].take 2 ++ 9 :: [1, 2].drop 2).map some) ↔
    ((2 : Int) = 2 → [1, 2].length < 2 ^ 30) ∧ (2 = [1, 2].length ∨ ((2 : Int) < 2 ∧
      ∀ y ∈ [1, 2].drop 2, cell ⟨[some 1, some 2], 2, 2, false, []⟩ 2 = some y)) :=
  cvecInsert_iff represents_two (by decide) 9

/-- The elements behind the inserted one are lost. -/
theorem cvecInsert_front : ¬∀ (cv : CVector Nat) (xs gone : List Nat) (w : Bool) (i x : Nat),
    Represents w cv xs gone → i ≤ xs.length →
    (cv.capacity = cv.nelems → xs.length < 2 ^ 30) →
    ∃ cv', cvecInsert cv x i = some cv' ∧
      contents cv' = (xs.take i ++ x :: xs.drop i).map some := by
  intro h
  obtain ⟨cv', hcv', hcontents⟩ := h _ _ _ _ 0 9 represents_two (by decide) (by decide)
  have hrun : (cvecInsert ⟨[some 1, some 2], 2, 2, false, []⟩ 9 (0 : Nat)).map contents =
      some [some 9, none, none] := by decide
  rw [hcv', Option.map_some, hcontents] at hrun
  exact absurd hrun (by decide)

end insertion
end Lisp
