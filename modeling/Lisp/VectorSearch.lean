import Lisp.CVector
import Lisp.Ops
import Lisp.Permutations

/-! Sorting a vector and searching in it (`cvec_sort`, `cvec_search`). -/
namespace Lisp
open Permuter
variable {α : Type}

section source

def SEARCH_NOT_FOUND : Int := -1

/-- The values of cells, which the comparison function may be called on if all have contents. -/
def valuesOf (cells : List (Option α)) : Option (List α) := cells.mapM id

/-- `bsearch` of the C library, between the indices `l` and `u`. -/
def bsearch (cmp : α → α → Int) (key : α) (xs : List α) (l u : Nat) : Option Nat :=
  if _ : l < u then
    let idx := (l + u) / 2
    match xs[idx]? with
    | none => none
    | some x =>
      let comparison := cmp key x
      if comparison < 0 then bsearch cmp key xs l idx
      else if 0 < comparison then bsearch cmp key xs (idx + 1) u
      else some idx
  else none
termination_by u - l

/-- `lfind` of the C library. -/
def lfind (cmp : α → α → Int) (key : α) (xs : List α) : Option Nat :=
  xs.findIdx? fun x => cmp key x == 0

/-- `cvec_search`, which asserts that the start is in range. -/
def cvecSearch (cv : CVector α) (key : α) (cmp : α → α → Int) (start : Int) (sorted : Bool) :
    Option Int :=
  if 0 ≤ start ∧ start ≤ cv.nelems then do
    let nitems := (cv.nelems - start).toNat
    let items ← valuesOf ((cv.elems.drop start.toNat).take nitems)
    let foundElem := if sorted then bsearch cmp key items 0 nitems else lfind cmp key items
    match foundElem with
    | none => return SEARCH_NOT_FOUND
    | some el => return toInt (start.toNat + el : Nat)
  else none

/-- `cvec_sort`, with the `qsort` of the C library. -/
def cvecSort (qsort : (α → α → Int) → List α → List α) (cv : CVector α) (cmp : α → α → Int) :
    Option (CVector α) := do
  let items ← valuesOf (contents cv)
  return { cv with elems := (qsort cmp items).map some ++ cv.elems.drop cv.nelems.toNat }

end source

section search
variable {cmp : α → α → Int} {xs : List α} {key x y : α} {l u i : Nat}

theorem below (hcmp : TotalPreorder cmp) (hx : cmp key x < 0) (hxy : cmp x y ≤ 0) :
    cmp key y < 0 := by
  by_contra hy
  have hback : cmp y key ≤ 0 := Int.not_lt.1 (mt (hcmp.swap key y).2 hy)
  have := hcmp.trans x y key hxy hback
  have := (hcmp.swap key x).1 hx
  omega

theorem above (hcmp : TotalPreorder cmp) (hy : 0 < cmp key y) (hxy : cmp x y ≤ 0) :
    0 < cmp key x := by
  by_contra hx
  have := hcmp.trans key x y (Int.not_lt.1 hx) hxy
  omega

theorem sorted_get? (hs : xs.Pairwise fun a b => cmp a b ≤ 0) {j : Nat} (hij : i < j)
    (hi : xs[i]? = some x) (hj : xs[j]? = some y) : cmp x y ≤ 0 := by
  obtain ⟨hlti, rfl⟩ := List.getElem?_eq_some_iff.1 hi
  obtain ⟨hltj, rfl⟩ := List.getElem?_eq_some_iff.1 hj
  exact List.pairwise_iff_getElem.1 hs i j hlti hltj hij

/-- Elements that are not between the two indices are not the one searched for. -/
theorem bsearch_spec (key : α) (hcmp : TotalPreorder cmp)
    (hs : xs.Pairwise fun a b => cmp a b ≤ 0) (hu : u ≤ xs.length)
    (hlow : ∀ i < l, ∀ x, xs[i]? = some x → 0 < cmp key x)
    (hhigh : ∀ i, u ≤ i → ∀ x, xs[i]? = some x → cmp key x < 0) :
    (∃ i x, bsearch cmp key xs l u = some i ∧ xs[i]? = some x ∧ cmp key x = 0) ∨
      bsearch cmp key xs l u = none ∧ ∀ x ∈ xs, cmp key x ≠ 0 := by
  fun_induction bsearch cmp key xs l u with
  | case1 l u hlt idx hnone =>
    rw [List.getElem?_eq_none_iff] at hnone
    omega
  | case2 l u hlt idx x hx comparison hneg ih =>
    refine ih (by omega) hlow fun i hi y hy => ?_
    rcases Nat.eq_or_lt_of_le hi with rfl | hi
    · exact Option.some.inj (hx.symm.trans hy) ▸ hneg
    · exact below hcmp hneg (sorted_get? hs hi hx hy)
  | case3 l u hlt idx x hx comparison hneg hpos ih =>
    refine ih hu (fun i hi y hy => ?_) hhigh
    rcases Nat.eq_or_lt_of_le (Nat.le_of_lt_succ hi) with rfl | hi
    · exact Option.some.inj (hx.symm.trans hy) ▸ hpos
    · exact above hcmp hpos (sorted_get? hs hi hy hx)
  | case4 l u hlt idx x hx comparison hneg hpos => exact Or.inl ⟨idx, x, rfl, hx, by omega⟩
  | case5 l u hlt =>
    refine Or.inr ⟨rfl, fun x hx h0 => ?_⟩
    obtain ⟨i, hi⟩ := List.getElem?_of_mem hx
    rcases Nat.lt_or_ge i l with hil | hil
    · exact absurd (hlow i hil x hi) (by omega)
    · exact absurd (hhigh i (by omega) x hi) (by omega)

end search

section vectors
variable {cmp : α → α → Int} {cv : CVector α} {xs gone : List α} {key : α} {w : Bool} {start : Nat}
  {ops : List (CVectorOp α)} {hint : Nat} {qsort : (α → α → Int) → List α → List α}

/-- The result of a search from an index on. -/
def SearchResult (cmp : α → α → Int) (xs : List α) (key : α) (start : Nat) (result : Int) : Prop :=
  (∃ i x, result = (i : Nat) ∧ start ≤ i ∧ xs[i]? = some x ∧ cmp key x = 0) ∨
    result = SEARCH_NOT_FOUND ∧ ∀ i x, start ≤ i → xs[i]? = some x → cmp key x ≠ 0

theorem valuesOf_map (xs : List α) : valuesOf (xs.map some) = some xs := by
  induction xs with
  | nil => rfl
  | cons x xs ih =>
    have hrest : List.mapM id (xs.map some) = some xs := ih
    rw [List.map_cons, valuesOf, List.mapM_cons, hrest]
    rfl

/-- The items that a search goes through, and what it returns of their index. -/
theorem Represents.search (hr : Represents w cv xs gone) (hstart : start ≤ xs.length)
    {sorted : Bool} {result : Option Nat}
    (hresult : (if sorted then bsearch cmp key (xs.drop start) 0 (xs.length - start)
      else lfind cmp key (xs.drop start)) = result)
    (hlt : ∀ el ∈ result, start + el < xs.length) : cvecSearch cv key cmp start sorted =
      some ((result.map fun el => ((start + el : Nat) : Int)).getD SEARCH_NOT_FOUND) := by
  obtain ⟨rest, hrest⟩ := hr.elems
  have hn := hr.nelems
  have hnitems : (cv.nelems - start).toNat = xs.length - start := by omega
  have hitems : valuesOf ((cv.elems.drop start).take (xs.length - start)) =
      some (xs.drop start) := by
    rw [hrest, List.drop_append_of_le_length (by simpa using hstart), ← List.map_drop,
      List.take_left' (by simp), valuesOf_map]
  rw [cvecSearch, if_pos (by omega), Int.toNat_natCast, hnitems]
  simp only [hitems, Option.bind_eq_bind, Option.bind_some, hresult]
  cases result with
  | none => rfl
  | some el =>
    have hsmall := hr.lt
    have := hlt el rfl
    exact congrArg some (toInt_natCast (by omega))

/-- Of a vector in order, the search by halves finds an element that compares as equal. -/
theorem Represents.bsearch (hr : Represents w cv xs gone) (hcmp : TotalPreorder cmp)
    (hs : xs.Pairwise fun a b => cmp a b ≤ 0) (key : α) (hstart : start ≤ xs.length) :
    ∃ r, cvecSearch cv key cmp start true = some r ∧ SearchResult cmp xs key start r := by
  have hdrop : (xs.drop start).Pairwise fun a b => cmp a b ≤ 0 := hs.drop
  have hhigh : ∀ i, xs.length - start ≤ i → ∀ x, (xs.drop start)[i]? = some x → cmp key x < 0 := by
    intro i hi x hx
    rw [List.getElem?_eq_none (by simpa using hi)] at hx
    cases hx
  rcases bsearch_spec key hcmp hdrop (by simp) (fun i hi => absurd hi (Nat.not_lt_zero i))
    hhigh with ⟨el, x, hfound, hx, h0⟩ | ⟨hnone, hall⟩
  · rw [List.getElem?_drop] at hx
    have hlt : ∀ el' ∈ some el, start + el' < xs.length := by
      rintro el' hel
      obtain rfl := Option.some.inj hel
      exact (List.getElem?_eq_some_iff.1 hx).1
    exact ⟨_, hr.search hstart hfound hlt, Or.inl ⟨_, x, rfl, Nat.le_add_right _ _, hx, h0⟩⟩
  · refine ⟨_, hr.search hstart hnone (fun _ h => by cases h), Or.inr ⟨rfl, fun i x hi hx => ?_⟩⟩
    refine hall x (List.mem_of_getElem? (i := i - start) ?_)
    rwa [List.getElem?_drop, Nat.add_sub_cancel' hi]

/-- In any vector, the other search finds the first element that compares as equal. -/
theorem Represents.lfind (hr : Represents w cv xs gone) (key : α) (hstart : start ≤ xs.length) :
    ∃ r, cvecSearch cv key cmp start false = some r ∧ SearchResult cmp xs key start r ∧
      ∀ i x, start ≤ i → (i : Int) < r → xs[i]? = some x → cmp key x ≠ 0 := by
  cases hfind : Lisp.lfind cmp key (xs.drop start) with
  | none =>
    have hall : ∀ i x, start ≤ i → xs[i]? = some x → cmp key x ≠ 0 := by
      intro i x hi hx
      have hmem : x ∈ xs.drop start :=
        List.mem_of_getElem? (i := i - start) (by rwa [List.getElem?_drop, Nat.add_sub_cancel' hi])
      simpa using List.findIdx?_eq_none_iff.1 hfind x hmem
    exact ⟨_, hr.search hstart hfind (fun _ h => by cases h), Or.inr ⟨rfl, hall⟩,
      fun i x hi _ => hall i x hi⟩
  | some el =>
    obtain ⟨hlt, h0, hfirst⟩ := List.findIdx?_eq_some_iff_getElem.1 hfind
    rw [List.length_drop] at hlt
    have hel : ∀ el' ∈ some el, start + el' < xs.length := by
      rintro el' hel
      obtain rfl := Option.some.inj hel
      omega
    refine ⟨_, hr.search hstart hfind hel, Or.inl ⟨start + el, xs[start + el], rfl,
      Nat.le_add_right _ _, List.getElem?_eq_getElem _, by simpa using h0⟩, ?_⟩
    intro i x hi hlast hx
    have hbefore : i - start < el := by
      simp only [Option.map_some, Option.getD_some] at hlast
      omega
    have hne := hfirst (i - start) hbefore
    rw [List.getElem_drop] at hne
    obtain ⟨hix, rfl⟩ := List.getElem?_eq_some_iff.1 hx
    simpa [Nat.add_sub_cancel' hi] using hne

/-- What `qsort` does with the elements. -/
def SortsList (qsort : (α → α → Int) → List α → List α) (cmp : α → α → Int) : Prop :=
  ∀ xs, (qsort cmp xs).Perm xs ∧ (qsort cmp xs).Pairwise fun a b => cmp a b ≤ 0

theorem Represents.sort (hr : Represents w cv xs gone) (hqsort : SortsList qsort cmp) :
    ∃ cv', cvecSort qsort cv cmp = some cv' ∧ Represents w cv' (qsort cmp xs) gone := by
  obtain ⟨rest, hrest⟩ := hr.elems
  have hn := hr.nelems
  have hcontents : contents cv = xs.map some := by
    rw [contents, hrest, hn, Int.toNat_natCast, List.take_left' (by simp)]
  have hlen := (hqsort xs).1.length_eq
  have hbehind : cv.elems.drop cv.nelems.toNat = rest := by
    rw [hrest, hn, Int.toNat_natCast, List.drop_left' (by simp)]
  refine ⟨{ cv with elems := (qsort cmp xs).map some ++ rest }, ?_, ?_⟩
  · rw [cvecSort, hcontents, valuesOf_map, hbehind]
    rfl
  · have hroom := hr.room
    constructor
    case elems => exact ⟨rest, rfl⟩
    case nelems => rw [hn, hlen]
    case room =>
      rw [← hroom, hrest]
      simp [hlen]
    case capacity => exact hr.capacity
    case cleanup => exact hr.cleanup
    case cleaned => exact hr.cleaned

/-- After any run on fewer than `2 ^ 30` elements and without insertions at an index, sorting the
vector puts its elements in order and cleans up none. From any start on, a search then finds an
element that compares as equal, if there is one, and without the order the first. -/
theorem cvecSort_search (h : ListRun ops xs gone) (hhint : hint < 2 ^ 31) (cleanup : Bool)
    (hcmp : TotalPreorder cmp) (hqsort : SortsList qsort cmp) :
    ∃ cv cv' ys, runVector (cvecInit hint cleanup) ops = some cv ∧
      cvecSort qsort cv cmp = some cv' ∧ Represents cleanup cv' ys gone ∧ ys.Perm xs ∧
      (ys.Pairwise fun a b => cmp a b ≤ 0) ∧
      ∀ key start, start ≤ xs.length →
        (∃ r, cvecSearch cv' key cmp start true = some r ∧ SearchResult cmp ys key start r) ∧
        (∃ r, cvecSearch cv key cmp start false = some r ∧ SearchResult cmp xs key start r ∧
          ∀ i x, start ≤ i → (i : Int) < r → xs[i]? = some x → cmp key x ≠ 0) := by
  obtain ⟨cv, hcv, hr⟩ := h.represents hhint cleanup
  obtain ⟨cv', hcv', hr'⟩ := hr.sort hqsort
  obtain ⟨hperm, hsorted⟩ := hqsort xs
  refine ⟨cv, cv', _, hcv, hcv', hr', hperm, hsorted, fun key start hstart => ⟨?_, ?_⟩⟩
  · exact hr'.bsearch hcmp hsorted key (hperm.length_eq ▸ hstart)
  · exact hr.lfind key hstart

theorem sortsList_mergeSort (hcmp : TotalPreorder cmp) :
    SortsList (fun cmp xs => xs.mergeSort fun a b => decide (cmp a b ≤ 0)) cmp := by
  intro xs
  refine ⟨List.mergeSort_perm _ _, ?_⟩
  have htrans : ∀ a b c, decide (cmp a b ≤ 0) = true → decide (cmp b c ≤ 0) = true →
      decide (cmp a c ≤ 0) = true := by
    intro a b c hab hbc
    simp only [decide_eq_true_eq] at hab hbc ⊢
    exact hcmp.trans a b c hab hbc
  have htotal : ∀ a b, (decide (cmp a b ≤ 0) || decide (cmp b a ≤ 0)) = true := by
    intro a b
    have := hcmp.swap b a
    simp only [Bool.or_eq_true, decide_eq_true_eq]
    omega
  exact (List.pairwise_mergeSort htrans htotal xs).imp of_decide_eq_true

/-- Two strings. -/
theorem cvecSort_search_strings : ∃ cv cv' ys,
    runVector (cvecInit 1 true) [.append (⟨[98], by decide⟩ : CStr), .append ⟨[97], by decide⟩] =
      some cv ∧
    cvecSort (fun cmp xs => xs.mergeSort fun a b => decide (cmp a b ≤ 0)) cv cmpCstr = some cv' ∧
    Represents true cv' ys [] ∧
    (∃ r, cvecSearch cv' ⟨[97], by decide⟩ cmpCstr 0 true = some r ∧
      SearchResult cmpCstr ys ⟨[97], by decide⟩ 0 r) := by
  have hcmp := totalPreorder strictOrder_cmpCstr
  have hrun : ListRun [.append (⟨[98], by decide⟩ : CStr), .append ⟨[97], by decide⟩]
      [⟨[98], by decide⟩, ⟨[97], by decide⟩] [] :=
    .append (.append .init _ (by decide)) _ (by decide)
  obtain ⟨cv, cv', ys, hcv, hcv', hr, -, -, hsearch⟩ :=
    cvecSort_search hrun (by decide : 1 < 2 ^ 31) true hcmp (sortsList_mergeSort hcmp)
  exact ⟨cv, cv', ys, hcv, hcv', hr, (hsearch ⟨[97], by decide⟩ 0 (by decide)).1⟩

end vectors
end Lisp
