import Lisp.CList

/-! Pointers to the data of the linked list (`clist.c`): the loops that follow them, and the
deletion of an element by its position or by its data. -/
namespace Lisp
open LinkedList
variable {α : Type}

section source

/-- `offsetof(Node, data)`: a node begins with its two links. -/
def dataOffset : Nat := 16

/-- `data_of`, which asserts that there is a node. -/
def dataOf (node : Nat) : Option Nat := if node = 0 then none else some (node + dataOffset)

def dataToNode (data : Nat) : Nat := data - dataOffset

def clistFront (cl : CList α) : Option Nat := if cl.front = 0 then some 0 else dataOf cl.front

def clistBack (cl : CList α) : Option Nat := if cl.back = 0 then some 0 else dataOf cl.back

def clistNext (cl : CList α) (data : Nat) : Option Nat :=
  if data = 0 then none else do
    let n ← cl.nodes (dataToNode data)
    dataOf n.next

def clistPrev (cl : CList α) (data : Nat) : Option Nat :=
  if data = 0 then none else do
    let n ← cl.nodes (dataToNode data)
    dataOf n.previous

/-- The elements that a loop from a pointer on visits until its step returns `NULL`, in at most the
given number of rounds. -/
def visitedFrom (cl : CList α) (step : CList α → Nat → Option Nat) : Nat → Nat → Option (List α)
  | 0, data => if data = 0 then some [] else none
  | rounds + 1, data =>
    if data = 0 then some [] else do
      let n ← cl.nodes (dataToNode data)
      let data ← step cl data
      return n.data :: (← visitedFrom cl step rounds data)

/-- The assignments by which an element's neighbours are linked to each other. -/
def linkNeighbours (cl : CList α) (prev next : Nat) : Option (CList α) := do
  let cl ← (if prev ≠ 0 then setNext cl prev next else some cl)
  if next ≠ 0 then setPrevious cl next prev else some cl

def clistErase (cl : CList α) (index : Int) : Option (CList α) := do
  let node ← nodeAt cl index
  if node = 0 then return cl else
  let n ← cl.nodes node
  let cl ← linkNeighbours cl n.previous n.next
  return { cl with nelems := toInt (cl.nelems - 1) }

def clistRemove (cl : CList α) (data : Nat) : Option (CList α) :=
  if data = 0 then none else do
    let node := dataToNode data
    let n ← cl.nodes node
    let cl ← linkNeighbours cl n.previous n.next
    let cl ← deleteNode cl node
    return { cl with nelems := toInt (cl.nelems - 1) }

end source

variable {w : Bool} {cl cl' : CList α} {l l₁ l₂ : Cells α} {xs gone : List α}
  {ops : List (CListOp α)} {a i : Nat} {x : α}

section runs

theorem toInt_le (n : Nat) : toInt n ≤ n := by
  unfold toInt Int.bmod
  simp only [Nat.reducePow, Nat.cast_ofNat]
  split <;> omega

theorem Threaded.insertAny (ht : Threaded w cl l gone) {index : Int}
    (h : clistInsert cl x index = some cl') : ∃ l', Threaded w cl' l' gone := by
  by_cases hindex : 0 ≤ index ∧ index < cl.nelems
  · obtain ⟨i, rfl⟩ := Int.eq_ofNat_of_zero_le hindex.1
    have hle := toInt_le l.length
    rw [← ht.nelems] at hle
    have hi : i < l.length := by omega
    have hsplit : l = l.take i ++ l[i] :: l.drop (i + 1) := by simp
    have hlength : (l.take i).length = i := by
      rw [List.length_take]
      omega
    generalize l.take i = l₁, l[i] = c, l.drop (i + 1) = l₂ at hsplit hlength
    subst hsplit hlength
    obtain ⟨cl₁, h₁, ht₁⟩ := ht.insert hindex.2 x
    obtain rfl := Option.some.inj (h₁.symm.trans h)
    exact ⟨_, ht₁⟩
  · rw [clistInsert, if_pos hindex] at h
    cases h

theorem Threaded.popFrontAny (ht : Threaded w cl l gone) (h : clistPopFront cl = some cl') :
    ∃ l' gone', Threaded w cl' l' gone' := by
  by_cases hn : cl.nelems = 0
  · rw [clistPopFront, if_pos hn] at h
    obtain rfl := Option.some.inj h
    exact ⟨l, gone, ht⟩
  · cases l with
    | nil => exact absurd (ht.count (Nat.two_pow_pos 31)) hn
    | cons c l =>
      obtain ⟨cl₁, h₁, ht₁⟩ := ht.popFront_cons hn
      obtain rfl := Option.some.inj (h₁.symm.trans h)
      exact ⟨l, _, ht₁⟩

theorem Threaded.popBackAny (ht : Threaded w cl l gone) (h : clistPopBack cl = some cl') :
    ∃ l' gone', Threaded w cl' l' gone' := by
  by_cases hn : cl.nelems = 0
  · rw [clistPopBack, if_pos hn] at h
    obtain rfl := Option.some.inj h
    exact ⟨l, gone, ht⟩
  · rcases List.eq_nil_or_concat l with rfl | ⟨l, c, rfl⟩
    · exact absurd (ht.count (Nat.two_pow_pos 31)) hn
    · rw [List.concat_eq_append] at ht
      obtain ⟨cl₁, h₁, ht₁⟩ := ht.popBack_append hn
      obtain rfl := Option.some.inj (h₁.symm.trans h)
      exact ⟨l, _, ht₁⟩

theorem Threaded.clearAny {fuel : Nat} (ht : Threaded w cl l gone)
    (h : clearFrom fuel cl = some cl') : ∃ l' gone', Threaded w cl' l' gone' := by
  induction fuel generalizing cl l gone with
  | zero =>
    rw [clearFrom] at h
    split at h
    · obtain rfl := Option.some.inj h
      exact ⟨l, gone, ht⟩
    · cases h
  | succ fuel ih =>
    rw [clearFrom] at h
    split at h
    · obtain rfl := Option.some.inj h
      exact ⟨l, gone, ht⟩
    · obtain ⟨cl₁, h₁, hrest⟩ := Option.bind_eq_some_iff.1 h
      obtain ⟨l', gone', ht'⟩ := ht.popFrontAny h₁
      exact ih ht' hrest

/-- Whatever a run does, the nodes stay linked both ways. -/
theorem runList_threaded (h : runList (clistInit w) ops = some cl) :
    ∃ l gone, Threaded w cl l gone := by
  induction ops using List.reverseRecOn generalizing cl with
  | nil =>
    obtain rfl := Option.some.inj h
    exact ⟨[], [], threaded_init w⟩
  | append_singleton ops op ih =>
    obtain ⟨cl₁, h₁⟩ : ∃ cl₁, runList (clistInit w) ops = some cl₁ := by
      refine Option.ne_none_iff_exists'.1 fun hnone => ?_
      rw [runList, List.foldlM_append, ← runList, hnone] at h
      cases h
    have hop : op.run cl₁ = some cl := (runList_append h₁).symm.trans h
    obtain ⟨l, gone, ht⟩ := ih h₁
    cases op with
    | pushFront x =>
      obtain ⟨cl₂, h₂, ht'⟩ := ht.pushFront x
      obtain rfl := Option.some.inj (h₂.symm.trans hop)
      exact ⟨_, _, ht'⟩
    | pushBack x =>
      obtain ⟨cl₂, h₂, ht'⟩ := ht.pushBack x
      obtain rfl := Option.some.inj (h₂.symm.trans hop)
      exact ⟨_, _, ht'⟩
    | insert x index =>
      obtain ⟨l', ht'⟩ := ht.insertAny hop
      exact ⟨l', gone, ht'⟩
    | popFront => exact ht.popFrontAny hop
    | popBack => exact ht.popBackAny hop
    | clear => exact ht.clearAny hop

end runs

section traversal

/-- A step that starts from `data_of` asserts at the end of the list that there is another node, so
that a loop over one never ends. -/
theorem visitedFrom_none {link : Node α → Nat} {step : CList α → Nat → Option Nat}
    (hstep : ∀ a n, cl.nodes a = some n → step cl (a + dataOffset) = dataOf (link n))
    (hf : Follows link cl.nodes a xs) (ha : a ≠ 0) (rounds : Nat) :
    visitedFrom cl step rounds (a + dataOffset) = none := by
  induction hf generalizing rounds with
  | null => exact absurd rfl ha
  | @node a n l _ hn hl ih =>
    have hdata : a + dataOffset ≠ 0 := by simp only [dataOffset]; omega
    cases rounds with
    | zero => rw [visitedFrom, if_neg hdata]
    | succ rounds =>
      rw [visitedFrom, if_neg hdata]
      simp only [dataToNode, Nat.add_sub_cancel, hn, hstep a n hn, dataOf, Option.bind_eq_bind,
        Option.bind_some]
      by_cases hnext : link n = 0
      · rw [if_pos hnext]
        rfl
      · rw [if_neg hnext, Option.bind_some, ih hnext rounds]
        rfl

theorem clistNext_eq (a : Nat) (n : Node α) (hn : cl.nodes a = some n) :
    clistNext cl (a + dataOffset) = dataOf n.next := by
  rw [clistNext, if_neg (by simp only [dataOffset]; omega), dataToNode, Nat.add_sub_cancel, hn]
  rfl

theorem clistPrev_eq (a : Nat) (n : Node α) (hn : cl.nodes a = some n) :
    clistPrev cl (a + dataOffset) = dataOf n.previous := by
  rw [clistPrev, if_neg (by simp only [dataOffset]; omega), dataToNode, Nat.add_sub_cancel, hn]
  rfl

theorem last_ne_zero (hs : Segment cl.nodes 0 l 0) (hne : l ≠ []) : last l 0 ≠ 0 := by
  cases l with
  | nil => exact absurd rfl hne
  | cons c l =>
    obtain ⟨a, x⟩ := c
    rw [last_cons]
    exact last_ne (fun d hd => hs.nonnull d (List.mem_cons_of_mem _ hd)) hs.1

/-- The loops over a list of any run visit its elements and stop if and only if it is empty: behind
the last element the step asserts that there is a node. -/
theorem clist_traversal_iff (h : runList (clistInit w) ops = some cl) : ∃ xs,
    Follows Node.next cl.nodes cl.front xs ∧ Follows Node.previous cl.nodes cl.back xs.reverse ∧
    ((∃ rounds data, clistFront cl = some data ∧
      visitedFrom cl clistNext rounds data = some xs) ↔ xs = []) ∧
    ((∃ rounds data, clistBack cl = some data ∧
      visitedFrom cl clistPrev rounds data = some xs.reverse) ↔ xs = []) := by
  obtain ⟨l, gone, ht⟩ := runList_threaded h
  have hnext := ht.segment.follows_next
  have hprevious := ht.segment.follows_previous
  rw [← ht.front] at hnext
  rw [← ht.back] at hprevious
  refine ⟨l.map Prod.snd, hnext, hprevious, ?_, ?_⟩
  · by_cases hnil : l = []
    · subst hnil
      have hfront : cl.front = 0 := ht.front
      exact iff_of_true ⟨0, 0, by rw [clistFront, if_pos hfront], rfl⟩ rfl
    · have hfront : cl.front ≠ 0 := by
        rw [ht.front]
        cases l with
        | nil => exact absurd rfl hnil
        | cons c l => exact ht.segment.1
      refine iff_of_false ?_ (by simpa using hnil)
      rintro ⟨rounds, data, hdata, hvisited⟩
      rw [clistFront, if_neg hfront, dataOf, if_neg hfront] at hdata
      obtain rfl := Option.some.inj hdata
      rw [visitedFrom_none clistNext_eq hnext hfront] at hvisited
      cases hvisited
  · by_cases hnil : l = []
    · subst hnil
      have hback : cl.back = 0 := ht.back
      exact iff_of_true ⟨0, 0, by rw [clistBack, if_pos hback], rfl⟩ rfl
    · have hback : cl.back ≠ 0 := ht.back ▸ last_ne_zero ht.segment hnil
      refine iff_of_false ?_ (by simpa using hnil)
      rintro ⟨rounds, data, hdata, hvisited⟩
      rw [clistBack, if_neg hback, dataOf, if_neg hback] at hdata
      obtain rfl := Option.some.inj hdata
      rw [visitedFrom_none clistPrev_eq hprevious hback] at hvisited
      cases hvisited

theorem clist_traversal_iff_three : ∃ (cl : CList Nat) (xs : List Nat),
    runList (clistInit true) [.pushBack 5, .pushFront 6, .pushBack 7, .pushBack 8, .popFront] =
      some cl ∧ Follows Node.next cl.nodes cl.front xs ∧ xs ≠ [] ∧
      ((∃ rounds data, clistFront cl = some data ∧
        visitedFrom cl clistNext rounds data = some xs) ↔ xs = []) := by
  obtain ⟨cl, hcl⟩ : ∃ cl : CList Nat, runList (clistInit true)
      [.pushBack 5, .pushFront 6, .pushBack 7, .pushBack 8, .popFront] = some cl := ⟨_, rfl⟩
  have hfront : cl.front ≠ 0 := by
    obtain rfl := Option.some.inj hcl
    decide
  obtain ⟨xs, hfollows, -, hiff, -⟩ := clist_traversal_iff hcl
  refine ⟨cl, xs, hcl, hfollows, ?_, hiff⟩
  generalize cl.front = a at hfollows hfront
  cases hfollows with
  | null => exact absurd rfl hfront
  | node => exact List.cons_ne_nil _ _

/-- A loop over one element. -/
theorem clist_traversal_last : ¬∀ (ops : List (CListOp Nat)) (cl : CList Nat) (xs : List Nat),
    runList (clistInit true) ops = some cl → Follows Node.next cl.nodes cl.front xs →
    ∃ rounds data, clistFront cl = some data ∧
      visitedFrom cl clistNext rounds data = some xs := by
  intro h
  obtain ⟨cl, hcl⟩ : ∃ cl : CList Nat, runList (clistInit true) [.pushBack 5] = some cl :=
    ⟨_, rfl⟩
  have hfollows : Follows Node.next cl.nodes cl.front [5] := by
    obtain rfl := Option.some.inj hcl
    exact .node (n := ⟨0, 0, 5⟩) Nat.one_ne_zero rfl .null
  obtain ⟨rounds, data, hdata, hvisited⟩ := h _ _ _ hcl hfollows
  have hfront : cl.front ≠ 0 := by
    obtain rfl := Option.some.inj hcl
    exact Nat.one_ne_zero
  rw [clistFront, if_neg hfront, dataOf, if_neg hfront] at hdata
  obtain rfl := Option.some.inj hdata
  rw [visitedFrom_none clistNext_eq hfollows hfront] at hvisited
  cases hvisited

end traversal

section deletion

/-- What the deletion of the element in the place `i` is to do with a list that holds `xs`. -/
structure Deleted (cl cl' : CList α) (xs : List α) (i : Nat) : Prop where
  next : Follows Node.next cl'.nodes cl'.front (xs.eraseIdx i)
  previous : Follows Node.previous cl'.nodes cl'.back (xs.eraseIdx i).reverse
  front : cl'.front = 0 ↔ xs.eraseIdx i = []
  back : cl'.back = 0 ↔ xs.eraseIdx i = []
  nelems : cl'.nelems = (xs.eraseIdx i).length
  cleaned : cl'.cleaned = if cl.cleanup then cl.cleaned ++ xs[i]?.toList else cl.cleaned

/-- The first assignment: the element before, if there is one, gets the next link. -/
theorem setNext_last {after next : Nat} (hs : Segment cl.nodes 0 l₁ after)
    (hnodup : (l₁.map Prod.fst).Nodup) :
    ∃ nodes, (if last l₁ 0 ≠ 0 then setNext cl (last l₁ 0) next else some cl) =
        some { cl with nodes := nodes } ∧
      Segment nodes 0 l₁ next ∧ ∀ c ∉ l₁.map Prod.fst, nodes c = cl.nodes c := by
  rcases List.eq_nil_or_concat l₁ with rfl | ⟨l, ⟨p, z⟩, rfl⟩
  · exact ⟨cl.nodes, rfl, trivial, fun _ _ => rfl⟩
  · rw [List.concat_eq_append] at *
    obtain ⟨hp, hs'⟩ := hs.setNext hnodup next
    have hnp : p ≠ 0 := hs.nonnull (p, z) (by simp)
    refine ⟨_, ?_, hs', fun c hc => Function.update_of_ne ?_ _ _⟩
    · simp only [last_append, last_cons, last_nil, ne_eq, hnp, not_false_eq_true, if_true, setNext,
        hp, Option.map_some]
    · rintro rfl
      exact hc (by simp)

/-- The second assignment: the element behind, if there is one, gets the previous link. -/
theorem setPrevious_first {before previous : Nat} (hs : Segment cl.nodes before l₂ 0)
    (hnodup : (l₂.map Prod.fst).Nodup) :
    ∃ nodes, (if first l₂ 0 ≠ 0 then setPrevious cl (first l₂ 0) previous else some cl) =
        some { cl with nodes := nodes } ∧
      Segment nodes previous l₂ 0 ∧ ∀ c ∉ l₂.map Prod.fst, nodes c = cl.nodes c := by
  cases l₂ with
  | nil => exact ⟨cl.nodes, rfl, trivial, fun _ _ => rfl⟩
  | cons c l =>
    obtain ⟨b, y⟩ := c
    obtain ⟨hb, hs'⟩ := hs.setPrevious hnodup previous
    refine ⟨_, ?_, hs', fun c hc => Function.update_of_ne ?_ _ _⟩
    · simp only [first_cons, ne_eq, hs.1, not_false_eq_true, if_true, setPrevious, hb,
        Option.map_some]
    · rintro rfl
      exact hc (by simp)

/-- The assignments link the neighbours in any place, but do not move the ends of the list. -/
theorem Threaded.linkNeighbours (ht : Threaded w cl (l₁ ++ (a, x) :: l₂) gone) :
    ∃ nodes, linkNeighbours cl (last l₁ 0) (first l₂ 0) = some { cl with nodes := nodes } ∧
      Segment nodes 0 (l₁ ++ l₂) 0 ∧ nodes a = cl.nodes a ∧ a ∉ (l₁ ++ l₂).map Prod.fst := by
  obtain ⟨hs₁, hna, ha, hs₂⟩ := segment_append.1 ht.segment
  have hperm : (l₁ ++ (a, x) :: l₂).Perm ((a, x) :: (l₁ ++ l₂)) := List.perm_middle
  obtain ⟨hout, hnodup⟩ := List.nodup_cons.1 ((hperm.map Prod.fst).nodup_iff.1 ht.nodup)
  have hparts := hnodup
  rw [List.map_append, List.nodup_append] at hparts
  obtain ⟨hnodup₁, hnodup₂, hdisjoint⟩ := hparts
  have hout' := hout
  rw [List.map_append, List.mem_append, not_or] at hout'
  obtain ⟨nodes₁, h₁, hs₁', hsame₁⟩ := @setNext_last _ cl l₁ a (first l₂ 0) hs₁ hnodup₁
  have hs₂' : Segment nodes₁ a l₂ 0 := hs₂.congr fun c hc => hsame₁ c.1 fun hm =>
    hdisjoint _ hm _ (List.mem_map_of_mem hc) rfl
  obtain ⟨nodes₂, h₂, hs₂'', hsame₂⟩ :=
    @setPrevious_first _ { cl with nodes := nodes₁ } l₂ a (last l₁ 0) hs₂' hnodup₂
  have hs₁'' : Segment nodes₂ 0 l₁ (first l₂ 0) := hs₁'.congr fun c hc => hsame₂ c.1 fun hm =>
    hdisjoint _ (List.mem_map_of_mem hc) _ hm rfl
  refine ⟨nodes₂, ?_, segment_append.2 ⟨hs₁'', hs₂''⟩, ?_, hout⟩
  · rw [Lisp.linkNeighbours, h₁]
    exact h₂
  · exact (hsame₂ a hout'.2).trans (hsame₁ a hout'.1)

theorem eraseIdx_middle (l₁ l₂ : Cells α) (a : Nat) (x : α) :
    ((l₁ ++ (a, x) :: l₂).map Prod.snd).eraseIdx l₁.length = (l₁ ++ l₂).map Prod.snd := by
  rw [List.eraseIdx_map, List.eraseIdx_append_of_length_le (Nat.le_refl _), Nat.sub_self]
  rfl

theorem toInt_eq_iff (n : Nat) : toInt n = n ↔ n < 2 ^ 31 := by
  constructor
  · intro h
    have hint := (inInt_toInt n).2
    rw [h] at hint
    omega
  · exact toInt_natCast

/-- Without the element, the list is well formed if its ends are where they were. -/
theorem Threaded.deleted (ht : Threaded w cl (l₁ ++ (a, x) :: l₂) gone) (hl₁ : l₁ ≠ [])
    (hl₂ : l₂ ≠ []) (hlen : l₁.length + l₂.length < 2 ^ 31) (hfront : cl'.front = cl.front)
    (hback : cl'.back = cl.back) (hs : Segment cl'.nodes 0 (l₁ ++ l₂) 0)
    (hnelems : cl'.nelems = toInt (cl.nelems - 1))
    (hcleaned : cl'.cleaned = if cl.cleanup then cl.cleaned ++ [x] else cl.cleaned) :
    Deleted cl cl' ((l₁ ++ (a, x) :: l₂).map Prod.snd) l₁.length := by
  have hne : l₁ ++ l₂ ≠ [] := fun h => hl₁ (List.append_eq_nil_iff.1 h).1
  have hxs : (l₁ ++ l₂).map Prod.snd ≠ [] := by simpa using fun h => absurd h hl₁
  have hfirst : cl'.front = first (l₁ ++ l₂) 0 := by
    rw [hfront, ht.front, first_append, first_append]
    cases l₁ with
    | nil => exact absurd rfl hl₁
    | cons c l => rfl
  have hlast : cl'.back = last (l₁ ++ l₂) 0 := by
    rw [hback, ht.back, last_append, last_append, last_cons]
    cases l₂ with
    | nil => exact absurd rfl hl₂
    | cons c l => rfl
  have hfirst0 : cl'.front ≠ 0 := by
    rw [hfirst]
    cases h : l₁ ++ l₂ with
    | nil => exact absurd h hne
    | cons c l => exact hs.nonnull c (h ▸ List.mem_cons_self)
  constructor
  case next =>
    rw [eraseIdx_middle, hfirst]
    exact hs.follows_next
  case previous =>
    rw [eraseIdx_middle, hlast]
    exact hs.follows_previous
  case front =>
    rw [eraseIdx_middle]
    exact iff_of_false hfirst0 hxs
  case back =>
    rw [eraseIdx_middle, hlast]
    exact iff_of_false (last_ne_zero hs hne) hxs
  case nelems =>
    have hlength : (l₁ ++ (a, x) :: l₂).length = l₁.length + l₂.length + 1 := by
      rw [List.length_append, List.length_cons]
      omega
    rw [hnelems, ht.nelems, hlength, toInt_pred, toInt_natCast hlen, eraseIdx_middle,
      List.length_map, List.length_append]
  case cleaned =>
    rw [hcleaned, List.getElem?_map, List.getElem?_append_right (Nat.le_refl _), Nat.sub_self]
    rfl

/-- With the first or the last element, an end does not lead through the rest. -/
theorem Threaded.not_deleted (ht : Threaded w cl (l₁ ++ (a, x) :: l₂) gone)
    (hends : l₁ = [] ∨ l₂ = []) (hfront : cl'.front = cl.front)
    (hback : cl'.back = cl.back) (hs : Segment cl'.nodes 0 (l₁ ++ l₂) 0)
    (ha : cl'.nodes a = none ∨ cl'.nodes a = cl.nodes a) :
    ¬Deleted cl cl' ((l₁ ++ (a, x) :: l₂).map Prod.snd) l₁.length := by
  intro hd
  obtain ⟨-, hna, hnode, -⟩ := segment_append.1 ht.segment
  have hnext := hd.next
  have hprevious := hd.previous
  rw [eraseIdx_middle] at hnext hprevious
  rcases hends with rfl | rfl
  · rw [hfront, ht.front] at hnext
    rcases ha with ha | ha
    · generalize ([] ++ l₂).map Prod.snd = ys at hnext
      cases hnext with
      | null => exact hna rfl
      | node _ hn => cases hn.symm.trans ha
    · have hlonger : Follows Node.next cl'.nodes a (x :: l₂.map Prod.snd) :=
        .node hna (ha.trans hnode) hs.follows_next
      have hlength := congrArg List.length (hlonger.unique hnext)
      simp at hlength
  · rw [hback, ht.back, last_append, last_cons, last_nil] at hprevious
    rw [List.append_nil] at hprevious hs
    rcases ha with ha | ha
    · generalize (l₁.map Prod.snd).reverse = ys at hprevious
      cases hprevious with
      | null => exact hna rfl
      | node _ hn => cases hn.symm.trans ha
    · have hlonger : Follows Node.previous cl'.nodes a (x :: (l₁.map Prod.snd).reverse) :=
        .node hna (ha.trans hnode) hs.follows_previous
      have hlength := congrArg List.length (hlonger.unique hprevious)
      simp at hlength

/-- The number of elements after the deletion is counted as long as it is an `int`. -/
theorem Threaded.nelems_deleted (ht : Threaded w cl (l₁ ++ (a, x) :: l₂) gone)
    (hnelems : cl'.nelems = toInt (cl.nelems - 1))
    (hd : Deleted cl cl' ((l₁ ++ (a, x) :: l₂).map Prod.snd) l₁.length) :
    l₁.length + l₂.length < 2 ^ 31 := by
  have hlength : (l₁ ++ (a, x) :: l₂).length = l₁.length + l₂.length + 1 := by
    rw [List.length_append, List.length_cons]
    omega
  have hcount := hd.nelems
  rw [hnelems, ht.nelems, hlength, toInt_pred, eraseIdx_middle, List.length_map,
    List.length_append] at hcount
  exact (toInt_eq_iff _).1 hcount

theorem Threaded.erase_iff (ht : Threaded w cl (l₁ ++ (a, x) :: l₂) gone) :
    (∃ cl', clistErase cl l₁.length = some cl' ∧
      Deleted cl cl' ((l₁ ++ (a, x) :: l₂).map Prod.snd) l₁.length) ↔
    w = false ∧ l₁ ≠ [] ∧ l₂ ≠ [] ∧ l₁.length + l₂.length + 1 < 2 ^ 31 := by
  have hlength : (l₁ ++ (a, x) :: l₂).length = l₁.length + l₂.length + 1 := by
    rw [List.length_append, List.length_cons]
    omega
  obtain ⟨-, hna, hnode, -⟩ := segment_append.1 ht.segment
  obtain ⟨nodes, hlink, hs, hsame, -⟩ := ht.linkNeighbours
  have hnodeFrom := nodeFrom_eq ht.segment
  rw [← ht.front] at hnodeFrom
  have herase : clistErase cl l₁.length = if (l₁.length : Int) < cl.nelems then
      some { cl with nodes := nodes, nelems := toInt (cl.nelems - 1) } else none := by
    by_cases hindex : (l₁.length : Int) < cl.nelems
    · have hnodeAt : nodeAt cl l₁.length = some a := by
        rw [nodeAt, if_pos ⟨by omega, hindex⟩, Int.toNat_natCast, hnodeFrom]
      rw [clistErase, hnodeAt, if_pos hindex]
      simp only [Option.bind_eq_bind, Option.bind_some, hna, if_false, hnode, hlink]
      rfl
    · have hnodeAt : nodeAt cl l₁.length = none := by
        rw [nodeAt, if_neg fun h => hindex h.2]
      rw [clistErase, hnodeAt, if_neg hindex]
      rfl
  rw [herase]
  constructor
  · rintro ⟨cl', h, hd⟩
    split at h
    next hindex =>
      obtain rfl := Option.some.inj h
      have hlen := ht.nelems_deleted rfl hd
      have hcleaned := hd.cleaned
      have hw := ht.cleanup
      have hends : ¬(l₁ = [] ∨ l₂ = []) := fun hends =>
        absurd hd (ht.not_deleted hends rfl rfl hs (.inr hsame))
      rw [not_or] at hends
      refine ⟨?_, hends.1, hends.2, ?_⟩
      · cases w with
        | false => rfl
        | true =>
          rw [List.getElem?_map, List.getElem?_append_right (Nat.le_refl _), Nat.sub_self, hw,
            if_pos rfl] at hcleaned
          have hlonger := congrArg List.length hcleaned
          simp at hlonger
      · by_contra hge
        have hnelems := ht.nelems
        rw [hlength, show l₁.length + l₂.length + 1 = 2 ^ 31 by omega] at hnelems
        have hwrap : toInt ((2 ^ 31 : Nat) : Int) = -2 ^ 31 := by
          unfold toInt
          decide
        omega
    next => cases h
  · rintro ⟨rfl, hl₁, hl₂, hlen⟩
    have hindex : (l₁.length : Int) < cl.nelems := by
      rw [ht.nelems, hlength, toInt_natCast hlen]
      omega
    rw [if_pos hindex]
    refine ⟨_, rfl, ht.deleted hl₁ hl₂ (by omega) rfl rfl hs rfl ?_⟩
    rw [ht.cleanup]
    rfl

theorem Threaded.remove_iff (ht : Threaded w cl (l₁ ++ (a, x) :: l₂) gone) :
    (∃ cl', clistRemove cl (a + dataOffset) = some cl' ∧
      Deleted cl cl' ((l₁ ++ (a, x) :: l₂).map Prod.snd) l₁.length) ↔
    l₁ ≠ [] ∧ l₂ ≠ [] ∧ l₁.length + l₂.length < 2 ^ 31 := by
  obtain ⟨-, hna, hnode, -⟩ := segment_append.1 ht.segment
  obtain ⟨nodes, hlink, hs, hsame, hout⟩ := ht.linkNeighbours
  have hs' := hs.update hout none
  have hremove : clistRemove cl (a + dataOffset) = some { cl with
      nodes := Function.update nodes a none
      nelems := toInt (cl.nelems - 1)
      cleaned := if cl.cleanup then cl.cleaned ++ [x] else cl.cleaned } := by
    rw [clistRemove, if_neg (by simp only [dataOffset]; omega)]
    simp only [dataToNode, Nat.add_sub_cancel, hnode, hlink, deleteNode, hsame,
      Option.bind_eq_bind, Option.bind_some, Option.map_some]
    rfl
  rw [hremove]
  constructor
  · rintro ⟨cl', h, hd⟩
    obtain rfl := Option.some.inj h
    have hlen := ht.nelems_deleted rfl hd
    have hends : ¬(l₁ = [] ∨ l₂ = []) := fun hends =>
      absurd hd (ht.not_deleted hends rfl rfl hs' (.inl (Function.update_self ..)))
    rw [not_or] at hends
    exact ⟨hends.1, hends.2, hlen⟩
  · rintro ⟨hl₁, hl₂, hlen⟩
    exact ⟨_, rfl, ht.deleted hl₁ hl₂ hlen rfl rfl hs' rfl rfl⟩

/-- `clist_erase` deletes an element if and only if it has a neighbour on both sides and the list
has no cleanup function, which would not be called; `clist_remove` does if and only if it has a
neighbour on both sides. -/
theorem clist_delete_iff (h : runList (clistInit w) ops = some cl) : ∃ xs,
    Follows Node.next cl.nodes cl.front xs ∧ Follows Node.previous cl.nodes cl.back xs.reverse ∧
    ∀ i < xs.length, ∃ node, nodeFrom cl i cl.front = some node ∧
      ((∃ cl', clistErase cl i = some cl' ∧ Deleted cl cl' xs i) ↔
        w = false ∧ 0 < i ∧ i + 1 < xs.length ∧ xs.length < 2 ^ 31) ∧
      ((∃ cl', clistRemove cl (node + dataOffset) = some cl' ∧ Deleted cl cl' xs i) ↔
        0 < i ∧ i + 1 < xs.length ∧ xs.length ≤ 2 ^ 31) := by
  obtain ⟨l, gone, ht⟩ := runList_threaded h
  refine ⟨l.map Prod.snd, ht.front ▸ ht.segment.follows_next,
    ht.back ▸ ht.segment.follows_previous, ?_⟩
  intro i hi
  rw [List.length_map] at hi ⊢
  have hsplit : l = l.take i ++ l[i] :: l.drop (i + 1) := by simp
  have hlength : (l.take i).length = i := by
    rw [List.length_take]
    omega
  generalize l.take i = l₁, l[i] = c, l.drop (i + 1) = l₂ at hsplit hlength
  obtain ⟨a, x⟩ := c
  subst hsplit hlength
  have hnode := nodeFrom_eq ht.segment
  rw [← ht.front] at hnode
  have htotal : (l₁ ++ (a, x) :: l₂).length = l₁.length + l₂.length + 1 := by
    rw [List.length_append, List.length_cons]
    omega
  rw [htotal]
  refine ⟨a, hnode, ht.erase_iff.trans ?_, ht.remove_iff.trans ?_⟩
  · refine and_congr_right fun _ => ?_
    simp only [← List.length_pos_iff]
    omega
  · simp only [← List.length_pos_iff]
    omega

theorem clist_delete_iff_three : ∃ cl : CList Nat, ∃ xs,
    runList (clistInit true) [.pushBack 5, .pushBack 6, .pushFront 4] = some cl ∧
      ∀ i < xs.length, ∃ node, nodeFrom cl i cl.front = some node ∧
        ((∃ cl', clistRemove cl (node + dataOffset) = some cl' ∧ Deleted cl cl' xs i) ↔
          0 < i ∧ i + 1 < xs.length ∧ xs.length ≤ 2 ^ 31) := by
  obtain ⟨cl, hcl⟩ : ∃ cl : CList Nat,
    runList (clistInit true) [.pushBack 5, .pushBack 6, .pushFront 4] = some cl := ⟨_, rfl⟩
  obtain ⟨xs, -, -, hiff⟩ := clist_delete_iff hcl
  refine ⟨cl, xs, hcl, fun i hi => ?_⟩
  obtain ⟨node, hnode, -, hremove⟩ := hiff i hi
  exact ⟨node, hnode, hremove⟩

/-- The only element stays at both ends of the list. -/
theorem clist_delete_front : ¬∀ (ops : List (CListOp Nat)) (cl : CList Nat) (xs : List Nat)
    (i : Nat), runList (clistInit true) ops = some cl → Follows Node.next cl.nodes cl.front xs →
    i < xs.length → ∃ cl', clistErase cl i = some cl' ∧ Deleted cl cl' xs i := by
  intro h
  obtain ⟨cl, hcl⟩ : ∃ cl : CList Nat, runList (clistInit true) [.pushBack 5] = some cl :=
    ⟨_, rfl⟩
  have hfollows : Follows Node.next cl.nodes cl.front [5] := by
    obtain rfl := Option.some.inj hcl
    exact .node (n := ⟨0, 0, 5⟩) Nat.one_ne_zero rfl .null
  obtain ⟨cl', hcl', hd⟩ := h _ _ _ 0 hcl hfollows (by decide)
  have hfront : (clistErase cl 0).map CList.front = some 1 := by
    obtain rfl := Option.some.inj hcl
    rfl
  have hcl'' : clistErase cl 0 = some cl' := hcl'
  rw [hcl'', Option.map_some, hd.front.2 rfl] at hfront
  cases hfront

end deletion
end Lisp
