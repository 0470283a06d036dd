import Lisp.Library.Ledger
import Lisp.Library.LinkedList
import Lisp.Machine
import Mathlib.Data.List.InsertIdx
import Mathlib.Data.List.Nodup

/-! The linked list of the library (`clist.c`). An operation has no result where it reads
through a pointer to no node, or an assertion fails. -/
namespace Lisp
open scoped List
open LinkedList
variable {α : Type}

/-- `CList`, with the nodes in memory, the address of the next node to allocate, and a record
of the elements that were passed to `cleanup`. -/
structure CList (α : Type) where
  nodes : Store α
  fresh : Nat
  front : Nat
  back : Nat
  nelems : Int
  cleanup : Bool
  cleaned : List α

section source

def clistInit (cleanup : Bool) : CList α := ⟨fun _ => none, 1, 0, 0, 0, cleanup, []⟩

/-- `new_node`, with the links that its caller stores in it. -/
def newNode (cl : CList α) (data : α) (next previous : Nat) : Nat × CList α :=
  (cl.fresh, { cl with
    nodes := Function.update cl.nodes cl.fresh (some ⟨next, previous, data⟩)
    fresh := cl.fresh + 1 })

def setNext (cl : CList α) (node next : Nat) : Option (CList α) :=
  (cl.nodes node).map fun n =>
    { cl with nodes := Function.update cl.nodes node (some { n with next := next }) }

def setPrevious (cl : CList α) (node previous : Nat) : Option (CList α) :=
  (cl.nodes node).map fun n =>
    { cl with nodes := Function.update cl.nodes node (some { n with previous := previous }) }

def clistPushFront (cl : CList α) (data : α) : Option (CList α) := do
  let (node, cl) := newNode cl data cl.front 0
  let cl ← if cl.front ≠ 0 then setPrevious cl cl.front node else some cl
  let cl := { cl with front := node }
  let cl := if cl.back = 0 then { cl with back := cl.front } else cl
  return { cl with nelems := toInt (cl.nelems + 1) }

def clistPushBack (cl : CList α) (data : α) : Option (CList α) := do
  let (node, cl) := newNode cl data 0 cl.back
  let cl ← if cl.back ≠ 0 then setNext cl cl.back node else some cl
  let cl := { cl with back := node }
  let cl := if cl.front = 0 then { cl with front := cl.back } else cl
  return { cl with nelems := toInt (cl.nelems + 1) }

/-- The loop of `node_at`. -/
def nodeFrom (cl : CList α) : Nat → Nat → Option Nat
  | 0, node => some node
  | i + 1, node =>
    if node = 0 then some node else do
      let n ← cl.nodes node
      nodeFrom cl i n.next

def nodeAt (cl : CList α) (i : Int) : Option Nat :=
  if 0 ≤ i ∧ i < cl.nelems then nodeFrom cl i.toNat cl.front else none

/-- The part of `clist_insert` that puts the node after `previous`: the node that follows. -/
def linkAfter (cl : CList α) (previous node : Nat) : Option (Nat × CList α) :=
  if previous = 0 then some (cl.front, { cl with front := node }) else do
    let p ← cl.nodes previous
    let cl ← setNext cl previous node
    return (p.next, cl)

def clistInsert (cl : CList α) (data : α) (index : Int) : Option (CList α) := do
  if ¬(0 ≤ index ∧ index < cl.nelems) then none else
  let (node, cl) := newNode cl data 0 0
  let previous ← if index = 0 then some 0 else nodeAt cl (index - 1)
  let (next, cl) ← linkAfter cl previous node
  let cl ← if next ≠ 0 then setPrevious cl next node else some { cl with back := node }
  let cl ← setNext cl node next
  let cl ← setPrevious cl node previous
  return { cl with nelems := toInt (cl.nelems + 1) }

/-- `delete_node`, which also frees the node. -/
def deleteNode (cl : CList α) (node : Nat) : Option (CList α) :=
  (cl.nodes node).map fun n =>
    { cl with
      nodes := Function.update cl.nodes node none
      cleaned := if cl.cleanup then cl.cleaned ++ [n.data] else cl.cleaned }

def clistPopFront (cl : CList α) : Option (CList α) := do
  if cl.nelems = 0 then return cl else
  let front := cl.front
  let n ← cl.nodes front
  let cl := { cl with front := n.next }
  let cl ← if cl.front ≠ 0 then setPrevious cl cl.front 0 else some { cl with back := 0 }
  let cl ← deleteNode cl front
  return { cl with nelems := toInt (cl.nelems - 1) }

def clistPopBack (cl : CList α) : Option (CList α) := do
  if cl.nelems = 0 then return cl else
  let back := cl.back
  let n ← cl.nodes back
  let cl := { cl with back := n.previous }
  let cl ← if cl.back ≠ 0 then setNext cl cl.back 0 else some { cl with front := 0 }
  let cl ← deleteNode cl back
  return { cl with nelems := toInt (cl.nelems - 1) }

/-- The loop of `clist_clear`, for at most the given number of rounds. -/
def clearFrom : Nat → CList α → Option (CList α)
  | 0, cl => if cl.nelems = 0 then some cl else none
  | fuel + 1, cl => if cl.nelems = 0 then some cl else (clistPopFront cl).bind (clearFrom fuel)

def clistClear (cl : CList α) : Option (CList α) := clearFrom cl.nelems.toNat cl

end source

section runs

inductive CListOp (α : Type) where
  | pushFront (x : α)
  | pushBack (x : α)
  | insert (x : α) (index : Int)
  | popFront
  | popBack
  | clear

def CListOp.run (cl : CList α) : CListOp α → Option (CList α)
  | pushFront x => clistPushFront cl x
  | pushBack x => clistPushBack cl x
  | insert x index => clistInsert cl x index
  | popFront => clistPopFront cl
  | popBack => clistPopBack cl
  | clear => clistClear cl

def runList (cl : CList α) (ops : List (CListOp α)) : Option (CList α) := ops.foldlM CListOp.run cl

/-- The elements that an operation stores. -/
def CListOp.stored : CListOp α → List α
  | pushFront x => [x]
  | pushBack x => [x]
  | insert x _ => [x]
  | popFront => []
  | popBack => []
  | clear => []

/-- The same operations on a list, whose length satisfies `fits` whenever an element is added:
the list, and the elements that left it, in order. -/
inductive DequeRun (fits : Nat → Prop) : List (CListOp α) → List α → List α → Prop where
  | init : DequeRun fits [] [] []
  | pushFront {ops : List (CListOp α)} {xs gone : List α} (h : DequeRun fits ops xs gone) (x : α)
      (hlen : fits (xs.length + 1)) : DequeRun fits (ops ++ [.pushFront x]) (x :: xs) gone
  | pushBack {ops : List (CListOp α)} {xs gone : List α} (h : DequeRun fits ops xs gone) (x : α)
      (hlen : fits (xs.length + 1)) : DequeRun fits (ops ++ [.pushBack x]) (xs ++ [x]) gone
  | insert {ops : List (CListOp α)} {xs gone : List α} (h : DequeRun fits ops xs gone) (x : α)
      (i : Nat) (hi : i < xs.length) (hlen : fits (xs.length + 1)) :
      DequeRun fits (ops ++ [.insert x i]) (xs.insertIdx i x) gone
  | popFront {ops : List (CListOp α)} {xs gone : List α} (h : DequeRun fits ops xs gone) :
      DequeRun fits (ops ++ [.popFront]) xs.tail (gone ++ xs.head?.toList)
  | popBack {ops : List (CListOp α)} {xs gone : List α} (h : DequeRun fits ops xs gone) :
      DequeRun fits (ops ++ [.popBack]) xs.dropLast (gone ++ xs.getLast?.toList)
  | clear {ops : List (CListOp α)} {xs gone : List α} (h : DequeRun fits ops xs gone) :
      DequeRun fits (ops ++ [.clear]) [] (gone ++ xs)

end runs

/-- The nodes `l` are linked both ways from the front to the back, and `gone` was cleaned up. -/
structure Threaded (withCleanup : Bool) (cl : CList α) (l : Cells α) (gone : List α) : Prop where
  segment : Segment cl.nodes 0 l 0
  nodup : (l.map Prod.fst).Nodup
  old : ∀ c ∈ l, c.1 < cl.fresh
  fresh : 0 < cl.fresh
  front : cl.front = first l 0
  back : cl.back = last l 0
  nelems : cl.nelems = toInt l.length
  cleanup : cl.cleanup = withCleanup
  cleaned : cl.cleaned = if withCleanup then gone else []

variable {w : Bool} {cl cl' : CList α} {l : Cells α} {xs gone : List α} {ops : List (CListOp α)}
  {fits : Nat → Prop} {x : α} {i : Nat}

section operations

theorem toInt_succ (n : Nat) : toInt (toInt n + 1) = toInt (n + 1 : Nat) := by
  unfold toInt
  push_cast
  exact Int.bmod_add_bmod ..

theorem toInt_pred (n : Nat) : toInt (toInt (n + 1 : Nat) - 1) = toInt n := by
  unfold toInt
  rw [Int.bmod_sub_bmod]
  push_cast
  rw [Int.add_sub_cancel]

theorem last_ne (hl : ∀ c ∈ l, c.1 ≠ 0) (hi : i ≠ 0) : last l i ≠ 0 := by
  induction l generalizing i with
  | nil => exact hi
  | cons c l ih => exact ih (fun e he => hl e (by simp [he])) (hl c (by simp))

theorem Threaded.not_mem (ht : Threaded w cl l gone) : cl.fresh ∉ l.map Prod.fst := by
  intro hm
  obtain ⟨c, hc, he⟩ := List.mem_map.1 hm
  have := ht.old c hc
  omega

theorem threaded_init (w : Bool) : Threaded w (clistInit w : CList α) [] [] where
  segment := trivial
  nodup := List.nodup_nil
  old := by simp
  fresh := Nat.one_pos
  front := rfl
  back := rfl
  nelems := (toInt_natCast (by decide : 0 < 2 ^ 31)).symm
  cleanup := rfl
  cleaned := by cases w <;> rfl

theorem Threaded.pushFront (ht : Threaded w cl l gone) (x : α) :
    ∃ cl', clistPushFront cl x = some cl' ∧ Threaded w cl' ((cl.fresh, x) :: l) gone := by
  have hfresh := Nat.pos_iff_ne_zero.1 ht.fresh
  have hnot := ht.not_mem
  have hseg := ht.segment.update hnot (some ⟨cl.front, 0, x⟩)
  have hold : ∀ c ∈ (cl.fresh, x) :: l, c.1 < cl.fresh + 1 := by
    intro c hc
    rcases List.mem_cons.1 hc with rfl | hc
    · exact Nat.lt_succ_self _
    · exact Nat.lt_succ_of_lt (ht.old c hc)
  have hnelems : toInt (cl.nelems + 1) = toInt ((cl.fresh, x) :: l).length := by
    rw [ht.nelems, toInt_succ, List.length_cons]
  have hnodup : (((cl.fresh, x) :: l).map Prod.fst).Nodup := List.nodup_cons.2 ⟨hnot, ht.nodup⟩
  have hfront := ht.front
  have hback := ht.back
  cases l with
  | nil =>
    have hfront' : cl.front = 0 := hfront
    have hback' : cl.back = 0 := hback
    refine ⟨_, by simp [clistPushFront, newNode, hfront', hback']; rfl, ?_⟩
    refine ⟨⟨hfresh, ?_, trivial⟩, hnodup, hold, Nat.succ_pos _, rfl, rfl, hnelems, ht.cleanup,
      ht.cleaned⟩
    simp [first]
  | cons c l =>
    obtain ⟨a, y⟩ := c
    have hfront' : cl.front = a := hfront
    have hna : a ≠ 0 := ht.segment.1
    have hback' : cl.back = last l a := hback
    have hbackne : cl.back ≠ 0 := by
      rw [hback']
      exact last_ne (fun c hc => ht.segment.nonnull c (List.mem_cons_of_mem _ hc)) hna
    rw [hfront'] at hseg
    obtain ⟨ha, hseg'⟩ := hseg.setPrevious ht.nodup cl.fresh
    have hne : cl.fresh ≠ a := fun he => hnot (by simp [he])
    refine ⟨_, by
      simp only [clistPushFront, newNode, setPrevious, hfront', hbackne, hna, ha, ne_eq,
        not_false_eq_true, if_true, if_false, Option.map_some, Option.bind_eq_bind,
        Option.bind_some]
      rfl, ?_⟩
    refine ⟨⟨hfresh, ?_, hseg'⟩, hnodup, hold, Nat.succ_pos _, rfl, hback', hnelems, ht.cleanup,
      ht.cleaned⟩
    simp only [Function.update_of_ne hne, Function.update_self, first_cons]

theorem Threaded.pushBack (ht : Threaded w cl l gone) (x : α) :
    ∃ cl', clistPushBack cl x = some cl' ∧ Threaded w cl' (l ++ [(cl.fresh, x)]) gone := by
  have hfresh := Nat.pos_iff_ne_zero.1 ht.fresh
  have hnot := ht.not_mem
  have hseg := ht.segment.update hnot (some ⟨0, cl.back, x⟩)
  have hold : ∀ c ∈ l ++ [(cl.fresh, x)], c.1 < cl.fresh + 1 := by
    intro c hc
    rcases List.mem_append.1 hc with hc | hc
    · exact Nat.lt_succ_of_lt (ht.old c hc)
    · obtain rfl := List.mem_singleton.1 hc
      exact Nat.lt_succ_self _
  have hnelems : toInt (cl.nelems + 1) = toInt (l ++ [(cl.fresh, x)]).length := by
    rw [ht.nelems, toInt_succ, List.length_append, List.length_singleton]
  have hnodup : ((l ++ [(cl.fresh, x)]).map Prod.fst).Nodup := by
    rw [List.map_append, List.nodup_append]
    refine ⟨ht.nodup, List.nodup_singleton _, fun a ha b hb hab => ?_⟩
    obtain rfl : b = cl.fresh := by simpa using hb
    exact hnot (hab ▸ ha)
  have hfront := ht.front
  have hback := ht.back
  rcases List.eq_nil_or_concat l with rfl | ⟨l, ⟨a, y⟩, rfl⟩
  · have hfront' : cl.front = 0 := hfront
    have hback' : cl.back = 0 := hback
    refine ⟨_, by
      simp only [clistPushBack, newNode, hfront', hback', ne_eq, not_true_eq_false, if_true,
        if_false, Option.bind_eq_bind, Option.bind_some]
      rfl, ?_⟩
    refine ⟨⟨hfresh, ?_, trivial⟩, hnodup, hold, Nat.succ_pos _, rfl, rfl, hnelems, ht.cleanup,
      ht.cleaned⟩
    simp only [Function.update_self, first_nil]
  · rw [List.concat_eq_append] at *
    obtain ⟨-, hna, -⟩ := segment_append.1 ht.segment
    have hback' : cl.back = a := by simpa using hback
    have hfrontne : cl.front ≠ 0 := by
      rw [hfront]
      cases l with
      | nil => exact hna
      | cons c l => exact ht.segment.1
    rw [hback'] at hseg
    obtain ⟨ha, hseg'⟩ := hseg.setNext ht.nodup cl.fresh
    have hne : cl.fresh ≠ a := fun he => hnot (by simp [he])
    refine ⟨_, by
      simp only [clistPushBack, newNode, setNext, hfrontne, hback', hna, ha, ne_eq,
        not_false_eq_true, if_true, if_false, Option.map_some, Option.bind_eq_bind,
        Option.bind_some]
      rfl, ?_⟩
    refine ⟨?_, hnodup, hold, Nat.succ_pos _, ?_, ?_, hnelems, ht.cleanup, ht.cleaned⟩
    · refine segment_append.2 ⟨hseg', hfresh, ?_, trivial⟩
      simp only [Function.update_of_ne hne, Function.update_self, first_nil, last_append, last_cons,
        last_nil]
    · simp [hfront]
    · simp

theorem Threaded.count (ht : Threaded w cl l gone) (hlen : l.length < 2 ^ 31) :
    cl.nelems = l.length := by
  rw [ht.nelems, toInt_natCast hlen]

theorem Threaded.cleanedUp (ht : Threaded w cl l gone) (x : α) :
    (if cl.cleanup then cl.cleaned ++ [x] else cl.cleaned) = if w then gone ++ [x] else [] := by
  have hw := ht.cleanup
  have hcleaned := ht.cleaned
  subst hw
  cases hc : cl.cleanup with
  | true => simpa [hc] using hcleaned
  | false => simpa [hc] using hcleaned

theorem Threaded.popFront_cons {a : Nat} (ht : Threaded w cl ((a, x) :: l) gone)
    (hn : cl.nelems ≠ 0) :
    ∃ cl', clistPopFront cl = some cl' ∧ Threaded w cl' l (gone ++ [x]) := by
  have hnelems : toInt (cl.nelems - 1) = toInt l.length := by
    rw [ht.nelems, List.length_cons, toInt_pred]
  obtain ⟨hna, ha, hl⟩ := ht.segment
  have hfront : cl.front = a := ht.front
  have hback : cl.back = last l a := ht.back
  obtain ⟨hout, hnodup⟩ := List.nodup_cons.1 ht.nodup
  have hold : ∀ c ∈ l, c.1 < cl.fresh := fun c hc => ht.old c (List.mem_cons_of_mem _ hc)
  cases l with
  | nil =>
    refine ⟨_, by
      simp only [clistPopFront, deleteNode, hn, hfront, ha, first_nil, ne_eq, not_true_eq_false,
        if_false, Option.map_some, Option.bind_eq_bind, Option.bind_some]
      rfl, ?_⟩
    exact ⟨trivial, hnodup, hold, ht.fresh, rfl, rfl, hnelems, ht.cleanup, ht.cleanedUp x⟩
  | cons c l =>
    obtain ⟨b, y⟩ := c
    obtain ⟨hb, hseg⟩ := hl.setPrevious hnodup 0
    have hne : a ≠ b := fun he => hout (by simp [he])
    have ha' : Function.update cl.nodes b (some ⟨first l 0, 0, y⟩) a =
        some ⟨first ((b, y) :: l) 0, 0, x⟩ := by
      rw [Function.update_of_ne hne, ha]
    refine ⟨_, by
      simp only [clistPopFront, deleteNode, setPrevious, hn, hfront, ha, ha', hb, first_cons, hl.1,
        ne_eq, not_false_eq_true, if_true, if_false, Option.map_some, Option.bind_eq_bind,
        Option.bind_some]
      rfl, ?_⟩
    exact ⟨hseg.update hout none, hnodup, hold, ht.fresh, rfl, hback, hnelems, ht.cleanup,
      ht.cleanedUp x⟩

theorem Threaded.popBack_append {a : Nat} (ht : Threaded w cl (l ++ [(a, x)]) gone)
    (hn : cl.nelems ≠ 0) :
    ∃ cl', clistPopBack cl = some cl' ∧ Threaded w cl' l (gone ++ [x]) := by
  have hnelems : toInt (cl.nelems - 1) = toInt l.length := by
    rw [ht.nelems, List.length_append, List.length_singleton, toInt_pred]
  obtain ⟨hl, hna, ha, -⟩ := segment_append.1 ht.segment
  have hback : cl.back = a := by simpa using ht.back
  have hfront : cl.front = first l a := by simpa using ht.front
  have hnodup := ht.nodup
  rw [List.map_append, List.nodup_append] at hnodup
  have hout : a ∉ l.map Prod.fst := fun hm => hnodup.2.2 a hm a (by simp) rfl
  have hold : ∀ c ∈ l, c.1 < cl.fresh := fun c hc => ht.old c (List.mem_append_left _ hc)
  rcases List.eq_nil_or_concat l with rfl | ⟨l, ⟨b, y⟩, rfl⟩
  · refine ⟨_, by
      simp only [clistPopBack, deleteNode, hn, hback, ha, last_nil, ne_eq, not_true_eq_false,
        if_false, Option.map_some, Option.bind_eq_bind, Option.bind_some]
      rfl, ?_⟩
    exact ⟨trivial, hnodup.1, hold, ht.fresh, rfl, rfl, hnelems, ht.cleanup, ht.cleanedUp x⟩
  · rw [List.concat_eq_append] at *
    obtain ⟨hb, hseg⟩ := hl.setNext hnodup.1 0
    have hlast : last (l ++ [(b, y)]) 0 = b := by simp
    have hnb : b ≠ 0 := hl.nonnull (b, y) (by simp)
    have hne : a ≠ b := fun he => hout (by simp [he])
    have ha' : Function.update cl.nodes b (some ⟨0, last l 0, y⟩) a = some ⟨0, b, x⟩ := by
      rw [Function.update_of_ne hne, ha, hlast]
      rfl
    rw [hlast] at ha
    refine ⟨_, by
      simp only [clistPopBack, deleteNode, setNext, hn, hback, ha, ha', hb, hnb, ne_eq,
        not_false_eq_true, if_true, if_false, Option.map_some, Option.bind_eq_bind,
        Option.bind_some]
      rfl, ?_⟩
    refine ⟨hseg.update hout none, hnodup.1, hold, ht.fresh, ?_, hlast.symm, hnelems, ht.cleanup,
      ht.cleanedUp x⟩
    simpa using hfront

theorem nodeFrom_eq {a before after : Nat} {l' : Cells α}
    (hs : Segment cl.nodes before (l ++ (a, x) :: l') after) :
    nodeFrom cl l.length (first (l ++ (a, x) :: l') after) = some a := by
  induction l generalizing before with
  | nil => rfl
  | cons c l ih =>
    obtain ⟨hc, hnode, hl⟩ := hs
    have hstep := ih hl
    rw [List.length_cons, List.cons_append, first_cons, nodeFrom, if_neg hc, hnode]
    exact hstep

theorem Threaded.insert {b : Nat} {y : α} {l₁ l₂ : Cells α}
    (ht : Threaded w cl (l₁ ++ (b, y) :: l₂) gone) (hindex : (l₁.length : Int) < cl.nelems)
    (x : α) :
    ∃ cl', clistInsert cl x l₁.length = some cl' ∧
      Threaded w cl' (l₁ ++ (cl.fresh, x) :: (b, y) :: l₂) gone := by
  have hfresh := Nat.pos_iff_ne_zero.1 ht.fresh
  have hnot := ht.not_mem
  have hinside : (0 : Int) ≤ l₁.length ∧ (l₁.length : Int) < cl.nelems := ⟨by omega, hindex⟩
  have hold : ∀ c ∈ l₁ ++ (cl.fresh, x) :: (b, y) :: l₂, c.1 < cl.fresh + 1 := by
    intro c hc
    rcases List.mem_append.1 hc with hc | hc
    · exact Nat.lt_succ_of_lt (ht.old c (List.mem_append_left _ hc))
    · rcases List.mem_cons.1 hc with rfl | hc
      · exact Nat.lt_succ_self _
      · exact Nat.lt_succ_of_lt (ht.old c (List.mem_append_right _ hc))
  have hnelems : toInt (cl.nelems + 1) =
      toInt (l₁ ++ (cl.fresh, x) :: (b, y) :: l₂).length := by
    have hadd : (l₁ ++ (cl.fresh, x) :: (b, y) :: l₂).length =
        (l₁ ++ (b, y) :: l₂).length + 1 := by
      simp only [List.length_append, List.length_cons]
      omega
    rw [ht.nelems, toInt_succ, hadd]
  have hnodup : ((l₁ ++ (cl.fresh, x) :: (b, y) :: l₂).map Prod.fst).Nodup := by
    have hperm : (l₁ ++ (cl.fresh, x) :: (b, y) :: l₂) ~ (cl.fresh, x) :: (l₁ ++ (b, y) :: l₂) :=
      List.perm_middle
    exact (hperm.map Prod.fst).nodup_iff.2 (List.nodup_cons.2 ⟨hnot, ht.nodup⟩)
  have hseg := ht.segment.update hnot (some ⟨0, 0, x⟩)
  obtain ⟨hl, hr⟩ := segment_append.1 hseg
  have hparts := ht.nodup
  rw [List.map_append, List.nodup_append] at hparts
  obtain ⟨hnodup₁, hnodup₂, hdisjoint⟩ := hparts
  rw [List.map_append, List.mem_append, not_or] at hnot
  obtain ⟨hnot₁, hnot₂⟩ := hnot
  have hneb : b ≠ cl.fresh := fun he => hnot₂ (by simp [he])
  have hfront := ht.front
  have hback := ht.back
  have hnb : b ≠ 0 := hr.1
  rcases List.eq_nil_or_concat l₁ with rfl | ⟨l₀, ⟨p, z⟩, rfl⟩
  · -- The new node goes to the front.
    have hfront' : cl.front = b := hfront
    obtain ⟨hb, hr'⟩ := hr.setPrevious hnodup₂ cl.fresh
    have hnew : Function.update (Function.update cl.nodes cl.fresh (some ⟨0, 0, x⟩)) b
        (some ⟨first l₂ 0, cl.fresh, y⟩) cl.fresh = some ⟨0, 0, x⟩ := by
      rw [Function.update_of_ne hneb.symm, Function.update_self]
    have hzero : ((([] : Cells α).length : Nat) : Int) = 0 := rfl
    rw [hzero] at hinside
    rw [last_nil] at hb
    refine ⟨_, by
      simp only [clistInsert, newNode, linkAfter, setPrevious, setNext, hzero, hinside, hfront', hb,
        hnb, hnew, Function.update_self, and_self, not_true_eq_false, ne_eq, not_false_eq_true,
        if_true, if_false, Option.map_some, Option.bind_eq_bind, Option.bind_some]
      rfl, ?_⟩
    refine ⟨⟨hfresh, ?_, ?_⟩, hnodup, hold, Nat.succ_pos _, rfl, hback, hnelems, ht.cleanup,
      ht.cleaned⟩
    · exact Function.update_self ..
    · exact (hr'.update hnot₂ _).update hnot₂ _
  · rw [List.concat_eq_append] at *
    -- The new node goes after the node `p`.
    obtain ⟨hp, hl'⟩ := hl.setNext hnodup₁ cl.fresh
    have hlast : last (l₀ ++ [(p, z)]) 0 = p := by simp
    have hnep : p ≠ cl.fresh := fun he => hnot₁ (by simp [he])
    have hneb' : b ≠ p := fun he => hdisjoint p (by simp) p (by simp [he]) rfl
    have hnp : p ≠ 0 := hl.nonnull (p, z) (by simp)
    have hout : p ∉ ((b, y) :: l₂).map Prod.fst := fun h => hdisjoint p (by simp) p h rfl
    have hout₁ : b ∉ (l₀ ++ [(p, z)]).map Prod.fst := fun h => hdisjoint b h b (by simp) rfl
    rw [hlast] at hr
    obtain ⟨hb, hr'⟩ :=
      (hr.update hout (some ⟨cl.fresh, last l₀ 0, z⟩)).setPrevious hnodup₂ cl.fresh
    have hnew : Function.update (Function.update
        (Function.update cl.nodes cl.fresh (some ⟨0, 0, x⟩)) p (some ⟨cl.fresh, last l₀ 0, z⟩)) b
        (some ⟨first l₂ 0, cl.fresh, y⟩) cl.fresh = some ⟨0, 0, x⟩ := by
      rw [Function.update_of_ne hneb.symm, Function.update_of_ne hnep.symm, Function.update_self]
    have hindex : ((l₀ ++ [(p, z)]).length : Int) = l₀.length + 1 := by simp
    have hnode : nodeAt { cl with
        nodes := Function.update cl.nodes cl.fresh (some ⟨0, 0, x⟩)
        fresh := cl.fresh + 1 } (l₀.length + 1 - 1) = some p := by
      have hfront' : cl.front = first (l₀ ++ [(p, z)]) b := by
        rw [hfront, first_append, first_cons]
      have hrange : (0 : Int) ≤ l₀.length ∧ (l₀.length : Int) < cl.nelems := by omega
      rw [nodeAt, Int.add_sub_cancel, if_pos hrange, Int.toNat_natCast]
      show nodeFrom _ l₀.length cl.front = some p
      rw [hfront']
      exact nodeFrom_eq hl
    have hpos : (l₀.length : Int) + 1 ≠ 0 := by omega
    rw [hindex] at hinside ⊢
    refine ⟨_, by
      simp only [clistInsert, newNode, linkAfter, setPrevious, setNext, hinside, hpos, hnode, hp,
        hb, hnb, hnp, hnew, first_cons, Function.update_self, and_self, not_true_eq_false, ne_eq,
        not_false_eq_true, if_true, if_false, Option.map_some, Option.pure_def,
        Option.bind_eq_bind, Option.bind_some]
      rfl, ?_⟩
    refine ⟨segment_append.2 ⟨?_, hfresh, ?_, ?_⟩, hnodup, hold, Nat.succ_pos _, ?_, ?_, hnelems,
      ht.cleanup, ht.cleaned⟩
    · exact ((hl'.update hout₁ _).update hnot₁ _).update hnot₁ _
    · rw [hlast]
      exact Function.update_self ..
    · exact (hr'.update hnot₂ _).update hnot₂ _
    · simpa using hfront
    · simpa using hback

theorem Threaded.clear (ht : Threaded w cl l gone) {fuel : Nat} (hfuel : l.length ≤ fuel)
    (hlen : l.length < 2 ^ 31) :
    ∃ cl', clearFrom fuel cl = some cl' ∧ Threaded w cl' [] (gone ++ l.map Prod.snd) := by
  induction l generalizing cl gone fuel with
  | nil =>
    have hn : cl.nelems = 0 := ht.count hlen
    refine ⟨cl, ?_, by simpa using ht⟩
    cases fuel with
    | zero => simp [clearFrom, hn]
    | succ fuel => simp [clearFrom, hn]
  | cons c l ih =>
    obtain _ | fuel := fuel
    · simp at hfuel
    have hcount := ht.count hlen
    rw [List.length_cons] at hcount hfuel hlen
    have hn : cl.nelems ≠ 0 := by omega
    obtain ⟨cl₁, h₁, ht₁⟩ := ht.popFront_cons hn
    have hle : l.length ≤ fuel := Nat.le_of_succ_le_succ hfuel
    obtain ⟨cl', h', ht'⟩ := ih ht₁ hle (Nat.lt_of_succ_lt hlen)
    refine ⟨cl', ?_, by simpa using ht'⟩
    rw [clearFrom, if_neg hn, h₁]
    exact h'

end operations

section refinement

theorem runList_append {op : CListOp α} (h : runList cl ops = some cl') :
    runList cl (ops ++ [op]) = op.run cl' := by
  unfold runList at h ⊢
  rw [List.foldlM_append, h]
  simp

/-- The list holds `xs`, and `gone` was cleaned up. -/
def ThreadsList (w : Bool) (cl : CList α) (xs gone : List α) : Prop :=
  ∃ l : Cells α, l.map Prod.snd = xs ∧ Threaded w cl l gone

theorem ThreadsList.pushFront (h : ThreadsList w cl xs gone) (x : α) :
    ∃ cl', clistPushFront cl x = some cl' ∧ ThreadsList w cl' (x :: xs) gone := by
  obtain ⟨l, rfl, ht⟩ := h
  obtain ⟨cl', hcl', ht'⟩ := ht.pushFront x
  exact ⟨cl', hcl', _, rfl, ht'⟩

theorem ThreadsList.pushBack (h : ThreadsList w cl xs gone) (x : α) :
    ∃ cl', clistPushBack cl x = some cl' ∧ ThreadsList w cl' (xs ++ [x]) gone := by
  obtain ⟨l, rfl, ht⟩ := h
  obtain ⟨cl', hcl', ht'⟩ := ht.pushBack x
  exact ⟨cl', hcl', _, by simp, ht'⟩

theorem insertIdx_append (l l' : List α) (x : α) :
    (l ++ l').insertIdx l.length x = l ++ x :: l' := by
  induction l with
  | nil => rfl
  | cons y l ih => simp [ih]

theorem ThreadsList.insert (h : ThreadsList w cl xs gone) (hlen : xs.length < 2 ^ 31)
    (hi : i < xs.length) (x : α) :
    ∃ cl', clistInsert cl x i = some cl' ∧ ThreadsList w cl' (xs.insertIdx i x) gone := by
  obtain ⟨l, rfl, ht⟩ := h
  rw [List.length_map] at hlen hi
  have hsplit : l = l.take i ++ l[i] :: l.drop (i + 1) := by simp
  have hlength : (l.take i).length = i := by
    rw [List.length_take]
    omega
  generalize l.take i = l₁, l[i] = c, l.drop (i + 1) = l₂ at hsplit hlength
  subst hsplit hlength
  have hindex : (l₁.length : Int) < cl.nelems := by
    rw [ht.count hlen]
    exact Int.ofNat_lt.2 hi
  obtain ⟨cl', hcl', ht'⟩ := ht.insert hindex x
  refine ⟨cl', hcl', _, ?_, ht'⟩
  have hinsert := insertIdx_append (l₁.map Prod.snd) (c.2 :: l₂.map Prod.snd) x
  rw [List.length_map] at hinsert
  rw [List.map_append, List.map_append]
  exact hinsert.symm

theorem ThreadsList.popFront (h : ThreadsList w cl xs gone) (hlen : xs.length < 2 ^ 31) :
    ∃ cl', clistPopFront cl = some cl' ∧
      ThreadsList w cl' xs.tail (gone ++ xs.head?.toList) := by
  obtain ⟨l, rfl, ht⟩ := h
  rw [List.length_map] at hlen
  cases l with
  | nil =>
    have hn : cl.nelems = 0 := ht.count hlen
    exact ⟨cl, by simp [clistPopFront, hn], [], rfl, by simpa using ht⟩
  | cons c l =>
    have hn : cl.nelems ≠ 0 := by
      rw [ht.count hlen, List.length_cons]
      omega
    obtain ⟨cl', hcl', ht'⟩ := ht.popFront_cons hn
    exact ⟨cl', hcl', l, rfl, ht'⟩

theorem ThreadsList.popBack (h : ThreadsList w cl xs gone) (hlen : xs.length < 2 ^ 31) :
    ∃ cl', clistPopBack cl = some cl' ∧
      ThreadsList w cl' xs.dropLast (gone ++ xs.getLast?.toList) := by
  obtain ⟨l, rfl, ht⟩ := h
  rw [List.length_map] at hlen
  rcases List.eq_nil_or_concat l with rfl | ⟨l, c, rfl⟩
  · have hn : cl.nelems = 0 := ht.count hlen
    exact ⟨cl, by simp [clistPopBack, hn], [], rfl, by simpa using ht⟩
  · rw [List.concat_eq_append] at ht hlen ⊢
    have hn : cl.nelems ≠ 0 := by
      rw [ht.count hlen, List.length_append, List.length_singleton]
      omega
    obtain ⟨cl', hcl', ht'⟩ := ht.popBack_append hn
    exact ⟨cl', hcl', l, by simp, by simpa using ht'⟩

theorem ThreadsList.clear (h : ThreadsList w cl xs gone) (hlen : xs.length < 2 ^ 31) :
    ∃ cl', clistClear cl = some cl' ∧ ThreadsList w cl' [] (gone ++ xs) := by
  obtain ⟨l, rfl, ht⟩ := h
  rw [List.length_map] at hlen
  have hfuel : l.length ≤ cl.nelems.toNat := by rw [ht.count hlen, Int.toNat_natCast]
  obtain ⟨cl', hcl', ht'⟩ := ht.clear hfuel hlen
  exact ⟨cl', hcl', [], rfl, ht'⟩

/-- The length of a list whose growth is bounded. -/
theorem DequeRun.length (h : DequeRun (· < 2 ^ 31) ops xs gone) : xs.length < 2 ^ 31 := by
  induction h with
  | init => simp
  | pushFront _ x hlen _ => exact hlen
  | pushBack _ x hlen _ => simpa using hlen
  | insert _ x i hi hlen _ =>
    rw [List.length_insertIdx_of_le_length hi.le]
    exact hlen
  | popFront _ ih =>
    rw [List.length_tail]
    omega
  | popBack _ ih =>
    rw [List.length_dropLast]
    omega
  | clear _ _ => simp

/-- Each operation on the nodes is the one on the list. -/
theorem DequeRun.threads (h : DequeRun (· < 2 ^ 31) ops xs gone) (cleanup : Bool) :
    ∃ cl, runList (clistInit cleanup) ops = some cl ∧ ThreadsList cleanup cl xs gone := by
  induction h with
  | init => exact ⟨_, rfl, [], rfl, threaded_init cleanup⟩
  | pushFront _ x _ ih =>
    obtain ⟨cl, hcl, ht⟩ := ih
    obtain ⟨cl', hcl', ht'⟩ := ht.pushFront x
    exact ⟨cl', (runList_append hcl).trans hcl', ht'⟩
  | pushBack _ x _ ih =>
    obtain ⟨cl, hcl, ht⟩ := ih
    obtain ⟨cl', hcl', ht'⟩ := ht.pushBack x
    exact ⟨cl', (runList_append hcl).trans hcl', ht'⟩
  | insert h x i hi _ ih =>
    obtain ⟨cl, hcl, ht⟩ := ih
    obtain ⟨cl', hcl', ht'⟩ := ht.insert h.length hi x
    exact ⟨cl', (runList_append hcl).trans hcl', ht'⟩
  | popFront h ih =>
    obtain ⟨cl, hcl, ht⟩ := ih
    obtain ⟨cl', hcl', ht'⟩ := ht.popFront h.length
    exact ⟨cl', (runList_append hcl).trans hcl', ht'⟩
  | popBack h ih =>
    obtain ⟨cl, hcl, ht⟩ := ih
    obtain ⟨cl', hcl', ht'⟩ := ht.popBack h.length
    exact ⟨cl', (runList_append hcl).trans hcl', ht'⟩
  | clear h ih =>
    obtain ⟨cl, hcl, ht⟩ := ih
    obtain ⟨cl', hcl', ht'⟩ := ht.clear h.length
    exact ⟨cl', (runList_append hcl).trans hcl', ht'⟩

/-- What was stored is in the list or has left it, each element once. -/
theorem DequeRun.ledger (h : DequeRun fits ops xs gone) :
    Ledger (ops.flatMap CListOp.stored) xs gone := by
  induction h with
  | init => exact .init
  | @pushFront ops xs gone _ x _ ih =>
    rw [List.flatMap_append]
    exact ih.enter x
  | @pushBack ops xs gone _ x _ ih =>
    rw [List.flatMap_append]
    exact (ih.enter x).perm (List.perm_append_singleton x xs).symm
  | @insert ops xs gone _ x i hi _ ih =>
    rw [List.flatMap_append]
    exact (ih.enter x).perm (List.perm_insertIdx x xs hi.le).symm
  | @popFront ops xs gone _ ih =>
    rw [List.flatMap_append]
    simp only [List.flatMap_singleton, CListOp.stored, List.append_nil]
    cases xs with
    | nil => simpa using ih
    | cons x xs => exact ih.leave
  | @popBack ops xs gone _ ih =>
    rw [List.flatMap_append]
    simp only [List.flatMap_singleton, CListOp.stored, List.append_nil]
    rcases List.eq_nil_or_concat xs with rfl | ⟨xs, x, rfl⟩
    · simpa using ih
    · rw [List.concat_eq_append] at ih ⊢
      simpa using ih.leaveAll
  | @clear ops xs gone _ ih =>
    rw [List.flatMap_append]
    simp only [List.flatMap_singleton, CListOp.stored, List.append_nil]
    exact Ledger.leaveAll (ih : Ledger _ ([] ++ xs) gone)

/-- A run of the linked list in which it has fewer than `2 ^ 31` elements is a run of a list: the
next links lead from the front through its elements, the previous links from the back through the
reverse, both ends are null together, and the elements that left, and no others, were cleaned up,
each once. -/
theorem clist_refines (h : DequeRun (· < 2 ^ 31) ops xs gone) (cleanup : Bool) :
    ∃ cl, runList (clistInit cleanup) ops = some cl ∧ cl.nelems = xs.length ∧
      Follows Node.next cl.nodes cl.front xs ∧
      Follows Node.previous cl.nodes cl.back xs.reverse ∧
      (cl.front = 0 ↔ xs = []) ∧ (cl.back = 0 ↔ xs = []) ∧
      cl.cleaned = (if cleanup then gone else []) ∧
      (ops.flatMap CListOp.stored).Perm (xs ++ gone) := by
  obtain ⟨cl, hcl, l, rfl, ht⟩ := h.threads cleanup
  have hlen := h.length
  rw [List.length_map] at hlen
  refine ⟨cl, hcl, ?_, ?_, ?_, ?_, ?_, ht.cleaned, h.ledger⟩
  · rw [ht.count hlen, List.length_map]
  · rw [ht.front]
    exact ht.segment.follows_next
  · rw [ht.back]
    exact ht.segment.follows_previous
  · rw [ht.front]
    cases l with
    | nil => simp
    | cons c l => exact iff_of_false ht.segment.1 (by simp)
  · rw [ht.back]
    cases l with
    | nil => simp
    | cons c l =>
      have hlast :=
        last_ne (fun d hd => ht.segment.nonnull d (List.mem_cons_of_mem _ hd)) ht.segment.1
      exact iff_of_false hlast (by simp)

theorem clist_refines_insert : ∃ cl : CList Nat,
    runList (clistInit true) [.pushFront 5, .pushBack 6, .insert 7 1, .popFront] = some cl ∧
      Follows Node.next cl.nodes cl.front [7, 6] ∧ cl.cleaned = [5] := by
  have hrun : DequeRun (· < 2 ^ 31) [.pushFront 5, .pushBack 6, .insert 7 1, .popFront] [7, 6]
      [5] :=
    .popFront (.insert (.pushBack (.pushFront .init 5 (by decide)) 6 (by decide)) 7 1 (by decide)
      (by decide))
  obtain ⟨cl, h1, -, h3, -, -, -, h7, -⟩ := clist_refines hrun true
  exact ⟨cl, h1, h3, h7⟩

/-- The counter after pushing only, which wraps around. -/
theorem runList_pushFront (n : Nat) : ∃ cl gone l, runList (clistInit true)
    (List.replicate n (.pushFront ())) = some cl ∧ Threaded true cl l gone ∧ l.length = n ∧
      DequeRun (fun _ => True) (List.replicate n (.pushFront ())) (l.map Prod.snd) [] := by
  induction n with
  | zero => exact ⟨_, _, _, rfl, threaded_init true, rfl, .init⟩
  | succ n ih =>
    obtain ⟨cl, gone, l, hcl, ht, hn, hrun⟩ := ih
    obtain ⟨cl', hcl', ht'⟩ := ht.pushFront ()
    rw [List.replicate_succ']
    exact ⟨cl', _, _, (runList_append hcl).trans hcl', ht', by simp [hn], hrun.pushFront () trivial⟩

/-- After `2 ^ 31` pushes the counter is negative. -/
theorem clist_refines_overflow :
    ¬∀ (ops : List (CListOp Unit)) (xs gone : List Unit), DequeRun (fun _ => True) ops xs gone →
      ∃ cl, runList (clistInit true) ops = some cl ∧ cl.nelems = xs.length := by
  intro h
  obtain ⟨cl, gone, l, hcl, ht, hn, hrun⟩ := runList_pushFront (2 ^ 31)
  obtain ⟨cl', hcl', hcount⟩ := h _ _ _ hrun
  obtain rfl := Option.some.inj (hcl.symm.trans hcl')
  have hwrap : toInt ((2 ^ 31 : Nat) : Int) = -2 ^ 31 := by
    unfold toInt
    decide
  rw [ht.nelems, List.length_map, hn, hwrap] at hcount
  omega

end refinement
end Lisp
