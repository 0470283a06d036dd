import Mathlib.Data.List.Induction
import Mathlib.Logic.Function.Basic

/-! Doubly linked nodes in a store, read as segments of a list. -/
namespace LinkedList
variable {α : Type}

/-- A node with its two links; 0 is the null pointer. -/
structure Node (α : Type) where
  next : Nat
  previous : Nat
  data : α
deriving DecidableEq, Repr

/-- The nodes that are allocated. -/
abbrev Store (α : Type) := Nat → Option (Node α)

/-- The addresses of a segment and the elements there. -/
abbrev Cells (α : Type) := List (Nat × α)

/-- The first address of a segment, or what follows if the segment is empty. -/
def first : Cells α → Nat → Nat
  | [], after => after
  | (a, _) :: _, _ => a

/-- The last address of a segment, or what precedes it if the segment is empty. -/
def last : Cells α → Nat → Nat
  | [], before => before
  | (a, _) :: l, _ => last l a

/-- The nodes of `l` are linked both ways, from `before` to `after`. -/
def Segment (h : Store α) : Nat → Cells α → Nat → Prop
  | _, [], _ => True
  | before, (a, x) :: l, after =>
    a ≠ 0 ∧ h a = some ⟨first l after, before, x⟩ ∧ Segment h a l after

/-- The elements that are met on the way from a node to the null pointer. -/
inductive Follows (link : Node α → Nat) (h : Store α) : Nat → List α → Prop where
  | null : Follows link h 0 []
  | node {a : Nat} {n : Node α} {l : List α} (ha : a ≠ 0) (hn : h a = some n)
      (hl : Follows link h (link n) l) : Follows link h a (n.data :: l)

variable {h h' : Store α} {a b before after : Nat} {x : α} {l l' : Cells α} {n : Node α}

@[simp] theorem first_nil : first ([] : Cells α) after = after := rfl

@[simp] theorem first_cons : first ((a, x) :: l) after = a := rfl

@[simp] theorem last_nil : last ([] : Cells α) before = before := rfl

@[simp] theorem last_cons : last ((a, x) :: l) before = last l a := rfl

@[simp] theorem first_append : first (l ++ l') after = first l (first l' after) := by
  cases l <;> rfl

@[simp] theorem last_append : last (l ++ l') before = last l' (last l before) := by
  induction l generalizing before with
  | nil => rfl
  | cons c l ih => exact ih

theorem segment_append : Segment h before (l ++ l') after ↔
    Segment h before l (first l' after) ∧ Segment h (last l before) l' after := by
  induction l generalizing before with
  | nil => simp [Segment, last]
  | cons c l ih => simp [Segment, last, ih, and_assoc]

theorem Segment.nonnull (hs : Segment h before l after) : ∀ c ∈ l, c.1 ≠ 0 := by
  induction l generalizing before with
  | nil => simp
  | cons c l ih =>
    intro d hd
    rcases List.mem_cons.1 hd with rfl | hd
    · exact hs.1
    · exact ih hs.2.2 d hd

/-- A segment depends on its own nodes alone. -/
theorem Segment.congr (hs : Segment h before l after)
    (hsame : ∀ c ∈ l, h' c.1 = h c.1) : Segment h' before l after := by
  induction l generalizing before with
  | nil => trivial
  | cons c l ih =>
    refine ⟨hs.1, (hsame c (by simp)).trans hs.2.1, ih hs.2.2 fun d hd => ?_⟩
    exact hsame d (by simp [hd])

theorem Segment.update (hs : Segment h before l after) (ha : a ∉ l.map Prod.fst)
    (n : Option (Node α)) : Segment (Function.update h a n) before l after := by
  refine hs.congr fun c hc => Function.update_of_ne ?_ _ _
  rintro rfl
  exact ha (List.mem_map_of_mem hc)

/-- The first node gets another node in front of it. -/
theorem Segment.setPrevious (hs : Segment h before ((a, x) :: l) after)
    (hnodup : (((a, x) :: l).map Prod.fst).Nodup) (b : Nat) :
    h a = some ⟨first l after, before, x⟩ ∧
      Segment (Function.update h a (some ⟨first l after, b, x⟩)) b ((a, x) :: l) after := by
  obtain ⟨hna, ha, hl⟩ := hs
  refine ⟨ha, hna, Function.update_self .., hl.update ?_ _⟩
  exact (List.nodup_cons.1 hnodup).1

/-- The last node gets another node after it. -/
theorem Segment.setNext (hs : Segment h before (l ++ [(a, x)]) after)
    (hnodup : ((l ++ [(a, x)]).map Prod.fst).Nodup) (b : Nat) :
    h a = some ⟨after, last l before, x⟩ ∧
      Segment (Function.update h a (some ⟨b, last l before, x⟩)) before (l ++ [(a, x)]) b := by
  obtain ⟨hl, hna, ha, -⟩ := segment_append.1 hs
  rw [List.map_append, List.nodup_append] at hnodup
  have hout : a ∉ l.map Prod.fst := fun hm => hnodup.2.2 a hm a (by simp) rfl
  refine ⟨ha, segment_append.2 ⟨hl.update hout _, hna, Function.update_self .., trivial⟩⟩

/-- Links lead to one list only. -/
theorem Follows.unique {link : Node α → Nat} {xs ys : List α} (hx : Follows link h a xs)
    (hy : Follows link h a ys) : xs = ys := by
  induction hx generalizing ys with
  | null =>
    cases hy with
    | null => rfl
    | node ha => exact absurd rfl ha
  | node ha hn _ ih =>
    cases hy with
    | null => exact absurd rfl ha
    | node _ hn' hl' =>
      obtain rfl := Option.some.inj (hn.symm.trans hn')
      rw [ih hl']

/-- From the first node on, the next links lead through the whole segment. -/
theorem Segment.follows_next (hs : Segment h before l 0) :
    Follows Node.next h (first l 0) (l.map Prod.snd) := by
  induction l generalizing before with
  | nil => exact .null
  | cons c l ih => exact .node hs.1 hs.2.1 (ih hs.2.2)

/-- From the last node on, the previous links lead back through it. -/
theorem Segment.follows_previous (hs : Segment h 0 l after) :
    Follows Node.previous h (last l 0) (l.map Prod.snd).reverse := by
  induction l using List.reverseRecOn generalizing after with
  | nil => exact .null
  | append_singleton l c ih =>
    obtain ⟨hl, hna, hc, -⟩ := segment_append.1 hs
    rw [last_append, List.map_append, List.reverse_append]
    exact .node hna hc (ih hl)

end LinkedList
