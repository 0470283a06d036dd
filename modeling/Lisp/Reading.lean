import Lisp.Heap
import Mathlib.Data.List.Nodup
import Mathlib.Data.List.Perm.Subperm

/-! Objects in memory read as trees. -/
namespace Lisp
variable {F : Type}

namespace Cell

/-- The tree of an object without parts. -/
def leaf? : Cell F → Option (Obj F)
  | .atom name => some (.atom name)
  | .primitive f => some (.primitive f)
  | .int value => some (.int value)
  | .float value => some (.float value)
  | .list .. => none
  | .closure .. => none

end Cell

/-- The pointer `a` reads as the tree `t`, and `cs` are the objects it consists of, each
after its parts. -/
inductive Reads (h : Heap F) : Nat → Obj F → List Nat → Prop where
  | null : Reads h 0 .null []
  | leaf {a : Nat} {c : Cell F} {t : Obj F} (ha : cellAt h a = some c) (ht : c.leaf? = some t) :
      Reads h a t [a]
  | list {a x y : Nat} {tx ty : Obj F} {cx cy : List Nat} (ha : cellAt h a = some (.list x y))
      (hx : Reads h x tx cx) (hy : Reads h y ty cy) : Reads h a (.list tx ty) (cx ++ cy ++ [a])
  | closure {a p b c : Nat} {n : Int} {tp tb tc : Obj F} {cp cb cc : List Nat}
      (ha : cellAt h a = some (.closure p b c n))
      (hp : Reads h p tp cp) (hb : Reads h b tb cb) (hc : Reads h c tc cc) :
      Reads h a (.closure tp tb tc n) (cp ++ cb ++ cc ++ [a])

variable {h h' : Heap F} {a b : Nat} {c : Cell F} {t u : Obj F} {cs ds : List Nat}

theorem cellAt_zero : cellAt h 0 = none := rfl

theorem cellAt_le (ha : cellAt h a = some c) : 0 < a ∧ a ≤ h.length := by
  cases a with
  | zero => simp [cellAt_zero] at ha
  | succ a =>
    simp only [cellAt, objectAt, Option.map_eq_some_iff] at ha
    obtain ⟨x, hx, -⟩ := ha
    obtain ⟨hlt, -⟩ := List.getElem?_eq_some_iff.1 hx
    exact ⟨Nat.succ_pos a, hlt⟩

theorem objectAt_append (l : Heap F) (ha : a ≤ h.length) :
    objectAt (h ++ l) a = objectAt h a := by
  cases a with
  | zero => rfl
  | succ a => simp only [objectAt, List.getElem?_append_left ha]

theorem cellAt_new (x : Object F) : cellAt (h ++ [x]) (h.length + 1) = some x.cell := by
  simp [cellAt, objectAt]

theorem length_update (f : Object F → Object F) : (update h a f).length = h.length := by
  cases a <;> simp [update]

theorem objectAt_update_of_ne (f : Object F → Object F) (hab : a ≠ b) :
    objectAt (update h a f) b = objectAt h b := by
  cases a with
  | zero => rfl
  | succ a =>
    cases b with
    | zero => rfl
    | succ b =>
      have hne : a ≠ b := fun he => hab (congrArg _ he)
      simp [objectAt, update, hne]

theorem cellAt_update_of_ne (f : Object F → Object F) (hab : a ≠ b) :
    cellAt (update h a f) b = cellAt h b := by
  rw [cellAt, objectAt_update_of_ne f hab, cellAt]

theorem cellAt_update_self (f : Object F → Object F) :
    cellAt (update h a f) a = (objectAt h a).map fun x => (f x).cell := by
  cases a with
  | zero => rfl
  | succ a =>
    simp only [cellAt, objectAt, update, List.getElem?_modify, if_pos]
    rcases h[a]? with _ | x <;> rfl

theorem cellAt_update_flag {f : Object F → Object F} (hf : ∀ x, (f x).cell = x.cell) :
    cellAt (update h a f) b = cellAt h b := by
  by_cases hab : a = b
  · subst hab
    rw [cellAt_update_self]
    simp only [cellAt, hf]
  · exact cellAt_update_of_ne f hab

/-- `h'` has all the objects of `h`, unchanged. -/
def Extends (h h' : Heap F) : Prop :=
  h.length ≤ h'.length ∧ ∀ a ≤ h.length, objectAt h' a = objectAt h a

theorem Extends.refl (h : Heap F) : Extends h h := ⟨Nat.le_refl _, fun _ _ => rfl⟩

theorem Extends.trans {h₁ h₂ h₃ : Heap F} (h12 : Extends h₁ h₂) (h23 : Extends h₂ h₃) :
    Extends h₁ h₃ :=
  ⟨h12.1.trans h23.1, fun a ha => (h23.2 a (ha.trans h12.1)).trans (h12.2 a ha)⟩

theorem Extends.cell (hh : Extends h h') (ha : a ≤ h.length) : cellAt h' a = cellAt h a :=
  congrArg _ (hh.2 a ha)

theorem Extends.cellAt (hh : Extends h h') (ha : cellAt h a = some c) : cellAt h' a = some c := by
  rw [hh.cell (cellAt_le ha).2, ha]

theorem extends_append (h l : Heap F) : Extends h (h ++ l) :=
  ⟨by simp, fun _ ha => objectAt_append l ha⟩

theorem extends_alloc (h : Heap F) (c : Cell F) : Extends h (alloc h c).2 :=
  extends_append h _

theorem alloc_fst (h : Heap F) (c : Cell F) : (alloc h c).1 = h.length + 1 := rfl

theorem length_alloc (h : Heap F) (c : Cell F) : (alloc h c).2.length = h.length + 1 := by
  simp [alloc]

theorem cellAt_alloc (h : Heap F) (c : Cell F) : cellAt (alloc h c).2 (h.length + 1) = some c :=
  cellAt_new _

theorem cellAt_alloc_at {l : Nat} (hl : h.length = l) : cellAt (alloc h c).2 (l + 1) = some c :=
  hl ▸ cellAt_alloc h c

/-- The two heaps have the same cells; their flags may differ. -/
def SameCells (h h' : Heap F) : Prop :=
  h'.length = h.length ∧ ∀ a, cellAt h' a = cellAt h a

theorem SameCells.trans {h₁ h₂ h₃ : Heap F} (h12 : SameCells h₁ h₂) (h23 : SameCells h₂ h₃) :
    SameCells h₁ h₃ :=
  ⟨h23.1.trans h12.1, fun a => (h23.2 a).trans (h12.2 a)⟩

theorem sameCells_update {f : Object F → Object F} (hf : ∀ x, (f x).cell = x.cell) :
    SameCells h (update h a f) :=
  ⟨length_update f, fun _ => cellAt_update_flag hf⟩

theorem sameCells_foldl (f : Object F → Object F) (hf : ∀ x, (f x).cell = x.cell)
    (l : List Nat) (h : Heap F) : SameCells h (l.foldl (fun h a => update h a f) h) := by
  induction l generalizing h with
  | nil => exact ⟨rfl, fun _ => rfl⟩
  | cons a l ih => exact (sameCells_update hf).trans (ih _)

namespace Obj

/-- The number of nodes on the longest path down. -/
def depth : Obj F → Nat
  | .null => 0
  | .list a d => max a.depth d.depth + 1
  | .closure p b c _ => max (max p.depth b.depth) c.depth + 1
  | _ => 1

def size : Obj F → Nat
  | .null => 0
  | .list a d => a.size + d.size + 1
  | .closure p b c _ => p.size + b.size + c.size + 1
  | _ => 1

end Obj

theorem Reads.valid (hr : Reads h a t cs) : a ≤ h.length ∧ ∀ b ∈ cs, 0 < b ∧ b ≤ h.length := by
  induction hr with
  | null => simp
  | leaf ha _ =>
    refine ⟨(cellAt_le ha).2, ?_⟩
    simpa using cellAt_le ha
  | list ha _ _ ihx ihy =>
    refine ⟨(cellAt_le ha).2, fun b hb => ?_⟩
    simp only [List.mem_append, List.mem_singleton] at hb
    obtain (hb | hb) | rfl := hb
    · exact ihx.2 b hb
    · exact ihy.2 b hb
    · exact cellAt_le ha
  | closure ha _ _ _ ihp ihb ihc =>
    refine ⟨(cellAt_le ha).2, fun b hb => ?_⟩
    simp only [List.mem_append, List.mem_singleton] at hb
    obtain ((hb | hb) | hb) | rfl := hb
    · exact ihp.2 b hb
    · exact ihb.2 b hb
    · exact ihc.2 b hb
    · exact cellAt_le ha

/-- A reading depends on the objects it consists of alone. -/
theorem Reads.congr (hr : Reads h a t cs) (hcs : ∀ b ∈ cs, cellAt h' b = cellAt h b) :
    Reads h' a t cs := by
  induction hr with
  | null => exact .null
  | leaf ha ht => exact .leaf ((hcs _ (by simp)).trans ha) ht
  | list ha _ _ ihx ihy =>
    refine .list ((hcs _ (by simp)).trans ha) (ihx fun b hb => ?_) (ihy fun b hb => ?_)
    · exact hcs b (by simp [hb])
    · exact hcs b (by simp [hb])
  | closure ha _ _ _ ihp ihb ihc =>
    refine .closure ((hcs _ (by simp)).trans ha) (ihp fun b hb => ?_) (ihb fun b hb => ?_)
      (ihc fun b hb => ?_)
    · exact hcs b (by simp [hb])
    · exact hcs b (by simp [hb])
    · exact hcs b (by simp [hb])

theorem Reads.mono (hr : Reads h a t cs) (hh : Extends h h') : Reads h' a t cs :=
  hr.congr fun b hb => hh.cell (hr.valid.2 b hb).2

theorem Reads.sameCells (hr : Reads h a t cs) (hh : SameCells h h') : Reads h' a t cs :=
  hr.congr fun b _ => hh.2 b

theorem Reads.null_iff (hr : Reads h a t cs) : a = 0 ↔ t = .null := by
  constructor
  · rintro rfl
    cases hr with
    | null => rfl
    | leaf ha _ => simp [cellAt_zero] at ha
    | list ha _ _ => simp [cellAt_zero] at ha
    | closure ha _ _ _ => simp [cellAt_zero] at ha
  · rintro rfl
    cases hr with
    | null => rfl
    | @leaf _ c _ _ ht => cases c <;> simp [Cell.leaf?] at ht

theorem leaf?_list {x y : Nat} (ht : c.leaf? = some t) : c ≠ .list x y := by
  rintro rfl
  simp [Cell.leaf?] at ht

theorem leaf?_closure {p q r : Nat} {k : Int} (ht : c.leaf? = some t) : c ≠ .closure p q r k := by
  rintro rfl
  simp [Cell.leaf?] at ht

theorem Reads.of_list {x y : Nat} (hr : Reads h a t cs) (ha : cellAt h a = some (.list x y)) :
    ∃ tx ty cx cy, t = .list tx ty ∧ cs = cx ++ cy ++ [a] ∧ Reads h x tx cx ∧ Reads h y ty cy := by
  cases hr with
  | null => simp [cellAt_zero] at ha
  | leaf hc ht => exact absurd (Option.some.inj (hc.symm.trans ha)) (leaf?_list ht)
  | list hc hx hy =>
    obtain ⟨rfl, rfl⟩ := Cell.list.inj (Option.some.inj (hc.symm.trans ha))
    exact ⟨_, _, _, _, rfl, rfl, hx, hy⟩
  | closure hc _ _ _ => simp [hc] at ha

theorem Reads.of_closure {p q r : Nat} {k : Int} (hr : Reads h a t cs)
    (ha : cellAt h a = some (.closure p q r k)) :
    ∃ tp tq tr cp cq cr, t = .closure tp tq tr k ∧ cs = cp ++ cq ++ cr ++ [a] ∧
      Reads h p tp cp ∧ Reads h q tq cq ∧ Reads h r tr cr := by
  cases hr with
  | null => simp [cellAt_zero] at ha
  | leaf hc ht => exact absurd (Option.some.inj (hc.symm.trans ha)) (leaf?_closure ht)
  | list hc _ _ => simp [hc] at ha
  | closure hc hp hq hr =>
    obtain ⟨rfl, rfl, rfl, rfl⟩ := Cell.closure.inj (Option.some.inj (hc.symm.trans ha))
    exact ⟨_, _, _, _, _, _, rfl, rfl, hp, hq, hr⟩

theorem Reads.of_leaf (hr : Reads h a t cs) (ha : cellAt h a = some c) (hu : c.leaf? = some u) :
    t = u ∧ cs = [a] := by
  cases hr with
  | null => simp [cellAt_zero] at ha
  | leaf hc ht =>
    obtain rfl := Option.some.inj (hc.symm.trans ha)
    exact ⟨Option.some.inj (ht.symm.trans hu), rfl⟩
  | list hc _ _ => exact absurd (Option.some.inj (ha.symm.trans hc)) (leaf?_list hu)
  | closure hc _ _ _ => exact absurd (Option.some.inj (ha.symm.trans hc)) (leaf?_closure hu)

theorem leaf?_inj {k : Cell F} (hc : c.leaf? = some t) (hk : k.leaf? = some t) : c = k := by
  cases c <;> simp [Cell.leaf?] at hc <;> subst hc <;>
    cases k <;> simp [Cell.leaf?] at hk <;> rw [hk]

theorem Reads.leaf_inv (hr : Reads h a t cs) (ht : c.leaf? = some t) : cellAt h a = some c := by
  cases hr with
  | null => cases c <;> simp [Cell.leaf?] at ht
  | leaf ha hk => rw [ha, leaf?_inj hk ht]
  | list => cases c <;> simp [Cell.leaf?] at ht
  | closure => cases c <;> simp [Cell.leaf?] at ht

theorem Reads.list_inv {tx ty : Obj F} (hr : Reads h a (.list tx ty) cs) :
    ∃ x y cx cy, cellAt h a = some (.list x y) ∧ cs = cx ++ cy ++ [a] ∧
      Reads h x tx cx ∧ Reads h y ty cy := by
  cases hr with
  | @leaf _ c _ _ ht => cases c <;> simp [Cell.leaf?] at ht
  | list ha hx hy => exact ⟨_, _, _, _, ha, rfl, hx, hy⟩

theorem Reads.closure_inv {tp tb tc : Obj F} {n : Int} (hr : Reads h a (.closure tp tb tc n) cs) :
    ∃ p b c cp cb cc, cellAt h a = some (.closure p b c n) ∧ cs = cp ++ cb ++ cc ++ [a] ∧
      Reads h p tp cp ∧ Reads h b tb cb ∧ Reads h c tc cc := by
  cases hr with
  | @leaf _ c _ _ ht => cases c <;> simp [Cell.leaf?] at ht
  | closure ha hp hb hc => exact ⟨_, _, _, _, _, _, ha, rfl, hp, hb, hc⟩

/-- An object reads as one tree only. -/
theorem Reads.unique (hr : Reads h a t cs) (hu : Reads h a u ds) : t = u ∧ cs = ds := by
  induction hr generalizing u ds with
  | null =>
    cases hu with
    | null => exact ⟨rfl, rfl⟩
    | leaf ha _ => simp [cellAt_zero] at ha
    | list ha _ _ => simp [cellAt_zero] at ha
    | closure ha _ _ _ => simp [cellAt_zero] at ha
  | leaf ha ht =>
    obtain ⟨rfl, rfl⟩ := hu.of_leaf ha ht
    exact ⟨rfl, rfl⟩
  | list ha _ _ ihx ihy =>
    obtain ⟨tx, ty, cx, cy, rfl, rfl, hx, hy⟩ := hu.of_list ha
    obtain ⟨rfl, rfl⟩ := ihx hx
    obtain ⟨rfl, rfl⟩ := ihy hy
    exact ⟨rfl, rfl⟩
  | closure ha _ _ _ ihp ihb ihc =>
    obtain ⟨tp, tb, tc, cp, cb, cc, rfl, rfl, hp, hb, hc⟩ := hu.of_closure ha
    obtain ⟨rfl, rfl⟩ := ihp hp
    obtain ⟨rfl, rfl⟩ := ihb hb
    obtain ⟨rfl, rfl⟩ := ihc hc
    exact ⟨rfl, rfl⟩

/-- Each object of a tree reads as a part of it. -/
theorem Reads.part (hr : Reads h a t cs) (hb : b ∈ cs) :
    ∃ u ds, Reads h b u ds ∧ (∀ x ∈ ds, x ∈ cs) ∧ u.size ≤ t.size := by
  induction hr with
  | null => simp at hb
  | leaf ha ht =>
    obtain rfl := List.mem_singleton.1 hb
    exact ⟨_, _, .leaf ha ht, fun _ h => h, Nat.le_refl _⟩
  | list ha hx hy ihx ihy =>
    simp only [List.mem_append, List.mem_singleton] at hb
    obtain (hb | hb) | rfl := hb
    · obtain ⟨u, ds, hu, hsub, hle⟩ := ihx hb
      exact ⟨u, ds, hu, fun x h => by simp [hsub x h], by simp only [Obj.size]; omega⟩
    · obtain ⟨u, ds, hu, hsub, hle⟩ := ihy hb
      exact ⟨u, ds, hu, fun x h => by simp [hsub x h], by simp only [Obj.size]; omega⟩
    · exact ⟨_, _, .list ha hx hy, fun _ h => h, Nat.le_refl _⟩
  | closure ha hp hc hd ihp ihc ihd =>
    simp only [List.mem_append, List.mem_singleton] at hb
    obtain ((hb | hb) | hb) | rfl := hb
    · obtain ⟨u, ds, hu, hsub, hle⟩ := ihp hb
      exact ⟨u, ds, hu, fun x h => by simp [hsub x h], by simp only [Obj.size]; omega⟩
    · obtain ⟨u, ds, hu, hsub, hle⟩ := ihc hb
      exact ⟨u, ds, hu, fun x h => by simp [hsub x h], by simp only [Obj.size]; omega⟩
    · obtain ⟨u, ds, hu, hsub, hle⟩ := ihd hb
      exact ⟨u, ds, hu, fun x h => by simp [hsub x h], by simp only [Obj.size]; omega⟩
    · exact ⟨_, _, .closure ha hp hc hd, fun _ h => h, Nat.le_refl _⟩

/-- A list cell is not one of the objects of its own element. -/
theorem Reads.not_mem_car {x y : Nat} (hr : Reads h x t cs)
    (ha : cellAt h a = some (.list x y)) (hread : ∃ u ds, Reads h a u ds) : a ∉ cs := by
  intro hmem
  obtain ⟨u, ds, hu⟩ := hread
  obtain ⟨tx, ty, cx, cy, rfl, -, hx, -⟩ := hu.of_list ha
  obtain ⟨rfl, -⟩ := hx.unique hr
  obtain ⟨v, es, hv, -, hle⟩ := hr.part hmem
  obtain ⟨rfl, -⟩ := hv.unique hu
  simp only [Obj.size] at hle
  omega

/-- Where every object comes after its parts, each is the root of a tree. -/
theorem readable_of_earlier (hlist : ∀ a x y, cellAt h a = some (.list x y) → x < a ∧ y < a)
    (hclosure : ∀ a p b c n, cellAt h a = some (.closure p b c n) → p < a ∧ b < a ∧ c < a)
    (ha : a ≤ h.length) : ∃ t cs, Reads h a t cs := by
  induction a using Nat.strong_induction_on with
  | _ a ih =>
    cases a with
    | zero => exact ⟨_, _, .null⟩
    | succ i =>
      have hcell : cellAt h (i + 1) = some (h.get ⟨i, ha⟩).cell := by
        simp [cellAt, objectAt, List.getElem?_eq_getElem ha]
      cases hc : (h.get ⟨i, ha⟩).cell with
      | list x y =>
        obtain ⟨hx, hy⟩ := hlist _ _ _ (hcell.trans (congrArg some hc))
        obtain ⟨tx, cx, hx⟩ := ih x hx (by omega)
        obtain ⟨ty, cy, hy⟩ := ih y hy (by omega)
        exact ⟨_, _, .list (hcell.trans (congrArg some hc)) hx hy⟩
      | closure p b c n =>
        obtain ⟨hp, hb, hk⟩ := hclosure _ _ _ _ _ (hcell.trans (congrArg some hc))
        obtain ⟨tp, cp, hp⟩ := ih p hp (by omega)
        obtain ⟨tb, cb, hb⟩ := ih b hb (by omega)
        obtain ⟨tc, cc, hk⟩ := ih c hk (by omega)
        exact ⟨_, _, .closure (hcell.trans (congrArg some hc)) hp hb hk⟩
      | _ => exact ⟨_, _, .leaf (hcell.trans (congrArg some hc)) rfl⟩

section depth

theorem depth_leaf (ht : c.leaf? = some t) : t.depth = 1 ∧ t.size = 1 := by
  cases c <;> simp [Cell.leaf?] at ht <;> subst ht <;> exact ⟨rfl, rfl⟩

/-- A longest path down, whose objects are all different because their trees shrink. -/
theorem Reads.path (hr : Reads h a t cs) :
    ∃ l : List Nat, l.length = t.depth ∧ l.Nodup ∧
      ∀ b ∈ l, ∃ u ds, Reads h b u ds ∧ u.size ≤ t.size ∧ 0 < b := by
  have extend : ∀ {a : Nat} {t tx : Obj F} {cs : List Nat} {l : List Nat}, Reads h a t cs →
      0 < a → tx.size < t.size → l.length = tx.depth → l.Nodup →
      (∀ b ∈ l, ∃ u ds, Reads h b u ds ∧ u.size ≤ tx.size ∧ 0 < b) →
      ∃ l : List Nat, l.length = tx.depth + 1 ∧ l.Nodup ∧
        ∀ b ∈ l, ∃ u ds, Reads h b u ds ∧ u.size ≤ t.size ∧ 0 < b := by
    intro a t tx cs l ht ha hlt hlen hnodup hl
    refine ⟨a :: l, by simp [hlen], List.nodup_cons.2 ⟨fun hmem => ?_, hnodup⟩, ?_⟩
    · obtain ⟨u, ds, hu, hle, -⟩ := hl a hmem
      obtain ⟨rfl, -⟩ := ht.unique hu
      omega
    · intro b hb
      obtain rfl | hb := List.mem_cons.1 hb
      · exact ⟨t, cs, ht, Nat.le_refl _, ha⟩
      · obtain ⟨u, ds, hu, hle, hpos⟩ := hl b hb
        exact ⟨u, ds, hu, by omega, hpos⟩
  induction hr with
  | null => exact ⟨[], rfl, List.nodup_nil, by simp⟩
  | @leaf a c t ha ht =>
    obtain ⟨hd, hs⟩ := depth_leaf ht
    refine ⟨[a], by simp [hd], List.nodup_singleton a, ?_⟩
    simpa using ⟨t, ⟨[a], .leaf ha ht⟩, Nat.le_refl _, (cellAt_le ha).1⟩
  | @list a x y tx ty cx cy ha hx hy ihx ihy =>
    have hpos := (cellAt_le ha).1
    have hread : Reads h a (.list tx ty) (cx ++ cy ++ [a]) := .list ha hx hy
    obtain ⟨lx, hlx, hnx, hmx⟩ := ihx
    obtain ⟨ly, hly, hny, hmy⟩ := ihy
    simp only [Obj.depth]
    rcases Nat.le_total ty.depth tx.depth with hle | hle
    · rw [Nat.max_eq_left hle]
      exact extend hread hpos (by simp only [Obj.size]; omega) hlx hnx hmx
    · rw [Nat.max_eq_right hle]
      exact extend hread hpos (by simp only [Obj.size]; omega) hly hny hmy
  | @closure a p b c n tp tb tc cp cb cc ha hp hb hc ihp ihb ihc =>
    have hpos := (cellAt_le ha).1
    have hread : Reads h a (.closure tp tb tc n) (cp ++ cb ++ cc ++ [a]) := .closure ha hp hb hc
    obtain ⟨lp, hlp, hnp, hmp⟩ := ihp
    obtain ⟨lb, hlb, hnb, hmb⟩ := ihb
    obtain ⟨lc, hlc, hnc, hmc⟩ := ihc
    simp only [Obj.depth]
    rcases Nat.le_total tc.depth (max tp.depth tb.depth) with hle | hle
    · rw [Nat.max_eq_left hle]
      rcases Nat.le_total tb.depth tp.depth with hle' | hle'
      · rw [Nat.max_eq_left hle']
        exact extend hread hpos (by simp only [Obj.size]; omega) hlp hnp hmp
      · rw [Nat.max_eq_right hle']
        exact extend hread hpos (by simp only [Obj.size]; omega) hlb hnb hmb
    · rw [Nat.max_eq_right hle]
      exact extend hread hpos (by simp only [Obj.size]; omega) hlc hnc hmc

/-- A walk bounded by the number of objects reaches the end of every path. -/
theorem Reads.depth_le (hr : Reads h a t cs) : t.depth ≤ h.length := by
  obtain ⟨l, hlen, hnodup, hl⟩ := hr.path
  have hsub : l ⊆ List.range' 1 h.length := by
    intro b hb
    obtain ⟨u, ds, hu, -, hpos⟩ := hl b hb
    have := hu.valid.1
    rw [List.mem_range'_1]
    omega
  have := (hnodup.subperm hsub).length_le
  simpa [hlen] using this

end depth

section trees

def treeFrom (h : Heap F) : Nat → Nat → Obj F
  | 0, _ => .null
  | fuel + 1, a =>
    match cellAt h a with
    | none => .null
    | some (.atom name) => .atom name
    | some (.list x y) => .list (treeFrom h fuel x) (treeFrom h fuel y)
    | some (.primitive f) => .primitive f
    | some (.closure p b c n) =>
      .closure (treeFrom h fuel p) (treeFrom h fuel b) (treeFrom h fuel c) n
    | some (.int value) => .int value
    | some (.float value) => .float value

/-- The tree that a pointer reads as. -/
def treeOf (h : Heap F) (a : Nat) : Obj F := treeFrom h h.length a

theorem Reads.treeFrom {fuel : Nat} (hr : Reads h a t cs) (hf : t.depth ≤ fuel) :
    treeFrom h fuel a = t := by
  induction hr generalizing fuel with
  | null => cases fuel <;> simp [Lisp.treeFrom, cellAt_zero]
  | @leaf a c t ha ht =>
    obtain _ | fuel := fuel
    · rw [(depth_leaf ht).1] at hf
      omega
    cases c <;> simp [Cell.leaf?] at ht <;> subst ht <;> simp [Lisp.treeFrom, ha]
  | @list a x y tx ty _ _ ha _ _ ihx ihy =>
    obtain _ | fuel := fuel
    · simp [Obj.depth] at hf
    simp only [Obj.depth] at hf
    simp [Lisp.treeFrom, ha, ihx (show tx.depth ≤ fuel by omega),
      ihy (show ty.depth ≤ fuel by omega)]
  | @closure a p b c n tp tb tc _ _ _ ha _ _ _ ihp ihb ihc =>
    obtain _ | fuel := fuel
    · simp [Obj.depth] at hf
    simp only [Obj.depth] at hf
    simp [Lisp.treeFrom, ha, ihp (show tp.depth ≤ fuel by omega),
      ihb (show tb.depth ≤ fuel by omega), ihc (show tc.depth ≤ fuel by omega)]

theorem Reads.treeOf (hr : Reads h a t cs) : treeOf h a = t := hr.treeFrom hr.depth_le

end trees
end Lisp
