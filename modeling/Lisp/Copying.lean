import Lisp.Reading
import Mathlib.Data.List.Range

/-! The walks of `list.c` over an object that reads as a tree, and what they build: copies
consist of new objects only. -/
namespace Lisp
variable {F : Type} {h h' h₀ : Heap F} {a o x y p b c fuel : Nat} {n : Int}
  {t tx ty tp tb tc : Obj F} {cs : List Nat} {k : Cell F} {r r₁ r₂ r₃ : Nat × Heap F}

namespace Obj

/-- `list_length` on trees. -/
def length : Obj F → Nat
  | .null => 0
  | .list _ d => d.length + 1
  | _ => 1

def isNil : Obj F → Bool
  | .list .null .null => true
  | _ => false

def isList : Obj F → Bool
  | .list .. => true
  | _ => false

/-- `ith` on trees. -/
def ith : Obj F → Nat → Obj F
  | .list a _, 0 => a
  | .list _ d, i + 1 => d.ith i
  | _, _ => .null

/-- `sublist` on trees. -/
def drop : Obj F → Nat → Obj F
  | .list a d, 0 => .list a d
  | .list _ d, i + 1 => d.drop i
  | _, _ => .null

/-- The `nargs` that `new_closure_set` computes from a parameter list. -/
def paramCount (params : Obj F) : Int := if params.isNil then 0 else params.length

/-- The tree of a copy: closures get their `nargs` anew. -/
def copied : Obj F → Obj F
  | .list a d => .list a.copied d.copied
  | .closure p b c _ => .closure p.copied b.copied c.copied p.copied.paramCount
  | t => t

end Obj

section cells

theorem isList_iff : isList h a = true ↔ ∃ x y, cellAt h a = some (.list x y) := by
  unfold isList
  split <;> simp_all

theorem car_eq (ha : cellAt h a = some (.list x y)) : car h a = x := by simp [car, ha]

theorem cdr_eq (ha : cellAt h a = some (.list x y)) : cdr h a = y := by simp [cdr, ha]

theorem Extends.cdr (hh : Extends h h') (ha : a ≤ h.length) : cdr h' a = cdr h a := by
  simp only [Lisp.cdr, hh.cell ha]

theorem isList_eq (ha : cellAt h a = some (.list x y)) : isList h a = true := by simp [isList, ha]

theorem isNil_eq (ha : cellAt h a = some (.list x y)) : isNil h a = (x == 0 && y == 0) := by
  simp [isNil, isList_eq ha, car_eq ha, cdr_eq ha]

end cells

theorem Reads.isNil (hr : Reads h a t cs) : isNil h a = t.isNil := by
  cases hr with
  | null => rfl
  | @leaf _ c _ ha ht => cases c <;> simp [Cell.leaf?] at ht <;> subst ht <;>
      simp [Lisp.isNil, isList, ha, Obj.isNil]
  | list ha hx hy =>
    rw [isNil_eq ha]
    have h1 := hx.null_iff
    have h2 := hy.null_iff
    rw [Bool.eq_iff_iff, Bool.and_eq_true, beq_iff_eq, beq_iff_eq, h1, h2]
    constructor
    · rintro ⟨rfl, rfl⟩
      rfl
    · intro hn
      unfold Obj.isNil at hn
      split at hn <;> simp_all
  | closure ha _ _ _ => simp [Lisp.isNil, isList, ha, Obj.isNil]

theorem Reads.isList (hr : Reads h a t cs) : isList h a = t.isList := by
  cases hr with
  | null => rfl
  | @leaf _ c _ ha ht => cases c <;> simp [Cell.leaf?] at ht <;> subst ht <;>
      simp [Lisp.isList, ha, Obj.isList]
  | list ha _ _ => simp [isList_eq ha, Obj.isList]
  | closure ha _ _ _ => simp [Lisp.isList, ha, Obj.isList]

theorem Obj.isNull_iff : t.isNull = true ↔ t = .null := by
  cases t <;> simp [isNull]

theorem Reads.isNull (hr : Reads h a t cs) : a = 0 ↔ t.isNull = true := by
  rw [hr.null_iff, Obj.isNull_iff]

/-- The test for a list comes after the one for `NULL`. -/
theorem Reads.ite_list {α : Type} (hr : Reads h a t cs) (x y : α) :
    (if a = 0 then x else if !Lisp.isList h a then x else y) = if t.isList then y else x := by
  rw [hr.isList]
  cases hlist : t.isList with
  | true =>
    have ha : a ≠ 0 := by
      intro h0
      rw [hr.null_iff.1 h0] at hlist
      cases hlist
    simp only [ha, if_false, if_true, Bool.not_true, Bool.false_eq_true]
  | false => simp only [Bool.not_false, if_true, ite_self, Bool.false_eq_true, if_false]

theorem Reads.car_ith (hr : Reads h a t cs) : ∃ ds, Reads h (car h a) (t.ith 0) ds := by
  cases hr with
  | null => exact ⟨_, .null⟩
  | @leaf _ c _ ha ht => cases c <;> simp [Cell.leaf?] at ht <;> subst ht <;>
      simpa [Lisp.car, ha, Obj.ith] using ⟨_, Reads.null⟩
  | list ha hx _ => simpa [car_eq ha, Obj.ith] using ⟨_, hx⟩
  | closure ha _ _ _ => simpa [Lisp.car, ha, Obj.ith] using ⟨_, Reads.null⟩

theorem Reads.ith (hr : Reads h a t cs) (i : Nat) : ∃ ds, Reads h (ith h a i) (t.ith i) ds := by
  induction i generalizing a t cs with
  | zero =>
    cases hr with
    | null => exact ⟨_, .null⟩
    | @leaf _ c _ ha ht => cases c <;> simp [Cell.leaf?] at ht <;> subst ht <;>
        simpa [Lisp.ith, Lisp.isList, ha, Obj.ith] using ⟨_, Reads.null⟩
    | list ha hx _ => simpa [Lisp.ith, isList_eq ha, car_eq ha, Obj.ith] using ⟨_, hx⟩
    | closure ha _ _ _ => simpa [Lisp.ith, Lisp.isList, ha, Obj.ith] using ⟨_, Reads.null⟩
  | succ i ih =>
    cases hr with
    | null => exact ⟨_, .null⟩
    | @leaf _ c _ ha ht => cases c <;> simp [Cell.leaf?] at ht <;> subst ht <;>
        simpa [Lisp.ith, Lisp.isList, ha, Obj.ith] using ⟨_, Reads.null⟩
    | list ha _ hy => simpa [Lisp.ith, isList_eq ha, cdr_eq ha, Obj.ith] using ih hy
    | closure ha _ _ _ => simpa [Lisp.ith, Lisp.isList, ha, Obj.ith] using ⟨_, Reads.null⟩

theorem Reads.sublist (hr : Reads h a t cs) (i : Nat) :
    ∃ ds, Reads h (sublist h a i) (t.drop i) ds := by
  have hnull : Reads h 0 (.null : Obj F) [] := .null
  induction i generalizing a t cs with
  | zero =>
    cases hr with
    | null => exact ⟨_, .null⟩
    | @leaf _ c _ ha ht => cases c <;> simp [Cell.leaf?] at ht <;> subst ht <;>
        simpa [Lisp.sublist, Lisp.isList, ha, Obj.drop] using ⟨_, hnull⟩
    | list ha hx hy => simpa [Lisp.sublist, isList_eq ha, Obj.drop] using ⟨_, Reads.list ha hx hy⟩
    | closure ha _ _ _ => simpa [Lisp.sublist, Lisp.isList, ha, Obj.drop] using ⟨_, hnull⟩
  | succ i ih =>
    cases hr with
    | null => exact ⟨_, .null⟩
    | @leaf _ c _ ha ht => cases c <;> simp [Cell.leaf?] at ht <;> subst ht <;>
        simpa [Lisp.sublist, Lisp.isList, ha, Obj.drop] using ⟨_, hnull⟩
    | list ha _ hy => simpa [Lisp.sublist, isList_eq ha, cdr_eq ha, Obj.drop] using ih hy
    | closure ha _ _ _ => simpa [Lisp.sublist, Lisp.isList, ha, Obj.drop] using ⟨_, hnull⟩

theorem cellsFrom_zero : cellsFrom h fuel 0 = [] := by
  cases fuel <;> simp [cellsFrom]

theorem Reads.cellsFrom_length (hr : Reads h a t cs) (hf : t.depth ≤ fuel) :
    (cellsFrom h fuel a).length = t.length := by
  induction hr generalizing fuel with
  | null => simp [cellsFrom_zero, Obj.length]
  | @leaf a c t ha ht =>
    obtain _ | fuel := fuel
    · rw [(depth_leaf ht).1] at hf
      omega
    have hcdr : cdr h a = 0 := by cases c <;> simp [Cell.leaf?] at ht <;> simp [cdr, ha]
    have hlen : t.length = 1 := by cases c <;> simp [Cell.leaf?] at ht <;> subst ht <;> rfl
    simp [cellsFrom, Nat.pos_iff_ne_zero.1 (cellAt_le ha).1, hcdr, cellsFrom_zero, hlen]
  | @list a x y tx ty _ _ ha _ _ _ ihy =>
    obtain _ | fuel := fuel
    · simp [Obj.depth] at hf
    simp only [Obj.depth] at hf
    have hy : ty.depth ≤ fuel := by omega
    simp [cellsFrom, Nat.pos_iff_ne_zero.1 (cellAt_le ha).1, cdr_eq ha, ihy hy, Obj.length]
  | @closure a p b c n _ _ _ _ _ _ ha =>
    obtain _ | fuel := fuel
    · simp [Obj.depth] at hf
    have hcdr : cdr h a = 0 := by simp [cdr, ha]
    simp [cellsFrom, Nat.pos_iff_ne_zero.1 (cellAt_le ha).1, hcdr, cellsFrom_zero, Obj.length]

theorem Reads.listLength (hr : Reads h a t cs) : listLength h a = t.length := by
  unfold Lisp.listLength
  split
  · next h0 => rw [hr.null_iff.1 h0, Obj.length]
  · split
    · cases hr with
      | null => contradiction
      | @leaf _ c _ ha ht => cases c <;> simp [Cell.leaf?] at ht <;> subst ht <;> rfl
      | list ha _ _ => simp_all [Lisp.isList]
      | closure => rfl
    · exact hr.cellsFrom_length hr.depth_le

/-- The walk of `dispose_recursive` meets the objects that the tree consists of. -/
theorem Reads.postOrder (hr : Reads h a t cs) (hf : t.depth ≤ fuel) :
    postOrder h fuel a = cs := by
  induction hr generalizing fuel with
  | null => cases fuel <;> simp [Lisp.postOrder]
  | @leaf a c t ha ht =>
    obtain _ | fuel := fuel
    · rw [(depth_leaf ht).1] at hf
      omega
    cases c <;> simp [Cell.leaf?] at ht <;>
      simp [Lisp.postOrder, ha, Nat.pos_iff_ne_zero.1 (cellAt_le ha).1]
  | @list a x y tx ty _ _ ha _ _ ihx ihy =>
    obtain _ | fuel := fuel
    · simp [Obj.depth] at hf
    simp only [Obj.depth] at hf
    have hx : tx.depth ≤ fuel := by omega
    have hy : ty.depth ≤ fuel := by omega
    simp [Lisp.postOrder, ha, Nat.pos_iff_ne_zero.1 (cellAt_le ha).1, ihx hx, ihy hy]
  | @closure a p b c n tp tb tc _ _ _ ha _ _ _ ihp ihb ihc =>
    obtain _ | fuel := fuel
    · simp [Obj.depth] at hf
    simp only [Obj.depth] at hf
    have hp : tp.depth ≤ fuel := by omega
    have hb : tb.depth ≤ fuel := by omega
    have hc : tc.depth ≤ fuel := by omega
    simp [Lisp.postOrder, ha, Nat.pos_iff_ne_zero.1 (cellAt_le ha).1, ihp hp, ihb hb, ihc hc]

theorem Reads.disposed (hr : Reads h a t cs) : disposed h a = cs := hr.postOrder hr.depth_le

/-- The new objects of `h'` are not freed. -/
def NewLive (h h' : Heap F) : Prop :=
  ∀ a o, h.length < a → objectAt h' a = some o → o.freed = false

theorem objectAt_le {o : Object F} (ha : objectAt h a = some o) : a ≤ h.length :=
  (cellAt_le (c := o.cell) (by simp [cellAt, ha])).2

theorem NewLive.refl (h : Heap F) : NewLive h h := by
  intro a o ha ho
  have := objectAt_le ho
  omega

theorem NewLive.trans {h₁ h₂ h₃ : Heap F} (h12 : NewLive h₁ h₂) (hext : Extends h₂ h₃)
    (h23 : NewLive h₂ h₃) : NewLive h₁ h₃ := by
  intro a o ha ho
  rcases Nat.lt_or_ge h₂.length a with hlt | hle
  · exact h23 a o hlt ho
  · rw [hext.2 a hle] at ho
    exact h12 a o ha ho

theorem newLive_alloc (h : Heap F) (k : Cell F) : NewLive h (alloc h k).2 := by
  intro a o ha ho
  have hle := objectAt_le ho
  rw [length_alloc] at hle
  obtain rfl : a = h.length + 1 := by omega
  simp [alloc, objectAt] at ho
  rw [← ho]

/-- `r` extends `h` by new objects that read as `t`, and by nothing else. -/
structure Built (h : Heap F) (t : Obj F) (r : Nat × Heap F) : Prop where
  heap : Extends h r.2
  reads : Reads r.2 r.1 t (List.range' (h.length + 1) (r.2.length - h.length))
  live : NewLive h r.2

theorem range'_join {l m n : Nat} (hm : l ≤ m) (hn : m ≤ n) :
    List.range' (l + 1) (m - l) ++ List.range' (m + 1) (n - m) = List.range' (l + 1) (n - l) := by
  have hm' : m + 1 = l + 1 + (m - l) := by omega
  have hn' : n - l = m - l + (n - m) := by omega
  rw [hm', hn', List.range'_append_1]

theorem range'_snoc {l n : Nat} (hn : l ≤ n) :
    List.range' (l + 1) (n - l) ++ [n + 1] = List.range' (l + 1) (n + 1 - l) := by
  have := range'_join hn (Nat.le_succ n)
  simpa using this

theorem Built.fresh (hb : Built h t r) :
    ∃ cs, Reads r.2 r.1 t cs ∧ cs.Nodup ∧ ∀ a ∈ cs, h.length < a ∧ a ≤ r.2.length := by
  refine ⟨_, hb.2, List.nodup_range', fun a ha => ?_⟩
  rw [List.mem_range'_1] at ha
  have := hb.1.1
  omega

theorem built_null (h : Heap F) : Built h .null (0, h) :=
  ⟨.refl h, by simpa using Reads.null, .refl h⟩

theorem built_leaf (hk : k.leaf? = some t) : Built h t (alloc h k) := by
  refine ⟨extends_alloc h k, ?_, newLive_alloc h k⟩
  have hrange : List.range' (h.length + 1) ((alloc h k).2.length - h.length) = [h.length + 1] := by
    simp [length_alloc]
  rw [hrange]
  exact .leaf (cellAt_alloc h k) hk

theorem built_list (hx : Built h tx r₁) (hy : Built r₁.2 ty r₂) :
    Built h (.list tx ty) (alloc r₂.2 (.list r₁.1 r₂.1)) := by
  have hle₁ := hx.1.1
  have hle₂ := hy.1.1
  have hnew := extends_alloc r₂.2 (.list r₁.1 r₂.1)
  refine ⟨(hx.1.trans hy.1).trans hnew, ?_,
    (hx.live.trans hy.1 hy.live).trans hnew (newLive_alloc _ _)⟩
  rw [length_alloc, ← range'_snoc (hle₁.trans hle₂), ← range'_join hle₁ hle₂]
  exact .list (cellAt_alloc _ _) (hx.2.mono (hy.1.trans hnew)) (hy.2.mono hnew)

theorem built_closure (hp : Built h tp r₁) (hb : Built r₁.2 tb r₂) (hc : Built r₂.2 tc r₃) :
    Built h (.closure tp tb tc n) (alloc r₃.2 (.closure r₁.1 r₂.1 r₃.1 n)) := by
  have hle₁ := hp.1.1
  have hle₂ := hb.1.1
  have hle₃ := hc.1.1
  have hnew := extends_alloc r₃.2 (.closure r₁.1 r₂.1 r₃.1 n)
  refine ⟨((hp.1.trans hb.1).trans hc.1).trans hnew, ?_,
    ((hp.live.trans hb.1 hb.live).trans hc.1 hc.live).trans hnew (newLive_alloc _ _)⟩
  rw [length_alloc, ← range'_snoc ((hle₁.trans hle₂).trans hle₃),
    ← range'_join (hle₁.trans hle₂) hle₃, ← range'_join hle₁ hle₂]
  exact .closure (cellAt_alloc _ _) (hp.2.mono ((hb.1.trans hc.1).trans hnew))
    (hb.2.mono (hc.1.trans hnew)) (hc.2.mono hnew)

theorem newClosureSet_eq (hp : Reads h p tp cs) :
    newClosureSet h p b c = alloc h (.closure p b c tp.paramCount) := by
  rw [newClosureSet, hp.isNil, hp.listLength]
  rfl


theorem Reads.copyFrom (hr : Reads h₀ a t cs) (hh : Extends h₀ h) (hf : t.depth ≤ fuel) :
    Built h t.copied (copyFrom fuel h a) := by
  induction hr generalizing h fuel with
  | null => cases fuel <;> exact built_null h
  | @leaf a c t ha ht =>
    obtain _ | fuel := fuel
    · rw [(depth_leaf ht).1] at hf
      omega
    have hcopied : t.copied = t := by cases c <;> simp [Cell.leaf?] at ht <;> subst ht <;> rfl
    have hcopy : Lisp.copyFrom (fuel + 1) h a = alloc h c := by
      cases c <;> simp [Cell.leaf?] at ht <;> simp [Lisp.copyFrom, hh.cellAt ha]
    rw [hcopied, hcopy]
    exact built_leaf ht
  | @list a x y tx ty _ _ ha _ _ ihx ihy =>
    obtain _ | fuel := fuel
    · simp [Obj.depth] at hf
    simp only [Obj.depth] at hf
    have hx := ihx hh (show tx.depth ≤ fuel by omega)
    have hy := ihy (hh.trans hx.1) (show ty.depth ≤ fuel by omega)
    simpa only [Lisp.copyFrom, hh.cellAt ha, Obj.copied] using built_list hx hy
  | @closure a p b c n tp tb tc _ _ _ ha _ _ _ ihp ihb ihc =>
    obtain _ | fuel := fuel
    · simp [Obj.depth] at hf
    simp only [Obj.depth] at hf
    have hp := ihp hh (show tp.depth ≤ fuel by omega)
    have hb := ihb (hh.trans hp.1) (show tb.depth ≤ fuel by omega)
    have hc := ihc ((hh.trans hp.1).trans hb.1) (show tc.depth ≤ fuel by omega)
    simpa only [Lisp.copyFrom, hh.cellAt ha, newClosureSet_eq (hp.2.mono (hb.1.trans hc.1)),
      Obj.copied] using built_closure hp hb hc

theorem Reads.copyRecursive (hr : Reads h a t cs) : Built h t.copied (copyRecursive h a) :=
  hr.copyFrom (.refl h) hr.depth_le

end Lisp
