import Lisp.Collection

/-! What `mark_recursive` marks, over any object graph and whatever flags are set before. -/
namespace Lisp
open Traversal
variable {F : Type} {h h' : Heap F} {a o x : Nat} {rounds : Nat}

/-- `mark_recursive`, for at most the given depth of recursion. -/
def markRecursive : Nat → Heap F → Nat → Option (Heap F)
  | 0, _, _ => none
  | rounds + 1, h, o =>
    match objectAt h o with
    | none => some h
    | some x =>
      if x.reachable then some h else
      let h := update h o fun x => { x with reachable := true }
      match x.cell with
      | .list car cdr => do
        let h ← markRecursive rounds h car
        markRecursive rounds h cdr
      | .closure parameters procedure captured _ => do
        let h ← markRecursive rounds h parameters
        let h ← markRecursive rounds h captured
        markRecursive rounds h procedure
      | _ => some h

/-- Each level of the recursion sets a flag, so that it ends on any graph. -/
theorem markRecursive_eq (hrounds : unmarked h < rounds) :
    markRecursive rounds h a = some (markFrom rounds h a) := by
  induction rounds generalizing h a with
  | zero => cases hrounds
  | succ rounds ih =>
    rw [markRecursive, markFrom]
    cases ho : objectAt h a with
    | none => rfl
    | some x =>
      dsimp only
      by_cases hr : x.reachable = true
      · rw [if_pos hr, if_pos hr]
      · rw [if_neg hr, if_neg hr]
        have hless := unmarked_update ho (Bool.eq_false_iff.2 hr)
        generalize (update h a fun x => { x with reachable := true }) = h₁ at hless
        have hstep {h₂ : Heap F} (y : Nat) (hle : unmarked h₂ ≤ unmarked h₁) :
            markRecursive rounds h₂ y = some (markFrom rounds h₂ y) ∧
              unmarked (markFrom rounds h₂ y) ≤ unmarked h₁ :=
          ⟨ih (by omega), (markFrom_visits rounds (by omega)).2.trans hle⟩
        cases hc : x.cell with
        | list y z =>
          obtain ⟨hy, hle⟩ := hstep y (Nat.le_refl _)
          obtain ⟨hz, -⟩ := hstep z hle
          simp only [hy, Option.bind_eq_bind, Option.bind_some, hz]
        | closure p b c n =>
          obtain ⟨hp, hle⟩ := hstep p (Nat.le_refl _)
          obtain ⟨hcaptured, hle'⟩ := hstep c hle
          obtain ⟨hb, -⟩ := hstep b hle'
          simp only [hp, Option.bind_eq_bind, Option.bind_some, hcaptured, hb]
        | _ => rfl

/-- A result does not depend on the depth that is allowed. -/
theorem markRecursive_mono {rounds' : Nat} (hm : markRecursive rounds h a = some h')
    (hle : rounds ≤ rounds') : markRecursive rounds' h a = some h' := by
  induction rounds generalizing h h' a rounds' with
  | zero => cases hm
  | succ rounds ih =>
    obtain ⟨rounds', rfl⟩ : ∃ r, rounds' = r + 1 := ⟨rounds' - 1, by omega⟩
    have hle' : rounds ≤ rounds' := Nat.le_of_succ_le_succ hle
    rw [markRecursive] at hm ⊢
    cases ho : objectAt h a with
    | none =>
      rw [ho] at hm
      exact hm
    | some x =>
      rw [ho] at hm
      dsimp only at hm ⊢
      by_cases hr : x.reachable = true
      · rw [if_pos hr] at hm ⊢
        exact hm
      · rw [if_neg hr] at hm ⊢
        cases hc : x.cell with
        | list y z =>
          simp only [hc, Option.bind_eq_bind, Option.bind_eq_some_iff] at hm ⊢
          obtain ⟨h₁, hy, hz⟩ := hm
          exact ⟨h₁, ih hy hle', ih hz hle'⟩
        | closure p b c n =>
          simp only [hc, Option.bind_eq_bind, Option.bind_eq_some_iff] at hm ⊢
          obtain ⟨h₁, hp, h₂, hcaptured, hb⟩ := hm
          exact ⟨h₁, ih hp hle', h₂, ih hcaptured hle', ih hb hle'⟩
        | _ => simpa only [hc] using hm

/-- An object's flag is set afterwards if and only if it was set before or the object can be reached
through objects without the flag. Nothing else changes. -/
theorem markRecursive_exact (h : Heap F) (o : Nat) : ∃ h',
    (∀ rounds, h.length < rounds → markRecursive rounds h o = some h') ∧
    h'.length = h.length ∧
    ∀ x ob, objectAt h x = some ob → ∃ flag,
      objectAt h' x = some { ob with reachable := flag } ∧
      (flag = true ↔
        ob.reachable = true ∨ Clear (Points h) (fun y => isReachable h y = true) o x) := by
  have hle : unmarked h ≤ h.length := List.countP_le_length
  have hvisits := (markFrom_visits (a := o) (h.length + 1) (Nat.le_succ_of_le hle)).1
  have hsame : SameObjects h (markFrom (h.length + 1) h o) := sameObjects_markFrom _
  have hmark := markRecursive_eq (a := o) (Nat.lt_succ_of_le hle)
  generalize markFrom (h.length + 1) h o = h' at hvisits hsame hmark
  refine ⟨h', fun rounds hr => markRecursive_mono hmark hr, hsame.cells.1, fun x ob hob => ?_⟩
  have hcell := hsame.cells.2 x
  rw [cellAt, cellAt, hob, Option.map_some] at hcell
  obtain ⟨ob', hob', hcell'⟩ := Option.map_eq_some_iff.1 hcell
  obtain ⟨ob'', hob'', hfreed⟩ := hsame.freed x ob' hob'
  obtain rfl := Option.some.inj (hob.symm.trans hob'')
  have hmarked (y : Nat) : Marked h y ↔ isReachable h y = true ∨ objectAt h y = none := by
    rw [isReachable_iff]
    cases hy : objectAt h y with
    | none => simp [Marked, hy]
    | some o => simp
  have hflag : Marked h' x ↔ ob'.reachable = true :=
    ⟨fun hm => hm ob' hob', fun hr o ho => Option.some.inj (hob'.symm.trans ho) ▸ hr⟩
  have hflag' : Marked h x ↔ ob.reachable = true :=
    ⟨fun hm => hm ob hob, fun hr o ho => Option.some.inj (hob.symm.trans ho) ▸ hr⟩
  refine ⟨ob'.reachable, ?_, ?_⟩
  · rw [hob']
    obtain ⟨cell, reachable, freed⟩ := ob'
    simp only at hcell' hfreed
    rw [hcell', hfreed]
  · rw [← hflag, hvisits.iff, hflag']
    simp only [List.mem_singleton, exists_eq_left]
    exact or_congr_right (clear_objects hmarked (by simp [hob]))

end Lisp
