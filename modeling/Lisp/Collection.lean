import Lisp.Library.Traversal
import Lisp.Ownership

/-! What a collection keeps, over any object graph. The traversal stops at objects whose flag
is set, and only the flags of the recorded objects are reset before it. -/
namespace Lisp
open Traversal
variable {F : Type} {h h' : Heap F} {a b x : Nat} {k : Cell F} {ob : Object F} {l : List Nat}
  {s s' : Interpreter F}

section marking

/-- `x` is one of the fields of the object `a`. -/
def Points (h : Heap F) (a x : Nat) : Prop := ∃ k, cellAt h a = some k ∧ x ∈ k.parts

/-- The traversal stops at `a`: the flag is set, or there is no object. -/
def Marked (h : Heap F) (a : Nat) : Prop := ∀ o, objectAt h a = some o → o.reachable = true

/-- The number of objects without the flag. -/
def unmarked (h : Heap F) : Nat := h.countP fun o => !o.reachable

theorem SameCells.points (hh : SameCells h h') : Points h' = Points h := by
  funext a x
  simp only [Points, hh.2]

theorem marked_update (f : Object F → Object F) (hf : ∀ o, (f o).reachable = true) :
    Marked (update h a f) x ↔ Marked h x ∨ x = a := by
  by_cases hax : a = x
  · subst hax
    simp only [Marked, objectAt_update, or_true, iff_true]
    intro o ho
    obtain ⟨o', -, rfl⟩ := Option.map_eq_some_iff.1 ho
    exact hf o'
  · simp only [Marked, objectAt_update_of_ne f hax, Ne.symm hax, or_false]

theorem countP_modify_lt {α : Type} (p : α → Bool) (f : α → α) (hf : ∀ y, p (f y) = false)
    {l : List α} {i : Nat} {y : α} (hy : l[i]? = some y) (hp : p y = true) :
    (l.modify i f).countP p + 1 = l.countP p := by
  induction l generalizing i with
  | nil => simp at hy
  | cons z l ih =>
    cases i with
    | zero =>
      obtain rfl : z = y := by simpa using hy
      simp [hf, hp]
    | succ i =>
      have hl := ih (i := i) (by simpa using hy)
      simp only [List.modify_succ_cons, List.countP_cons]
      omega

/-- Setting a flag leaves fewer objects without one. -/
theorem unmarked_update (ho : objectAt h a = some ob) (hr : ob.reachable = false) :
    unmarked (update h a fun o => { o with reachable := true }) + 1 = unmarked h := by
  cases a with
  | zero => simp [objectAt] at ho
  | succ a => exact countP_modify_lt _ _ (fun _ => rfl) ho (by simp [hr])

/-- `mark_recursive` is a depth-first traversal. Each level sets a flag, so that the number of
objects bounds the depth. -/
theorem markFrom_visits (fuel : Nat) (hf : unmarked h ≤ fuel) :
    Visits (Points h) (Marked h) (Marked (markFrom fuel h a)) [a] ∧
      unmarked (markFrom fuel h a) ≤ unmarked h := by
  induction fuel generalizing h a with
  | zero =>
    refine ⟨.marked fun o ho => ?_, Nat.le_refl _⟩
    by_contra hr
    have := unmarked_update ho (Bool.eq_false_iff.2 hr)
    omega
  | succ fuel ih =>
    unfold markFrom
    cases ho : objectAt h a with
    | none => exact ⟨.marked fun o ho' => by simp [ho] at ho', Nat.le_refl _⟩
    | some o =>
      dsimp only
      by_cases hr : o.reachable = true
      · rw [if_pos hr]
        refine ⟨.marked fun o' ho' => ?_, Nat.le_refl _⟩
        obtain rfl := Option.some.inj (ho.symm.trans ho')
        exact hr
      · rw [if_neg hr]
        have hlt := unmarked_update ho (Bool.eq_false_iff.2 hr)
        have hsame : SameCells h (update h a fun x => { x with reachable := true }) :=
          sameCells_update fun _ => rfl
        have hmarks : Marked (update h a fun x => { x with reachable := true }) =
            fun x => Marked h x ∨ x = a :=
          funext fun x => propext (marked_update _ fun _ => rfl)
        generalize (update h a fun x => { x with reachable := true }) = h₁ at hlt hsame hmarks
        have hna : ¬Marked h a := fun hm => hr (hm o ho)
        have hcell : cellAt h a = some o.cell := by rw [cellAt, ho, Option.map_some]
        have hparts : ∀ y, Points h a y ↔ y ∈ o.cell.parts := by
          intro y
          simp only [Points, hcell, Option.some.injEq, exists_eq_left']
        have hvisit : ∀ {h₂ : Heap F} (y : Nat), SameCells h h₂ → unmarked h₂ ≤ fuel →
            Visits (Points h) (Marked h₂) (Marked (markFrom fuel h₂ y)) [y] ∧
              unmarked (markFrom fuel h₂ y) ≤ unmarked h₂ ∧
              SameCells h (markFrom fuel h₂ y) := by
          intro h₂ y h12 hle
          obtain ⟨hv, hu⟩ := ih (a := y) hle
          exact ⟨h12.points ▸ hv, hu, h12.trans (sameObjects_markFrom fuel).cells⟩
        cases hc : o.cell with
        | list y z =>
          obtain ⟨hv, hu, hs⟩ := hvisit y hsame (by omega)
          obtain ⟨hv', hu', -⟩ := hvisit z hs (by omega)
          refine ⟨.vertex hna ?_ (hmarks ▸ hv.append hv'),
            hu'.trans (hu.trans (by omega))⟩
          exact fun w => (hparts w).trans (by simp [hc, Cell.parts])
        | closure p b c n =>
          obtain ⟨hv, hu, hs⟩ := hvisit p hsame (by omega)
          obtain ⟨hv', hu', hs'⟩ := hvisit c hs (by omega)
          obtain ⟨hv'', hu'', -⟩ := hvisit b hs' (by omega)
          refine ⟨.vertex hna ?_
            (hmarks ▸ (hv.append hv').append hv''), hu''.trans (hu'.trans (hu.trans (by omega)))⟩
          exact fun w => (hparts w).trans (by simp [hc, Cell.parts]; tauto)
        | _ =>
          have hnil : Visits (Points h) (fun x => Marked h x ∨ x = a) (Marked h₁) [] := by
            rw [hmarks]
            exact .nil
          refine ⟨.vertex hna ?_ hnil, Nat.le_trans (Nat.le_succ _) hlt.le⟩
          exact fun w => (hparts w).trans (by simp [hc, Cell.parts])

/-- A path to an object has only objects on it: what is no object points to nothing. -/
theorem clear_objects {m m' : Nat → Prop} (hm : ∀ y, m' y ↔ m y ∨ objectAt h y = none)
    (hx : objectAt h x ≠ none) : Clear (Points h) m' a x ↔ Clear (Points h) m a x := by
  refine ⟨fun hc => hc.mono fun y hy => (hm y).2 (Or.inl hy), fun hc => ?_⟩
  induction hc with
  | refl hn => exact .refl fun h' => ((hm _).1 h').elim hn hx
  | step _ he hn ih =>
    refine .step (ih fun h0 => ?_) he fun h' => ((hm _).1 h').elim hn hx
    obtain ⟨k, hk, -⟩ := he
    rw [cellAt, h0] at hk
    cases hk

end marking

section collect

/-- An object whose flag an earlier traversal set and this one does not reset. -/
def Stale (s : Interpreter F) (a : Nat) : Prop :=
  isReachable s.heap a = true ∧ a ∉ s.allocated

/-- The objects that a collection cleans up, in this order. -/
def cleaned (s : Interpreter F) : List Nat :=
  s.allocated.filter fun o => !isReachable (marked s) o

theorem isReachable_iff : isReachable h a = true ↔ (∃ o, objectAt h a = some o) ∧ Marked h a := by
  unfold isReachable Marked
  cases objectAt h a with
  | none => simp
  | some o => simp

theorem objectAt_foldl_reset (h : Heap F) (l : List Nat) (a : Nat) :
    objectAt (l.foldl (fun h o => update h o fun x => { x with reachable := false }) h) a =
      (objectAt h a).map fun o => if a ∈ l then { o with reachable := false } else o := by
  induction l generalizing h with
  | nil => simp
  | cons b l ih =>
    rw [List.foldl_cons, ih]
    by_cases hba : b = a
    · subst hba
      rw [objectAt_update, Option.map_map]
      congr 1
      funext o
      by_cases hb : b ∈ l
      · simp [hb]
      · simp [hb]
    · have hmem : a ∈ b :: l ↔ a ∈ l := by simp [Ne.symm hba]
      simp only [objectAt_update_of_ne _ hba, hmem]

/-- The flags of the objects once a collection has marked: those that can be reached through
objects without a stale flag, and the stale ones. -/
theorem isReachable_marked (ha : ∃ o, objectAt s.heap a = some o) :
    isReachable (marked s) a = true ↔
      Stale s a ∨ Clear (Points s.heap) (Stale s) s.env a := by
  have hsame := (sameObjects_marked s).cells
  have hobject : ∃ o, objectAt (marked s) a = some o := by
    obtain ⟨o, ho⟩ := ha
    have hcell := hsame.2 a
    rw [cellAt, cellAt, ho, Option.map_some] at hcell
    obtain ⟨o', ho', -⟩ := Option.map_eq_some_iff.1 hcell
    exact ⟨o', ho'⟩
  rw [isReachable_iff, and_iff_right hobject]
  unfold marked
  dsimp only
  have hreset := objectAt_foldl_reset s.heap s.allocated
  have hcells : SameCells s.heap (s.allocated.foldl
      (fun h o => update h o fun x => { x with reachable := false }) s.heap) :=
    sameCells_foldl (fun x => { x with reachable := false }) (fun _ => rfl) _ _
  generalize (s.allocated.foldl
    (fun h o => update h o fun x => { x with reachable := false }) s.heap) = h at hreset hcells
  have hmark : ∀ x, Marked h x ↔ Stale s x ∨ objectAt s.heap x = none := by
    intro x
    unfold Marked Stale isReachable
    rw [hreset]
    cases objectAt s.heap x with
    | none => simp
    | some o =>
      by_cases hx : x ∈ s.allocated
      · simp [hx]
      · simp [hx]
  have hle : unmarked h ≤ h.length := List.countP_le_length
  rw [(markFrom_visits h.length hle).1.iff, hcells.points, hmark a]
  have hnone : objectAt s.heap a ≠ none := by
    obtain ⟨o, ho⟩ := ha
    simp [ho]
  simp only [hnone, or_false, List.mem_singleton, exists_eq_left]
  exact or_congr_right (clear_objects hmark hnone)

theorem reachable_of_clear {m : Nat → Prop} (hc : Clear (Points h) m a x) :
    Reachable h a x := by
  induction hc with
  | refl => exact .refl
  | step _ he _ ih =>
    obtain ⟨k, hk, hx⟩ := he
    exact .step ih hk hx

open Classical in
/-- The collection keeps the entries that can be reached from the environment, in their order.
It cleans up each other entry once, and frees nothing else. -/
structure Exact (s : Interpreter F) : Prop where
  kept : (collectGarbage s).allocated = s.allocated.filter fun a => Reachable s.heap s.env a
  cleaned : ∀ a, (cleaned s).count a =
    if a ∈ s.allocated ∧ ¬Reachable s.heap s.env a then 1 else 0
  freed : ∀ a o, objectAt s.heap a = some o → ∃ o', objectAt (collectGarbage s).heap a = some o' ∧
    (o'.freed = true ↔ o.freed = true ∨ a ∈ s.allocated ∧ ¬Reachable s.heap s.env a)

/-- Each entry that can be reached from the environment can be reached past no stale flag. -/
def Unobstructed (s : Interpreter F) : Prop :=
  ∀ a ∈ s.allocated, Reachable s.heap s.env a → Clear (Points s.heap) (Stale s) s.env a

theorem objectAt_foldl_dispose_mem (ha : a ∈ l) (ho : objectAt h a = some ob) :
    objectAt (l.foldl dispose h) a = some { ob with freed := true } := by
  induction l generalizing h ob with
  | nil => simp at ha
  | cons b l ih =>
    rw [List.foldl_cons]
    by_cases hal : a ∈ l
    · by_cases hba : b = a
      · subst hba
        have hb : objectAt (dispose h b) b = some { ob with freed := true } := by
          rw [dispose, objectAt_update, ho, Option.map_some]
        have hl := ih hal hb
        exact hl
      · exact ih hal (by rw [dispose, objectAt_update_of_ne _ hba, ho])
    · obtain rfl := (List.mem_cons.1 ha).resolve_right hal
      rw [objectAt_foldl_dispose hal, dispose, objectAt_update, ho, Option.map_some]

/-- An entry keeps its flag exactly if no stale flag is in the way. -/
theorem isReachable_entry (ha : a ∈ s.allocated) (ho : ∃ o, objectAt s.heap a = some o) :
    isReachable (marked s) a = true ↔ Clear (Points s.heap) (Stale s) s.env a :=
  (isReachable_marked ho).trans ⟨fun h => h.resolve_left fun hs => hs.2 ha, Or.inr⟩

open Classical in
/-- A single collection, from any state whose entries are different objects. -/
theorem exact_iff (hnodup : s.allocated.Nodup)
    (hobjects : ∀ a ∈ s.allocated, ∃ o, objectAt s.heap a = some o) :
    Exact s ↔ Unobstructed s := by
  constructor
  · intro he a ha hr
    refine (isReachable_entry ha (hobjects a ha)).1 ?_
    have hmem : a ∈ (collectGarbage s).allocated := by
      rw [he.kept]
      exact List.mem_filter.2 ⟨ha, by simpa using hr⟩
    exact (List.mem_filter.1 hmem).2
  · intro hu
    have hflag : ∀ a ∈ s.allocated, isReachable (marked s) a = true ↔ Reachable s.heap s.env a :=
      fun a ha => (isReachable_entry ha (hobjects a ha)).trans ⟨reachable_of_clear, hu a ha⟩
    have hcleaned : ∀ a, a ∈ cleaned s ↔ a ∈ s.allocated ∧ ¬Reachable s.heap s.env a := by
      intro a
      refine List.mem_filter.trans (and_congr_right fun ha => ?_)
      rw [← hflag a ha]
      simp
    constructor
    case kept => exact List.filter_congr fun a ha => by simp [← hflag a ha]
    case cleaned =>
      intro a
      have hn : (Lisp.cleaned s).Nodup := hnodup.filter _
      rw [hn.count]
      exact if_congr (hcleaned a) rfl rfl
    case freed =>
      intro a o ho
      have hsame := sameObjects_marked s
      obtain ⟨o', ho'⟩ : ∃ o', objectAt (marked s) a = some o' := by
        have hcell := hsame.cells.2 a
        rw [cellAt, cellAt, ho, Option.map_some] at hcell
        obtain ⟨o', ho', -⟩ := Option.map_eq_some_iff.1 hcell
        exact ⟨o', ho'⟩
      obtain ⟨o'', ho'', hfreed⟩ := hsame.freed a o' ho'
      obtain rfl := Option.some.inj (ho.symm.trans ho'')
      rw [← hcleaned a]
      by_cases ha : a ∈ cleaned s
      · exact ⟨_, objectAt_foldl_dispose_mem ha ho', by simp [ha]⟩
      · refine ⟨o', (objectAt_foldl_dispose ha).trans ho', ?_⟩
        simp [ha, hfreed]

end collect

section runs

/-- The entries are different objects in use, and nothing in use points to a freed object. -/
structure Sound (s : Interpreter F) : Prop where
  nodup : s.allocated.Nodup
  entries : ∀ a ∈ s.allocated, ∃ o, objectAt s.heap a = some o ∧ o.freed = false
  env : ∀ o, objectAt s.heap s.env = some o → o.freed = false
  fields : ∀ a x o o', objectAt s.heap a = some o → o.freed = false → Points s.heap a x →
    objectAt s.heap x = some o' → o'.freed = false

/-- Any change to the objects, the environment and the entries. Only objects that are registered
get their flags set, and a new object starts without one. -/
structure Changed (s s' : Interpreter F) : Prop where
  sound : Sound s'
  old : ∀ a o, objectAt s.heap a = some o → ∃ o', objectAt s'.heap a = some o' ∧
    (o.freed = true → o'.freed = true) ∧ (o'.reachable = o.reachable ∨ a ∈ s'.allocated)
  new : ∀ a o, objectAt s.heap a = none → objectAt s'.heap a = some o →
    o.reachable = false ∨ a ∈ s'.allocated

/-- The states at which a collector is called, the last one first, and the state it is in. -/
inductive Collections : List (Interpreter F) → Interpreter F → Prop where
  | new {s : Interpreter F} (hflags : ∀ o ∈ s.heap, o.reachable = false)
      (hempty : s.allocated = []) : Collections [] s
  | change {calls : List (Interpreter F)} {s s' : Interpreter F} (hc : Collections calls s)
      (hs : Changed s s') : Collections calls s'
  | collect {calls : List (Interpreter F)} {s : Interpreter F} (hc : Collections calls s) :
      Collections (s :: calls) (collectGarbage s)

variable {calls : List (Interpreter F)}

/-- The entries are different objects, in every state of a run. -/
theorem Collections.entries (hc : Collections calls s) :
    s.allocated.Nodup ∧ ∀ a ∈ s.allocated, ∃ o, objectAt s.heap a = some o := by
  induction hc with
  | new hflags hempty => simp [hempty]
  | change _ hs _ =>
    refine ⟨hs.sound.nodup, fun a ha => ?_⟩
    obtain ⟨o, ho, -⟩ := hs.sound.entries a ha
    exact ⟨o, ho⟩
  | @collect _ s _ ih =>
    refine ⟨ih.1.filter _, fun a ha => ?_⟩
    obtain ⟨o, ho⟩ := ih.2 a (List.mem_of_mem_filter ha)
    have hcells : SameCells s.heap (collectGarbage s).heap :=
      (sameObjects_marked s).cells.trans
        (sameCells_foldl (fun o => { o with freed := true }) (fun _ => rfl) _ _)
    have hcell := hcells.2 a
    rw [cellAt, cellAt, ho, Option.map_some] at hcell
    obtain ⟨o', ho', -⟩ := Option.map_eq_some_iff.1 hcell
    exact ⟨o', ho'⟩

/-- In every run, a collection is exact if and only if no stale flag is in its way. -/
theorem collections_exact_iff (hc : Collections calls s) :
    ∀ s' ∈ calls, Exact s' ↔ Unobstructed s' := by
  induction hc with
  | new => simp
  | change _ _ ih => exact ih
  | collect hc ih =>
    intro s' hs'
    rcases List.mem_cons.1 hs' with rfl | hs'
    · exact exact_iff hc.entries.1 hc.entries.2
    · exact ih s' hs'

/-- One cell that the collector does not know, as the environment. -/
def firstCall : Interpreter NoFloat where
  heap := [⟨.list 0 0, false, false⟩]
  env := 1
  allocated := []
  trace := ⟨[], [], [], [], 0, 0⟩

/-- The cell, whose flag the first collection has set, once it points to a registered object. -/
def secondCall : Interpreter NoFloat :=
  { firstCall with heap := [⟨.list 2 0, true, false⟩, ⟨.int 7, false, false⟩], allocated := [2] }

/-- A new cell in front of the old one points to the registered object. -/
def secondCallNew : Interpreter NoFloat :=
  { firstCall with
    heap := [⟨.list 0 0, true, false⟩, ⟨.int 7, false, false⟩, ⟨.list 2 1, false, false⟩]
    env := 3
    allocated := [2] }

/-- A change after the first collection. -/
theorem collections_second {s : Interpreter NoFloat} (hs : Sound s) (hnew : ∀ a o,
    1 < a → objectAt s.heap a = some o → o.reachable = false)
    (hold : ∃ k, objectAt s.heap 1 = some ⟨k, true, false⟩) :
    Collections (s :: [firstCall]) (collectGarbage s) := by
  have hheap : (collectGarbage firstCall).heap = [⟨.list 0 0, true, false⟩] := by decide
  refine .collect
    (.change (.collect (.new (s := firstCall) (by simp [firstCall]) rfl)) ⟨hs, ?_, ?_⟩)
  · intro a o ho
    rw [hheap] at ho
    rcases a with _ | _ | a
    · simp [objectAt] at ho
    · obtain rfl : Object.mk (Cell.list 0 0) true false = o := by simpa [objectAt] using ho
      obtain ⟨k, hk⟩ := hold
      exact ⟨_, hk, by simp⟩
    · simp [objectAt] at ho
  · intro a o ha ho
    rw [hheap] at ha
    rcases a with _ | _ | a
    · simp [objectAt] at ho
    · simp [objectAt] at ha
    · exact Or.inl (hnew _ o (by omega) ho)

theorem objectAt_mem (ho : objectAt h a = some ob) : ob ∈ h := by
  cases a with
  | zero => simp [objectAt] at ho
  | succ a => exact List.mem_of_getElem? ho

theorem sound_of_live (hlive : ∀ o ∈ s.heap, o.freed = false) (hnodup : s.allocated.Nodup)
    (hentries : ∀ a ∈ s.allocated, ∃ o, objectAt s.heap a = some o) : Sound s where
  nodup := hnodup
  entries a ha := by
    obtain ⟨o, ho⟩ := hentries a ha
    exact ⟨o, ho, hlive o (objectAt_mem ho)⟩
  env _ ho := hlive _ (objectAt_mem ho)
  fields _ _ _ _ _ _ _ ho := hlive _ (objectAt_mem ho)

/-- In the second collection the traversal stops at the cell of the environment, whose flag the
first one has left set. -/
theorem collections_exact_stale :
    ¬∀ (calls : List (Interpreter NoFloat)) (s : Interpreter NoFloat), Collections calls s →
      ∀ s' ∈ calls, Exact s' := by
  intro h
  have hsound : Sound secondCall :=
    sound_of_live (by decide) (by decide) (by simp [secondCall, objectAt])
  have hrun : Collections (secondCall :: [firstCall]) (collectGarbage secondCall) := by
    refine collections_second hsound ?_ ⟨_, rfl⟩
    intro a o ha ho
    rcases a with _ | _ | _ | a
    · omega
    · omega
    · obtain rfl : Object.mk (Cell.int 7) false false = o := by
        simpa [objectAt, secondCall] using ho
      rfl
    · simp [objectAt, secondCall] at ho
  have hkept := (h _ _ hrun secondCall (by simp)).kept
  have hnil : (collectGarbage secondCall).allocated = [] := by decide
  have hreach : Reachable secondCall.heap secondCall.env 2 :=
    .step (k := .list 2 0) .refl rfl (by simp [Cell.parts])
  rw [hnil] at hkept
  have hmem := List.filter_eq_nil_iff.1 hkept.symm 2 (by simp [secondCall])
  simp [hreach] at hmem

theorem collections_exact_iff_new : Exact secondCallNew := by
  have hsound : Sound secondCallNew :=
    sound_of_live (by decide) (by decide) (by simp [secondCallNew, objectAt])
  have hrun : Collections (secondCallNew :: [firstCall]) (collectGarbage secondCallNew) := by
    refine collections_second hsound ?_ ⟨_, rfl⟩
    intro a o ha ho
    rcases a with _ | _ | _ | _ | a
    · omega
    · omega
    · obtain rfl : Object.mk (Cell.int 7) false false = o := by
        simpa [objectAt, secondCallNew] using ho
      rfl
    · obtain rfl : Object.mk (Cell.list 2 1) false false = o := by
        simpa [objectAt, secondCallNew] using ho
      rfl
    · simp [objectAt, secondCallNew] at ho
  refine (collections_exact_iff hrun secondCallNew (by simp)).2 ?_
  intro a ha _
  obtain rfl : a = 2 := by simpa [secondCallNew] using ha
  refine .step (.refl ?_) ⟨.list 2 1, rfl, by simp [Cell.parts]⟩ ?_
  · simp [Stale, isReachable, objectAt, secondCallNew]
  · simp [Stale, isReachable, objectAt, secondCallNew]

end runs
end Lisp
