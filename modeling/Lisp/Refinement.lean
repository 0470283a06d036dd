import Lisp.Application
import Lisp.Capture

/-! Every evaluation is a run of the machine. -/
namespace Lisp
open ExceptState
variable {F α : Type} {c d e : Config F} {s : Interpreter F} {ev : Nat → Eval F Nat}
  {a args closure name o p b k r v fuel x : Nat} {n : Text} {t : Obj F} {cs os : List Nat}

section rules
variable {m : Eval F Nat} {f : Nat → Eval F Nat}

theorem Runs.evaluated (hev : RunsAll ev) (ho : o ≤ c.state.heap.length) :
    Runs c (ev o) (Evaluated ev c o) := by
  refine Runs.mono (Runs.ran (hev c o ho)) ?_
  intro v d _ ⟨hv, hexec⟩
  exact ⟨hv, c, d, .refl c, rfl, hexec, .refl d, rfl⟩

/-- An evaluation and then the rest of a computation. -/
theorem Runs.then (hm : Runs c m (Evaluated ev c o))
    (hf : ∀ v d, c.state.heap.length ≤ d.state.heap.length → v ≤ d.state.heap.length →
      Runs d (f v) (Value d)) : Runs c (m >>= f) (Value c) := by
  refine Runs.bind hm ?_
  intro v d hsteps hv
  refine Runs.mono (hf v d hsteps.length_le hv.value.1) ?_
  intro w e _ hw
  exact ⟨hw.1, hv.value.2.trans hw.2⟩

theorem Runs.value (hv : v ≤ c.state.heap.length) : Runs c (Pure.pure v) (Value c) :=
  Runs.pure ⟨hv, .refl c⟩

theorem Runs.zero : Runs c (Pure.pure 0) (Value c) := Runs.value (Nat.zero_le _)

theorem Runs.allocated {q : Cell F} (hk : ∀ x ∈ q.parts, x ≤ c.state.heap.length)
    (hc : CellOk c.state.heap c.slots q) : Runs c (Lisp.allocate q) (Value c) :=
  Runs.mono (Runs.allocate hk hc) fun _ _ _ h => h.1

theorem Runs.nil : Runs c nil (Value c) :=
  Runs.allocated (by simp [Cell.parts]) (Or.inl rfl)

theorem Runs.ofBool (b : Bool) : Runs c (ofBool b) (Value c) := by
  cases b with
  | false => exact Runs.nil
  | true => exact Runs.allocated (by simp [Cell.parts]) trivial

theorem Runs.int {z : Int} : Runs c (Lisp.allocate (.int z)) (Value c) :=
  Runs.allocated (by simp [Cell.parts]) trivial

end rules

section set

theorem copyRecursive_atom {h : Heap F} (ha : cellAt h a = some (.atom n)) :
    copyRecursive h a = alloc h (.atom n) := by
  unfold copyRecursive
  cases hlen : h.length with
  | zero =>
    have := cellAt_le ha
    omega
  | succ l => simp [copyFrom, ha]

/-- What `set` leaves: the name is bound to a value that reads as `t`. -/
structure Stored (c : Config F) (n : Text) (t : Obj F) (d : Config F) : Prop where
  action : Action c d
  balanced : Balanced c d
  slot : ∃ slot w cs, cellAt d.state.heap slot = some (.list w 0) ∧ Reads d.state.heap w t cs ∧
    (∀ a ≤ c.state.heap.length, a ≠ slot → cellAt d.state.heap a = cellAt c.state.heap a) ∧
    ((slotOf c.top n = none ∧ d.top = ⟨slot, some n⟩ :: c.top) ∨
      (slotOf c.top n = some slot ∧ d.top = c.top))

/-- `set` on a name without a binding, once the value is copied. -/
theorem Runs.bindNew {q : Nat × Heap F} (hcopy : Built c.state.heap t q) (hok : t.Ok)
    (ht : t ≠ .null) (hname : cellAt c.state.heap name = some (.atom n))
    (hn : isTruthName n = false) (hunbound : slotOf c.top n = none) :
    ∃ d : Config F, exec (Primitives.bindNew name q.1) { c.state with heap := q.2 } =
      (.ok (), d.state) ∧ Stored c n t d ∧ Extends c.state.heap d.state.heap := by
  obtain ⟨cs, hread, hnodup, hfresh⟩ := hcopy.fresh
  have hle := hcopy.1.1
  have hok₁ := c.wf.heap.built hcopy hok fun a ha => slots_le c ha
  generalize hL : q.2.length = L at hle hfresh
  generalize hh₂ : (alloc q.2 (.list q.1 0)).2 = h₂
  generalize hh₃ : (alloc h₂ (.atom n)).2 = h₃
  generalize hh₄ : (alloc h₃ (.list (L + 2) (L + 1))).2 = h₄
  generalize hh₅ : (alloc h₄ (.list (L + 3) c.state.env)).2 = h₅
  have hl₂ : h₂.length = L + 1 := by rw [← hh₂, length_alloc, hL]
  have hl₃ : h₃.length = L + 2 := by rw [← hh₃, length_alloc, hl₂]
  have hl₄ : h₄.length = L + 3 := by rw [← hh₄, length_alloc, hl₃]
  have hl₅ : h₅.length = L + 4 := by rw [← hh₅, length_alloc, hl₄]
  have he₂ : Extends q.2 h₂ := hh₂ ▸ extends_alloc _ _
  have he₃ : Extends h₂ h₃ := hh₃ ▸ extends_alloc _ _
  have he₄ : Extends h₃ h₄ := hh₄ ▸ extends_alloc _ _
  have he₅ : Extends h₄ h₅ := hh₅ ▸ extends_alloc _ _
  have hc₂ : cellAt h₂ (L + 1) = some (.list q.1 0) := hh₂ ▸ cellAt_alloc_at hL
  have hc₃ : cellAt h₃ (L + 2) = some (.atom n) := hh₃ ▸ cellAt_alloc_at hl₂
  have hc₄ : cellAt h₄ (L + 3) = some (.list (L + 2) (L + 1)) :=
    hh₄ ▸ cellAt_alloc_at hl₃
  have hc₅ : cellAt h₅ (L + 4) = some (.list (L + 3) c.state.env) :=
    hh₅ ▸ cellAt_alloc_at hl₄
  have hext := hcopy.1.trans (he₂.trans (he₃.trans (he₄.trans he₅)))
  let S := Slots (⟨L + 1, some n⟩ :: c.top) c.pending
  have hcases : ∀ a, S a → a = L + 1 ∨ c.slots a := by
    intro a ha
    rcases ha with ha | ha
    · rcases List.mem_cons.1 ha with ha | ha
      · exact Or.inl ha
      · exact Or.inr (Or.inl ha)
    · exact Or.inr (Or.inr ha)
  have hold : ∀ a ≤ L, S a → c.slots a := by
    intro a ha hs
    rcases hcases a hs with rfl | hs
    · omega
    · exact hs
  have hnot : ∀ a, L + 1 < a → ¬S a := by
    intro a ha hs
    rcases hcases a hs with rfl | hs
    · omega
    · have := slots_le c hs
      omega
  have henv : c.state.env ≤ L := c.wf.env.le.trans hle
  have hok₂ : HeapOk h₂ S := by
    have hcell : CellOk q.2 S (.list q.1 0) := Or.inl rfl
    rw [← hh₂]
    refine (hok₁.weaken fun a ha => hold a (hL ▸ ha)).alloc ?_ hcell
    simpa [Cell.parts] using hread.valid.1
  have hok₃ : HeapOk h₃ S := by
    have hcell : CellOk h₂ S (.atom n : Cell F) := trivial
    rw [← hh₃]
    exact hok₂.alloc (by simp [Cell.parts]) hcell
  have hok₄ : HeapOk h₄ S := by
    have hcell : CellOk h₃ S (.list (L + 2) (L + 1) : Cell F) := Or.inr ⟨_, _, he₃.cellAt hc₂⟩
    rw [← hh₄]
    refine hok₃.alloc ?_ hcell
    simp [Cell.parts, hl₃]
  have hok₅ : HeapOk h₅ S := by
    have hcell : CellOk h₄ S (.list (L + 3) c.state.env : Cell F) := by
      rcases c.wf.env.tail with h0 | ⟨u, w, he⟩
      · exact Or.inl h0
      · exact Or.inr ⟨u, w, (hcopy.1.trans (he₂.trans (he₃.trans he₄))).cellAt he⟩
    rw [← hh₅]
    refine hok₄.alloc ?_ hcell
    simp [Cell.parts, hl₄]
    omega
  have hout : ∀ {e bs'}, EnvList c.state.heap c.slots e bs' → EnvList h₅ S e bs' := fun he =>
    (he.weaken fun a ha hs => hold a (ha.trans hle) hs).evolves hext.evolves
  have hwf : WellFormed { c.state with
      heap := h₅, env := L + 4, trace.stored := (L + 1) :: c.state.trace.stored }
      (⟨L + 1, some n⟩ :: c.top) c.below c.pending := by
    refine ⟨hok₅, ?_, c.wf.saved.imp fun _ _ he => hout he, ?_, ?_, ?_⟩
    · refine .cons hc₅ (he₅.cellAt hc₄) ((he₃.trans (he₄.trans he₅)).cellAt hc₂)
        ⟨(he₄.trans he₅).cellAt hc₃, hn⟩ (hnot (L + 4) (by omega)) (hnot (L + 3) (by omega))
        (hout c.wf.env)
    · have hchain := c.wf.suffixes
      cases hb : c.below with
      | nil => simp
      | cons top rest =>
        rw [hb] at hchain
        obtain ⟨h1, h2⟩ := List.isChain_cons_cons.1 hchain
        exact List.isChain_cons_cons.2 ⟨h1.trans (List.suffix_cons _ _), h2⟩
    · refine List.nodup_cons.2 ⟨fun hmem => ?_, c.wf.nodup⟩
      have : L + 1 ≤ c.state.heap.length := slots_le c (List.mem_append.1 hmem)
      omega
    · intro a ha
      obtain ⟨w, hw⟩ := c.wf.pending a ha
      exact ⟨w, hext.cellAt hw⟩
  have hread₅ := hread.mono (he₂.trans (he₃.trans (he₄.trans he₅)))
  have hslot₅ := (he₃.trans (he₄.trans he₅)).cellAt hc₂
  refine ⟨⟨_, _, _, _, hwf⟩, ?_, ⟨?_, ⟨rfl, rfl, rfl, rfl, List.suffix_cons _ _⟩, L + 1, q.1, cs,
    hslot₅, hread₅, fun a ha _ => hext.cell ha, Or.inl ⟨hunbound, rfl⟩⟩, hext⟩
  · have hcopyName : copyRecursive h₂ name = alloc h₂ (.atom n) :=
      copyRecursive_atom ((hcopy.1.trans he₂).cellAt hname)
    simp only [Primitives.bindNew, exec_get_bind, exec_onHeap_bind, hh₂, hcopyName, hh₃, alloc_fst,
      hL, hl₂, hl₃, hh₄, hl₄, hh₅, exec_modify]
  · have hlive := hcopy.live.trans he₂ (hh₂ ▸ newLive_alloc _ _)
    have hlive' := (hlive.trans he₃ (hh₃ ▸ newLive_alloc _ _)).trans he₄ (hh₄ ▸ newLive_alloc _ _)
    have hlive'' := hlive'.trans he₅ (hh₅ ▸ newLive_alloc _ _)
    refine .bind hext ?_ hslot₅ ⟨?_, hlive'', t, cs, hread₅, hnodup, ?_⟩ ?_
      hunbound rfl rfl rfl rfl rfl rfl rfl ⟨L + 2, L + 3, hc₅, he₅.cellAt hc₄,
        (he₄.trans he₅).cellAt hc₃, ?_⟩
    · show c.state.heap.length < L + 1
      omega
    · intro h0
      exact ht (hread.null_iff.1 h0)
    · exact fun a ha => (hfresh a ha).1
    · intro u ds hu hmem
      obtain ⟨-, rfl⟩ := hu.unique hread₅
      have := (hfresh _ hmem).2
      omega
    · show c.state.heap.length < L + 4 ∧ _ < L + 3 ∧ _ < L + 2
      omega

/-- `set` on a name with a binding, once the value is copied. -/
theorem Runs.overwrite {q : Nat × Heap F} (hcopy : Built c.state.heap t q) (hok : t.Ok)
    (ht : t ≠ .null) (hslotOf : slotOf c.top n = some x) :
    ∃ d : Config F, exec (Primitives.overwrite x q.1) { c.state with heap := q.2 } =
      (.ok (), d.state) ∧ Stored c n t d ∧ ∃ us, Reads d.state.heap q.1 t us := by
  obtain ⟨cs, hread, hnodup, hfresh⟩ := hcopy.fresh
  have hle := hcopy.1.1
  have hok₁ := c.wf.heap.built hcopy hok fun a ha => slots_le c ha
  obtain ⟨b, hb, rfl, -⟩ := slotOf_mem hslotOf
  have hslot : b.slot ∈ c.top.map Binding.slot := List.mem_map_of_mem hb
  obtain ⟨w, hw⟩ := c.wf.env.slot_mem hb
  have hw' := hcopy.1.cellAt hw
  have hslots : c.slots b.slot := Or.inl hslot
  have hnot : b.slot ∉ cs := by
    intro hmem
    have := (hfresh _ hmem).1
    have := slots_le c hslots
    omega
  have hok₂ := hok₁.overwritten hslots hw' hread hnot
  have hevolves : Evolves c.slots c.state.heap (overwritten q.2 b.slot q.1) :=
    hcopy.1.evolves.trans (evolves_overwritten hslots hw') fun _ _ h => h
  have hwf : WellFormed { c.state with
      heap := overwritten q.2 b.slot q.1
      trace.stored := b.slot :: c.state.trace.stored
      trace.overwrites := ⟨q.2, c.state.env, c.state.trace.saved, c.state.allocated, b.slot,
        c.state.trace.held, c.state.trace.stored⟩ :: c.state.trace.overwrites }
      c.top c.below c.pending := by
    refine ⟨hok₂, c.wf.env.evolves hevolves, c.wf.saved.imp fun _ _ he => he.evolves hevolves,
      c.wf.suffixes, c.wf.nodup, ?_⟩
    intro a ha
    obtain ⟨z, hz⟩ := c.wf.pending a ha
    exact hevolves.slot hz
  have hread' : Reads (overwritten q.2 b.slot q.1) q.1 t cs :=
    hread.congr fun a ha => cellAt_overwritten_of_ne fun he => hnot (he ▸ ha)
  refine ⟨⟨_, _, _, _, hwf⟩, rfl, ⟨.overwrite hcopy.1 hok₁.readable
    ⟨?_, hcopy.live, t, cs, hread, hnodup, ?_⟩ hslot rfl rfl rfl rfl rfl rfl rfl rfl rfl,
    ⟨rfl, rfl, rfl, rfl, List.suffix_rfl⟩,
    ⟨b.slot, q.1, cs, cellAt_overwritten hw', hread', ?_, Or.inr ⟨hslotOf, rfl⟩⟩⟩, cs, hread'⟩
  · intro h0
    exact ht (hread.null_iff.1 h0)
  · exact fun a ha => (hfresh a ha).1
  · intro a ha hne
    exact (cellAt_overwritten_of_ne (Ne.symm hne)).trans (hcopy.1.cell ha)

theorem Runs.store [CFloat F] {v : Nat} (hread : Reads c.state.heap v t cs) (hv0 : v ≠ 0)
    (hname : cellAt c.state.heap name = some (.atom n)) (htruth : isTruthName n = false) :
    ∃ r, ∃ d : Config F, exec (Primitives.store name v) c.state = (.ok r, d.state) ∧
      (∃ us, Reads d.state.heap r t us) ∧ r ≠ 0 ∧ Stored c n t d := by
  have hok := c.wf.heap.cells.tree hread
  have ht : t ≠ .null := fun h => hv0 (hread.null_iff.2 h)
  have hcopy := hread.copyRecursive
  rw [hok.copied] at hcopy
  generalize hq : copyRecursive c.state.heap v = q at hcopy
  obtain ⟨te, ce, hre⟩ := (c.wf.heap.built hcopy hok fun a ha => slots_le c ha).readable
    c.state.env (c.wf.env.le.trans hcopy.1.1)
  have hentry := (c.wf.env.evolves hcopy.1.evolves).lookupEntry hre (hcopy.1.cellAt hname)
  have hq0 : q.1 ≠ 0 := fun h0 => ht (hcopy.2.null_iff.1 h0)
  cases hslot : slotOf c.top n with
  | none =>
    rw [hslot] at hentry
    obtain ⟨d, hexec, hd, hext⟩ := Runs.bindNew hcopy hok ht hname htruth hslot
    refine ⟨v, d, ?_, ⟨cs, hread.mono hext⟩, hv0, hd⟩
    simp only [Primitives.store, exec_onHeap_bind, hq, hq0, if_false, exec_get_bind, hentry,
      Option.getD_none, if_true, exec_bind_ok hexec, exec_pure]
  | some x =>
    rw [hslot] at hentry
    obtain ⟨b, hb, rfl, -⟩ := slotOf_mem hslot
    obtain ⟨w, hw⟩ := c.wf.env.slot_mem hb
    have hb0 : b.slot ≠ 0 := Nat.pos_iff_ne_zero.1 (cellAt_le hw).1
    obtain ⟨d, hexec, hd, hvalue⟩ := Runs.overwrite hcopy hok ht hslot
    refine ⟨q.1, d, ?_, hvalue, hq0, hd⟩
    simp only [Primitives.store, exec_onHeap_bind, hq, hq0, if_false, exec_get_bind, hentry,
      Option.getD_some, hb0, exec_bind_ok hexec, exec_pure]

end set

section primitives
theorem runs_quote (args : Nat) : Runs c (Primitives.quote args) (Value c) := by
  unfold Primitives.quote
  refine Runs.get (Runs.ite (fun _ => Runs.zero) fun _ => ?_)
  exact Runs.value (c.wf.heap.car_le args)

theorem runs_atom (hev : RunsAll ev) : Runs c (Primitives.atom ev args) (Value c) := by
  unfold Primitives.atom
  refine Runs.get (Runs.ite (fun _ => Runs.zero) fun _ => ?_)
  refine Runs.then (Runs.notChecked (Runs.evaluated hev (c.wf.heap.car_le args))) ?_
  intro v d _ _
  exact Runs.get (Runs.ofBool _)

theorem runs_eq [CFloat F] (hev : RunsAll ev) : Runs c (Primitives.eq ev args) (Value c) := by
  unfold Primitives.eq
  refine Runs.get (Runs.ite (fun _ => Runs.zero) fun _ => ?_)
  refine Runs.then (Runs.holding hev (c.wf.heap.ith_le args 0)) ?_
  intro v d _ _
  refine Runs.ite (fun _ => Runs.zero) fun _ => Runs.get ?_
  refine Runs.then (Runs.holding hev (d.wf.heap.ith_le args 1)) ?_
  intro w e _ _
  exact Runs.ite (fun _ => Runs.zero) fun _ => Runs.get (Runs.ofBool _)

theorem runs_car (hev : RunsAll ev) : Runs c (Primitives.car ev args) (Value c) := by
  unfold Primitives.car
  refine Runs.get (Runs.ite (fun _ => Runs.zero) fun _ => ?_)
  refine Runs.then (Runs.evaluated hev (c.wf.heap.car_le args)) ?_
  intro v d _ _
  refine Runs.get (Runs.ite (fun _ => Runs.zero) fun _ => ?_)
  refine Runs.ite (fun _ => Runs.zero) fun _ => Runs.ite (fun _ => Runs.nil) fun _ => ?_
  exact Runs.value (d.wf.heap.car_le v)

theorem runs_cdr (hev : RunsAll ev) : Runs c (Primitives.cdr ev args) (Value c) := by
  unfold Primitives.cdr
  refine Runs.get (Runs.ite (fun _ => Runs.zero) fun _ => ?_)
  refine Runs.then (Runs.evaluated hev (c.wf.heap.car_le args)) ?_
  intro v d _ _
  refine Runs.get (Runs.ite (fun _ => Runs.zero) fun _ => ?_)
  refine Runs.ite (fun _ => Runs.zero) fun _ => Runs.ite (fun _ => Runs.nil) fun _ => ?_
  exact Runs.ite (fun _ => Runs.nil) fun _ => Runs.value (d.wf.heap.cdr_le v)

theorem runs_cons (hev : RunsAll ev) : Runs c (Primitives.cons ev args) (Value c) := by
  unfold Primitives.cons
  refine Runs.get (Runs.ite (fun _ => Runs.zero) fun _ => ?_)
  refine Runs.ite (fun _ => Runs.zero) fun _ => ?_
  refine Runs.then (Runs.holding hev (c.wf.heap.car_le args)) ?_
  intro v d hle hv
  refine Runs.ite (fun _ => Runs.zero) fun _ => ?_
  refine Runs.then (Runs.holding hev ((c.wf.heap.ith_le args 1).trans hle)) ?_
  intro w e hle' hw
  refine Runs.ite (fun _ => Runs.zero) fun _ =>
    Runs.get (Runs.ite (fun _ => Runs.zero) fun hlist => ?_)
  obtain ⟨x, y, hcell⟩ : ∃ x y, cellAt e.state.heap w = some (.list x y) :=
    isList_iff.1 (by simpa using hlist)
  refine Runs.allocated ?_ (Or.inr ⟨x, y, hcell⟩)
  simpa [Cell.parts] using ⟨hv.trans hle', hw⟩

theorem runs_cond (hev : RunsAll ev) (ha : args ≤ c.state.heap.length) :
    Runs c (Primitives.cond ev fuel args) (Value c) := by
  induction fuel generalizing c args with
  | zero => exact Runs.throw _
  | succ fuel ih =>
    unfold Primitives.cond
    refine Runs.get (Runs.ite (fun _ => Runs.nil) fun _ => ?_)
    refine Runs.ite (fun _ => Runs.zero) fun _ => Runs.ite (fun _ => Runs.zero) fun _ => ?_
    refine Runs.ite (fun _ => Runs.zero) fun _ => Runs.ite (fun _ => Runs.zero) fun _ => ?_
    refine Runs.then (Runs.notChecked (Runs.holding hev (c.wf.heap.car_le _))) ?_
    intro v d _ _
    refine Runs.get (Runs.ite (fun _ => Runs.zero) fun _ => Runs.ite (fun _ => ?_) fun _ => ?_)
    · exact Runs.ite (fun _ => Runs.zero) fun _ => hev d _ (d.wf.heap.ith_le _ 1)
    · exact ih (d.wf.heap.cdr_le args)

theorem runs_set [CFloat F] (hev : RunsAll ev) : Runs c (Primitives.set ev args) (Value c) := by
  unfold Primitives.set
  refine Runs.get (Runs.ite (fun _ => Runs.zero) fun _ => ?_)
  refine Runs.then (Runs.holding hev (c.wf.heap.ith_le args 0)) ?_
  intro name d _ hname
  refine Runs.get (Runs.ite (fun _ => Runs.zero) fun _ =>
    Runs.ite (fun _ => Runs.zero) fun hT => ?_)
  refine Runs.ite (fun _ => Runs.zero) fun hatom => ?_
  obtain ⟨n, hn⟩ : ∃ n, cellAt d.state.heap name = some (.atom n) := by
    simp only [isAtom, Bool.not_eq_true', Bool.not_eq_false] at hatom
    split at hatom
    · exact ⟨_, ‹_›⟩
    · simp at hatom
  have htruth : isTruthName n = false := by
    simpa [isT, isAtom, hn, atomName] using hT
  refine Runs.bind (Runs.holding hev (d.wf.heap.ith_le args 1)) ?_
  rintro v e hsteps ⟨⟨hv, hbal⟩, -⟩
  refine Runs.mono (Q := Value e) ?_ fun w f _ hw => ⟨hw.1, hbal.trans hw.2⟩
  refine Runs.ite (fun _ => Runs.zero) fun hv0 => ?_
  obtain ⟨t, cs, hread⟩ := e.wf.heap.readable v hv
  obtain ⟨r, f, hexec, ⟨_, hr⟩, -, hf⟩ :=
    Runs.store hread hv0 (hsteps.later.evolves.atom hn) htruth
  exact Runs.single hexec hf.action ⟨hr.valid.1, hf.balanced⟩

theorem runs_env (args : Nat) : Runs c (Primitives.env args) (Value c) := by
  unfold Primitives.env
  exact Runs.get (Runs.ite (fun _ => Runs.zero) fun _ => Runs.value c.wf.env.le)

theorem runs_lambda [CFloat F] (ha : args ≤ c.state.heap.length) :
    Runs c (Primitives.lambda args) (Value c) := by
  obtain ⟨r, s, hexec, hext, cs, hr⟩ := lambda_ok c ha
  refine Runs.extended hexec hext ?_
  intro d hd hbal _
  exact ⟨hd ▸ hr.valid.1, hbal⟩

variable [CFloat F]

/-- An operation on floats that leaves the interpreter alone. -/
def Pure (floatOp : F → F → Eval F F) : Prop :=
  ∀ (c : Config F) (x y : F), Runs c (floatOp x y) fun _ d => d = c

theorem runs_arithmetic (hev : RunsAll ev) {intOp : Int → Int → Option Int}
    {floatOp : F → F → Eval F F} (hfloat : Pure floatOp) :
    Runs c (Primitives.applyArithmetic ev args intOp floatOp) (Value c) := by
  unfold Primitives.applyArithmetic
  refine Runs.get (Runs.ite (fun _ => Runs.zero) fun _ => ?_)
  refine Runs.then (Runs.holding hev (c.wf.heap.ith_le args 0)) ?_
  intro v d _ _
  refine Runs.get (Runs.ite (fun _ => Runs.zero) fun _ => Runs.ite (fun _ => Runs.zero) fun _ => ?_)
  refine Runs.then (Runs.holding hev (d.wf.heap.ith_le args 1)) ?_
  intro w e _ _
  refine Runs.get (Runs.ite (fun _ => Runs.zero) fun _ => Runs.ite (fun _ => Runs.zero) fun _ => ?_)
  refine Runs.ite (fun _ => ?_) fun _ => ?_
  · refine Runs.bind (hfloat e _ _) ?_
    rintro z e' - rfl
    exact Runs.int
  · cases intOp _ _ with
    | none => exact Runs.bind (Q := fun _ _ => False) (Runs.throw _) fun _ _ _ h => h.elim
    | some z => exact Runs.int

theorem runs_compareNumbers (hev : RunsAll ev) {intOp : Int → Int → Bool}
    {floatOp : F → F → Bool} :
    Runs c (Primitives.compareNumbers ev args intOp floatOp) (Value c) := by
  unfold Primitives.compareNumbers
  refine Runs.get (Runs.ite (fun _ => Runs.zero) fun _ => ?_)
  refine Runs.then (Runs.holding hev (c.wf.heap.ith_le args 0)) ?_
  intro v d _ _
  refine Runs.get (Runs.ite (fun _ => Runs.zero) fun _ => Runs.ite (fun _ => Runs.zero) fun _ => ?_)
  refine Runs.then (Runs.holding hev (d.wf.heap.ith_le args 1)) ?_
  intro w e _ _
  refine Runs.get (Runs.ite (fun _ => Runs.zero) fun _ => Runs.ite (fun _ => Runs.zero) fun _ => ?_)
  exact Runs.ofBool _

theorem pure_modFloats : Pure (modFloats fuel : F → F → Eval F F) := by
  intro c x y
  unfold modFloats
  generalize absFloat x = x', absFloat y = y'
  induction fuel generalizing x' with
  | zero => exact Runs.throw _
  | succ fuel ih => exact Runs.ite (fun _ => ih _) fun _ => Runs.pure rfl

theorem runs_primitive (hev : RunsAll ev) (ha : args ≤ c.state.heap.length) (f : Primitive) :
    Runs c (f.run ev fuel args) (Value c) := by
  have hpure : ∀ op : F → F → F, Pure fun x y => (return op x y : Eval F F) :=
    fun op c x y => Runs.pure rfl
  cases f <;> simp only [Primitive.run, Primitives.add, Primitives.sub, Primitives.mul,
    Primitives.divide, Primitives.mod, Primitives.equal, Primitives.gt, Primitives.gte,
    Primitives.lt, Primitives.lte, Primitives.defmacro]
  case quote => exact runs_quote args
  case atom => exact runs_atom hev
  case eq => exact runs_eq hev
  case car => exact runs_car hev
  case cdr => exact runs_cdr hev
  case cons => exact runs_cons hev
  case cond => exact runs_cond hev ha
  case set => exact runs_set hev
  case env => exact runs_env args
  case lambda => exact runs_lambda ha
  case defmacro => exact Runs.zero
  case add => exact runs_arithmetic hev (hpure CFloat.add)
  case sub => exact runs_arithmetic hev (hpure CFloat.sub)
  case mul => exact runs_arithmetic hev (hpure CFloat.mul)
  case divide => exact runs_arithmetic hev (hpure CFloat.div)
  case mod => exact runs_arithmetic hev pure_modFloats
  case equal => exact runs_compareNumbers hev
  case gt => exact runs_compareNumbers hev
  case gte => exact runs_compareNumbers hev
  case lt => exact runs_compareNumbers hev
  case lte => exact runs_compareNumbers hev

end primitives

section eval
variable [CFloat F]

theorem runs_apply (hev : RunsAll ev) (ha : args ≤ c.state.heap.length) :
    Runs c (apply ev fuel o args) (Value c) := by
  unfold apply
  refine Runs.get ?_
  cases hcell : cellAt c.state.heap o with
  | none => exact Runs.zero
  | some k =>
    cases k with
    | primitive f => exact runs_primitive hev ha f
    | closure p b k n =>
      obtain ⟨⟨ns, hp, -⟩, bs, hk⟩ := c.wf.heap.cells o _ hcell
      refine Runs.ite (fun _ => Runs.zero) fun _ => Runs.ite (fun _ => ?_) fun _ => ?_
      · obtain ⟨tp, cp, hrp⟩ := c.wf.heap.readable p hp.le
        obtain ⟨tb, cb, hrb⟩ := c.wf.heap.readable b
          (c.wf.heap.part_le hcell b (by simp [Cell.parts]))
        obtain ⟨tk, ck, hrk⟩ := c.wf.heap.readable k hk.le
        exact Runs.mono (Runs.closurePartialApplication hev hcell hp hk hrp hrb hrk ha)
          fun _ _ _ h => h.value
      · exact Runs.mono (Runs.applyBody hev hcell hp hk ha) fun _ _ _ h => h.value
    | _ => exact Runs.zero

theorem runs_evalStep (hev : RunsAll ev) (ho : o ≤ c.state.heap.length) :
    Runs c (evalStep ev fuel o) (Value c) := by
  unfold evalStep
  refine Runs.get (Runs.ite (fun _ => ?_) fun _ => Runs.ite (fun _ => Runs.value ho) fun _ => ?_)
  · refine Runs.value ?_
    split
    · exact ho
    · exact c.wf.heap.car_le _
  refine Runs.ite (fun _ => Runs.zero) fun _ => Runs.ite (fun _ => Runs.value ho) fun _ => ?_
  refine Runs.then (Runs.holding hev (c.wf.heap.car_le o)) ?_
  intro oper d _ _
  exact Runs.get (runs_apply hev (d.wf.heap.cdr_le o))

/-- Every evaluation is a run of the machine. -/
theorem runs_eval (fuel : Nat) : RunsAll (eval fuel : Nat → Eval F Nat) := by
  induction fuel with
  | zero => exact fun c o _ => Runs.throw _
  | succ fuel ih =>
    intro c o ho
    unfold eval
    refine Runs.bind (runs_evalStep ih ho) ?_
    rintro v d - ⟨hv, hbal⟩
    exact Runs.record rfl rfl rfl ⟨rfl, rfl, rfl⟩ (Runs.pure ⟨hv, hbal.saved, hbal.held, hbal.below,
      hbal.pending, hbal.top⟩)

end eval
end Lisp

