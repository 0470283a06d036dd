import Lisp.Sessions

/-! Which objects `set` frees when it overwrites a binding. A value that `set` or
`interpreter_init` stored belongs to its binding; an argument of a closure does not. -/
namespace Lisp
open ExceptState
variable {F : Type} {h h' : Heap F} {a b s v w x : Nat} {t : Obj F} {cs ds l : List Nat}
  {c d : Config F} {o : Overwrite F}

section reachable

/-- The object `x` can be reached from `a`. -/
inductive Reachable (h : Heap F) (a : Nat) : Nat → Prop where
  | refl : Reachable h a a
  | step {b x : Nat} {k : Cell F} (hb : Reachable h a b) (hk : cellAt h b = some k)
      (hx : x ∈ k.parts) : Reachable h a x

theorem Reads.parts {k : Cell F} (hr : Reads h a t cs) (hk : cellAt h a = some k) :
    ∀ x ∈ k.parts, ∃ u ds, Reads h x u ds ∧ ∀ y ∈ ds, y ∈ cs := by
  cases k with
  | list x y =>
    obtain ⟨_, _, _, _, -, rfl, hx, hy⟩ := hr.of_list hk
    intro z hz
    simp only [Cell.parts, List.mem_cons, List.not_mem_nil, or_false] at hz
    rcases hz with rfl | rfl
    · exact ⟨_, _, hx, fun y hy => by simp [hy]⟩
    · exact ⟨_, _, hy, fun y hy => by simp [hy]⟩
  | closure p b c n =>
    obtain ⟨_, _, _, _, _, _, -, rfl, hp, hb, hc⟩ := hr.of_closure hk
    intro z hz
    simp only [Cell.parts, List.mem_cons, List.not_mem_nil, or_false] at hz
    rcases hz with rfl | rfl | rfl
    · exact ⟨_, _, hp, fun y hy => by simp [hy]⟩
    · exact ⟨_, _, hb, fun y hy => by simp [hy]⟩
    · exact ⟨_, _, hc, fun y hy => by simp [hy]⟩
  | _ => simp [Cell.parts]

/-- The objects of a tree are all that can be reached from its root. -/
theorem Reads.reachable (hr : Reads h a t cs) (hx : Reachable h a x) :
    ∃ u ds, Reads h x u ds ∧ ∀ y ∈ ds, y ∈ cs := by
  induction hx with
  | refl => exact ⟨t, cs, hr, fun _ h => h⟩
  | step _ hk hx ih =>
    obtain ⟨u, ds, hu, hsub⟩ := ih
    obtain ⟨u', ds', hu', hsub'⟩ := hu.parts hk _ hx
    exact ⟨u', ds', hu', fun y hy => hsub y (hsub' y hy)⟩

theorem Reads.self_mem (hr : Reads h a t cs) (ha : a ≠ 0) : a ∈ cs := by
  cases hr with
  | null => exact absurd rfl ha
  | _ => simp

theorem Reads.reachable_mem (hr : Reads h a t cs) (hx : Reachable h a x) (hx0 : x ≠ 0) :
    x ∈ cs := by
  obtain ⟨u, ds, hu, hsub⟩ := hr.reachable hx
  exact hsub x (hu.self_mem hx0)

/-- What can be reached from `a` is what `dispose_recursive` would free. -/
theorem reachable_disposed (hh : ∀ a ≤ h.length, ∃ t cs, Reads h a t cs) (hx : Reachable h a x)
    (hx0 : x ≠ 0) (hle : x ≤ h.length) : x ∈ disposed h a := by
  rcases Nat.lt_or_ge h.length a with hlt | hge
  · have hnone : cellAt h a = none := by
      rcases hcell : cellAt h a with _ | k
      · rfl
      · have := (cellAt_le hcell).2
        omega
    have hxa : ∀ y, Reachable h a y → y = a := by
      intro y hy
      induction hy with
      | refl => rfl
      | step _ hk _ ih =>
        rw [ih, hnone] at hk
        cases hk
    have := hxa x hx
    omega
  · obtain ⟨t, cs, hr⟩ := hh a hge
    rw [hr.disposed]
    exact hr.reachable_mem hx hx0

end reachable

section overwrites

namespace Overwrite

/-- The objects that `dispose_recursive` frees. -/
def freed (o : Overwrite F) : List Nat := disposed o.heap (car o.heap o.slot)

/-- The values of the bindings of the current environment that neither `set` nor
`interpreter_init` stored: those of parameters and of captured names. -/
def arguments (o : Overwrite F) : List Nat :=
  ((slotsOf o.heap o.env).filter fun s => s ∉ o.stored).map (car o.heap)

/-- The binding has no value, or one that `set` or `interpreter_init` stored and that shares no
object with an argument or with what the calls in progress use. -/
def Owned (o : Overwrite F) : Prop :=
  car o.heap o.slot = 0 ∨
    o.slot ∈ o.stored ∧ ∀ a ∈ o.arguments ++ o.held, ∀ x ∈ disposed o.heap a, x ∉ o.freed

instance (o : Overwrite F) : Decidable o.Owned := by
  unfold Owned
  infer_instance

end Overwrite

/-- Each object that is freed was not freed before, is unknown to the collector, and cannot be
reached from another binding of an environment in use or from what the calls in progress use. -/
structure Disciplined (o : Overwrite F) : Prop where
  once : o.freed.Nodup
  live : ∀ x ∈ o.freed, ∃ ob, objectAt o.heap x = some ob ∧ ob.freed = false
  unregistered : ∀ x ∈ o.freed, x ∉ o.allocated
  unshared : ∀ x ∈ o.freed, ∀ e ∈ o.env :: o.saved, ∀ s ∈ slotsOf o.heap e, s ≠ o.slot →
    ¬Reachable o.heap (car o.heap s) x
  unused : ∀ x ∈ o.freed, ∀ a ∈ o.held, ¬Reachable o.heap a x

/-- The values that `set` or `interpreter_init` stored are not freed. -/
def Live (c : Config F) : Prop :=
  ∀ s ∈ c.state.trace.stored, ∀ cs, Holds c.state.heap s cs → ∀ a ∈ cs, ∀ ob,
    objectAt c.state.heap a = some ob → ob.freed = false

theorem Overwrite.freed_zero (hv : car o.heap o.slot = 0) : o.freed = [] := by
  rw [Overwrite.freed, hv, disposed]
  cases o.heap.length <;> simp [postOrder]

theorem disciplined_of_null (hv : car o.heap o.slot = 0) : Disciplined o := by
  have hnil := Overwrite.freed_zero hv
  constructor
  case once => simp [hnil]
  all_goals simp [hnil]

theorem suffix_of_chain {α : Type} {top bs : List α} {below : List (List α)}
    (hchain : List.IsChain (fun l l' => l' <:+ l) (top :: below)) (hbs : bs ∈ below) :
    bs <:+ top := by
  induction below generalizing top with
  | nil => simp at hbs
  | cons top' below ih =>
    obtain ⟨h1, h2⟩ := List.isChain_cons_cons.1 hchain
    rcases List.mem_cons.1 hbs with rfl | hbs
    · exact h1
    · exact (ih h2 hbs).trans h1

theorem forall₂_mem {α β : Type} {R : α → β → Prop} {l : List α} {l' : List β} {a : α}
    (hl : List.Forall₂ R l l') (ha : a ∈ l) : ∃ b ∈ l', R a b := by
  induction hl with
  | nil => simp at ha
  | cons h _ ih =>
    rcases List.mem_cons.1 ha with rfl | ha
    · exact ⟨_, by simp, h⟩
    · obtain ⟨b, hb, hr⟩ := ih ha
      exact ⟨b, by simp [hb], hr⟩

/-- Every binding of an environment in use is one of the current environment. -/
theorem Config.slotsOf_mem (c : Config F) (hext : Extends c.state.heap h) {e : Nat}
    (he : e ∈ c.state.env :: c.state.trace.saved) :
    ∀ s ∈ slotsOf h e, s ∈ c.top.map Binding.slot := by
  have henv : ∃ bs, bs <:+ c.top ∧ EnvList c.state.heap c.slots e bs := by
    rcases List.mem_cons.1 he with rfl | he
    · exact ⟨c.top, List.suffix_rfl, c.wf.env⟩
    · obtain ⟨bs, hbs, henv⟩ := forall₂_mem c.wf.saved he
      exact ⟨bs, suffix_of_chain c.wf.suffixes hbs, henv⟩
  obtain ⟨bs, hsuffix, henv⟩ := henv
  obtain ⟨t, cs, hr⟩ := c.wf.heap.readable e henv.le
  rw [(henv.evolves hext.evolves).slotsOf (hr.mono hext)]
  exact (hsuffix.map Binding.slot).subset

theorem Config.slotsOf_env (c : Config F) (hext : Extends c.state.heap h) :
    slotsOf h c.state.env = c.top.map Binding.slot := by
  obtain ⟨t, cs, hr⟩ := c.wf.heap.readable _ c.wf.env.le
  exact (c.wf.env.evolves hext.evolves).slotsOf (hr.mono hext)

/-- What the trace records when `slot` is overwritten, once the new value is copied to `h`. -/
def Config.overwriting (c : Config F) (h : Heap F) (slot : Nat) : Overwrite F :=
  ⟨h, c.state.env, c.state.trace.saved, c.state.allocated, slot, c.state.trace.held,
    c.state.trace.stored⟩

theorem Holds.freed (hh : Holds h s cs) : disposed h (car h s) = cs := by
  obtain ⟨v, t, -, hs, hr⟩ := hh
  rw [car_eq hs, hr.disposed]

theorem Separated.disciplined (hc : Separated c) (hl : Live c)
    (hext : Extends c.state.heap h) (hread : ∀ a ≤ h.length, ∃ t cs, Reads h a t cs)
    (ho : (c.overwriting h s).Owned) : Disciplined (c.overwriting h s) := by
  rcases ho with hnull | ⟨hstored, hapart⟩
  · exact disciplined_of_null hnull
  obtain ⟨cs, hholds, hnodup, hcs⟩ := hc.stored s hstored
  have hfreed : (c.overwriting h s).freed = cs := (hholds.mono hext).freed
  rw [hfreed] at hapart
  have hpos : ∀ x ∈ cs, x ≠ 0 ∧ x ≤ h.length := by
    obtain ⟨_, _, _, _, hr⟩ := hholds.mono hext
    exact fun x hx => ⟨Nat.pos_iff_ne_zero.1 (hr.valid.2 x hx).1, (hr.valid.2 x hx).2⟩
  have hnot : ∀ x ∈ cs, ∀ a, a ∈ (c.overwriting h s).arguments ++ (c.overwriting h s).held →
      ¬Reachable h a x := by
    intro x hx a ha hreach
    exact hapart a ha x (reachable_disposed hread hreach (hpos x hx).1 (hpos x hx).2) hx
  constructor
  case once => rwa [hfreed]
  case live =>
    rw [hfreed]
    intro x hx
    have hle := hholds.le.2 x hx
    have hobj : ∃ ob, objectAt c.state.heap x = some ob := by
      obtain ⟨k, rfl⟩ : ∃ k, x = k + 1 := ⟨x - 1, by have := (hpos x hx).1; omega⟩
      exact ⟨c.state.heap[k], by simp [objectAt]⟩
    obtain ⟨ob, hob⟩ := hobj
    exact ⟨ob, (hext.2 x hle).trans hob, hl s hstored cs hholds x hx ob hob⟩
  case unregistered =>
    rw [hfreed]
    exact fun x hx => (hcs x hx).2.2
  case unshared =>
    rw [hfreed]
    intro x hx e he s' hs' hne hreach
    by_cases hs'' : s' ∈ c.state.trace.stored
    · obtain ⟨cs', hholds', -⟩ := hc.stored s' hs''
      have hmem := reachable_disposed hread hreach (hpos x hx).1 (hpos x hx).2
      have hholds'' := hholds'.mono hext
      have heq : disposed h (car h s') = cs' := hholds''.freed
      exact hc.disjoint s hstored s' hs'' (Ne.symm hne) cs cs' hholds hholds' x hx (heq ▸ hmem)
    · refine hnot x hx _ (List.mem_append_left _ ?_) hreach
      have hkeep : decide (s' ∉ c.state.trace.stored) = true := decide_eq_true hs''
      refine List.mem_map_of_mem (List.mem_filter.2 ⟨?_, hkeep⟩)
      show s' ∈ slotsOf h c.state.env
      rw [c.slotsOf_env hext]
      exact c.slotsOf_mem hext he s' hs'
  case unused =>
    rw [hfreed]
    exact fun x hx a ha => hnot x hx a (List.mem_append_right _ ha)

theorem objectAt_disposeRecursive (ha : a ∉ disposed h x) :
    objectAt (disposeRecursive h x) a = objectAt h a := objectAt_foldl_dispose ha

theorem Live.of_extends (hl : Live c) (hsep : Separated c)
    (hext : Extends c.state.heap d.state.heap)
    (hs : s ∈ c.state.trace.stored) : ∀ cs, Holds d.state.heap s cs → ∀ a ∈ cs, ∀ ob,
      objectAt d.state.heap a = some ob → ob.freed = false := by
  intro cs hcs a ha ob hob
  obtain ⟨ds, hds, -⟩ := hsep.stored s hs
  obtain rfl := hcs.unique (hds.mono hext)
  rw [hext.2 a (hds.le.2 a ha)] at hob
  exact hl s hs _ hds a ha ob hob

/-- A step keeps the stored values if the binding it overwrites owns its value. -/
theorem Live.step (hl : Live c) (hsep : Separated c) (ha : Action c d)
    (ho : ∀ o ∈ d.state.trace.overwrites, o.Owned) : Live d := by
  have hsame : d.state.heap = c.state.heap → ∀ s ∈ c.state.trace.stored, ∀ cs,
      Holds d.state.heap s cs → ∀ a ∈ cs, ∀ ob, objectAt d.state.heap a = some ob →
        ob.freed = false := by
    intro heap s hs
    exact hl.of_extends hsep (heap ▸ .refl _) hs
  cases ha with
  | record heap env allocated same =>
    intro s hs
    exact hsame heap s (same.stored ▸ hs)
  | allocate allocates env same =>
    intro s hs
    exact hl.of_extends hsep allocates.heap (same.stored ▸ hs)
  | @bind slot v name heap slot_new value fresh outside unbound allocated saved stored =>
    intro s hs cs hcs a ha ob hob
    rw [stored] at hs
    rcases List.mem_cons.1 hs with rfl | hs
    · obtain ⟨hv, hlive, t, ds, hr, -, hfresh⟩ := fresh
      obtain rfl := hcs.unique ⟨v, t, hv, value, hr⟩
      exact hlive a ob (hfresh a ha) hob
    · exact hl.of_extends hsep heap hs cs hcs a ha ob hob
  | @overwrite h slot v copied _ fresh mem heap env allocated saved stored overwrites =>
    have howned : (c.overwriting h slot).Owned := ho _ (overwrites ▸ List.mem_cons_self)
    obtain ⟨b, hb, rfl⟩ := List.mem_map.1 mem
    obtain ⟨x, hx⟩ := c.wf.env.slot_mem hb
    have hslot : c.slots b.slot := Or.inl mem
    have hobject : ∀ a, a ≠ b.slot → a ∉ disposed h (car h b.slot) →
        objectAt d.state.heap a = objectAt h a := by
      intro a hne hnot
      rw [heap, overwritten, objectAt_update_of_ne _ (Ne.symm hne), objectAt_disposeRecursive hnot]
    have hold : ∀ a ∈ disposed h (car h b.slot), a ≤ c.state.heap.length := by
      intro a ha
      obtain ⟨t, ds, hr⟩ := c.wf.heap.readable x (by
        obtain ⟨u, ds, hu⟩ := c.wf.heap.readable b.slot (slots_le c hslot)
        obtain ⟨_, _, _, _, -, -, hr, -⟩ := hu.of_list hx
        exact hr.valid.1)
      rw [car_eq (copied.cellAt hx), (hr.mono copied).disposed] at ha
      exact (hr.valid.2 a ha).2
    intro s hs cs hcs a ha ob hob
    rw [stored] at hs
    by_cases hsb : s = b.slot
    · subst hsb
      obtain ⟨hv, hlive, t, ds, hr, -, hfresh⟩ := fresh
      have hne : ∀ a ∈ ds, a ≠ b.slot := by
        rintro a ha rfl
        have := hfresh _ ha
        have := slots_le c hslot
        omega
      have hholds : Holds d.state.heap b.slot ds := by
        refine ⟨v, t, hv, ?_, hr.congr fun a ha => ?_⟩
        · rw [heap]
          exact cellAt_overwritten (copied.cellAt hx)
        · rw [heap]
          exact cellAt_overwritten_of_ne (Ne.symm (hne a ha))
      obtain rfl := hcs.unique hholds
      rw [hobject a (hne a ha) fun hm => by
        have := hold a hm
        have := hfresh a ha
        omega] at hob
      exact hlive a ob (hfresh a ha) hob
    · have hs' := (List.mem_cons.1 hs).resolve_left hsb
      obtain ⟨ds, hds, -, hapart⟩ := hsep.stored s hs'
      have hne : ∀ a ∈ ds, a ≠ b.slot := by
        rintro a ha rfl
        exact (hapart _ ha).1 hslot
      have hholds : Holds d.state.heap s ds := by
        refine (hds.mono copied).congr ?_ fun a ha => ?_
        · rw [heap]
          exact cellAt_overwritten_of_ne (Ne.symm hsb)
        · rw [heap]
          exact cellAt_overwritten_of_ne (Ne.symm (hne a ha))
      obtain rfl := hcs.unique hholds
      have hnot : a ∉ disposed h (car h b.slot) := by
        rcases howned with hnull | ⟨hstored, -⟩
        · have hnil : disposed h (car h b.slot) = [] := Overwrite.freed_zero hnull
          simp [hnil]
        · obtain ⟨es, hes, -⟩ := hsep.stored _ hstored
          have hfreed : disposed h (car h b.slot) = es := (hes.mono copied).freed
          rw [hfreed]
          exact hsep.disjoint s hs' _ hstored hsb _ _ hds hes a ha
      rw [hobject a (hne a ha) hnot, copied.2 a (hds.le.2 a ha)] at hob
      exact hl s hs' _ hds a ha ob hob
  | enter allocates frame_new saved stored =>
    intro s hs
    exact hl.of_extends hsep allocates.heap (stored ▸ hs)
  | leave heap allocated saved stored =>
    intro s hs
    exact hsame heap s (stored ▸ hs)

end overwrites

section runs

theorem Action.overwrites (ha : Action c d) :
    d.state.trace.overwrites = c.state.trace.overwrites ∨
      ∃ h s, Extends c.state.heap h ∧ (∀ a ≤ h.length, ∃ t cs, Reads h a t cs) ∧
        d.state.trace.overwrites = c.overwriting h s :: c.state.trace.overwrites := by
  cases ha with
  | record heap env allocated same => exact Or.inl same.overwrites
  | allocate allocates env same => exact Or.inl same.overwrites
  | bind heap slot_new value fresh outside unbound allocated saved stored overwrites =>
    exact Or.inl overwrites
  | @overwrite h slot v copied readable fresh mem heap env allocated saved stored overwrites =>
    exact Or.inr ⟨h, slot, copied, readable, overwrites⟩
  | enter allocates frame_new saved stored overwrites => exact Or.inl overwrites
  | leave heap allocated saved stored overwrites => exact Or.inl overwrites

/-- As long as every overwritten binding owned its value, the stored values are live and each
overwriting was disciplined. -/
structure Recorded (c : Config F) : Prop where
  live : (∀ o ∈ c.state.trace.overwrites, o.Owned) → Live c
  disciplined : ∀ o rest, o :: rest <:+ c.state.trace.overwrites → (∀ p ∈ o :: rest, p.Owned) →
    Disciplined o

theorem Recorded.step (hc : Recorded c) (hsep : Separated c) (ha : Action c d) : Recorded d := by
  rcases ha.overwrites with hlog | ⟨h, s, hext, hread, hlog⟩
  · constructor
    case live => exact fun ho => (hc.live (hlog ▸ ho)).step hsep ha ho
    case disciplined =>
      rw [hlog]
      exact hc.disciplined
  · have hold : (∀ o ∈ d.state.trace.overwrites, o.Owned) → Live c := by
      intro ho
      refine hc.live fun o hm => ho o ?_
      rw [hlog]
      exact List.mem_cons_of_mem _ hm
    constructor
    case live => exact fun ho => (hold ho).step hsep ha ho
    case disciplined =>
      intro o rest hsuffix howned
      rw [hlog] at hsuffix
      rcases List.suffix_cons_iff.1 hsuffix with heq | hsuffix
      · obtain ⟨rfl, rfl⟩ := List.cons.inj heq
        exact hsep.disciplined (hold (hlog ▸ howned)) hext hread (howned _ (by simp))
      · exact hc.disciplined o rest hsuffix howned

theorem Recorded.steps (hc : Recorded c) (hsep : Separated c) (hs : Steps c d) : Recorded d := by
  induction hs with
  | refl => exact hc
  | tail hs ha ih => exact ih.step (hsep.steps hs) ha

theorem Recorded.collected (hc : Recorded c) (hsep : Separated c) (hcol : Collected c d) :
    Recorded d := by
  constructor
  case disciplined =>
    rw [hcol.trace]
    exact hc.disciplined
  case live =>
    intro ho s hs cs hcs a ha ob hob
    rw [hcol.trace] at ho hs
    have hholds := (hcol.holds s cs).1 hcs
    obtain ⟨ds, hds, -, hapart⟩ := hsep.stored s hs
    obtain rfl := hholds.unique hds
    obtain ⟨ob', hob', hfreed⟩ := hcol.freed a (hapart a ha).2.2 ob hob
    exact hfreed ▸ hc.live ho s hs _ hds a ha ob' hob'

variable [CFloat F] {fuel : Nat} {expr : Text} {st : Interpreter F}

theorem Session.recorded (hs : Session st) : ∃ c : Config F, Between c st ∧ Recorded c := by
  induction hs with
  | init =>
    obtain ⟨c, hstate, hi⟩ := initialized (F := F)
    refine ⟨c, ⟨hstate, hi.below, hi.pending, hi.base, hi.separated⟩, ?_, ?_⟩
    · intro _ s hs cs hcs a ha ob hob
      have ha0 : 0 < a := by
        rcases Nat.eq_zero_or_pos a with rfl | ha0
        · simp [objectAt] at hob
        · exact ha0
      exact hi.live a ob ha0 hob
    · intro o rest hsuffix
      have hnil : c.state.trace.overwrites = [] := by rw [hstate]; rfl
      rw [hnil] at hsuffix
      simp at hsuffix
  | call _ hr ih =>
    obtain ⟨c, hc, hrec⟩ := ih
    obtain ⟨d, e, hsteps, hcol, he⟩ := hc.call hr
    exact ⟨e, he, (hrec.steps hc.separated hsteps).collected (hc.separated.steps hsteps) hcol⟩

/-- In every run of calls, complete or not, an overwriting is disciplined if it and those before
it overwrote bindings that owned their values. -/
theorem overwrites_disciplined (hs : Session st) (o : Overwrite F) (rest : List (Overwrite F))
    (hlog : o :: rest <:+ (exec (evalExpression fuel expr) st).2.trace.overwrites)
    (howned : ∀ p ∈ o :: rest, p.Owned) : Disciplined o := by
  obtain ⟨c, hc, hrec⟩ := hs.recorded
  have hstate := hc.state
  subst hstate
  have hrun := call_runs c fuel expr
  rcases hx : exec (evalExpression fuel expr) c.state with ⟨e | r, u⟩
  · obtain ⟨d, hsteps, rfl⟩ := (wp_error hx).1 hrun
    rw [hx] at hlog
    exact (hrec.steps hc.separated hsteps).disciplined o rest hlog howned
  · obtain ⟨d, e, hsteps, -, hcol, rfl⟩ := (wp_ok hx).1 hrun
    rw [hx] at hlog
    refine ((hrec.steps hc.separated hsteps).collected (hc.separated.steps hsteps) hcol).disciplined
      o rest hlog howned

/-- The overwritings of a call on a new interpreter. -/
def firstOverwrites (fuel : Nat) (expr : Text) : List (Overwrite NoFloat) :=
  (exec (evalExpression fuel expr) (interpreterInit (F := NoFloat))).2.trace.overwrites

theorem overwrites_disciplined_car :
    ∃ o, firstOverwrites 10 "(set 'car 5)".toList = [o] ∧ Disciplined o := by
  have hlen : (firstOverwrites 10 "(set 'car 5)".toList).length = 1 := by decide +kernel
  have howned : ∀ o ∈ firstOverwrites 10 "(set 'car 5)".toList, o.Owned := by decide +kernel
  obtain ⟨o, ho⟩ := List.length_eq_one_iff.1 hlen
  rw [ho] at howned
  have hlog : [o] <:+ firstOverwrites 10 "(set 'car 5)".toList := ho ▸ List.suffix_rfl
  exact ⟨o, ho, overwrites_disciplined .init o [] hlog howned⟩

/-- The argument of a closure is freed although the collector knows it. -/
theorem overwrites_argument :
    ¬∀ (st : Interpreter NoFloat), Session st → ∀ (fuel : Nat) (expr : Text),
      ∀ o ∈ (exec (evalExpression fuel expr) st).2.trace.overwrites, Disciplined o := by
  intro h
  have hfirst := h _ .init 20 "((lambda (x) (set 'x 5)) '(1 2))".toList
  have hreg : ∃ o ∈ firstOverwrites 20 "((lambda (x) (set 'x 5)) '(1 2))".toList,
      ∃ x ∈ o.freed, x ∈ o.allocated := by decide +kernel
  obtain ⟨o, ho, x, hx, hall⟩ := hreg
  exact (hfirst o ho).unregistered x hx hall

end runs
end Lisp
