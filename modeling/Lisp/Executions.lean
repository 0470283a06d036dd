import Lisp.Allocation

/-! Computations of the interpreter as runs of the machine. -/
namespace Lisp
open ExceptState
variable {F α β : Type} {c d e : Config F} {s s' : Interpreter F} {k : Cell F} {a o p r x y : Nat}
  {t : Obj F} {cs os : List Nat} {h : Heap F}

/-- Whatever way `x` ends, from `c` the machine gets there; a result satisfies `Q`. -/
def Runs (c : Config F) (x : Eval F α) (Q : α → Config F → Prop) : Prop :=
  wp x (fun r s => ∃ d : Config F, d.state = s ∧ Steps c d ∧ Q r d)
    (fun _ s => ∃ d : Config F, d.state = s ∧ Steps c d) c.state

section heap

theorem exec_onHeap_bind (g : Heap F → α × Heap F) (f : α → Eval F β) (s : Interpreter F) :
    exec (onHeap g >>= f) s = exec (f (g s.heap).1) { s with heap := (g s.heap).2 } := rfl

theorem exec_gcAdd_bind (f : Unit → Eval F β) (s : Interpreter F) :
    exec (gcAdd o >>= f) s = exec (f ()) { s with allocated := s.allocated ++ [o] } := rfl

/-- The heap once the objects below `o` have their flags set. -/
def flagged (h : Heap F) (o : Nat) : Heap F :=
  (disposed h o).foldl (fun h a => update h a fun o => { o with reachable := true }) h

theorem exec_gcAddRecursive_bind (f : Unit → Eval F β) (s : Interpreter F) :
    exec (gcAddRecursive o >>= f) s = exec (f ()) { s with
      heap := flagged s.heap o, allocated := s.allocated ++ disposed s.heap o } := rfl

theorem sameCells_flagged : SameCells h (flagged h o) :=
  sameCells_foldl (fun o => { o with reachable := true }) (fun _ => rfl) _ _

end heap

section rules
variable {Q : α → Config F → Prop} {R : β → Config F → Prop} {m : Eval F α} {f : α → Eval F β}

theorem Runs.pure {v : α} (h : Q v c) : Runs c (pure v) Q := ⟨c, rfl, .refl c, h⟩

theorem Runs.throw (e : Halt) : Runs c (throw e) Q := ⟨c, rfl, .refl c⟩

theorem Runs.get {g : Interpreter F → Eval F α} (h : Runs c (g c.state) Q) :
    Runs c (get >>= g) Q := h

theorem Runs.ite {b : Prop} [Decidable b] {m' : Eval F α} (ht : b → Runs c m Q)
    (hf : ¬b → Runs c m' Q) : Runs c (if b then m else m') Q := wp_ite ht hf

theorem Runs.mono {Q' : α → Config F → Prop} (hm : Runs c m Q)
    (hQ : ∀ v d, Steps c d → Q v d → Q' v d) : Runs c m Q' := by
  refine wp_mono hm ?_ (fun _ _ h => h)
  rintro v s ⟨d, hd, hsteps, hq⟩
  exact ⟨d, hd, hsteps, hQ v d hsteps hq⟩

theorem Runs.bind (hm : Runs c m Q) (hf : ∀ v d, Steps c d → Q v d → Runs d (f v) R) :
    Runs c (m >>= f) R := by
  refine wp_seq hm ?_ (fun _ _ h => h)
  rintro v s ⟨d, rfl, hsteps, hq⟩
  refine wp_mono (hf v d hsteps hq) ?_ ?_
  · rintro w u ⟨e, he, hs, hr⟩
    exact ⟨e, he, hsteps.trans hs, hr⟩
  · rintro w u ⟨e, he, hs⟩
    exact ⟨e, he, hsteps.trans hs⟩

/-- A specification with the execution itself. -/
theorem Runs.ran (hm : Runs c m Q) :
    Runs c m fun v d => Q v d ∧ exec m c.state = (.ok v, d.state) := by
  rcases hx : exec m c.state with ⟨e | v, s⟩
  · exact (wp_error hx).2 ((wp_error hx).1 hm)
  · obtain ⟨d, rfl, hsteps, hq⟩ := hm.of_ok hx
    exact (wp_ok hx).2 ⟨d, rfl, hsteps, hq, rfl⟩

/-- A computation without evaluations is one step of the machine. -/
theorem Runs.single {v : α} (hm : exec m c.state = (.ok v, d.state)) (ha : Action c d)
    (hq : Q v d) : Runs c m Q :=
  (wp_ok hm).2 ⟨d, rfl, .single ha, hq⟩

/-- The same, in front of the rest of a computation. -/
theorem Runs.single_bind {v : α} (hm : exec m c.state = (.ok v, d.state)) (ha : Action c d)
    (hf : Runs d (f v) R) : Runs c (m >>= f) R :=
  Runs.bind (Q := fun w e => w = v ∧ e = d) (Runs.single hm ha ⟨rfl, rfl⟩) fun w e _ h => by
    obtain ⟨rfl, rfl⟩ := h
    exact hf

end rules

/-- What a complete evaluation leaves as it was. -/
structure Balanced (c d : Config F) : Prop where
  saved : d.state.trace.saved = c.state.trace.saved
  held : d.state.trace.held = c.state.trace.held
  below : d.below = c.below
  pending : d.pending = c.pending
  top : c.top <:+ d.top

theorem Balanced.refl (c : Config F) : Balanced c c := ⟨rfl, rfl, rfl, rfl, List.suffix_rfl⟩

theorem Balanced.trans (h1 : Balanced c d) (h2 : Balanced d e) : Balanced c e :=
  ⟨h2.saved.trans h1.saved, h2.held.trans h1.held, h2.below.trans h1.below,
    h2.pending.trans h1.pending, h1.top.trans h2.top⟩

/-- The result of an evaluation that starts in `c`. -/
def Value (c : Config F) (r : Nat) (d : Config F) : Prop :=
  r ≤ d.state.heap.length ∧ Balanced c d

/-- The result of `ev o`, between parts of a computation that leave the objects alone. -/
structure Evaluated (ev : Nat → Eval F Nat) (c : Config F) (o v : Nat) (d : Config F) : Prop where
  value : Value c v d
  run : ∃ c₁ d₁ : Config F, Steps c c₁ ∧ c₁.state.heap = c.state.heap ∧
    exec (ev o) c₁.state = (.ok v, d₁.state) ∧ Steps d₁ d ∧ d.state.heap = d₁.state.heap

def RunsAll (ev : Nat → Eval F Nat) : Prop :=
  ∀ (c : Config F) (o : Nat), o ≤ c.state.heap.length → Runs c (ev o) (Value c)

theorem Steps.length_le (hs : Steps c d) : c.state.heap.length ≤ d.state.heap.length :=
  hs.later.evolves.1

section configurations

/-- A configuration that differs in parts of the trace that the machine does not describe. -/
def Config.record (c : Config F) (s : Interpreter F) (heap : s.heap = c.state.heap)
    (env : s.env = c.state.env) (saved : s.trace.saved = c.state.trace.saved) : Config F where
  state := s
  top := c.top
  below := c.below
  pending := c.pending
  wf :=
    { heap := heap ▸ c.wf.heap
      env := by rw [heap, env]; exact c.wf.env
      saved := by rw [heap, saved]; exact c.wf.saved
      suffixes := c.wf.suffixes
      nodup := c.wf.nodup
      pending := by rw [heap]; exact c.wf.pending }

/-- A configuration with more objects, and other pending slots. -/
def Config.grow (c : Config F) (s : Interpreter F) (p : List Nat)
    (heap : Extends c.state.heap s.heap) (ok : HeapOk s.heap (Slots c.top p))
    (env : s.env = c.state.env) (saved : s.trace.saved = c.state.trace.saved)
    (new : ∀ a ∈ p, a ∈ c.pending ∨ c.state.heap.length < a)
    (nodup : (c.top.map Binding.slot ++ p).Nodup)
    (cells : ∀ a ∈ p, ∃ v, cellAt s.heap a = some (.list v 0)) : Config F where
  state := s
  top := c.top
  below := c.below
  pending := p
  wf := by
    have hslots : ∀ a ≤ c.state.heap.length, Slots c.top p a → c.slots a := by
      intro a ha hs
      obtain hs | hs := hs
      · exact Or.inl hs
      · obtain hs | hs := new a hs
        · exact Or.inr hs
        · omega
    refine ⟨ok, ?_, ?_, c.wf.suffixes, nodup, cells⟩
    · rw [env]
      exact (c.wf.env.weaken hslots).evolves heap.evolves
    · rw [saved]
      exact c.wf.saved.imp fun _ _ h => (h.weaken hslots).evolves heap.evolves

end configurations

section operations
variable {Q : Nat → Config F → Prop} {ev : Nat → Eval F Nat}

/-- Trace updates. -/
theorem Runs.record {g : Interpreter F → Interpreter F} {f : PUnit → Eval F α}
    {R : α → Config F → Prop} (heap : (g c.state).heap = c.state.heap)
    (env : (g c.state).env = c.state.env) (allocated : (g c.state).allocated = c.state.allocated)
    (same : SameTrace c.state (g c.state))
    (hf : Runs (c.record (g c.state) heap env same.saved) (f ⟨⟩) R) :
    Runs c (modify g >>= f) R :=
  Runs.single_bind (d := c.record (g c.state) heap env same.saved) rfl
    (.record heap env allocated same rfl rfl rfl) hf

theorem Runs.holding (hev : RunsAll ev) (ho : o ≤ c.state.heap.length) :
    Runs c (holding os (ev o)) (Evaluated ev c o) := by
  unfold Lisp.holding
  refine Runs.record rfl rfl rfl ⟨rfl, rfl, rfl⟩ (Runs.bind (Runs.ran (hev _ o ho)) ?_)
  rintro v d hsteps ⟨⟨hv, hbal⟩, hexec⟩
  have hheld := hbal.held
  have hrecord : Action d (d.record { d.state with
      trace.held := d.state.trace.held.drop os.length } rfl rfl rfl) :=
    .record rfl rfl rfl ⟨rfl, rfl, rfl⟩ rfl rfl rfl
  refine Runs.single_bind rfl hrecord (Runs.pure ⟨⟨hv, hbal.saved, ?_, hbal.below,
    hbal.pending, hbal.top⟩, _, d, ?_, ?_, hexec, .single hrecord, rfl⟩)
  · simp only [Config.record] at hheld ⊢
    rw [hheld, List.drop_left]
  · exact .single (.record rfl rfl rfl ⟨rfl, rfl, rfl⟩ rfl rfl rfl)
  · rfl

theorem Runs.notChecked {m : Eval F Nat} (hm : Runs c m (Evaluated ev c o)) :
    Runs c (notChecked m) (Evaluated ev c o) := by
  unfold Lisp.notChecked
  refine Runs.bind hm ?_
  rintro v d - ⟨⟨hv, hbal⟩, c₁, d₁, hs, hheap, hexec, hs', hheap'⟩
  have hrecord : Action d (d.record { d.state with
      trace.unchecked := d.state.trace.unchecked + if v = 0 then 1 else 0 } rfl rfl rfl) :=
    .record rfl rfl rfl ⟨rfl, rfl, rfl⟩ rfl rfl rfl
  exact Runs.single_bind rfl hrecord (Runs.pure ⟨⟨hv, hbal.saved, hbal.held, hbal.below,
    hbal.pending, hbal.top⟩, c₁, d₁, hs, hheap, hexec, hs'.tail hrecord, hheap'⟩)

/-- What a computation without evaluations leaves: objects are added. -/
structure Extended (c : Config F) (s : Interpreter F) : Prop where
  allocates : Allocates c.state s
  heap : HeapOk s.heap c.slots
  env : s.env = c.state.env
  trace : s.trace = c.state.trace

theorem Extended.refl (c : Config F) : Extended c c.state :=
  ⟨⟨.refl _, [], by simp⟩, c.wf.heap, rfl, rfl⟩

/-- New objects are one step of the machine. -/
theorem Extended.reached (he : Extended c s) :
    ∃ d : Config F, d.state = s ∧ Action c d ∧ Balanced c d ∧ d.top = c.top := by
  have hsaved : s.trace.saved = c.state.trace.saved := by rw [he.trace]
  let d := c.grow s c.pending he.allocates.heap he.heap he.env hsaved (fun _ h => Or.inl h)
    c.wf.nodup fun a ha => by
      obtain ⟨v, hv⟩ := c.wf.pending a ha
      exact ⟨v, he.allocates.heap.cellAt hv⟩
  have htrace : d.state.trace = c.state.trace := he.trace
  refine ⟨d, rfl, ?_, ⟨hsaved, by rw [htrace], rfl, rfl, List.suffix_rfl⟩, rfl⟩
  exact .allocate he.allocates he.env ⟨hsaved, by rw [htrace], by rw [htrace]⟩ rfl rfl
    fun _ h => Or.inl h

/-- The objects that are added in two parts of a computation. -/
theorem Extended.config (he : Extended c s) : ∃ d : Config F, d.state = s ∧ d.top = c.top ∧
    ∀ u, Extended d u → Extended c u := by
  obtain ⟨d, rfl, -, hbal, htop⟩ := he.reached
  have hslots : d.slots = c.slots := by rw [Config.slots, Config.slots, htop, hbal.pending]
  refine ⟨d, rfl, htop, fun u hu => ⟨⟨he.allocates.heap.trans hu.allocates.heap, ?_⟩,
    hslots ▸ hu.heap, hu.env.trans he.env, hu.trace.trans he.trace⟩⟩
  obtain ⟨rs, hrs, hnodup, hle⟩ := he.allocates.allocated
  obtain ⟨rs', hrs', hnodup', hle'⟩ := hu.allocates.allocated
  refine ⟨rs ++ rs', by rw [hrs', hrs, List.append_assoc], ?_, ?_⟩
  · rw [List.nodup_append]
    refine ⟨hnodup, hnodup', fun a ha b hb => ?_⟩
    have h1 := (hle a ha).2
    have h2 := (hle' b hb).1
    omega
  · have h1 := he.allocates.heap.1
    have h2 := hu.allocates.heap.1
    intro a ha
    rcases List.mem_append.1 ha with ha | ha
    · have := hle a ha
      omega
    · have := hle' a ha
      omega

theorem Runs.extended {m : Eval F α} {Q : α → Config F → Prop} {v : α}
    (hm : exec m c.state = (.ok v, s)) (he : Extended c s)
    (hQ : ∀ d : Config F, d.state = s → Balanced c d → d.top = c.top → Q v d) : Runs c m Q := by
  obtain ⟨d, rfl, ha, hbal, htop⟩ := he.reached
  exact Runs.single hm ha (hQ d rfl hbal htop)

theorem Extended.allocate (hk : ∀ x ∈ k.parts, x ≤ c.state.heap.length)
    (hc : CellOk c.state.heap c.slots k) : Extended c { c.state with
      heap := (alloc c.state.heap k).2
      allocated := c.state.allocated ++ [c.state.heap.length + 1] } := by
  refine ⟨⟨extends_alloc _ _, ?_⟩, c.wf.heap.alloc hk hc, rfl, rfl⟩
  refine ⟨[c.state.heap.length + 1], rfl, List.nodup_singleton _, ?_⟩
  simp [length_alloc]

theorem Runs.allocate (hk : ∀ x ∈ k.parts, x ≤ c.state.heap.length)
    (hc : CellOk c.state.heap c.slots k) :
    Runs c (allocate k) fun r d => Value c r d ∧ r = c.state.heap.length + 1 ∧
      cellAt d.state.heap r = some k ∧ Extends c.state.heap d.state.heap ∧ d.top = c.top := by
  refine Runs.extended rfl (.allocate hk hc) ?_
  rintro d hd hbal htop
  refine ⟨⟨?_, hbal⟩, rfl, ?_, ?_, htop⟩
  · rw [hd]
    exact Nat.le_of_eq (length_alloc _ _).symm
  · rw [hd]
    exact cellAt_alloc _ _
  · rw [hd]
    exact extends_alloc _ _

end operations
end Lisp
