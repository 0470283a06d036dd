import Lisp.Executions
import Lisp.Evaluator

/-! `associate`: the values of the arguments and the list of their bindings. The values are
computed first, and the list is linked afterwards. -/
namespace Lisp
open ExceptState
variable {F : Type} {c c' c₁ d d₁ e : Config F} {s s' : Interpreter F} {ev : Nat → Eval F Nat}
  {a args params o r v z fuel : Nat} {ns : List (Option Text)} {name : Option Text}
  {bs : List Binding} {b : Binding} {vs : List Nat}

/-- The bindings of names to the values of arguments, evaluated one after the other. -/
inductive Associates (ev : Nat → Eval F Nat) :
    Config F → List (Option Text) → Nat → List Binding → List Nat → Config F → Prop where
  | nil {c d : Config F} {ns : List (Option Text)} {args : Nat}
      (h : ns = [] ∨ isList c.state.heap args = false) (start : Steps c d)
      (same : d.state.heap = c.state.heap) : Associates ev c ns args [] [] d
  | cons {c c₁ d₁ e d : Config F} {name : Option Text} {ns : List (Option Text)} {args slot v : Nat}
      {bs : List Binding} {vs : List Nat} (hargs : isList c.state.heap args = true)
      (start : Steps c c₁) (same : c₁.state.heap = c.state.heap)
      (value : exec (ev (car c.state.heap args)) c₁.state = (.ok v, d₁.state))
      (bound : Steps d₁ e) (slot_new : d₁.state.heap.length < slot) (pending : slot ∈ e.pending)
      (rest : Associates ev e ns (cdr d₁.state.heap args) bs vs d) :
      Associates ev c (name :: ns) args (⟨slot, name⟩ :: bs) (v :: vs) d

theorem Associates.prepend (hs : Steps c c') (hheap : c'.state.heap = c.state.heap)
    (h : Associates ev c' ns args bs vs d) : Associates ev c ns args bs vs d := by
  cases h with
  | nil h hs' hheap' => exact .nil (hheap ▸ h) (hs.trans hs') (hheap'.trans hheap)
  | cons hargs hs' hheap' hexec hbound hnew hpending hrest =>
    rw [hheap] at hargs hexec
    exact .cons hargs (hs.trans hs') (hheap'.trans hheap) hexec hbound hnew hpending hrest

/-- The state `s` after `associate`: the one of `d`, and the list `r` of the bindings. -/
structure Linked (c d : Config F) (s : Interpreter F) (r : Nat) (bs : List Binding)
    (vs : List Nat) : Prop where
  steps : Steps c d
  saved : d.state.trace.saved = c.state.trace.saved
  below : d.below = c.below
  top : c.top <:+ d.top
  pending : d.pending = (bs.map Binding.slot).reverse ++ c.pending
  allocates : Allocates d.state s
  env : s.env = d.state.env
  same : SameTrace d.state s
  held : s.trace.held = c.state.trace.held
  heap : HeapOk s.heap d.slots
  list : EnvList s.heap d.slots r bs
  values : List.Forall₂ (fun b v => cellAt d.state.heap b.slot = some (.list v 0)) bs vs
  spine : ∀ z, LastCell s.heap r z → d.state.heap.length < z
  cells : ∀ a k, d.state.heap.length < a → cellAt s.heap a = some k → ∃ x y, k = .list x y

theorem Linked.nil (c : Config F) : Linked c c c.state 0 [] [] where
  steps := .refl c
  saved := rfl
  below := rfl
  top := List.suffix_rfl
  pending := rfl
  allocates := ⟨.refl _, [], by simp⟩
  env := rfl
  same := ⟨rfl, rfl, rfl⟩
  held := rfl
  heap := c.wf.heap
  list := .nil
  values := .nil
  spine z hz := by
    cases hz with
    | here he => simp [cellAt_zero] at he
    | next he => simp [cellAt_zero] at he
  cells a k ha hk := by
    have := (cellAt_le hk).2
    omega

section pair

/-- The pair of a name and the value of an argument. -/
theorem Runs.bindArgument {key : Nat} (hkey : key ≤ c.state.heap.length)
    (hv : v ≤ c.state.heap.length) :
    ∃ d : Config F, Action c d ∧ d.top = c.top ∧ d.below = c.below ∧
      d.pending = (c.state.heap.length + 1) :: c.pending ∧
      d.state = { c.state with
        heap := (makePair c.state.heap key v).2
        allocated := c.state.allocated ++ [c.state.heap.length + 2] ++ [c.state.heap.length + 1] } ∧
      cellAt d.state.heap (c.state.heap.length + 1) = some (.list v 0) ∧
      cellAt d.state.heap (c.state.heap.length + 2) = some (.list key (c.state.heap.length + 1)) ∧
      ¬d.slots (c.state.heap.length + 2) := by
  have hpair : (makePair c.state.heap key v).2 =
      (alloc (alloc c.state.heap (.list v 0)).2 (.list key (c.state.heap.length + 1))).2 := rfl
  have hlen := length_alloc c.state.heap (.list v 0)
  have hext := extends_alloc c.state.heap (.list v 0)
  have hext' := extends_alloc (alloc c.state.heap (.list v 0)).2
    (.list key (c.state.heap.length + 1))
  have hslot := cellAt_alloc c.state.heap (.list v 0)
  have hcell := cellAt_alloc (alloc c.state.heap (.list v 0)).2
    (.list key (c.state.heap.length + 1))
  rw [hlen] at hcell
  have hnew : ∀ a, Slots c.top ((c.state.heap.length + 1) :: c.pending) a →
      c.slots a ∨ a = c.state.heap.length + 1 := by
    intro a ha
    rcases ha with ha | ha
    · exact Or.inl (Or.inl ha)
    · rcases List.mem_cons.1 ha with ha | ha
      · exact Or.inr ha
      · exact Or.inl (Or.inr ha)
  have hle : ∀ a ≤ c.state.heap.length,
      Slots c.top ((c.state.heap.length + 1) :: c.pending) a → c.slots a := by
    intro a ha hs
    rcases hnew a hs with hs | hs
    · exact hs
    · omega
  have hok : HeapOk (makePair c.state.heap key v).2
      (Slots c.top ((c.state.heap.length + 1) :: c.pending)) := by
    rw [hpair]
    have hvalue : CellOk c.state.heap (Slots c.top ((c.state.heap.length + 1) :: c.pending))
        (.list v 0) := Or.inl rfl
    refine ((c.wf.heap.weaken hle).alloc ?_ hvalue).alloc ?_ (Or.inr ⟨_, _, hslot⟩)
    · simpa [Cell.parts] using hv
    · rw [hlen]
      simpa [Cell.parts] using hkey.trans (Nat.le_succ _)
  have hfresh : c.state.heap.length + 1 ∉ c.top.map Binding.slot ++ c.pending := by
    intro hmem
    have := slots_le c (List.mem_append.1 hmem)
    omega
  refine ⟨c.grow { c.state with
    heap := (makePair c.state.heap key v).2
    allocated := c.state.allocated ++ [c.state.heap.length + 2] ++ [c.state.heap.length + 1] }
    ((c.state.heap.length + 1) :: c.pending) (hext.trans hext') hok rfl rfl ?_ ?_ ?_,
    .allocate ⟨hext.trans hext', [c.state.heap.length + 2, c.state.heap.length + 1], ?_⟩ rfl
      ⟨rfl, rfl, rfl⟩ rfl rfl ?_, rfl, rfl, rfl, rfl, ?_, ?_, ?_⟩
  · intro a ha
    rcases List.mem_cons.1 ha with rfl | ha
    · exact Or.inr (Nat.lt_succ_self _)
    · exact Or.inl ha
  · exact (List.perm_middle.nodup_iff).2 (List.nodup_cons.2 ⟨hfresh, c.wf.nodup⟩)
  · intro a ha
    rcases List.mem_cons.1 ha with rfl | ha
    · exact ⟨v, hext'.cellAt hslot⟩
    · obtain ⟨w, hw⟩ := c.wf.pending a ha
      exact ⟨w, (hext.trans hext').cellAt hw⟩
  · refine ⟨by simp [Config.grow], by simp, ?_⟩
    intro a ha
    simp only [Config.grow, hpair, length_alloc]
    simp only [List.mem_cons, List.not_mem_nil, or_false] at ha
    omega
  · intro a ha
    rcases List.mem_cons.1 ha with rfl | ha
    · exact Or.inr (Nat.lt_succ_self _)
    · exact Or.inl ha
  · exact hext'.cellAt hslot
  · exact hcell
  · intro hs
    rcases hnew _ hs with hs | hs
    · have := slots_le c hs
      omega
    · omega

end pair

section associate

/-- The new binding and the ones of the rest of the parameters. -/
theorem Linked.cons {key : Nat} {c₃ : Config F} (h : Linked c₃ d s r bs vs) (hsteps : Steps c c₃)
    (hsaved : c₃.state.trace.saved = c.state.trace.saved) (hbelow : c₃.below = c.below)
    (htop : c.top <:+ c₃.top) (hpending : c₃.pending = o :: c.pending)
    (hslot : cellAt c₃.state.heap o = some (.list v 0))
    (hpair : cellAt c₃.state.heap a = some (.list key o)) (hpairSlot : ¬c₃.slots a)
    (hkey : KeyName c₃.state.heap key name) (hheld : s'.trace.held = c.state.trace.held)
    (htrace : SameTrace s s') (henv : s'.env = s.env)
    (hheap : s'.heap = (alloc s.heap (.list a r)).2)
    (halloc : s'.allocated = s.allocated ++ [s.heap.length + 1]) :
    Linked c d s' (s.heap.length + 1) (⟨o, name⟩ :: bs) (v :: vs) := by
  have hext := extends_alloc s.heap (.list a r)
  have hlen := length_alloc s.heap (.list a r)
  have hds := h.allocates.heap.1
  have hoMem : o ∈ d.pending := by simp [h.pending, hpending]
  have hcell := (h.steps.pending_cell (cellAt_le hslot).2 hoMem).2
  have hslot' := h.allocates.heap.cellAt (hcell.trans hslot)
  have hpairD : ¬d.slots a := fun hs => hpairSlot (h.steps.later.slots a (cellAt_le hpair).2 hs)
  have hpair' := h.allocates.heap.cellAt (h.steps.later.evolves.cellAt_of_not hpairSlot hpair)
  have hnew : ¬d.slots (s.heap.length + 1) := by
    intro hs
    have := slots_le d hs
    omega
  have hcells : ∀ x k, d.state.heap.length < x → cellAt (alloc s.heap (.list a r)).2 x = some k →
      ∃ y z, k = .list y z := by
    intro x k hx hk
    have hle := (cellAt_le hk).2
    rw [hlen] at hle
    rcases Nat.le_succ_iff.1 hle with hle | rfl
    · exact h.cells x k hx (by rw [← hext.cell hle, hk])
    · rw [cellAt_alloc] at hk
      exact ⟨a, r, (Option.some.inj hk).symm⟩
  constructor
  case steps => exact hsteps.trans h.steps
  case saved => exact h.saved.trans hsaved
  case below => exact h.below.trans hbelow
  case top => exact htop.trans h.top
  case pending => simp [h.pending, hpending]
  case allocates =>
    obtain ⟨regs, hregs, hnodup, hfresh⟩ := h.allocates.allocated
    refine ⟨hheap ▸ h.allocates.heap.trans hext, regs ++ [s.heap.length + 1], ?_, ?_, ?_⟩
    · rw [halloc, hregs, List.append_assoc]
    · rw [List.nodup_append]
      refine ⟨hnodup, List.nodup_singleton _, ?_⟩
      intro x hx y hy
      have := (hfresh x hx).2
      rw [List.mem_singleton.1 hy]
      omega
    · intro x hx
      rw [hheap, hlen]
      rcases List.mem_append.1 hx with hx | hx
      · have := hfresh x hx
        omega
      · rw [List.mem_singleton.1 hx]
        omega
  case env => exact henv.trans h.env
  case same =>
    exact ⟨htrace.saved.trans h.same.saved, htrace.stored.trans h.same.stored,
      htrace.overwrites.trans h.same.overwrites⟩
  case held => exact hheld
  case heap =>
    rw [hheap]
    refine h.heap.alloc ?_ h.list.tail
    have := h.list.le
    simpa [Cell.parts] using ⟨(cellAt_le hpair').2, this⟩
  case list =>
    rw [hheap]
    refine .cons (cellAt_alloc _ _) (hext.cellAt hpair') (hext.cellAt hslot') ?_ hnew hpairD
      (h.list.evolves hext.evolves)
    exact (hkey.evolves h.steps.later.evolves).mono (h.allocates.heap.trans hext)
  case values => exact .cons (hcell.trans hslot) h.values
  case spine =>
    intro z hz
    rw [hheap] at hz
    have hhead := cellAt_alloc s.heap (.list a r)
    cases hz with
    | here _ => omega
    | next he hy hz =>
      obtain ⟨-, rfl⟩ := Cell.list.inj (Option.some.inj (hhead.symm.trans he))
      exact h.spine z (hz.of_extends hext h.heap h.list.le)
  case cells =>
    rw [hheap]
    exact hcells

/-- The state in which `associate` goes on, once the value of an argument is bound. -/
def boundState (params v : Nat) (s : Interpreter F) : Interpreter F :=
  let pair := makePair s.heap (car s.heap params) v
  { s with
    heap := pair.2
    allocated := s.allocated ++ [pair.1] ++ [cdr pair.2 pair.1]
    trace.held := [pair.1] ++ s.trace.held }

/-- The state in which `associate` ends, once the rest `r` is linked after the pair. -/
def linkedState (pair r : Nat) (s : Interpreter F) : Interpreter F :=
  { s with
    heap := (alloc s.heap (.list pair r)).2
    allocated := s.allocated ++ [s.heap.length + 1]
    trace.held := s.trace.held.drop 1 }

/-- A value is bound to its name, and the bindings of the other arguments are linked after it. -/
theorem wp_bindArgument_state [CFloat F] {key next : Nat} (ev : Nat → Eval F Nat) (fuel : Nat)
    (hp : cellAt c.state.heap params = some (.list key next))
    (hkey : KeyName c.state.heap key name) (hsp : ¬c.slots params)
    (hnext : ParamList c.state.heap c.slots next ns) (hsteps : Steps c d) (hbal : Balanced c d)
    (hv : v ≤ d.state.heap.length) (ha : args ≤ d.state.heap.length) :
    ∃ e : Config F, e.state = boundState params v d.state ∧ Steps d e ∧
      Extends d.state.heap e.state.heap ∧ e.state.env = d.state.env ∧ e.top = d.top ∧
      e.pending = (d.state.heap.length + 1) :: c.pending ∧
      ParamList e.state.heap e.slots next ns ∧
      ∀ {P : Nat → Interpreter F → Prop} {E : Halt → Interpreter F → Prop},
        wp (associate ev fuel next (cdr d.state.heap args)) (fun r s => ∃ d' bs vs,
          Linked e d' s r bs vs ∧ (Linked c d' (linkedState (d.state.heap.length + 2) r s)
              (s.heap.length + 1) (⟨d.state.heap.length + 1, name⟩ :: bs) (v :: vs) →
            P (s.heap.length + 1) (linkedState (d.state.heap.length + 2) r s))) E e.state →
        wp (do
          let pair ← onHeap fun h => makePair h (car h params) v
          gcAdd pair
          let s ← get
          gcAdd (cdr s.heap pair)
          let rest ← holding [pair] (associate ev fuel (cdr s.heap params) (cdr s.heap args))
          allocate (.list pair rest)) P E d.state := by
  have hpd := hsteps.later.evolves.cellAt_of_not hsp hp
  have hkeyd := hkey.evolves hsteps.later.evolves
  have hkeyle : key ≤ d.state.heap.length := d.wf.heap.part_le hpd _ (by simp [Cell.parts])
  obtain ⟨e, hact, htop, hbelow, hpend, hstate, hslot, hpair, hpairSlot⟩ :=
    Runs.bindArgument hkeyle hv
  have hnext' := (Steps.single hact).later.paramList (hsteps.later.paramList hnext)
  have hext : Extends d.state.heap e.state.heap := by
    rw [hstate]
    exact (extends_alloc _ _).trans (extends_alloc _ _)
  have hsame : e.state.trace = d.state.trace := by rw [hstate]
  let e' := e.record { e.state with
    trace.held := [d.state.heap.length + 2] ++ e.state.trace.held } rfl rfl rfl
  have hrecord : Action e e' := .record rfl rfl rfl ⟨rfl, rfl, rfl⟩ rfl rfl rfl
  have hsteps' : Steps c e' := (hsteps.tail hact).tail hrecord
  have henv : e.state.env = d.state.env := by rw [hstate]
  have hslot' : cdr (makePair d.state.heap key v).2 (d.state.heap.length + 2) =
      d.state.heap.length + 1 := by
    have := cdr_eq hpair
    rwa [hstate] at this
  have hfst : (makePair d.state.heap key v).1 = d.state.heap.length + 2 := by
    simp [makePair, alloc_fst, length_alloc]
  refine ⟨e', ?_, (Steps.single hact).tail hrecord, hext, henv, htop,
    hpend.trans (by rw [hbal.pending]), (Steps.single hrecord).later.paramList hnext', ?_⟩
  · simp only [e', Config.record, boundState, car_eq hpd, hfst, hslot', hstate]
  intro P E hrest
  have hargs : cdr e.state.heap args = cdr d.state.heap args := hext.cdr ha
  have hnames : cdr e.state.heap params = next := cdr_eq (hext.cellAt hpd)
  have hrun : wp (do
      let rest ← holding [d.state.heap.length + 2]
        (associate ev fuel (cdr e.state.heap params) (cdr e.state.heap args))
      allocate (.list (d.state.heap.length + 2) rest)) P E e.state := by
    rw [hnames, hargs, holding]
    simp only [bind_assoc, wp_modify_bind]
    refine wp_seq hrest ?_ fun _ _ h => h
    rintro r s ⟨d', bs, vs, hlink, hP⟩
    refine hP ?_
    have hheld : (e'.state.trace.held.drop 1) = c.state.trace.held := by
      simp [e', Config.record, hsame, hbal.held]
    refine hlink.cons hsteps' ?_ ?_ ?_ ?_ hslot hpair hpairSlot (hkeyd.mono hext) ?_
      ⟨rfl, rfl, rfl⟩ rfl rfl rfl
    · exact (congrArg Trace.saved hsame).trans hbal.saved
    · exact hbelow.trans hbal.below
    · exact htop ▸ hbal.top
    · exact hpend.trans (by rw [hbal.pending])
    · exact (congrArg (List.drop 1) hlink.held).trans hheld
  show wp (do
    let rest ← holding [(makePair d.state.heap (car d.state.heap params) v).1]
      (associate ev fuel (cdr (makePair d.state.heap (car d.state.heap params) v).2 params)
        (cdr (makePair d.state.heap (car d.state.heap params) v).2 args))
    allocate (.list (makePair d.state.heap (car d.state.heap params) v).1 rest)) P E
    { d.state with
      heap := (makePair d.state.heap (car d.state.heap params) v).2
      allocated := d.state.allocated ++ [(makePair d.state.heap (car d.state.heap params) v).1]
        ++ [cdr (makePair d.state.heap (car d.state.heap params) v).2
          (makePair d.state.heap (car d.state.heap params) v).1] }
  rw [car_eq hpd, hfst, hslot']
  simpa only [hstate] using hrun

theorem wp_bindArgument [CFloat F] {key next : Nat} (ev : Nat → Eval F Nat) (fuel : Nat)
    (hp : cellAt c.state.heap params = some (.list key next))
    (hkey : KeyName c.state.heap key name) (hsp : ¬c.slots params)
    (hnext : ParamList c.state.heap c.slots next ns) (hsteps : Steps c d) (hbal : Balanced c d)
    (hv : v ≤ d.state.heap.length) (ha : args ≤ d.state.heap.length) :
    ∃ e : Config F, e.state = boundState params v d.state ∧ Steps d e ∧
      Extends d.state.heap e.state.heap ∧ e.state.env = d.state.env ∧ e.top = d.top ∧
      e.pending = (d.state.heap.length + 1) :: c.pending ∧
      ParamList e.state.heap e.slots next ns ∧
      ∀ {P : Nat → Interpreter F → Prop} {E : Halt → Interpreter F → Prop},
        wp (associate ev fuel next (cdr d.state.heap args)) (fun r s => ∃ d' bs vs,
          Linked e d' s r bs vs ∧ ∀ r' s', Linked c d' s' r'
            (⟨d.state.heap.length + 1, name⟩ :: bs) (v :: vs) → P r' s') E e.state →
        wp (do
          let pair ← onHeap fun h => makePair h (car h params) v
          gcAdd pair
          let s ← get
          gcAdd (cdr s.heap pair)
          let rest ← holding [pair] (associate ev fuel (cdr s.heap params) (cdr s.heap args))
          allocate (.list pair rest)) P E d.state := by
  obtain ⟨e, he, hs, hext, henv, htop, hpend, hnext', hrule⟩ :=
    wp_bindArgument_state ev fuel hp hkey hsp hnext hsteps hbal hv ha
  refine ⟨e, he, hs, hext, henv, htop, hpend, hnext', fun hrest => hrule (wp_mono hrest ?_ ?_)⟩
  · rintro r s ⟨d', bs, vs, hlink, hP⟩
    exact ⟨d', bs, vs, hlink, hP _ _⟩
  · exact fun _ _ h => h

/-- `associate` evaluates the arguments, and links the bindings in objects that nothing else
refers to. -/
theorem associate_linked [CFloat F] (hev : RunsAll ev)
    (hp : ParamList c.state.heap c.slots params ns) (ha : args ≤ c.state.heap.length) :
    wp (associate ev fuel params args)
      (fun r s => ∃ d bs vs, Linked c d s r bs vs ∧ Associates ev c ns args bs vs d)
      (fun _ s => ∃ d : Config F, d.state = s ∧ Steps c d) c.state := by
  induction fuel generalizing c params args ns with
  | zero => exact ⟨c, rfl, .refl c⟩
  | succ fuel ih =>
    rw [associate]
    refine wp_get_bind.2 (wp_ite ?_ ?_)
    · intro hstop
      refine wp_pure.2 ⟨c, [], [], .nil c, .nil ?_ (.refl c) rfl⟩
      cases hp with
      | nil => exact Or.inl rfl
      | cons hp =>
        simp only [isList_eq hp, Bool.not_true, Bool.false_or, Bool.not_eq_true'] at hstop
        exact Or.inr hstop
    · intro hlists
      simp only [Bool.or_eq_true, Bool.not_eq_true', not_or, Bool.not_eq_false] at hlists
      cases hp with
      | nil => simp [isList, cellAt_zero] at hlists
      | @cons _ next key name ns hp hkey hsp hnext =>
      refine wp_seq (Runs.notChecked (Runs.holding hev (c.wf.heap.car_le args))) ?_ fun _ _ h => h
      rintro v _ ⟨d, rfl, hsteps, ⟨hv, hbal⟩, c₁, d₁, hs, hheap, hexec, hs', hheap'⟩
      obtain ⟨e, -, hbound, hext, -, -, hpend, hnext', hbind⟩ := wp_bindArgument ev fuel hp hkey hsp
        hnext hsteps hbal hv (ha.trans hsteps.later.evolves.1)
      have hle : cdr d.state.heap args ≤ e.state.heap.length :=
        (d.wf.heap.cdr_le args).trans hext.1
      apply hbind
      refine wp_mono (ih hnext' hle) ?_ ?_
      · rintro r s ⟨d', bs, vs, hlink, hassoc⟩
        refine ⟨d', bs, vs, hlink, fun r' s' hlinked => ⟨d', _, _, hlinked, ?_⟩⟩
        rw [hheap'] at hassoc
        refine .cons hlists.2 hs hheap hexec (hs'.trans hbound) ?_ ?_ hassoc
        · rw [← hheap']
          exact Nat.lt_succ_self _
        · exact hpend ▸ List.mem_cons_self
      · rintro _ _ ⟨d', hd', hs''⟩
        exact ⟨d', hd', (hsteps.trans hbound).trans hs''⟩

/-- `associate` while other objects are held. -/
theorem wp_holding_linked_state (c : Config F) (os : List Nat) : ∃ c' : Config F,
    c'.state = { c.state with trace.held := os ++ c.state.trace.held } ∧ Action c c' ∧
    c'.top = c.top ∧ c'.pending = c.pending ∧
    ∀ {m : Eval F Nat} {P : Nat → Interpreter F → Prop} {E : Halt → Interpreter F → Prop},
      wp m (fun r s => ∃ d bs vs, Linked c' d s r bs vs ∧
        (Linked c d { s with trace.held := s.trace.held.drop os.length } r bs vs →
          P r { s with trace.held := s.trace.held.drop os.length })) E c'.state →
      wp (holding os m) P E c.state := by
  let c' := c.record { c.state with trace.held := os ++ c.state.trace.held } rfl rfl rfl
  have hrecord : Action c c' := .record rfl rfl rfl ⟨rfl, rfl, rfl⟩ rfl rfl rfl
  refine ⟨c', rfl, hrecord, rfl, rfl, ?_⟩
  intro m P E hm
  refine wp_modify_bind.2 (wp_seq hm ?_ fun _ _ h => h)
  rintro r s ⟨d, bs, vs, h, hP⟩
  refine hP
    ⟨(Steps.single hrecord).trans h.steps, h.saved, h.below, h.top, h.pending,
      ⟨h.allocates.heap, h.allocates.allocated⟩, h.env,
      ⟨h.same.saved, h.same.stored, h.same.overwrites⟩, ?_, h.heap, h.list, h.values, h.spine,
      h.cells⟩
  have hheld : s.trace.held = os ++ c.state.trace.held := h.held
  simp [hheld]

theorem wp_holding_linked (c : Config F) (os : List Nat) : ∃ c' : Config F,
    c'.state = { c.state with trace.held := os ++ c.state.trace.held } ∧ Action c c' ∧
    c'.top = c.top ∧ c'.pending = c.pending ∧
    ∀ {m : Eval F Nat} {P : Nat → Interpreter F → Prop} {E : Halt → Interpreter F → Prop},
      wp m (fun r s => ∃ d bs vs, Linked c' d s r bs vs ∧
        ∀ s', Linked c d s' r bs vs → P r s') E c'.state → wp (holding os m) P E c.state := by
  obtain ⟨c', hc', ha, htop, hpending, hrule⟩ := wp_holding_linked_state c os
  refine ⟨c', hc', ha, htop, hpending, fun hm => hrule (wp_mono hm ?_ fun _ _ h => h)⟩
  rintro r s ⟨d, bs, vs, h, hP⟩
  exact ⟨d, bs, vs, h, hP _⟩

theorem holding_associate [CFloat F] {os : List Nat} (hev : RunsAll ev)
    (hp : ParamList c.state.heap c.slots params ns) (ha : args ≤ c.state.heap.length) :
    wp (holding os (associate ev fuel params args))
      (fun r s => ∃ d bs vs, Linked c d s r bs vs ∧ Associates ev c ns args bs vs d)
      (fun _ s => ∃ d : Config F, d.state = s ∧ Steps c d) c.state := by
  obtain ⟨c', hstate, hrecord, -, -, hrule⟩ := wp_holding_linked c os
  have hheap : c'.state.heap = c.state.heap := by rw [hstate]
  apply hrule
  refine wp_mono (associate_linked hev (hrecord.later.paramList hp) (hheap ▸ ha)) ?_ ?_
  · rintro r s ⟨d, bs, vs, hlink, hassoc⟩
    exact ⟨d, bs, vs, hlink, fun s' h => ⟨d, bs, vs, h, hassoc.prepend (.single hrecord) hheap⟩⟩
  · rintro e s ⟨d, hd, hs⟩
    exact ⟨d, hd, (Steps.single hrecord).trans hs⟩

/-- The bindings in front of another list. -/
theorem Linked.joined {e₂ : Nat} {bs₂ : List Binding} (h : Linked c d s r bs vs)
    (h₂ : EnvList d.state.heap d.slots e₂ bs₂) :
    EnvList (joinLists s.heap r e₂).2 d.slots (joinLists s.heap r e₂).1 (bs ++ bs₂) ∧
      HeapOk (joinLists s.heap r e₂).2 d.slots ∧
      Extends d.state.heap (joinLists s.heap r e₂).2 ∧
      (joinLists s.heap r e₂).2.length = s.heap.length := by
  have hext := h.allocates.heap
  refine h.list.joined h.heap ?_ (h₂.evolves hext.evolves) hext h.spine ?_ ?_
  · intro b hb
    exact Or.inr (by simp [h.pending, List.mem_map_of_mem hb])
  · intro z t₂ c₂ hz hr hmem
    obtain ⟨t, cs, hrd⟩ := d.wf.heap.readable e₂ h₂.le
    obtain ⟨-, rfl⟩ := (hrd.mono hext).unique hr
    have := (hrd.valid.2 z hmem).2
    have := h.spine z hz
    omega
  · intro z a k hz hne hk
    have hnew := h.spine z hz
    obtain ⟨x, hx⟩ := hz.cell
    rcases Nat.lt_or_ge d.state.heap.length a with hlt | hle
    · obtain ⟨x', y, rfl⟩ := h.cells a k hlt hk
      rcases h.heap.cells a _ hk with rfl | hy
      · exact Or.inl rfl
      · exact Or.inr (list_linked hx hy)
    · rw [hext.cell hle] at hk
      exact (d.wf.heap.cells a k hk).evolves (hext.linked hnew).evolves

/-- More objects, after the bindings. -/
theorem Linked.more (h : Linked c d s r bs vs) (hext : Extends d.state.heap s'.heap)
    (hlen : s.heap.length ≤ s'.heap.length) (halloc : ∃ regs, s'.allocated = s.allocated ++ regs ∧
      regs.Nodup ∧ ∀ a ∈ regs, s.heap.length < a ∧ a ≤ s'.heap.length) : Allocates d.state s' := by
  obtain ⟨regs, hregs, hnodup, hfresh⟩ := h.allocates.allocated
  obtain ⟨regs', hregs', hnodup', hfresh'⟩ := halloc
  have hle := h.allocates.heap.1
  refine ⟨hext, regs ++ regs', ?_, ?_, ?_⟩
  · rw [hregs', hregs, List.append_assoc]
  · rw [List.nodup_append]
    refine ⟨hnodup, hnodup', ?_⟩
    intro a ha b hb
    have := (hfresh a ha).2
    have := (hfresh' b hb).1
    omega
  · intro a ha
    rcases List.mem_append.1 ha with ha | ha
    · have := hfresh a ha
      omega
    · have := hfresh' a ha
      omega

/-- The bindings are no longer pending once a closure has captured them. -/
theorem Linked.captured (h : Linked c d s r bs vs) (hall : Allocates d.state s')
    (hok : HeapOk s'.heap d.slots) (henv : s'.env = s.env) (htrace : s'.trace = s.trace) :
    ∃ d' : Config F, d'.state = s' ∧ Action d d' ∧ Balanced c d' ∧ d'.top = d.top ∧
      d'.pending = c.pending := by
  have hsub : ∀ a ∈ c.pending, a ∈ d.pending := by
    intro a ha
    simp [h.pending, ha]
  have hslots : ∀ a ≤ s'.heap.length, Slots d.top c.pending a → d.slots a := by
    intro a _ hs
    rcases hs with hs | hs
    · exact Or.inl hs
    · exact Or.inr (hsub a hs)
  have hsaved : s'.trace.saved = d.state.trace.saved := by rw [htrace, h.same.saved]
  refine ⟨d.grow s' c.pending hall.heap (hok.weaken hslots) (henv.trans h.env) hsaved
    (fun a ha => Or.inl (hsub a ha)) ?_ ?_, rfl, ?_, ?_, rfl, rfl⟩
  · refine d.wf.nodup.sublist (List.Sublist.append_left ?_ _)
    rw [h.pending]
    exact List.sublist_append_right _ _
  · intro a ha
    obtain ⟨w, hw⟩ := d.wf.pending a (hsub a ha)
    exact ⟨w, hall.heap.cellAt hw⟩
  · refine .allocate hall (henv.trans h.env) ⟨hsaved, ?_, ?_⟩ rfl rfl fun a ha => Or.inl (hsub a ha)
    · exact (congrArg Trace.stored htrace).trans h.same.stored
    · exact (congrArg Trace.overwrites htrace).trans h.same.overwrites
  · refine ⟨hsaved.trans h.saved, ?_, h.below, rfl, h.top⟩
    exact (congrArg Trace.held htrace).trans h.held

end associate
end Lisp
