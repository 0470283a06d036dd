import Lisp.Reclamation

/-! Every evaluation accounts for the objects that it makes. -/
namespace Lisp
open ExceptState
variable {F α β : Type} {c d e : Config F} {s t u : Interpreter F} {ev : Nat → Eval F Nat}
  {a args closure fuel name o p b k v : Nat} {n : Text} {os : List Nat}

/-- Every complete execution of `x` is a tracked part of a run. -/
def Tracks (x : Eval F α) : Prop :=
  ∀ c : Config F, Separated c → Runs c x fun _ d => Balanced c d ∧ Tracked c d

def TracksAll (ev : Nat → Eval F Nat) : Prop := ∀ o, Tracks (ev o)

theorem Extended.tracked (he : Extended c s) (hsep : Separated c)
    (hnew : Registers c.state s) : ∃ d : Config F, d.state = s ∧ Steps c d ∧ Balanced c d ∧
      d.top = c.top ∧ Tracked c d := by
  obtain ⟨d, rfl, ha, hbal, htop⟩ := he.reached
  exact ⟨d, rfl, .single ha, hbal, htop,
    (ha.leaves (congrArg Trace.stored he.trace)).tracked hsep hnew⟩

namespace Tracks

theorem pure (a : α) : Tracks (Pure.pure a : Eval F α) :=
  fun c _ => Runs.pure ⟨.refl c, .refl c⟩

theorem throw (e : Halt) : Tracks (MonadExcept.throw e : Eval F α) := fun _ _ => Runs.throw e

theorem get {f : Interpreter F → Eval F α} (h : ∀ s, Tracks (f s)) : Tracks (get >>= f) :=
  fun c hsep => Runs.get (h c.state c hsep)

theorem ite {b : Prop} [Decidable b] {x y : Eval F α} (hx : Tracks x) (hy : Tracks y) :
    Tracks (if b then x else y) :=
  fun c hsep => Runs.ite (fun _ => hx c hsep) fun _ => hy c hsep

theorem bind {x : Eval F α} {f : α → Eval F β} (hx : Tracks x) (hf : ∀ a, Tracks (f a)) :
    Tracks (x >>= f) := by
  intro c hsep
  refine Runs.bind (hx c hsep) fun v d hs ⟨hb, ht⟩ => ?_
  refine Runs.mono (hf v d (hsep.steps hs)) fun w e hs' ⟨hb', ht'⟩ => ?_
  exact ⟨hb.trans hb', ht.trans ht' (hsep.steps hs) hs'⟩

/-- A change of a part of the trace that the machine does not describe. -/
theorem recorded {g : Interpreter F → Interpreter F} (heap : (g c.state).heap = c.state.heap)
    (env : (g c.state).env = c.state.env) (allocated : (g c.state).allocated = c.state.allocated)
    (same : SameTrace c.state (g c.state)) (hsep : Separated c) :
    ∃ d : Config F, d.state = g c.state ∧ Action c d ∧ d.top = c.top ∧ d.below = c.below ∧
      d.pending = c.pending ∧ Tracked c d := by
  have ha : Action c (c.record (g c.state) heap env same.saved) :=
    .record heap env allocated same rfl rfl rfl
  refine ⟨_, rfl, ha, rfl, rfl, rfl, (ha.leaves same.stored).tracked hsep fun a hlt hle => ?_⟩
  rw [show (c.record (g c.state) heap env same.saved).state.heap = _ from heap] at hle
  omega

theorem holding {x : Eval F α} (hx : Tracks x) : Tracks (holding os x) := by
  intro c hsep
  unfold Lisp.holding
  obtain ⟨c', hc', ha, htop, hbelow, hpending, ht⟩ := recorded (c := c)
    (g := fun s => { s with trace.held := os ++ s.trace.held }) rfl rfl rfl ⟨rfl, rfl, rfl⟩ hsep
  refine Runs.single_bind (by rw [hc']; rfl) ha (Runs.bind (hx c' (hsep.step ha)) ?_)
  rintro v d hs ⟨hbal, ht'⟩
  have hsep' := (hsep.step ha).steps hs
  obtain ⟨e, he, ha', htop', hbelow', hpending', ht''⟩ := recorded (c := d)
    (g := fun s => { s with trace.held := s.trace.held.drop os.length }) rfl rfl rfl
    ⟨rfl, rfl, rfl⟩ hsep'
  refine Runs.single_bind (by rw [he]; rfl) ha' (Runs.pure ⟨⟨?_, ?_, ?_, ?_, ?_⟩, ?_⟩)
  · rw [he]
    exact hbal.saved.trans (by rw [hc'])
  · have hheld := hbal.held
    rw [hc'] at hheld
    simp [he, hheld]
  · rw [hbelow', hbal.below, hbelow]
  · rw [hpending', hbal.pending, hpending]
  · rw [htop', ← htop]
    exact hbal.top
  · exact (ht.trans ht' (hsep.step ha) hs).trans ht'' hsep' (.single ha')

theorem notChecked {x : Eval F Nat} (hx : Tracks x) : Tracks (notChecked x) := by
  intro c hsep
  unfold Lisp.notChecked
  refine Runs.bind (hx c hsep) ?_
  rintro v d hs ⟨hbal, ht⟩
  have hsep' := hsep.steps hs
  obtain ⟨e, he, ha', htop', hbelow', hpending', ht'⟩ := recorded (c := d)
    (g := fun s => { s with
      trace.unchecked := s.trace.unchecked + if v = 0 then 1 else 0 }) rfl rfl rfl
    ⟨rfl, rfl, rfl⟩ hsep'
  refine Runs.single_bind (by rw [he]; rfl) ha' (Runs.pure ⟨⟨?_, ?_, ?_, ?_, ?_⟩, ?_⟩)
  · rw [he]
    exact hbal.saved
  · rw [he]
    exact hbal.held
  · rw [hbelow', hbal.below]
  · rw [hpending', hbal.pending]
  · rw [htop']
    exact hbal.top
  · exact ht.trans ht' hsep' (.single ha')

theorem allocated {q : Cell F} (hk : ∀ x ∈ q.parts, x ≤ c.state.heap.length)
    (hc : CellOk c.state.heap c.slots q) (hsep : Separated c) :
    Runs c (allocate q) fun _ d => Balanced c d ∧ Tracked c d := by
  have he := Extended.allocate hk hc
  obtain ⟨d, hd, hs, hbal, -, ht⟩ := he.tracked hsep fun a hlt hle => by
    simp only [length_alloc] at hle
    exact Or.inl (List.mem_append_right _ (List.mem_singleton.2 (by omega)))
  exact (wp_ok (a := c.state.heap.length + 1) (t := d.state) (by rw [hd]; rfl)).2
    ⟨d, rfl, hs, hbal, ht⟩

theorem nil : Tracks (nil : Eval F Nat) :=
  fun _ hsep => allocated (by simp [Cell.parts]) (Or.inl rfl) hsep

theorem int (z : Int) : Tracks (allocate (.int z) : Eval F Nat) :=
  fun _ hsep => allocated (by simp [Cell.parts]) trivial hsep

theorem ofBool (b : Bool) : Tracks (ofBool b : Eval F Nat) := by
  cases b with
  | false => exact nil
  | true => exact fun _ hsep => allocated (by simp [Cell.parts]) trivial hsep

theorem orUndefined (x : Option α) : Tracks (orUndefined x : Eval F α) := by
  cases x with
  | none => exact throw _
  | some a => exact pure a

/-- What is known of the state that `x` leaves holds in a tracked run. -/
theorem run {x : Eval F α} {Q : α → Config F → Prop} {P : α → Interpreter F → Prop}
    (hx : Tracks x) (hsep : Separated c) (hQ : Runs c x Q) (hP : ∀ v d, Q v d → P v d.state) :
    Runs c x fun v d => P v d.state ∧ Balanced c d ∧ Tracked c d := by
  rcases hexec : exec x c.state with ⟨e | v, s⟩
  · exact (wp_error hexec).2 ((wp_error hexec).1 hQ)
  · obtain ⟨d, rfl, hs, hbal, ht⟩ := (hx c hsep).of_ok hexec
    obtain ⟨d', hd', -, hq⟩ := hQ.of_ok hexec
    exact (wp_ok hexec).2 ⟨d, rfl, hs, hd' ▸ hP v d' hq, hbal, ht⟩

theorem next {x : Eval F α} {f : α → Eval F β} {P : α → Interpreter F → Prop}
    (hx : Runs c x fun v d => P v d.state ∧ Balanced c d ∧ Tracked c d) (hsep : Separated c)
    (hf : ∀ v d, Steps c d → Separated d → P v d.state →
      Runs d (f v) fun _ e => Balanced d e ∧ Tracked d e) :
    Runs c (x >>= f) fun _ e => Balanced c e ∧ Tracked c e := by
  refine Runs.bind hx fun v d hs ⟨hp, hb, ht⟩ => ?_
  refine Runs.mono (hf v d hs (hsep.steps hs) hp) fun w e hs' ⟨hb', ht'⟩ => ?_
  exact ⟨hb.trans hb', ht.trans ht' (hsep.steps hs) hs'⟩

theorem evaluated (hrun : RunsAll ev) (hev : TracksAll ev) (ho : o ≤ c.state.heap.length)
    (hsep : Separated c) : Runs c (Lisp.holding os (ev o)) fun v d =>
      v ≤ d.state.heap.length ∧ Balanced c d ∧ Tracked c d :=
  (Tracks.holding (hev o)).run (P := fun v s => v ≤ s.heap.length) hsep (Runs.holding hrun ho)
    fun _ _ h => h.value.1

end Tracks

section primitives

theorem tracks_quote : Tracks (Primitives.quote args : Eval F Nat) := by
  unfold Primitives.quote
  exact .get fun _ => .ite (.pure 0) (.pure _)

theorem tracks_atom (hev : TracksAll ev) : Tracks (Primitives.atom ev args) := by
  unfold Primitives.atom
  refine .get fun _ => .ite (.pure 0) (.bind (.notChecked (hev _)) fun v => ?_)
  exact .get fun _ => .ofBool _

theorem tracks_eq [CFloat F] (hev : TracksAll ev) : Tracks (Primitives.eq ev args) := by
  unfold Primitives.eq
  refine .get fun _ => .ite (.pure 0) (.bind (.holding (hev _)) fun v => ?_)
  refine .ite (.pure 0) (.get fun _ => .bind (.holding (hev _)) fun w => ?_)
  exact .ite (.pure 0) (.get fun _ => .ofBool _)

theorem tracks_car (hev : TracksAll ev) : Tracks (Primitives.car ev args) := by
  unfold Primitives.car
  refine .get fun _ => .ite (.pure 0) (.bind (hev _) fun v => .get fun _ => ?_)
  exact .ite (.pure 0) (.ite (.pure 0) (.ite .nil (.pure _)))

theorem tracks_cdr (hev : TracksAll ev) : Tracks (Primitives.cdr ev args) := by
  unfold Primitives.cdr
  refine .get fun _ => .ite (.pure 0) (.bind (hev _) fun v => .get fun _ => ?_)
  exact .ite (.pure 0) (.ite (.pure 0) (.ite .nil (.ite .nil (.pure _))))

theorem tracks_cond (hev : TracksAll ev) : Tracks (Primitives.cond ev fuel args) := by
  induction fuel generalizing args with
  | zero => exact .throw _
  | succ fuel ih =>
    unfold Primitives.cond
    refine .get fun _ => .ite .nil (.ite (.pure 0) (.ite (.pure 0) ?_))
    refine .ite (.pure 0) (.ite (.pure 0) (.bind (.notChecked (.holding (hev _))) fun v => ?_))
    exact .get fun _ => .ite (.pure 0) (.ite (.ite (.pure 0) (hev _)) ih)

theorem tracks_env : Tracks (Primitives.env args : Eval F Nat) := by
  unfold Primitives.env
  exact .get fun _ => .ite (.pure 0) (.pure _)

theorem tracks_applyArithmetic [CFloat F] {intOp : Int → Int → Option Int}
    {floatOp : F → F → Eval F F} (hev : TracksAll ev) (hop : ∀ x y, Tracks (floatOp x y)) :
    Tracks (Primitives.applyArithmetic ev args intOp floatOp) := by
  unfold Primitives.applyArithmetic
  refine .get fun _ => .ite (.pure 0) (.bind (.holding (hev _)) fun v => .get fun _ => ?_)
  refine .ite (.pure 0) (.ite (.pure 0) (.bind (.holding (hev _)) fun w => .get fun _ => ?_))
  refine .ite (.pure 0) (.ite (.pure 0) (.ite ?_ ?_))
  · exact .bind (hop _ _) fun _ => .int _
  · exact .bind (.orUndefined _) fun _ => .int _

theorem tracks_compareNumbers [CFloat F] {intOp : Int → Int → Bool} {floatOp : F → F → Bool}
    (hev : TracksAll ev) : Tracks (Primitives.compareNumbers ev args intOp floatOp) := by
  unfold Primitives.compareNumbers
  refine .get fun _ => .ite (.pure 0) (.bind (.holding (hev _)) fun v => .get fun _ => ?_)
  refine .ite (.pure 0) (.ite (.pure 0) (.bind (.holding (hev _)) fun w => .get fun _ => ?_))
  exact .ite (.pure 0) (.ite (.pure 0) (.ofBool _))

theorem tracks_modFloats [CFloat F] (x y : F) : Tracks (modFloats fuel x y : Eval F F) := by
  unfold modFloats
  generalize absFloat x = x', absFloat y = y'
  induction fuel generalizing x' with
  | zero => exact .throw _
  | succ fuel ih => exact .ite (ih _) (.pure _)

/-- `cons` refers to its arguments, which are in memory. -/
theorem tracks_cons (hrun : RunsAll ev) (hev : TracksAll ev) :
    Tracks (Primitives.cons ev args) := by
  have hzero := fun c => Tracks.pure (F := F) 0 c
  intro c hsep
  unfold Primitives.cons
  refine Runs.get (Runs.ite (fun _ => hzero c hsep) fun _ => ?_)
  refine Runs.ite (fun _ => hzero c hsep) fun _ => ?_
  refine Tracks.next (P := fun v s => v ≤ s.heap.length)
    (Tracks.evaluated hrun hev (c.wf.heap.car_le args) hsep) hsep ?_
  intro v d hs hsepd hv
  have hy := (c.wf.heap.ith_le args 1).trans hs.length_le
  refine Runs.ite (fun _ => hzero d hsepd) fun _ => ?_
  refine Tracks.next (P := fun v s => v ≤ s.heap.length)
    (Tracks.evaluated hrun hev hy hsepd) hsepd ?_
  intro w e hs' hsepe hw
  refine Runs.ite (fun _ => hzero e hsepe) fun _ => Runs.get (Runs.ite (fun _ => hzero e hsepe) ?_)
  intro hlist
  obtain ⟨x, y, hcell⟩ : ∃ x y, cellAt e.state.heap w = some (.list x y) :=
    isList_iff.1 (by simpa using hlist)
  refine Tracks.allocated ?_ (Or.inr ⟨x, y, hcell⟩) hsepe
  simpa [Cell.parts] using ⟨hv.trans hs'.length_le, hw⟩

end primitives
section set

/-- The objects of a new binding, after `L` others. -/
structure NewBinding (h h' : Heap F) (env v L : Nat) (n : Text) : Prop where
  heap : Extends h h'
  length : h'.length = L + 4
  live : NewLive h h'
  slot : cellAt h' (L + 1) = some (.list v 0)
  key : cellAt h' (L + 2) = some (.atom n)
  pair : cellAt h' (L + 3) = some (.list (L + 2) (L + 1))
  link : cellAt h' (L + 4) = some (.list (L + 3) env)

theorem exec_bindNew {L : Nat} (hname : cellAt s.heap name = some (.atom n))
    (hL : s.heap.length = L) : ∃ h', exec (Primitives.bindNew name v) s = (.ok (), { s with
      heap := h', env := L + 4, trace.stored := (L + 1) :: s.trace.stored }) ∧
      NewBinding s.heap h' s.env v L n := by
  generalize hh₂ : (alloc s.heap (.list v 0)).2 = h₂
  generalize hh₃ : (alloc h₂ (.atom n)).2 = h₃
  generalize hh₄ : (alloc h₃ (.list (L + 2) (L + 1))).2 = h₄
  generalize hh₅ : (alloc h₄ (.list (L + 3) s.env)).2 = h₅
  have hl₂ : h₂.length = L + 1 := by rw [← hh₂, length_alloc, hL]
  have hl₃ : h₃.length = L + 2 := by rw [← hh₃, length_alloc, hl₂]
  have hl₄ : h₄.length = L + 3 := by rw [← hh₄, length_alloc, hl₃]
  have he₂ : Extends s.heap h₂ := hh₂ ▸ extends_alloc _ _
  have he₃ : Extends h₂ h₃ := hh₃ ▸ extends_alloc _ _
  have he₄ : Extends h₃ h₄ := hh₄ ▸ extends_alloc _ _
  have he₅ : Extends h₄ h₅ := hh₅ ▸ extends_alloc _ _
  have hlive₂ : NewLive s.heap h₂ := hh₂ ▸ newLive_alloc _ _
  have hlive₃ : NewLive h₂ h₃ := hh₃ ▸ newLive_alloc _ _
  have hlive₄ : NewLive h₃ h₄ := hh₄ ▸ newLive_alloc _ _
  have hlive₅ : NewLive h₄ h₅ := hh₅ ▸ newLive_alloc _ _
  have hcopy : copyRecursive h₂ name = alloc h₂ (.atom n) := copyRecursive_atom (he₂.cellAt hname)
  refine ⟨h₅, ?_, ?_⟩
  · simp only [Primitives.bindNew, exec_get_bind, exec_onHeap_bind, hh₂, hcopy, hh₃, alloc_fst,
      hL, hl₂, hl₃, hh₄, hl₄, hh₅, exec_modify]
  constructor
  case heap => exact he₂.trans (he₃.trans (he₄.trans he₅))
  case length => rw [← hh₅, length_alloc, hl₄]
  case live => exact ((hlive₂.trans he₃ hlive₃).trans he₄ hlive₄).trans he₅ hlive₅
  case slot => exact (he₃.trans (he₄.trans he₅)).cellAt (hh₂ ▸ cellAt_alloc_at hL)
  case key => exact (he₄.trans he₅).cellAt (hh₃ ▸ cellAt_alloc_at hl₂)
  case pair => exact he₅.cellAt (hh₄ ▸ cellAt_alloc_at hl₃)
  case link => exact hh₅ ▸ cellAt_alloc_at hl₄

variable [CFloat F] {tree : Obj F} {cs : List Nat}

/-- `set` once the value is evaluated: what it stores is a copy in new objects. -/
theorem tracked_store (hread : Reads c.state.heap v tree cs) (hv0 : v ≠ 0)
    (hname : cellAt c.state.heap name = some (.atom n)) (htruth : isTruthName n = false)
    (hsep : Separated c) :
    Runs c (Primitives.store name v) fun _ d => Balanced c d ∧ Tracked c d := by
  obtain ⟨r, d, hexec, -, -, hd⟩ := Runs.store hread hv0 hname htruth
  refine Runs.single hexec hd.action ⟨hd.balanced, ?_⟩
  have hok := c.wf.heap.cells.tree hread
  have hnull : tree ≠ .null := fun h => hv0 (hread.null_iff.2 h)
  have hcopy := hread.copyRecursive
  rw [hok.copied] at hcopy
  generalize hq : copyRecursive c.state.heap v = q at hcopy
  have hq0 : q.1 ≠ 0 := fun h0 => hnull (hcopy.reads.null_iff.1 h0)
  obtain ⟨te, ce, hre⟩ := (c.wf.heap.built hcopy hok fun a ha => slots_le c ha).readable
    c.state.env (c.wf.env.le.trans hcopy.heap.1)
  have hentry := (c.wf.env.evolves hcopy.heap.evolves).lookupEntry hre (hcopy.heap.cellAt hname)
  obtain ⟨slot, w, cw, hslotd, hw, -, htop⟩ := hd.slot
  rcases htop with ⟨hnone, htop⟩ | ⟨hsome, htop⟩
  · obtain ⟨h', hbind, hnew⟩ := exec_bindNew (s := { c.state with heap := q.2 }) (v := q.1)
      (hcopy.heap.cellAt hname) rfl
    rw [hnone] at hentry
    simp only [Primitives.store, exec_onHeap_bind, hq, hq0, if_false, exec_get_bind, hentry,
      Option.getD_none, if_true, exec_bind_ok hbind, exec_pure, Prod.mk.injEq, Except.ok.injEq]
      at hexec
    obtain ⟨-, hstate⟩ := hexec
    have hheap : d.state.heap = h' := by rw [← hstate]
    have henv : d.state.env = q.2.length + 4 := by rw [← hstate]
    have hslot : slot = q.2.length + 1 := by
      have hlist := d.wf.env
      rw [htop, henv, hheap] at hlist
      cases hlist with
      | cons he hpair =>
        obtain ⟨rfl, -⟩ := Cell.list.inj (Option.some.inj (he.symm.trans hnew.link))
        exact (Cell.list.inj (Option.some.inj (hpair.symm.trans hnew.pair))).2
    have hbound : Bound c d (q.2.length + 1) := by
      constructor
      case heap => exact hheap ▸ hcopy.heap.trans hnew.heap
      case live => exact hheap ▸ hcopy.live.trans hnew.heap hnew.live
      case allocated => rw [← hstate]
      case saved => exact hd.balanced.saved
      case stored => rw [← hstate]
      case below => exact hd.balanced.below
      case top => exact ⟨_, hslot ▸ htop⟩
      case objects =>
        rw [hheap, henv]
        refine ⟨_, _, q.1, tree, _, n, hnew.link, hnew.pair, hnew.key, hq0, hnew.slot,
          hcopy.reads.mono hnew.heap, ?_⟩
        have hjoin := range'_join hcopy.heap.1 (Nat.le_add_right q.2.length 4)
        rw [Nat.add_sub_cancel_left] at hjoin
        rw [hnew.length, ← hjoin]
        rfl
    cases hbelow : c.below with
    | nil => exact hbound.tracked_top hsep hbelow
    | cons top' rest => exact hbound.tracked_nested hsep (by simp [hbelow])
  · rw [hsome] at hentry
    obtain ⟨b, hb, rfl, -⟩ := slotOf_mem hsome
    obtain ⟨y, hy⟩ := c.wf.env.slot_mem hb
    have hb0 : b.slot ≠ 0 := Nat.pos_iff_ne_zero.1 (cellAt_le hy).1
    simp only [Primitives.store, exec_onHeap_bind, hq, hq0, if_false, exec_get_bind, hentry,
      Option.getD_some, hb0, Primitives.overwrite, exec_modify_bind, exec_pure, Prod.mk.injEq,
      Except.ok.injEq] at hexec
    obtain ⟨-, hstate⟩ := hexec
    have hreplaced : Replaced c d q.2 b.slot q.1 := by
      constructor
      case copied => exact hcopy.heap
      case live => exact hcopy.live
      case mem => exact List.mem_map_of_mem hb
      case heap => rw [← hstate]; rfl
      case env => rw [← hstate]
      case allocated => rw [← hstate]
      case saved => exact hd.balanced.saved
      case stored => rw [← hstate]
      case overwrites => rw [← hstate]; rfl
      case top => exact htop
      case below => exact hd.balanced.below
      case value => exact ⟨hq0, tree, hcopy.reads⟩
    exact hreplaced.tracked hsep

theorem tracks_set (hrun : RunsAll ev) (hev : TracksAll ev) : Tracks (Primitives.set ev args) := by
  have hzero := fun c => Tracks.pure (F := F) 0 c
  intro c hsep
  unfold Primitives.set
  refine Runs.get (Runs.ite (fun _ => hzero c hsep) fun _ => ?_)
  refine Tracks.next (P := fun v s => v ≤ s.heap.length)
    (Tracks.evaluated hrun hev (c.wf.heap.ith_le args 0) hsep) hsep ?_
  intro name d hs hsepd hname
  refine Runs.get (Runs.ite (fun _ => hzero d hsepd) fun _ => ?_)
  refine Runs.ite (fun _ => hzero d hsepd) fun hT => ?_
  refine Runs.ite (fun _ => hzero d hsepd) fun hatom => ?_
  obtain ⟨n, hn⟩ : ∃ n, cellAt d.state.heap name = some (.atom n) := by
    simp only [isAtom, Bool.not_eq_true', Bool.not_eq_false] at hatom
    split at hatom
    · exact ⟨_, ‹_›⟩
    · simp at hatom
  have htruth : isTruthName n = false := by
    simpa [isT, isAtom, hn, atomName] using hT
  refine Tracks.next (P := fun v s => v ≤ s.heap.length)
    (Tracks.evaluated hrun hev (d.wf.heap.ith_le args 1) hsepd) hsepd ?_
  intro v e hs' hsepe hv
  refine Runs.ite (fun _ => hzero e hsepe) fun hv0 => ?_
  obtain ⟨t, cs, hread⟩ := e.wf.heap.readable v hv
  exact tracked_store hread hv0 (hs'.later.evolves.atom hn) htruth hsepe

end set

section lambda

/-- A copy is made of new objects, whatever is copied. -/
theorem copyFrom_built (fuel : Nat) (h : Heap F) (o : Nat) :
    ∃ t, Built h t (copyFrom fuel h o) := by
  induction fuel generalizing h o with
  | zero => exact ⟨.null, built_null h⟩
  | succ fuel ih =>
    unfold copyFrom
    cases hcell : cellAt h o with
    | none => exact ⟨.null, built_null h⟩
    | some k =>
      cases k with
      | list x y =>
        obtain ⟨tx, hx⟩ := ih h x
        obtain ⟨ty, hy⟩ := ih (copyFrom fuel h x).2 y
        exact ⟨_, built_list hx hy⟩
      | closure p b c n =>
        obtain ⟨tp, hp⟩ := ih h p
        obtain ⟨tb, hb⟩ := ih (copyFrom fuel h p).2 b
        obtain ⟨tc, hc⟩ := ih (copyFrom fuel (copyFrom fuel h p).2 b).2 c
        exact ⟨_, built_closure hp hb hc⟩
      | _ => exact ⟨_, built_leaf rfl⟩

theorem copyRecursive_built (h : Heap F) (o : Nat) : ∃ t, Built h t (copyRecursive h o) :=
  copyFrom_built _ _ _

theorem Built.mem_disposed {h : Heap F} {tree : Obj F} {q : Nat × Heap F} (hq : Built h tree q)
    (hlt : h.length < a) (hle : a ≤ q.2.length) : a ∈ disposed q.2 q.1 := by
  rw [hq.reads.disposed, List.mem_range'_1]
  omega

/-- `r` extends `h` by objects that are part of the list at `r`, as those of `cap` are. -/
def Gathers (h : Heap F) (cap : Nat) (r : Nat × Heap F) : Prop :=
  Extends h r.2 ∧ ∀ t cs, Reads h cap t cs → ∃ t' cs', Reads r.2 r.1 t' cs' ∧
    ∀ a, a ∈ cs ∨ h.length < a ∧ a ≤ r.2.length → a ∈ cs'

theorem Gathers.refl (h : Heap F) (cap : Nat) : Gathers h cap (cap, h) := by
  refine ⟨.refl h, fun t cs hr => ⟨t, cs, hr, fun a ha => ha.resolve_right ?_⟩⟩
  rintro ⟨hlt, hle⟩
  exact absurd hlt (Nat.not_lt.2 hle)

theorem Gathers.trans {h : Heap F} {cap : Nat} {r r' : Nat × Heap F} (h1 : Gathers h cap r)
    (h2 : Gathers r.2 r.1 r') : Gathers h cap r' := by
  refine ⟨h1.1.trans h2.1, fun t cs hr => ?_⟩
  obtain ⟨t', cs', hr', hmem⟩ := h1.2 t cs hr
  obtain ⟨t'', cs'', hr'', hmem'⟩ := h2.2 t' cs' hr'
  refine ⟨t'', cs'', hr'', fun a ha => hmem' a ?_⟩
  rcases Nat.lt_or_ge r.2.length a with hlt | hle
  · rcases ha with ha | ha
    · exact Or.inl (hmem a (Or.inl ha))
    · exact Or.inr ⟨hlt, ha.2⟩
  · exact Or.inl (hmem a (ha.imp id fun h => ⟨h.1, hle⟩))

theorem gathers_alloc {h : Heap F} {cap : Nat} {tree : Obj F} {q : Nat × Heap F}
    (hq : Built h tree q) : Gathers h cap (alloc q.2 (.list q.1 cap)) := by
  have hext := extends_alloc q.2 (.list q.1 cap)
  refine ⟨hq.heap.trans hext, fun t cs hr => ?_⟩
  refine ⟨_, _, .list (cellAt_alloc _ _) (hq.reads.mono hext) (hr.mono (hq.heap.trans hext)), ?_⟩
  intro a ha
  have := hq.heap.1
  simp only [List.mem_append, List.mem_range'_1, List.mem_singleton, alloc_fst]
  rcases ha with ha | ⟨hlt, hle⟩
  · exact Or.inl (Or.inr ha)
  · rw [length_alloc] at hle
    omega

theorem captureVariables_gathers [CFloat F] {params env proc cap : Nat} {h : Heap F}
    {r : Nat × Heap F} (hr : captureVariables params env fuel h cap proc = some r) :
    Gathers h cap r := by
  induction fuel generalizing h cap proc r with
  | zero =>
    obtain rfl := Option.some.inj hr
    exact .refl h cap
  | succ fuel ih =>
    have hsame : some (cap, h) = some r → Gathers h cap r := by
      intro he
      obtain rfl := Option.some.inj he
      exact .refl h cap
    unfold captureVariables at hr
    split at hr
    · split at hr
      · exact hsame hr
      · obtain ⟨found, -, hr⟩ := Option.bind_eq_some_iff.1 hr
        dsimp only at hr
        split at hr
        · exact hsame hr
        · split at hr
          · exact hsame hr
          · obtain rfl := Option.some.inj hr
            obtain ⟨t, hq⟩ := copyRecursive_built h (lookupPair h proc env)
            exact gathers_alloc hq
    · split at hr
      · obtain ⟨next, hnext, hr⟩ := Option.bind_eq_some_iff.1 hr
        exact (ih hnext).trans (ih hr)
      · exact hsame hr

/-- The objects of a closure whose parts are new. -/
theorem mem_disposed_closure {h h₁ h₂ h₃ : Heap F} {tp tb : Obj F} {params proc cap : Nat}
    (hp : Built h tp (params, h₁)) (hb : Built h₁ tb (proc, h₂)) (hc : Gathers h₂ 0 (cap, h₃))
    (hlt : h.length < a) (hle : a ≤ (newClosureSet h₃ params proc cap).2.length) :
    a ∈ disposed (newClosureSet h₃ params proc cap).2 (newClosureSet h₃ params proc cap).1 := by
  obtain ⟨hext₃, hgather⟩ := hc
  obtain ⟨tc, cc, hrc, hmem⟩ := hgather .null [] .null
  have hnew := extends_alloc h₃ (.closure params proc cap
    (if isNil h₃ params then 0 else listLength h₃ params))
  have hp' := hp.reads.mono ((hb.heap.trans hext₃).trans hnew)
  have hread := Reads.closure (cellAt_alloc h₃ _) hp' (hb.reads.mono (hext₃.trans hnew))
    (hrc.mono hnew)
  have hl₁ := hp.heap.1
  have hl₂ := hb.heap.1
  have hlen : (newClosureSet h₃ params proc cap).2.length = h₃.length + 1 := length_alloc _ _
  have hcc : h₂.length < a → a ≤ h₃.length → a ∈ cc := fun h1 h2 => hmem a (Or.inr ⟨h1, h2⟩)
  rw [newClosureSet, alloc_fst, hread.disposed]
  simp only [List.mem_append, List.mem_range'_1, List.mem_singleton]
  rcases Nat.lt_or_ge h₂.length a with hgt | hge
  · rcases Nat.lt_or_ge h₃.length a with hgt' | hge'
    · exact Or.inr (by omega)
    · exact Or.inl (Or.inr (hcc hgt hge'))
  · refine Or.inl (Or.inl ?_)
    dsimp only at hl₁ hl₂ ⊢
    omega

variable [CFloat F]

/-- What `lambda` makes is known to the collector, or freed. -/
theorem lambda_registers (s : Interpreter F) :
    wp (Primitives.lambda args) (fun _ u => Registers s u) (fun _ _ => True) s := by
  have hzero : wp (pure 0 : Eval F Nat) (fun _ u => Registers s u) (fun _ _ => True) s :=
    Registers.refl s
  unfold Primitives.lambda
  refine wp_get_bind.2 (wp_ite (fun _ => hzero) fun _ => wp_ite (fun _ => hzero) fun _ => ?_)
  refine wp_ite (fun _ => hzero) fun _ => wp_ite (fun _ => hzero) fun _ => ?_
  obtain ⟨tp, hp⟩ := copyRecursive_built s.heap (ith s.heap args 0)
  refine (wp_congr (exec_onHeap_bind _ _ _)).2 ?_
  generalize copyRecursive s.heap (ith s.heap args 0) = q at hp
  obtain ⟨tb, hb⟩ := copyRecursive_built q.2 (ith q.2 args 1)
  refine (wp_congr (exec_onHeap_bind _ _ _)).2 ?_
  dsimp only
  generalize copyRecursive q.2 (ith q.2 args 1) = q' at hb
  refine wp_ite (fun _ => wp_modify_bind.2 (wp_pure.2 ?_)) fun _ => wp_get_bind.2 ?_
  · -- Both copies are freed again.
    intro a hlt hle
    have hle' : a ≤ q'.2.length := by
      simpa only [disposeRecursive, length_foldl_dispose] using hle
    refine Or.inr ?_
    have hread := hb.reads.sameCells (sameCells_disposeRecursive q'.2 q.1)
    have hlen : (disposeRecursive q'.2 q.1).length = q'.2.length := length_foldl_dispose _ _
    show Freed (disposeRecursive (disposeRecursive q'.2 q.1) q'.1) a
    rw [freed_disposeRecursive, freed_disposeRecursive, hread.disposed, hlen,
      (hp.reads.mono hb.heap).disposed, List.mem_range'_1, List.mem_range'_1]
    have := hp.heap.1
    omega
  · dsimp only
    cases hcap : captureVariables q.1 s.env q'.2.length q'.2 0 q'.1 with
    | none => exact trivial
    | some r =>
      intro a hlt hle
      have hlen : a ≤ (newClosureSet r.2 q.1 q'.1 r.1).2.length :=
        hle.trans (Nat.le_of_eq sameCells_flagged.1)
      exact Or.inl (List.mem_append_right _
        (mem_disposed_closure hp hb (captureVariables_gathers hcap) hlt hlen))

theorem tracks_lambda (hsep : Separated c) (ha : args ≤ c.state.heap.length) :
    Runs c (Primitives.lambda args) fun _ d => Balanced c d ∧ Tracked c d := by
  obtain ⟨r, s, hexec, hext, -⟩ := lambda_ok c ha
  obtain ⟨d, hd, hs, hbal, -, ht⟩ :=
    hext.tracked hsep ((lambda_registers c.state).of_ok hexec)
  exact (wp_ok hexec).2 ⟨d, hd, hs, hbal, ht⟩

end lambda
section calls

/-- The new objects are known to the collector. -/
structure Adds (s t : Interpreter F) : Prop where
  allocated : ∀ a ∈ s.allocated, a ∈ t.allocated
  new : ∀ a, s.heap.length < a → a ≤ t.heap.length → a ∈ t.allocated

theorem Adds.refl (s : Interpreter F) : Adds s s := by
  refine ⟨fun _ h => h, fun a hlt hle => ?_⟩
  omega

theorem Adds.trans (h1 : Adds s t) (h2 : Adds t u) : Adds s u := by
  refine ⟨fun a ha => h2.allocated a (h1.allocated a ha), fun a hlt hle => ?_⟩
  rcases Nat.lt_or_ge t.heap.length a with hta | hta
  · exact h2.new a hta hle
  · exact h2.allocated a (h1.new a hlt hta)

theorem Adds.registers (h : Adds s t) : Registers s t := fun a hlt hle => Or.inl (h.new a hlt hle)

theorem adds_last {l : List Nat} (hall : t.allocated = s.allocated ++ l)
    (hl : ∀ a, s.heap.length < a → a ≤ t.heap.length → a ∈ l) : Adds s t := by
  refine ⟨fun a ha => ?_, fun a hlt hle => ?_⟩
  · rw [hall]
    exact List.mem_append_left _ ha
  · rw [hall]
    exact List.mem_append_right _ (hl a hlt hle)

/-- A copy that the collector is told of. -/
theorem adds_copied (s : Interpreter F) (o : Nat) : Adds s { s with
    heap := flagged (copyRecursive s.heap o).2 (copyRecursive s.heap o).1
    allocated := s.allocated ++
      disposed (copyRecursive s.heap o).2 (copyRecursive s.heap o).1 } := by
  obtain ⟨t, ht⟩ := copyRecursive_built s.heap o
  refine adds_last rfl fun a hlt hle => ht.mem_disposed hlt ?_
  exact hle.trans (Nat.le_of_eq sameCells_flagged.1)

theorem length_joinFrom (h : Heap F) (x y : Nat) : (joinFrom h fuel x y).length = h.length := by
  induction fuel generalizing x with
  | zero => rfl
  | succ fuel ih =>
    unfold joinFrom
    split
    · exact length_update _
    · exact ih _

theorem length_joinLists (h : Heap F) (x y : Nat) : (joinLists h x y).2.length = h.length := by
  unfold joinLists
  split
  · rfl
  · split
    · rfl
    · exact length_joinFrom h x y

/-- The pair of a name and the value of an argument. -/
theorem adds_boundState (params v : Nat) (s : Interpreter F) :
    Adds s (boundState params v s) := by
  have hcdr : cdr (makePair s.heap (car s.heap params) v).2
      (makePair s.heap (car s.heap params) v).1 = s.heap.length + 1 := by
    simp only [makePair, alloc_fst, length_alloc]
    exact cdr_eq ((length_alloc s.heap (.list v 0)) ▸ cellAt_alloc _ _)
  refine adds_last (l := [s.heap.length + 2, s.heap.length + 1]) ?_ fun a hlt hle => ?_
  · simp only [boundState, hcdr]
    simp [makePair, alloc_fst, length_alloc]
  · have hle' : a ≤ s.heap.length + 2 := by
      simpa [boundState, makePair, length_alloc] using hle
    simp only [List.mem_cons, List.not_mem_nil, or_false]
    omega

/-- The copies that `closure_partial_application` makes. -/
theorem adds_copyClosure {os : List Nat} (hexec : exec (copyClosure closure args) s = (.ok os, t)) :
    Adds s t ∧ t.trace = s.trace := by
  simp only [copyClosure, exec_get_bind, exec_onHeap_bind, exec_gcAddRecursive_bind, exec_pure,
    Prod.mk.injEq] at hexec
  obtain ⟨-, rfl⟩ := hexec
  exact ⟨((adds_copied s _).trans (adds_copied _ _)).trans (adds_copied _ _), rfl⟩

/-- The copy of the captured bindings that a call makes. -/
theorem adds_enteredState (k r : Nat) (s : Interpreter F) : Adds s (enteredState k r s) := by
  obtain ⟨t, ht⟩ := copyRecursive_built (joinLists s.heap r s.env).2 k
  refine adds_last rfl fun a hlt hle => ht.mem_disposed ?_ ?_
  · rwa [length_joinLists]
  · exact hle.trans (Nat.le_of_eq ((length_joinLists _ _ _).trans sameCells_flagged.1))

variable [CFloat F] {ns : List (Option Text)}

/-- `associate` evaluates the arguments; the bindings it makes are known to the collector. -/
theorem associate_tracked (hrun : RunsAll ev) (hev : TracksAll ev) (hsep : Separated c)
    {params : Nat} (hp : ParamList c.state.heap c.slots params ns)
    (ha : args ≤ c.state.heap.length) :
    wp (associate ev fuel params args) (fun r s => ∃ d bs vs, Linked c d s r bs vs ∧
      Tracked c d ∧ Adds d.state s)
      (fun _ s => ∃ d : Config F, d.state = s ∧ Steps c d) c.state := by
  induction fuel generalizing c params args ns with
  | zero => exact ⟨c, rfl, .refl c⟩
  | succ fuel ih =>
    rw [associate]
    refine wp_get_bind.2 (wp_ite ?_ ?_)
    · intro hstop
      exact wp_pure.2 ⟨c, [], [], .nil c, .refl c, .refl _⟩
    · intro hlists
      simp only [Bool.or_eq_true, Bool.not_eq_true', not_or, Bool.not_eq_false] at hlists
      cases hp with
      | nil => simp [isList, cellAt_zero] at hlists
      | @cons _ next key name ns hp hkey hsp hnext =>
      have hheld : Tracks (holding [params, args] (ev (car c.state.heap args))) := .holding (hev _)
      have hval := hheld.notChecked.run
        (P := fun v s => v ≤ s.heap.length) hsep
        (Runs.notChecked (Runs.holding hrun (c.wf.heap.car_le args))) fun _ _ h => h.value.1
      refine wp_seq hval ?_ fun _ _ h => h
      rintro v _ ⟨d, rfl, hsteps, hv, hbal, ht⟩
      obtain ⟨e, he, hbound, hext, -, -, -, hnext', hbind⟩ := wp_bindArgument_state ev fuel hp hkey
        hsp hnext hsteps hbal hv (ha.trans hsteps.later.evolves.1)
      have hle : cdr d.state.heap args ≤ e.state.heap.length :=
        (d.wf.heap.cdr_le args).trans hext.1
      have hsepd := hsep.steps hsteps
      have hsepe := hsepd.steps hbound
      have hte : Tracked d e := by
        refine (hbound.leaves (by rw [he]; rfl)).tracked hsepd ?_
        rw [he]
        exact (adds_boundState params v d.state).registers
      apply hbind
      refine wp_mono (ih hsepe hnext' hle) ?_ ?_
      · rintro r s ⟨d', bs, vs, hlink, ht', hadds⟩
        refine ⟨d', bs, vs, hlink, fun hlinked => ⟨d', _, _, hlinked, ?_, hadds.trans ?_⟩⟩
        · exact (ht.trans hte hsepd hbound).trans ht' hsepe hlink.steps
        · refine adds_last rfl fun a hlt hle => ?_
          simp only [linkedState, length_alloc] at hle
          exact List.mem_singleton.2 (by omega)
      · rintro _ _ ⟨d', hd', hs''⟩
        exact ⟨d', hd', (hsteps.trans hbound).trans hs''⟩

theorem holding_associate_tracked (hrun : RunsAll ev) (hev : TracksAll ev) (hsep : Separated c)
    {params : Nat} (hp : ParamList c.state.heap c.slots params ns)
    (ha : args ≤ c.state.heap.length) :
    wp (holding os (associate ev fuel params args)) (fun r s => ∃ d bs vs, Linked c d s r bs vs ∧
      Tracked c d ∧ Adds d.state s)
      (fun _ s => ∃ d : Config F, d.state = s ∧ Steps c d) c.state := by
  obtain ⟨c', hc', hrecord, -, -, hrule⟩ := wp_holding_linked_state c os
  have hheap : c'.state.heap = c.state.heap := by rw [hc']
  have hrecorded : Tracked c c' := (hrecord.leaves (by rw [hc'])).tracked hsep
    (hc' ▸ Registers.refl c.state)
  apply hrule
  refine wp_mono (associate_tracked hrun hev (hsep.step hrecord) (hrecord.later.paramList hp)
    (hheap ▸ ha)) ?_ ?_
  · rintro r s ⟨d, bs, vs, hlink, ht, hadds⟩
    refine ⟨d, bs, vs, hlink, fun h => ⟨d, bs, vs, h, ?_, hadds.allocated, hadds.new⟩⟩
    exact hrecorded.trans ht (hsep.step hrecord) hlink.steps
  · rintro e s ⟨d, hd, hs⟩
    exact ⟨d, hd, (Steps.single hrecord).trans hs⟩

theorem tracks_closurePartialApplication {p b k : Nat} {n : Int} {bs₂ : List Binding}
    (hrun : RunsAll ev) (hev : TracksAll ev) (hsep : Separated c)
    (hclosure : cellAt c.state.heap closure = some (.closure p b k n))
    (hp : ParamList c.state.heap c.slots p ns) (hk : EnvList c.state.heap c.slots k bs₂)
    (ha : args ≤ c.state.heap.length) : Runs c (closurePartialApplication ev fuel closure args)
      fun _ d => Balanced c d ∧ Tracked c d := by
  obtain ⟨tp, cp, hrp⟩ := c.wf.heap.readable p hp.le
  obtain ⟨tb, cb, hrb⟩ := c.wf.heap.readable b
    (c.wf.heap.part_le hclosure b (by simp [Cell.parts]))
  obtain ⟨tk, ck, hrk⟩ := c.wf.heap.readable k hk.le
  obtain ⟨c₁, os, hexec, hsteps, hbal, hext, -, -, hrule⟩ :=
    wp_closurePartialApplication_state ev fuel args hclosure hp hk hrp hrb hrk
  obtain ⟨hadds₁, htrace₁⟩ := adds_copyClosure hexec
  have hsep₁ := hsep.steps hsteps
  have ht₁ : Tracked c c₁ :=
    (hsteps.leaves (congrArg Trace.stored htrace₁)).tracked hsep hadds₁.registers
  apply hrule
  refine wp_mono (holding_associate_tracked hrun hev hsep₁ (hsteps.later.paramList hp)
    (ha.trans hext.1)) ?_ ?_
  · rintro r s ⟨e, bs, vs, hl, ht, hadds⟩
    refine ⟨e, bs, vs, hl, fun r' d hv hc hlen hstate => ?_⟩
    have hnew : Adds s d.state := by
      refine adds_last (l := [s.heap.length + 1]) (by rw [hstate]) fun a hlt hle => ?_
      exact List.mem_singleton.2 (by omega)
    have hstored : d.state.trace.stored = e.state.trace.stored := by
      rw [hstate]
      exact hl.same.stored
    have hsepe := hsep₁.steps hl.steps
    have hte : Tracked e d :=
      (hc.action.leaves hstored).tracked hsepe (hadds.trans hnew).registers
    refine ⟨d, rfl, (hsteps.trans hl.steps).tail hc.action, hbal.trans hv.2, ?_⟩
    exact (ht₁.trans ht hsep₁ hl.steps).trans hte hsepe (.single hc.action)
  · rintro e s ⟨d, hd, hs⟩
    exact ⟨d, hd, hsteps.trans hs⟩

/-- The body of a closure runs between the entry to its environment and the return from it. -/
theorem tracks_applyBody {p b k : Nat} {n : Int} {bs₂ : List Binding} (hrun : RunsAll ev)
    (hev : TracksAll ev) (hsep : Separated c)
    (hclosure : cellAt c.state.heap closure = some (.closure p b k n))
    (hp : ParamList c.state.heap c.slots p ns) (hk : EnvList c.state.heap c.slots k bs₂)
    (ha : args ≤ c.state.heap.length) : Runs c (applyBody ev fuel closure args)
      fun _ d => Balanced c d ∧ Tracked c d := by
  have hparams : parameters c.state.heap closure = p := by simp [parameters, hclosure]
  refine (wp_congr (exec_applyBody c.state)).2 ?_
  rw [hparams]
  refine wp_seq (holding_associate_tracked hrun hev hsep hp ha) ?_ fun _ _ h => h
  rintro r s ⟨d, bs, vs, hl, ht, hadds⟩
  have hkd := hl.steps.later.envList hk
  obtain ⟨tk, ck, hrk⟩ := d.wf.heap.readable k hkd.le
  have hcell := hl.steps.later.evolves.closure hclosure
  obtain ⟨e, capBs, he, henter, htop, hbelow, hpending, hsaved, hheld, hext, -, hexec⟩ :=
    linked_enterBody_state hl hcell hkd hrk
  have hsepd := hsep.steps hl.steps
  have hsepe := hsepd.step henter
  have hte : Tracked d e := by
    refine (henter.leaves ?_).tracked hsepd ?_
    · rw [he]
      exact hl.same.stored
    · rw [he]
      exact (hadds.trans (adds_enteredState k r s)).registers
  have hsteps := hl.steps.tail henter
  refine (wp_congr (hexec ev)).2 (wp_seq (hev b e hsepe) ?_ ?_)
  · rintro v _ ⟨e', rfl, hs, hbal, ht'⟩
    obtain ⟨f, hf, hleave, htop', hbelow', hpending', hsaved'⟩ := hbal.left hsaved hbelow
    have hsepe' := hsepe.steps hs
    have htf : Tracked e' f := by
      refine (hleave.leaves (by rw [hf])).tracked hsepe' ?_
      rw [hf]
      exact Registers.refl e'.state
    refine (wp_ok (a := v) (t := f.state) (by rw [hf]; rfl)).2
      ⟨f, rfl, (hsteps.trans hs).tail hleave, ⟨?_, ?_, ?_, ?_, ?_⟩, ?_⟩
    · exact hsaved'.trans hl.saved
    · rw [hf]
      exact (hbal.held.trans hheld).trans hl.held
    · exact hbelow'.trans hl.below
    · exact hpending'.trans hpending
    · exact htop' ▸ hl.top
    · exact ((ht.trans hte hsepd (.single henter)).trans ht' hsepe hs).trans htf hsepe'
        (.single hleave)
  · rintro err _ ⟨e', rfl, hs⟩
    exact ⟨e', rfl, hsteps.trans hs⟩

theorem tracks_primitive (hrun : RunsAll ev) (hev : TracksAll ev) (hsep : Separated c)
    (ha : args ≤ c.state.heap.length) (f : Primitive) :
    Runs c (f.run ev fuel args) fun _ d => Balanced c d ∧ Tracked c d := by
  cases f <;> simp only [Primitive.run, Primitives.add, Primitives.sub, Primitives.mul,
    Primitives.divide, Primitives.mod, Primitives.equal, Primitives.gt, Primitives.gte,
    Primitives.lt, Primitives.lte, Primitives.defmacro]
  case quote => exact tracks_quote c hsep
  case atom => exact tracks_atom hev c hsep
  case eq => exact tracks_eq hev c hsep
  case car => exact tracks_car hev c hsep
  case cdr => exact tracks_cdr hev c hsep
  case cons => exact tracks_cons hrun hev c hsep
  case cond => exact tracks_cond hev c hsep
  case set => exact tracks_set hrun hev c hsep
  case env => exact tracks_env c hsep
  case lambda => exact tracks_lambda hsep ha
  case defmacro => exact Tracks.pure 0 c hsep
  case add => exact tracks_applyArithmetic hev (fun _ _ => .pure _) c hsep
  case sub => exact tracks_applyArithmetic hev (fun _ _ => .pure _) c hsep
  case mul => exact tracks_applyArithmetic hev (fun _ _ => .pure _) c hsep
  case divide => exact tracks_applyArithmetic hev (fun _ _ => .pure _) c hsep
  case mod => exact tracks_applyArithmetic hev tracks_modFloats c hsep
  case equal => exact tracks_compareNumbers hev c hsep
  case gt => exact tracks_compareNumbers hev c hsep
  case gte => exact tracks_compareNumbers hev c hsep
  case lt => exact tracks_compareNumbers hev c hsep
  case lte => exact tracks_compareNumbers hev c hsep

theorem tracks_apply (hrun : RunsAll ev) (hev : TracksAll ev) (hsep : Separated c)
    (ha : args ≤ c.state.heap.length) :
    Runs c (apply ev fuel o args) fun _ d => Balanced c d ∧ Tracked c d := by
  have hzero := Tracks.pure (F := F) 0 c hsep
  unfold apply
  refine Runs.get ?_
  cases hcell : cellAt c.state.heap o with
  | none => exact hzero
  | some k =>
    cases k with
    | primitive f => exact tracks_primitive hrun hev hsep ha f
    | closure p b k n =>
      obtain ⟨⟨ns, hp, -⟩, bs, hk⟩ := c.wf.heap.cells o _ hcell
      refine Runs.ite (fun _ => hzero) fun _ => Runs.ite (fun _ => ?_) fun _ => ?_
      · exact tracks_closurePartialApplication hrun hev hsep hcell hp hk ha
      · exact tracks_applyBody hrun hev hsep hcell hp hk ha
    | _ => exact hzero

theorem tracks_evalStep (hrun : RunsAll ev) (hev : TracksAll ev) : Tracks (evalStep ev fuel o) := by
  intro c hsep
  unfold evalStep
  refine Runs.get (Runs.ite (fun _ => Tracks.pure _ c hsep) fun _ => Runs.ite
    (fun _ => Tracks.pure _ c hsep) fun _ => Runs.ite (fun _ => Tracks.pure _ c hsep) fun _ =>
    Runs.ite (fun _ => Tracks.pure _ c hsep) fun _ => ?_)
  refine Runs.bind (Tracks.holding (hev _) c hsep) fun oper d hs ⟨hb, ht⟩ => Runs.get ?_
  have hsepd := hsep.steps hs
  refine Runs.mono (tracks_apply hrun hev hsepd (d.wf.heap.cdr_le o)) fun v e hs' ⟨hb', ht'⟩ => ?_
  exact ⟨hb.trans hb', ht.trans ht' hsepd hs'⟩

/-- Every evaluation keeps the global environment intact, and accounts for its objects. -/
theorem tracksAll_eval (fuel : Nat) : TracksAll (eval fuel : Nat → Eval F Nat) := by
  induction fuel with
  | zero => exact fun _ => .throw _
  | succ fuel ih =>
    intro o
    unfold eval
    refine .bind (tracks_evalStep (runs_eval fuel) ih) fun v c hsep => ?_
    obtain ⟨d, hd, ha, htop, hbelow, hpending, ht⟩ := Tracks.recorded (c := c)
      (g := fun s => { s with trace.failures := s.trace.failures + if v = 0 then 1 else 0 })
      rfl rfl rfl ⟨rfl, rfl, rfl⟩ hsep
    refine Runs.single_bind (by rw [hd]; rfl) ha (Runs.pure ⟨⟨?_, ?_, hbelow, hpending, ?_⟩, ht⟩)
    · rw [hd]
    · rw [hd]
    · exact htop ▸ List.suffix_rfl

end calls
end Lisp
