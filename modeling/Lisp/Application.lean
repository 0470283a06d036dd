import Lisp.Association

/-! Calls of closures: with some of their arguments, and with all of them. -/
namespace Lisp
open ExceptState
variable {F : Type} {c d e : Config F} {s : Interpreter F} {ev : Nat → Eval F Nat}
  {a args closure o p b k r v fuel : Nat} {n : Int} {ns : List (Option Text)} {t tp tb tk : Obj F}
  {bs bs₂ : List Binding} {cs cp cb ck vs : List Nat}

section copies
variable {g : Heap F → Nat}

/-- A copy that the collector knows. -/
structure Copied (c : Config F) (t : Obj F) (r : Nat) (d : Config F) : Prop where
  action : Action c d
  balanced : Balanced c d
  top : d.top = c.top
  heap : Extends c.state.heap d.state.heap
  env : d.state.env = c.state.env
  reads : ∃ cs, Reads d.state.heap r t cs ∧ cs.Nodup ∧ ∀ a ∈ cs, c.state.heap.length < a

theorem exec_copied (hr : Reads c.state.heap (g c.state.heap) t cs) : ∃ r d, Copied c t r d ∧
    ∀ {α : Type} (f : Nat → Eval F α), exec (do
      let r ← onHeap fun h => copyRecursive h (g h)
      gcAddRecursive r
      f r) c.state = exec (f r) d.state := by
  have hcopy := hr.copyRecursive
  have hok := c.wf.heap.cells.tree hr
  rw [hok.copied] at hcopy
  generalize hq : copyRecursive c.state.heap (g c.state.heap) = q at hcopy
  obtain ⟨cs, hread, hnodup, hfresh⟩ := hcopy.fresh
  have hall : Extends c.state.heap (flagged q.2 q.1) := by
    refine hcopy.1.foldl_update fun a ha => ?_
    rw [hread.disposed] at ha
    exact (hfresh a ha).1
  have hext : Extended c { c.state with
      heap := flagged q.2 q.1, allocated := c.state.allocated ++ disposed q.2 q.1 } := by
    refine ⟨⟨hall, disposed q.2 q.1, rfl, ?_⟩, ?_, rfl, rfl⟩
    · rw [hread.disposed, sameCells_flagged.1]
      exact ⟨hnodup, hfresh⟩
    · exact (c.wf.heap.built hcopy hok fun a ha => slots_le c ha).sameCells sameCells_flagged
  obtain ⟨d, hd, ha, hbal, htop⟩ := hext.reached
  refine ⟨q.1, d, ⟨ha, hbal, htop, ?_, ?_, cs, ?_, hnodup, fun a ha => (hfresh a ha).1⟩, ?_⟩
  · rw [hd]
    exact hall
  · rw [hd]
  · rw [hd]
    exact hread.sameCells sameCells_flagged
  · intro α f
    rw [hd]
    subst hq
    rfl

theorem Copied.steps (h : Copied c t r d) : Steps c d := .single h.action

theorem Copied.not_slots (h : Copied c t r d) :
    ∃ cs, Reads d.state.heap r t cs ∧ cs.Nodup ∧ ∀ a ∈ cs, ¬d.slots a := by
  obtain ⟨cs, hr, hnodup, hfresh⟩ := h.reads
  refine ⟨cs, hr, hnodup, fun a ha hs => ?_⟩
  have hslots : d.slots = c.slots := by
    unfold Config.slots
    rw [h.top, h.balanced.pending]
  have := slots_le c (hslots ▸ hs)
  have := hfresh a ha
  omega

/-- A copy stays as it is: no part of it becomes a slot. -/
theorem Copied.later (h : Copied c t r d) (hs : Steps d e) :
    ∃ cs, Reads e.state.heap r t cs ∧ cs.Nodup ∧ ∀ a ∈ cs, ¬e.slots a := by
  obtain ⟨cs, hr, hnodup, hcs⟩ := h.not_slots
  obtain ⟨hr', hcs'⟩ := hs.later.reads hr hcs
  exact ⟨cs, hr', hnodup, hcs'⟩

end copies

section partialApplication

/-- What a call with too few arguments returns: a closure `r` for the other parameters, which
captures the bindings `bs` to the values `vs` in front of the captured list. -/
structure Curried (ev : Nat → Eval F Nat) (c : Config F) (tp tb tk : Obj F)
    (ns : List (Option Text)) (args missing r : Nat) (d : Config F) : Prop where
  value : Value c r d
  closure : ∃ (c₁ e : Config F) (bs bs₂ : List Binding) (vs cp cb ck : List Nat)
    (params proc captured rest : Nat),
    Steps c c₁ ∧ Extends c.state.heap c₁.state.heap ∧ c₁.top = c.top ∧
    Associates ev c₁ ns args bs vs e ∧ Steps e d ∧ Extends e.state.heap d.state.heap ∧
    cellAt d.state.heap r = some (.closure params proc captured (tp.drop missing).paramCount) ∧
    Reads d.state.heap params (tp.drop missing) cp ∧ Reads d.state.heap proc tb cb ∧
    EnvList d.state.heap d.slots captured (bs ++ bs₂) ∧
    Reads d.state.heap rest tk ck ∧ EnvList d.state.heap d.slots rest bs₂ ∧
    List.Forall₂ (fun b v => cellAt d.state.heap b.slot = some (.list v 0)) bs vs

/-- The closure `r` that is made in `d` once the first arguments are bound in `e`. -/
structure PartialClosure (e d : Config F) (tp tb tk : Obj F) (missing : Nat) (bs : List Binding)
    (vs : List Nat) (r : Nat) : Prop where
  action : Action e d
  heap : Extends e.state.heap d.state.heap
  env : d.state.env = e.state.env
  fields : ∃ (bs₂ : List Binding) (cp cb ck : List Nat) (params proc captured rest : Nat),
    cellAt d.state.heap r = some (.closure params proc captured (tp.drop missing).paramCount) ∧
    Reads d.state.heap params (tp.drop missing) cp ∧ Reads d.state.heap proc tb cb ∧
    EnvList d.state.heap d.slots captured (bs ++ bs₂) ∧
    Reads d.state.heap rest tk ck ∧ EnvList d.state.heap d.slots rest bs₂ ∧
    List.Forall₂ (fun b v => cellAt d.state.heap b.slot = some (.list v 0)) bs vs

/-- The first part of `closurePartialApplication`: copies of what the new closure keeps. -/
def copyClosure (closure args : Nat) : Eval F (List Nat) := do
  let s ← get
  let nargs := listLength s.heap args
  let params ← onHeap fun h => copyRecursive h (sublist h (parameters h closure) nargs)
  gcAddRecursive params
  let procedure ← onHeap fun h => copyRecursive h (procedure h closure)
  gcAddRecursive procedure
  let captCopy ← onHeap fun h => copyRecursive h (captured h closure)
  gcAddRecursive captCopy
  return [params, procedure, captCopy]

/-- `closure_partial_application` copies the closure, evaluates the arguments and makes the new
closure. -/
theorem wp_closurePartialApplication_state (ev : Nat → Eval F Nat) (fuel args : Nat) [CFloat F]
    (hclosure : cellAt c.state.heap closure = some (.closure p b k n))
    (hp : ParamList c.state.heap c.slots p ns) (hk : EnvList c.state.heap c.slots k bs₂)
    (hrp : Reads c.state.heap p tp cp) (hrb : Reads c.state.heap b tb cb)
    (hrk : Reads c.state.heap k tk ck) :
    ∃ (c₁ : Config F) (os : List Nat),
      exec (copyClosure closure args) c.state = (.ok os, c₁.state) ∧ Steps c c₁ ∧
      Balanced c c₁ ∧ Extends c.state.heap c₁.state.heap ∧ c₁.state.env = c.state.env ∧
      c₁.top = c.top ∧
      ∀ {P : Nat → Interpreter F → Prop} {E : Halt → Interpreter F → Prop},
        wp (holding os (associate ev fuel p args)) (fun r s => ∃ e bs vs, Linked c₁ e s r bs vs ∧
          ∀ r' d, Value c₁ r' d →
            PartialClosure e d tp tb tk (listLength c.state.heap args) bs vs r' →
            d.state.heap.length = s.heap.length + 1 →
            d.state = { s with
              heap := d.state.heap
              allocated := s.allocated ++ [s.heap.length + 1] } → P r' d.state)
          E c₁.state →
        wp (closurePartialApplication ev fuel closure args) P E c.state := by
  have h0 : closure ≠ 0 := Nat.pos_iff_ne_zero.1 (cellAt_le hclosure).1
  have hfields : ∀ {d : Config F}, Extends c.state.heap d.state.heap →
      parameters d.state.heap closure = p ∧ procedure d.state.heap closure = b ∧
        captured d.state.heap closure = k := by
    intro d hd
    simp only [parameters, procedure, captured, hd.cellAt hclosure, and_self]
  obtain ⟨cd, hdrop⟩ := hrp.sublist (listLength c.state.heap args)
  obtain ⟨params, c₁, h₁, hexec₁⟩ := exec_copied
    (g := fun h => sublist h (parameters h closure) (listLength c.state.heap args))
    (by rw [(hfields (.refl _)).1]; exact hdrop)
  obtain ⟨proc, c₂, h₂, hexec₂⟩ := exec_copied (g := fun h => procedure h closure)
    (by rw [(hfields h₁.heap).2.1]; exact hrb.mono h₁.heap)
  have hext₂ := h₁.heap.trans h₂.heap
  obtain ⟨captCopy, c₃, h₃, hexec₃⟩ := exec_copied (g := fun h => captured h closure)
    (by rw [(hfields hext₂).2.2]; exact hrk.mono hext₂)
  have hext₃ := hext₂.trans h₃.heap
  have hsteps₃ : Steps c c₃ := (h₁.steps.trans h₂.steps).trans h₃.steps
  have hbal₃ := (h₁.balanced.trans h₂.balanced).trans h₃.balanced
  refine ⟨c₃, [params, proc, captCopy], ?_, hsteps₃, hbal₃, hext₃,
    h₃.env.trans (h₂.env.trans h₁.env), h₃.top.trans (h₂.top.trans h₁.top), ?_⟩
  · rw [copyClosure, exec_get_bind, hexec₁, hexec₂, hexec₃]
    rfl
  intro P E hassoc
  unfold Lisp.closurePartialApplication
  refine wp_get_bind.2 ?_
  simp only [h0, if_false]
  refine (wp_congr (hexec₁ _)).2 ((wp_congr (hexec₂ _)).2 ((wp_congr (hexec₃ _)).2 ?_))
  refine wp_get_bind.2 ?_
  rw [(hfields hext₃).1]
  refine wp_seq hassoc ?_ fun _ _ h => h
  rintro newBindings s ⟨e, bs, vs, hl, hP⟩
  obtain ⟨cd', hparams, -, hcd⟩ := h₁.later ((h₂.steps.trans h₃.steps).trans hl.steps)
  obtain ⟨cb', hproc, -, -⟩ := h₂.later (h₃.steps.trans hl.steps)
  obtain ⟨ck', hcapt, hnodup, hck⟩ := h₃.later hl.steps
  obtain ⟨bs', hnames, -, -, hlist⟩ := (hk.tree hrk).list hcapt hnodup
  have hcaptured := hlist e.slots fun a ha hs => absurd hs (hck a ha)
  obtain ⟨hjoin, hok, hext, hlen⟩ := hl.joined hcaptured
  generalize hq : joinLists s.heap newBindings captCopy = q at hjoin hok hext hlen
  have hdropped := ((hp.tree hrp).drop (listLength c.state.heap args)).list hparams hcd
  have hnew := newClosureSet_eq (b := proc) (c := q.1) (hparams.mono hext)
  have hext' := extends_alloc q.2 (.closure params proc q.1
    (tp.drop (listLength c.state.heap args)).paramCount)
  have hall : Allocates e.state { s with
      heap := (alloc q.2 (.closure params proc q.1
        (tp.drop (listLength c.state.heap args)).paramCount)).2
      allocated := s.allocated ++ [q.2.length + 1] } := by
    refine hl.more (hext.trans hext') ?_ ⟨[q.2.length + 1], rfl, List.nodup_singleton _, ?_⟩
    · rw [← hlen]
      exact hext'.1
    · intro a ha
      rw [List.mem_singleton.1 ha, length_alloc]
      omega
  have hdropTree := (hp.tree hrp).drop (listLength c.state.heap args)
  have hokc : HeapOk (alloc q.2 (.closure params proc q.1
      (tp.drop (listLength c.state.heap args)).paramCount)).2 e.slots := by
    refine hok.alloc ?_ ⟨⟨_, hdropped.evolves hext.evolves, ParamTree_names hdropTree⟩, _, hjoin⟩
    have h1 := (hparams.mono hext).valid.1
    have h2 := (hproc.mono hext).valid.1
    have h3 := hjoin.le
    simpa [Cell.parts] using ⟨h1, h2, h3⟩
  obtain ⟨d, hd, hact, hbal, htop, hpend⟩ := hl.captured hall hokc rfl rfl
  have hheap : d.state.heap = (alloc q.2 (.closure params proc q.1
      (tp.drop (listLength c.state.heap args)).paramCount)).2 := by rw [hd]
  have hexte : Extends e.state.heap d.state.heap := hheap ▸ hext.trans hext'
  have hextq : Extends q.2 d.state.heap := hheap ▸ hext'
  have hslots : ∀ a, d.slots a → e.slots a := by
    intro a ha
    rcases ha with ha | ha
    · exact Or.inl (htop ▸ ha)
    · refine Or.inr ?_
      rw [hl.pending]
      exact List.mem_append_right _ (hpend ▸ ha)
  have henv : d.state.env = e.state.env := by
    rw [hd]
    exact hl.env
  refine (wp_ok (a := q.2.length + 1) (t := d.state) ?_).2 (hP _ d ⟨?_, hbal⟩ ⟨hact, hexte, henv,
    bs', _, _, _, params, proc, q.1, captCopy, ?_, hparams.mono hexte, hproc.mono hexte, ?_,
    hcapt.mono hexte, ?_, ?_⟩ ?_ ?_)
  · rw [hd]
    simp only [exec_onHeap_bind, hq, hnew, exec_gcAdd_bind, exec_pure, alloc_fst]
  · rw [hheap, length_alloc]
  · rw [hheap]
    exact cellAt_alloc _ _
  · exact (hjoin.weaken fun a _ ha => hslots a ha).evolves hextq.evolves
  · exact (hcaptured.weaken fun a _ ha => hslots a ha).evolves hexte.evolves
  · exact hl.values.imp fun b v hv => hexte.cellAt hv
  · rw [hheap, length_alloc, hlen]
  · rw [hd, hlen]

theorem wp_closurePartialApplication (ev : Nat → Eval F Nat) (fuel args : Nat) [CFloat F]
    (hclosure : cellAt c.state.heap closure = some (.closure p b k n))
    (hp : ParamList c.state.heap c.slots p ns) (hk : EnvList c.state.heap c.slots k bs₂)
    (hrp : Reads c.state.heap p tp cp) (hrb : Reads c.state.heap b tb cb)
    (hrk : Reads c.state.heap k tk ck) :
    ∃ (c₁ : Config F) (os : List Nat),
      exec (copyClosure closure args) c.state = (.ok os, c₁.state) ∧ Steps c c₁ ∧
      Balanced c c₁ ∧ Extends c.state.heap c₁.state.heap ∧ c₁.state.env = c.state.env ∧
      c₁.top = c.top ∧
      ∀ {P : Nat → Interpreter F → Prop} {E : Halt → Interpreter F → Prop},
        wp (holding os (associate ev fuel p args)) (fun r s => ∃ e bs vs, Linked c₁ e s r bs vs ∧
          ∀ r' d, Value c₁ r' d →
            PartialClosure e d tp tb tk (listLength c.state.heap args) bs vs r' → P r' d.state)
          E c₁.state →
        wp (closurePartialApplication ev fuel closure args) P E c.state := by
  obtain ⟨c₁, os, hexec, hs, hbal, hext, henv, htop, hrule⟩ :=
    wp_closurePartialApplication_state ev fuel args hclosure hp hk hrp hrb hrk
  refine ⟨c₁, os, hexec, hs, hbal, hext, henv, htop, fun hassoc => hrule (wp_mono hassoc ?_ ?_)⟩
  · rintro r s ⟨e, bs, vs, hl, hP⟩
    exact ⟨e, bs, vs, hl, fun r' d hv hc _ _ => hP r' d hv hc⟩
  · exact fun _ _ h => h

theorem Runs.closurePartialApplication [CFloat F] (hev : RunsAll ev)
    (hclosure : cellAt c.state.heap closure = some (.closure p b k n))
    (hp : ParamList c.state.heap c.slots p ns) (hk : EnvList c.state.heap c.slots k bs₂)
    (hrp : Reads c.state.heap p tp cp) (hrb : Reads c.state.heap b tb cb)
    (hrk : Reads c.state.heap k tk ck) (ha : args ≤ c.state.heap.length) :
    Runs c (closurePartialApplication ev fuel closure args)
      (Curried ev c tp tb tk ns args (listLength c.state.heap args)) := by
  obtain ⟨c₁, os, -, hsteps, hbal, hext, henv, htop, hrule⟩ :=
    wp_closurePartialApplication ev fuel args hclosure hp hk hrp hrb hrk
  apply hrule
  refine wp_mono (holding_associate hev (hsteps.later.paramList hp) (ha.trans hext.1)) ?_ ?_
  · rintro r s ⟨e, bs, vs, hl, hassoc⟩
    refine ⟨e, bs, vs, hl, fun r' d hv hc => ?_⟩
    obtain ⟨bs₂, cp, cb, ck, params, proc, captured, rest, hcell, hparams, hproc, hcapt, hrest,
      hrestEnv, hvalues⟩ := hc.fields
    exact ⟨d, rfl, (hsteps.trans hl.steps).tail hc.action, ⟨hv.1, hbal.trans hv.2⟩, c₁, e, bs, bs₂,
      vs, cp, cb, ck, params, proc, captured, rest, hsteps, hext, htop, hassoc, .single hc.action,
      hc.heap, hcell, hparams, hproc, hcapt, hrest, hrestEnv, hvalues⟩
  · rintro err s ⟨d, hd, hs⟩
    exact ⟨d, hd, hsteps.trans hs⟩

end partialApplication

section body

/-- A copy of the captured list in front of another list. -/
theorem captured_joined {h : Heap F} {S : Nat → Prop} {e₂ : Nat} {q g : Nat × Heap F}
    {names : List (Option Text)} (hh : HeapOk h S) (hS : ∀ a, S a → a ≤ h.length)
    (h₂ : EnvList h S e₂ bs₂) (htree : tk.EnvTree names) (hrk : Reads h k tk ck)
    (hq : copyRecursive h k = q) (hg : joinLists (flagged q.2 q.1) q.1 e₂ = g) :
    (disposed q.2 q.1).Nodup ∧ (∀ a ∈ disposed q.2 q.1, h.length < a ∧ a ≤ g.2.length) ∧
    Extends h g.2 ∧ ∃ capBs : List Binding, (capBs.map Binding.slot).Nodup ∧
      (∀ b ∈ capBs, h.length < b.slot) ∧ bindingTrees g.2 capBs = tk.bindings ∧
      ∀ S' : Nat → Prop, (∀ b ∈ capBs, S' b.slot) →
        (∀ a, h.length < a → S' a → a ∈ capBs.map Binding.slot) →
        (∀ a ≤ h.length, S' a → S a) →
        EnvList g.2 S' g.1 (capBs ++ bs₂) ∧ HeapOk g.2 S' := by
  have hokTree := hh.cells.tree hrk
  have hcopy := hrk.copyRecursive
  rw [hokTree.copied, hq] at hcopy
  obtain ⟨cs, hread, hnodup, hfresh⟩ := hcopy.fresh
  have hsame : SameCells q.2 (flagged q.2 q.1) := sameCells_flagged
  have hread' := hread.sameCells hsame
  have hokG := (hh.built hcopy hokTree hS).sameCells hsame
  have hext : Extends h (flagged q.2 q.1) := by
    refine hcopy.1.foldl_update fun a ha => ?_
    rw [hread.disposed] at ha
    exact (hfresh a ha).1
  obtain ⟨capBs, -, hslots, hmem, hlist⟩ := htree.list hread' hnodup
  have hnew : ∀ b ∈ capBs, h.length < b.slot := fun b hb =>
    (hfresh _ (hmem _ (List.mem_map_of_mem hb))).1
  have hmemCs : ∀ a c, h.length < a → cellAt (flagged q.2 q.1) a = some c → a ∈ cs := by
    intro a c hlt hc
    have hle := (cellAt_le hc).2
    rw [hsame.1] at hle
    rw [← (hcopy.2.unique hread).2, List.mem_range'_1]
    have := hcopy.1.1
    omega
  have hjoined : ∀ S' : Nat → Prop, (∀ b ∈ capBs, S' b.slot) →
      (∀ a, h.length < a → S' a → a ∈ capBs.map Binding.slot) → (∀ a ≤ h.length, S' a → S a) →
      EnvList g.2 S' g.1 (capBs ++ bs₂) ∧ HeapOk g.2 S' ∧ Extends h g.2 ∧
        g.2.length = (flagged q.2 q.1).length := by
    intro S' hcapS hnewS holdS
    have hcap := hlist S' fun a ha hs => hnewS a (hfresh a ha).1 hs
    have hownS : ∀ a ∈ cs, S' a → a ∈ capBs.map Binding.slot :=
      fun a ha hs => hnewS a (hfresh a ha).1 hs
    have hold : ∀ a c, a ≤ h.length → cellAt (flagged q.2 q.1) a = some c →
        ∀ h', Extends h h' → CellOk h' S' c := by
      intro a c ha hc h' hh'
      rw [hext.cell ha] at hc
      exact ((hh.cells a c hc).weaken holdS).evolves hh'.evolves
    have hokS : HeapOk (flagged q.2 q.1) S' := by
      refine ⟨hokG.readable, fun a c hc => ?_⟩
      rcases Nat.lt_or_ge h.length a with hlt | hle
      · exact hcap.cells hokTree hread' hnodup hownS a (hmemCs a c hlt hc) c hc
      · exact hold a c hle hc _ hext
    have hspine : ∀ z, LastCell (flagged q.2 q.1) q.1 z → h.length < z :=
      fun z hz => (hfresh z (hz.mem hread')).1
    rw [← hg]
    refine hcap.joined hokS hcapS ((h₂.weaken holdS).evolves hext.evolves) hext hspine ?_ ?_
    · intro z t₂ c₂ hz hr hmem
      obtain ⟨t, c, hrh⟩ := hh.readable e₂ h₂.le
      obtain ⟨-, rfl⟩ := (hrh.mono hext).unique hr
      have := (hrh.valid.2 z hmem).2
      have := hspine z hz
      omega
    · intro z a c hz hne hc
      rcases Nat.lt_or_ge h.length a with hlt | hle
      · exact hcap.cells_linked hokTree hread' hnodup hz hownS a (hmemCs a c hlt hc) c hne hc
      · exact hold a c hle hc _ (hext.linked (hspine z hz))
  have hslotS : ∀ b ∈ capBs, b.slot ∈ capBs.map Binding.slot :=
    fun b hb => List.mem_map_of_mem hb
  have hcapEnv := hlist (fun a => a ∈ capBs.map Binding.slot) fun a _ hs => hs
  obtain ⟨-, -, hextg, hleng⟩ := hjoined (fun a => a ∈ capBs.map Binding.slot) hslotS
    (fun a _ hs => hs) (fun a ha hs => by
      obtain ⟨b, hb, rfl⟩ := List.mem_map.1 hs
      have := hnew b hb
      omega)
  refine ⟨hread.disposed ▸ hnodup, ?_, hextg, capBs, hslots, hnew, ?_, ?_⟩
  · intro a ha
    rw [hread.disposed] at ha
    rw [hleng, hsame.1]
    exact hfresh a ha
  · rw [← hg, hcapEnv.bindingTrees_joined hread' hnodup hslotS, hcapEnv.bindings hread']
  · intro S' h1 h2 h3
    obtain ⟨he, hok, -, -⟩ := hjoined S' h1 h2 h3
    exact ⟨he, hok⟩

/-- The environment of the body: the captured bindings, those of the arguments, and the
environment of the call. -/
theorem Linked.entered {f q g : Nat × Heap F} (h : Linked c d s r bs vs)
    (hk : EnvList d.state.heap d.slots k bs₂) (hrk : Reads d.state.heap k tk ck)
    (hf : joinLists s.heap r s.env = f) (hq : copyRecursive f.2 k = q)
    (hg : joinLists (flagged q.2 q.1) q.1 f.1 = g) :
    ∃ (e : Config F) (capBs : List Binding),
      e.state = { s with
        heap := g.2
        env := g.1
        allocated := s.allocated ++ disposed q.2 q.1
        trace.saved := s.env :: s.trace.saved } ∧
      Action d e ∧ e.top = capBs ++ bs ++ d.top ∧ e.below = d.top :: d.below ∧
      e.pending = c.pending ∧ Extends d.state.heap e.state.heap ∧
      bindingTrees e.state.heap capBs = tk.bindings := by
  obtain ⟨henvF, hokF, hextF, hlenF⟩ := h.joined (h.env ▸ d.wf.env)
  rw [hf] at henvF hokF hextF hlenF
  have hslotsF : ∀ a, d.slots a → a ≤ f.2.length := fun a ha => (slots_le d ha).trans hextF.1
  obtain ⟨hnodup, hregs, hextG, capBs, hcapNodup, hcapNew, htrees, hslots⟩ :=
    captured_joined hokF hslotsF henvF (hk.tree hrk) (hrk.mono hextF) hq hg
  have hext := hextF.trans hextG
  have hbs : ∀ b ∈ bs, b.slot ∈ d.pending := by
    intro b hb
    simp [h.pending, List.mem_map_of_mem hb]
  have hpending : ∀ a ∈ c.pending, a ∈ d.pending := by
    intro a ha
    simp [h.pending, ha]
  have hcases : ∀ a, Slots (capBs ++ bs ++ d.top) c.pending a →
      a ∈ capBs.map Binding.slot ∨ d.slots a := by
    intro a ha
    rcases ha with ha | ha
    · obtain ⟨b, hb, rfl⟩ := List.mem_map.1 ha
      rcases List.mem_append.1 hb with hb | hb
      · rcases List.mem_append.1 hb with hb | hb
        · exact Or.inl (List.mem_map_of_mem hb)
        · exact Or.inr (Or.inr (hbs b hb))
      · exact Or.inr (Or.inl (List.mem_map_of_mem hb))
    · exact Or.inr (Or.inr (hpending a ha))
  have hold : ∀ a ≤ f.2.length, Slots (capBs ++ bs ++ d.top) c.pending a → d.slots a := by
    intro a ha hs
    rcases hcases a hs with hs | hs
    · obtain ⟨b, hb, rfl⟩ := List.mem_map.1 hs
      have := hcapNew b hb
      omega
    · exact hs
  obtain ⟨henvG, hokG⟩ := hslots (Slots (capBs ++ bs ++ d.top) c.pending)
    (fun b hb => Or.inl (List.mem_map_of_mem (by simp [hb])))
    (fun a ha hs => by
      rcases hcases a hs with hs | hs
      · exact hs
      · have := hslotsF a hs
        omega) hold
  have hwf : WellFormed { s with
      heap := g.2
      env := g.1
      allocated := s.allocated ++ disposed q.2 q.1
      trace.saved := s.env :: s.trace.saved } (capBs ++ bs ++ d.top) (d.top :: d.below)
      c.pending := by
    have hout : ∀ {e bs'}, EnvList d.state.heap d.slots e bs' →
        EnvList g.2 (Slots (capBs ++ bs ++ d.top) c.pending) e bs' := fun he =>
      (he.weaken fun a ha hs => hold a (ha.trans hextF.1) hs).evolves hext.evolves
    refine ⟨hokG, ?_, ?_, ?_, ?_, ?_⟩
    · rw [← List.append_assoc] at henvG
      exact henvG
    · rw [h.env, h.same.saved]
      exact .cons (hout d.wf.env) (d.wf.saved.imp fun _ _ he => hout he)
    · exact List.isChain_cons_cons.2 ⟨List.suffix_append _ _, d.wf.suffixes⟩
    · have hperm : (bs.map Binding.slot ++ d.top.map Binding.slot ++ c.pending).Perm
          (d.top.map Binding.slot ++ d.pending) := by
        rw [h.pending, ← List.append_assoc]
        refine List.Perm.append_right _ (List.perm_append_comm.trans ?_)
        exact List.Perm.append_left _ (List.reverse_perm _).symm
      have hrest := hperm.nodup_iff.2 d.wf.nodup
      rw [List.map_append, List.map_append, List.append_assoc, List.append_assoc,
        ← List.append_assoc (bs.map Binding.slot), List.nodup_append]
      refine ⟨hcapNodup, hrest, ?_⟩
      intro a ha b hb
      obtain ⟨b', hb', rfl⟩ := List.mem_map.1 ha
      have := hcapNew b' hb'
      have := hslotsF b (List.mem_append.1 (hperm.subset hb))
      omega
    · intro a ha
      obtain ⟨w, hw⟩ := d.wf.pending a (hpending a ha)
      exact ⟨w, hext.cellAt hw⟩
  refine ⟨⟨_, _, _, _, hwf⟩, capBs, rfl, .enter ?_ ?_ ?_ h.same.stored
    h.same.overwrites rfl rfl hpending, rfl, rfl, rfl, hext, htrees⟩
  · refine h.more hext (hlenF ▸ hextG.1) ⟨disposed q.2 q.1, rfl, hnodup, ?_⟩
    intro a ha
    rw [← hlenF]
    exact hregs a ha
  · intro b hb
    rcases List.mem_append.1 hb with hb | hb
    · have := hcapNew b hb
      have := hextF.1
      exact Or.inr (by omega)
    · exact Or.inl (hbs b hb)
  · exact congrArg₂ _ h.env h.same.saved

/-- What a call with all the arguments returns: the value of the body in the environment of the
captured bindings, those of the arguments and those of the call. -/
structure Called (ev : Nat → Eval F Nat) (c : Config F) (ns : List (Option Text))
    (closure args b r : Nat) (f : Config F) : Prop where
  value : Value c r f
  body : ∃ (d e e' : Config F) (bs capBs : List Binding) (vs : List Nat),
    Associates ev c ns args bs vs d ∧ Steps c d ∧ Action d e ∧ e.top = capBs ++ bs ++ d.top ∧
    Extends d.state.heap e.state.heap ∧
    bindingTrees e.state.heap capBs =
      (treeOf d.state.heap (captured d.state.heap closure)).bindings ∧
    List.Forall₂ (fun b v => cellAt e.state.heap b.slot = some (.list v 0)) bs vs ∧
    exec (ev b) e.state = (.ok r, e'.state) ∧ Steps e e' ∧ Action e' f ∧
    f.state.heap = e'.state.heap

/-- The end of the body. -/
theorem Balanced.left {e' : Config F} (h : Balanced e e')
    (hsaved : e.state.trace.saved = d.state.env :: d.state.trace.saved)
    (hbelow : e.below = d.top :: d.below) :
    ∃ f : Config F, f.state = { e'.state with
        env := d.state.env, trace.saved := e'.state.trace.saved.tail } ∧
      Action e' f ∧ f.top = d.top ∧ f.below = d.below ∧ f.pending = e.pending ∧
      f.state.trace.saved = d.state.trace.saved := by
  have hb := h.below.trans hbelow
  have hs := h.saved.trans hsaved
  have hchain := e'.wf.suffixes
  rw [hb] at hchain
  obtain ⟨hsuffix, hrest⟩ := List.isChain_cons_cons.1 hchain
  have hslots : ∀ a ≤ e'.state.heap.length, Slots d.top e'.pending a → e'.slots a := by
    intro a _ ha
    rcases ha with ha | ha
    · obtain ⟨x, hx, rfl⟩ := List.mem_map.1 ha
      exact Or.inl (List.mem_map_of_mem (hsuffix.subset hx))
    · exact Or.inr ha
  have hforall := e'.wf.saved
  rw [hb, hs] at hforall
  obtain ⟨henv, hrestEnv⟩ := List.forall₂_cons.1 hforall
  have hwf : WellFormed { e'.state with
      env := d.state.env, trace.saved := e'.state.trace.saved.tail } d.top d.below e'.pending := by
    refine ⟨e'.wf.heap.weaken hslots, henv.weaken hslots, ?_, hrest, ?_, e'.wf.pending⟩
    · show List.Forall₂ _ e'.state.trace.saved.tail d.below
      rw [hs]
      exact hrestEnv.imp fun _ _ he => he.weaken hslots
    · exact e'.wf.nodup.sublist ((hsuffix.sublist.map _).append_right _)
  refine ⟨⟨_, _, _, _, hwf⟩, rfl, .leave rfl rfl ?_ rfl rfl hb rfl, rfl, rfl, h.pending, ?_⟩
  · show e'.state.trace.saved = d.state.env :: e'.state.trace.saved.tail
    rw [hs, List.tail_cons]
  · show e'.state.trace.saved.tail = d.state.trace.saved
    rw [hs, List.tail_cons]

/-- The evaluation of a body, and the return to the environment `env`. -/
def leaving (env : Nat) (body : Eval F Nat) : Eval F Nat := do
  let r ← body
  modify fun s => { s with env := env, trace.saved := s.trace.saved.tail }
  return r

/-- `applyBody` once the arguments are bound. -/
def enterBody (ev : Nat → Eval F Nat) (closure frame : Nat) : Eval F Nat := do
  let s ← get
  let tmpEnv ← onHeap fun h => joinLists h frame s.env
  let captureCopy ← onHeap fun h => copyRecursive h (captured h closure)
  gcAddRecursive captureCopy
  let newEnv ← onHeap fun h => joinLists h captureCopy tmpEnv
  let s ← get
  inEnvironment newEnv (ev (procedure s.heap closure))

theorem exec_enterBody {f q g : Nat × Heap F} (hf : joinLists s.heap r s.env = f)
    (hq : copyRecursive f.2 (captured f.2 closure) = q)
    (hg : joinLists (flagged q.2 q.1) q.1 f.1 = g) :
    exec (enterBody ev closure r) s = exec (leaving s.env (ev (procedure g.2 closure))) { s with
        heap := g.2
        env := g.1
        allocated := s.allocated ++ disposed q.2 q.1
        trace.saved := s.env :: s.trace.saved } := by
  simp only [enterBody, leaving, exec_get_bind, exec_onHeap_bind, exec_gcAddRecursive_bind,
    inEnvironment, exec_modify_bind, hf, hq, hg]

theorem exec_applyBody (s : Interpreter F) :
    exec (applyBody ev fuel closure args) s = exec (do
      let frame ← holding [closure] (associate ev fuel (parameters s.heap closure) args)
      enterBody ev closure frame) s := by
  simp only [applyBody, exec_get_bind, holding, Lisp.bind, bind_assoc, pure_bind, exec_modify_bind]
  rw [exec_bind, exec_bind]
  rcases exec (associate ev fuel (parameters s.heap closure) args) _ with ⟨e | v, t⟩ <;> rfl

/-- The state in which the body of a closure that captures `k` starts, once its arguments are bound
in `r`. -/
def enteredState (k r : Nat) (s : Interpreter F) : Interpreter F :=
  let tmp := joinLists s.heap r s.env
  let copy := copyRecursive tmp.2 k
  let new := joinLists (flagged copy.2 copy.1) copy.1 tmp.1
  { s with
    heap := new.2
    env := new.1
    allocated := s.allocated ++ disposed copy.2 copy.1
    trace.saved := s.env :: s.trace.saved }

theorem linked_enterBody_state (h : Linked c d s r bs vs)
    (hclosure : cellAt d.state.heap closure = some (.closure p b k n))
    (hk : EnvList d.state.heap d.slots k bs₂) (hrk : Reads d.state.heap k tk ck) :
    ∃ (e : Config F) (capBs : List Binding), e.state = enteredState k r s ∧ Action d e ∧
      e.top = capBs ++ bs ++ d.top ∧ e.below = d.top :: d.below ∧ e.pending = c.pending ∧
      e.state.trace.saved = d.state.env :: d.state.trace.saved ∧
      e.state.trace.held = s.trace.held ∧
      Extends d.state.heap e.state.heap ∧ bindingTrees e.state.heap capBs = tk.bindings ∧
      ∀ ev, exec (enterBody ev closure r) s = exec (leaving d.state.env (ev b)) e.state := by
  have hextF := (h.joined (h.env ▸ d.wf.env)).2.2.1
  generalize hf : joinLists s.heap r s.env = f at hextF
  have hcapt : captured f.2 closure = k := by simp [captured, hextF.cellAt hclosure]
  generalize hq : copyRecursive f.2 k = q
  generalize hg : joinLists (flagged q.2 q.1) q.1 f.1 = g
  obtain ⟨e, capBs, he, henter, htop, hbelow, hpending, hext, htrees⟩ := h.entered hk hrk hf hq hg
  have hproc : procedure g.2 closure = b := by
    have hcell' := hext.cellAt hclosure
    rw [he] at hcell'
    simp [procedure, hcell']
  refine ⟨e, capBs, ?_, henter, htop, hbelow, hpending, ?_, ?_, hext, htrees, fun ev => ?_⟩
  · subst hg hq hf
    exact he
  · rw [he, h.env, h.same.saved]
  · rw [he]
  · rw [exec_enterBody hf (hcapt.symm ▸ hq) hg, hproc, ← he, h.env]

/-- The body of a closure starts, once its arguments are bound. -/
theorem linked_enterBody (h : Linked c d s r bs vs)
    (hclosure : cellAt d.state.heap closure = some (.closure p b k n))
    (hk : EnvList d.state.heap d.slots k bs₂) (hrk : Reads d.state.heap k tk ck) :
    ∃ (e : Config F) (capBs : List Binding), Action d e ∧ e.top = capBs ++ bs ++ d.top ∧
      e.below = d.top :: d.below ∧ e.pending = c.pending ∧
      e.state.trace.saved = d.state.env :: d.state.trace.saved ∧
      e.state.trace.held = s.trace.held ∧
      Extends d.state.heap e.state.heap ∧ bindingTrees e.state.heap capBs = tk.bindings ∧
      ∀ ev, exec (enterBody ev closure r) s = exec (leaving d.state.env (ev b)) e.state := by
  obtain ⟨e, capBs, -, hentered⟩ := linked_enterBody_state h hclosure hk hrk
  exact ⟨e, capBs, hentered⟩

/-- The body of a closure, once its arguments are bound, and the return from it. -/
theorem wp_enterBody (ev : Nat → Eval F Nat) (h : Linked c d s r bs vs)
    (hclosure : cellAt d.state.heap closure = some (.closure p b k n))
    (hk : EnvList d.state.heap d.slots k bs₂) (hrk : Reads d.state.heap k tk ck) :
    ∃ (e : Config F) (capBs : List Binding), Action d e ∧ e.top = capBs ++ bs ++ d.top ∧
      Extends d.state.heap e.state.heap ∧ bindingTrees e.state.heap capBs = tk.bindings ∧
      List.Forall₂ (fun b v => cellAt e.state.heap b.slot = some (.list v 0)) bs vs ∧
      ∀ {P : Nat → Interpreter F → Prop} {E : Halt → Interpreter F → Prop},
        wp (ev b) (fun v s' => ∃ e' : Config F, e'.state = s' ∧ Value e v e' ∧
          ∀ f, Action e' f → f.state.heap = e'.state.heap → f.state.env = d.state.env →
            Value c v f → P v f.state) E e.state →
        wp (enterBody ev closure r) P E s := by
  obtain ⟨e, capBs, henter, htop, hbelow, hpending, hsaved, hheld, hext, htrees, hexec⟩ :=
    linked_enterBody h hclosure hk hrk
  refine ⟨e, capBs, henter, htop, hext, htrees, h.values.imp fun _ _ h => hext.cellAt h, ?_⟩
  intro P E hbody
  refine (wp_congr (hexec ev)).2 (wp_seq hbody ?_ fun _ _ h => h)
  rintro v _ ⟨e', rfl, ⟨hv, hbal⟩, hP⟩
  obtain ⟨f', hf', hleave, htop', hbelow', hpending', hsaved'⟩ := hbal.left hsaved hbelow
  have hheap : f'.state.heap = e'.state.heap := by rw [hf']
  have hheld' : f'.state.trace.held = e.state.trace.held := by rw [hf', ← hbal.held]
  have hvalue : Value c v f' := by
    refine ⟨hheap ▸ hv, hsaved'.trans h.saved, ?_, hbelow'.trans h.below,
      hpending'.trans hpending, ?_⟩
    · rw [hheld', hheld, h.held]
    · rw [htop']
      exact h.top
  have hP' := hP f' hleave hheap (by rw [hf']) hvalue
  rwa [hf'] at hP'

theorem Runs.applyBody [CFloat F] (hev : RunsAll ev)
    (hclosure : cellAt c.state.heap closure = some (.closure p b k n))
    (hp : ParamList c.state.heap c.slots p ns) (hk : EnvList c.state.heap c.slots k bs₂)
    (ha : args ≤ c.state.heap.length) :
    Runs c (applyBody ev fuel closure args) (Called ev c ns closure args b) := by
  have hparams : parameters c.state.heap closure = p := by simp [parameters, hclosure]
  refine (wp_congr (exec_applyBody c.state)).2 ?_
  rw [hparams]
  refine wp_seq (holding_associate hev hp ha) ?_ fun _ _ h => h
  rintro r s ⟨d, bs, vs, hl, hassoc⟩
  have hkd := hl.steps.later.envList hk
  obtain ⟨tk, ck, hrk⟩ := d.wf.heap.readable k hkd.le
  have hcell := hl.steps.later.evolves.closure hclosure
  obtain ⟨e, capBs, henter, htop, hext, htrees, hvalues, hrule⟩ :=
    wp_enterBody ev hl hcell hkd hrk
  have hb : b ≤ e.state.heap.length :=
    e.wf.heap.part_le (hext.cellAt hcell) b (by simp [Cell.parts])
  have hsteps := hl.steps.tail henter
  have hcaptd : captured d.state.heap closure = k := by simp [captured, hcell]
  apply hrule
  refine wp_mono (Runs.ran (hev e b hb)) ?_ ?_
  · rintro v _ ⟨e', rfl, hs, hv, hexec⟩
    refine ⟨e', rfl, hv, fun f hleave hheap henv hvalue => ?_⟩
    refine ⟨f, rfl, (hsteps.trans hs).tail hleave, hvalue, d, e, e', bs, capBs, vs, hassoc,
      hl.steps, henter, htop, hext, ?_, hvalues, hexec, hs, hleave, hheap⟩
    rw [htrees, hcaptd, hrk.treeOf]
  · rintro err _ ⟨e', rfl, hs⟩
    exact ⟨e', rfl, hsteps.trans hs⟩

end body
end Lisp
