import Lisp.Collection

/-! What a call of `interpret_expression` leaves to the collector is separate from the global
environment, so that the collection frees all of it. -/
namespace Lisp
open ExceptState
variable {F : Type} {c d e : Config F} {a x : Nat} {s t u : Interpreter F}

section clean

/-- The global environment: the last of those that closure bodies will restore. -/
def Config.baseEnv (c : Config F) : Nat := (c.state.env :: c.state.trace.saved).getLast (by simp)

/-- Each object is recorded once, and the global environment has no recorded object. -/
structure Clean (c : Config F) : Prop where
  nodup : c.state.allocated.Nodup
  valid : ∀ a ∈ c.state.allocated, 0 < a ∧ a ≤ c.state.heap.length
  base : ∃ t cs, Reads c.state.heap c.baseEnv t cs ∧ ∀ a ∈ cs, a ∉ c.state.allocated

theorem Config.baseEnv_of_nil (hb : c.below = []) : c.baseEnv = c.state.env := by
  have hsaved := c.wf.saved
  rw [hb] at hsaved
  simp [Config.baseEnv, List.forall₂_nil_right_iff.1 hsaved]

/-- New objects may be recorded. -/
theorem Clean.allocates (hc : Clean c) (ha : Allocates c.state d.state)
    (hbase : d.baseEnv = c.baseEnv) : Clean d := by
  obtain ⟨t, cs, hr, hcs⟩ := hc.base
  obtain ⟨regs, hregs, hnodup, hnew⟩ := ha.allocated
  constructor
  case nodup =>
    rw [hregs]
    refine List.nodup_append.2 ⟨hc.nodup, hnodup, fun a ha b hb hab => ?_⟩
    have := (hc.valid a ha).2
    have := hnew b hb
    omega
  case valid =>
    intro a hmem
    rw [hregs] at hmem
    rcases List.mem_append.1 hmem with hmem | hmem
    · exact ⟨(hc.valid a hmem).1, (hc.valid a hmem).2.trans ha.heap.1⟩
    · exact ⟨Nat.zero_lt_of_lt (hnew a hmem).1, (hnew a hmem).2⟩
  case base =>
    refine ⟨t, cs, hbase ▸ hr.mono ha.heap, fun a hm => ?_⟩
    rw [hregs, List.mem_append]
    rintro (hall | hall)
    · exact hcs a hm hall
    · have := (hnew a hall).1
      have := (hr.valid.2 a hm).2
      omega

/-- A step that leaves the objects alone. -/
theorem Clean.same (hc : Clean c) (hheap : d.state.heap = c.state.heap)
    (hall : d.state.allocated = c.state.allocated) (hbase : d.baseEnv = c.baseEnv) : Clean d :=
  hc.allocates ⟨hheap ▸ .refl _, [], by simp [hall]⟩ hbase

theorem Clean.step (hc : Clean c) (ha : Action c d) : Clean d := by
  cases ha with
  | record heap env allocated same =>
    exact hc.same heap allocated (by simp only [Config.baseEnv, env, same.saved])
  | allocate allocates env same =>
    exact hc.allocates allocates (by simp only [Config.baseEnv, env, same.saved])
  | @bind slot v name heap slot_new value fresh outside unbound allocated saved stored overwrites
      top below pending link =>
    cases hsaved : c.state.trace.saved with
    | cons env rest =>
      refine hc.allocates ⟨heap, [], by simp [allocated]⟩ ?_
      simp [Config.baseEnv, saved, hsaved]
    | nil =>
      obtain ⟨t, cs, hr, hcs⟩ := hc.base
      obtain ⟨key, pair, henv, hpair, hkey, henv_new, hpair_new, hkey_new⟩ := link
      obtain ⟨-, -, tv, cv, hv, -, hcv⟩ := fresh
      have hbase : c.baseEnv = c.state.env := by simp [Config.baseEnv, hsaved]
      have hbase' : d.baseEnv = d.state.env := by simp [Config.baseEnv, saved, hsaved]
      have hold := hr.mono heap
      rw [hbase] at hold
      constructor
      case nodup => exact allocated ▸ hc.nodup
      case valid =>
        intro a ha
        have hv := hc.valid a (allocated ▸ ha)
        exact ⟨hv.1, hv.2.trans heap.1⟩
      case base =>
        have hread := Reads.list henv (.list hpair (.leaf hkey rfl) (.list value hv .null)) hold
        refine ⟨_, _, hbase'.symm ▸ hread, fun a ha hall => ?_⟩
        rw [allocated] at hall
        have hle := (hc.valid a hall).2
        simp only [List.append_nil, List.mem_append, List.mem_singleton] at ha
        -- The cells of the new binding are all new.
        rcases ha with ((((rfl | ha | rfl) | rfl) | ha) | rfl)
        · omega
        · have := hcv a ha
          omega
        · omega
        · omega
        · exact hcs a ha hall
        · omega
  | @overwrite h slot v copied readable fresh mem heap env allocated saved =>
    obtain ⟨t, cs, hr, hcs⟩ := hc.base
    obtain ⟨-, -, tv, cv, hv, -, hcv⟩ := fresh
    have hbase : d.baseEnv = c.baseEnv := by simp only [Config.baseEnv, env, saved]
    obtain ⟨b, hb, rfl⟩ := List.mem_map.1 mem
    obtain ⟨y, hy⟩ := c.wf.env.slot_mem hb
    have hne : ∀ z, z ≠ b.slot → cellAt d.state.heap z = cellAt h z := fun z hz => by
      rw [heap, cellAt_overwritten_of_ne (Ne.symm hz)]
    have hslot : cellAt d.state.heap b.slot = some (.list v 0) := by
      rw [heap, cellAt_overwritten (copied.cellAt hy)]
    have hle := slots_le c (Or.inl mem)
    have hv' : Reads d.state.heap v tv cv := by
      refine hv.congr fun a ha => hne a ?_
      rintro rfl
      have := hcv _ ha
      omega
    obtain ⟨t', cs', hr', hcs'⟩ := (hr.mono copied).replace hne (.list hslot hv' .null)
    constructor
    case nodup => exact allocated ▸ hc.nodup
    case valid =>
      intro a ha
      have hv := hc.valid a (allocated ▸ ha)
      rw [heap, length_overwritten]
      exact ⟨hv.1, hv.2.trans copied.1⟩
    case base =>
      refine ⟨t', cs', hbase ▸ hr', fun a ha hall => ?_⟩
      rw [allocated] at hall
      rcases hcs' a ha with ha | ⟨hs, ha⟩
      · exact hcs a ha hall
      · simp only [List.append_nil, List.mem_append, List.mem_singleton] at ha
        rcases ha with ha | rfl
        · have := hcv a ha
          have := (hc.valid a hall).2
          omega
        · exact hcs _ hs hall
  | enter allocates frame_new saved =>
    exact hc.allocates allocates (by simp [Config.baseEnv, saved])
  | leave heap allocated saved =>
    exact hc.same heap allocated (by simp [Config.baseEnv, saved])

theorem Clean.steps (hc : Clean c) (hs : Steps c d) : Clean d := by
  induction hs with
  | refl => exact hc
  | tail _ ha ih => exact ih.step ha

theorem clean_of_nil (hall : c.state.allocated = []) (hb : c.below = []) : Clean c := by
  obtain ⟨t, cs, hr⟩ := c.wf.heap.readable _ c.wf.env.le
  exact ⟨by simp [hall], by simp [hall], t, cs, Config.baseEnv_of_nil hb ▸ hr, by simp [hall]⟩

end clean

section collect

/-- No object is recorded twice, and none that is can be reached from the environment. -/
structure Apart (s : Interpreter F) : Prop where
  nodup : s.allocated.Nodup
  unreachable : ∀ a ∈ s.allocated, ¬Reachable s.heap s.env a

theorem Clean.apart (hc : Clean c) (hb : c.below = []) : Apart c.state := by
  obtain ⟨t, cs, hr, hcs⟩ := hc.base
  refine ⟨hc.nodup, fun a ha hreach => ?_⟩
  rw [Config.baseEnv_of_nil hb] at hr
  exact hcs a (hr.reachable_mem hreach (Nat.pos_iff_ne_zero.1 (hc.valid a ha).1)) ha

theorem objectAt_of_le {h : Heap F} (hpos : 0 < a) (hle : a ≤ h.length) :
    ∃ o, objectAt h a = some o := by
  obtain ⟨k, rfl⟩ : ∃ k, a = k + 1 := ⟨a - 1, by omega⟩
  exact ⟨h[k], by simp [objectAt]⟩

/-- What a sweep of such a state does: everything recorded is cleaned up, and no object of the
environment is. -/
structure Swept (s : Interpreter F) : Prop where
  allocated : (collectGarbage s).allocated = []
  kept : ∀ a o, Reachable s.heap s.env a → objectAt s.heap a = some o →
    ∃ o', objectAt (collectGarbage s).heap a = some o' ∧ o'.freed = o.freed

theorem Apart.swept (ha : Apart s)
    (hobjects : ∀ a ∈ s.allocated, ∃ o, objectAt s.heap a = some o) : Swept s := by
  have hexact := (exact_iff ha.nodup hobjects).2 fun a hmem hr => absurd hr (ha.unreachable a hmem)
  constructor
  case allocated =>
    rw [hexact.kept]
    refine List.filter_eq_nil_iff.2 fun a hmem => ?_
    simp [ha.unreachable a hmem]
  case kept =>
    intro a o hr ho
    obtain ⟨o', ho', hfreed⟩ := hexact.freed a o ho
    exact ⟨o', ho', Bool.eq_iff_iff.2 (hfreed.trans (or_iff_left fun h => h.2 hr))⟩

end collect

section sessions
variable [CFloat F] {fuel r : Nat} {expr : Text} {parsed : Obj F × Nat}

/-- A call that evaluates something, up to its collection. -/
theorem evalExpression_eq (hp : parseExpression expr fuel 0 = .ok parsed)
    (hnull : parsed.1.isNull = false) (hr : exec (evalExpression fuel expr) s = (.ok r, u)) :
    ∃ t, exec (eval fuel (load s.heap parsed.1).1) (loaded s parsed.1) = (.ok r, t) ∧
      u = collectGarbage t := by
  have hcall : exec (evalExpression fuel expr) s = exec (do
      let result ← eval fuel (load s.heap parsed.1).1
      modify collectGarbage
      return result) (loaded s parsed.1) := by
    simp only [evalExpression, hp, liftFault, pure_bind, hnull, Bool.false_eq_true, if_false]
    rw [exec_onHeap_bind, exec_gcAddRecursive_bind]
    rfl
  rw [hcall, exec_bind] at hr
  rcases hx : exec (eval fuel (load s.heap parsed.1).1) (loaded s parsed.1) with ⟨_ | v, t⟩
  · simp [hx] at hr
  · rw [hx] at hr
    simp only [exec_modify_bind, exec_pure, Prod.mk.injEq, Except.ok.injEq] at hr
    obtain ⟨rfl, rfl⟩ := hr
    exact ⟨t, rfl, rfl⟩

/-- An evaluation that starts with an empty collector. -/
theorem Between.garbage (hc : Between c s) (hall : s.allocated = [])
    (hp : parseExpression expr fuel 0 = .ok parsed)
    (hr : exec (eval fuel (load s.heap parsed.1).1) (loaded s parsed.1) = (.ok r, t)) :
    Apart t ∧ Swept t := by
  have hstate := hc.state
  subst hstate
  obtain ⟨d, hd, ha, hbal, -⟩ := (loaded_extended (c := c) ((parsed_ok fuel).1 _ _ hp)).reached
  rw [← hd] at hr
  have hle : (load c.state.heap parsed.1).1 ≤ d.state.heap.length := by
    rw [hd]
    exact loaded_reads.valid.1
  obtain ⟨e, rfl, hsteps, -, hbal'⟩ := (runs_eval fuel d _ hle).of_ok hr
  have hclean : Clean e := ((clean_of_nil hall hc.below).step ha).steps hsteps
  have hapart := hclean.apart (hbal'.below.trans (hbal.below.trans hc.below))
  refine ⟨hapart, hapart.swept fun a hmem => ?_⟩
  exact objectAt_of_le (hclean.valid a hmem).1 (hclean.valid a hmem).2

theorem evalExpression_parsed (hr : exec (evalExpression fuel expr) s = (.ok r, u)) :
    ∃ parsed : Obj F × Nat, parseExpression expr fuel 0 = .ok parsed ∧
      (parsed.1.isNull = true → u = s) := by
  rcases hp : parseExpression (F := F) expr fuel 0 with (_ | _) | p
  · simp [evalExpression, hp, liftFault] at hr
  · simp [evalExpression, hp, liftFault] at hr
  · refine ⟨p, rfl, fun hnull => ?_⟩
    simp only [evalExpression, hp, liftFault, pure_bind, hnull, if_true, exec_pure,
      Prod.mk.injEq] at hr
    exact hr.2.symm

/-- The collector knows nothing between two calls. -/
theorem Session.emptied (hs : Session s) : s.allocated = [] := by
  induction hs with
  | init => rfl
  | @call s u fuel expr r hs hr ih =>
    obtain ⟨c, hc⟩ := hs.between
    obtain ⟨parsed, hp, hsame⟩ := evalExpression_parsed hr
    by_cases hnull : parsed.1.isNull = true
    · rw [hsame hnull, ih]
    · obtain ⟨t, ht, rfl⟩ := evalExpression_eq hp (Bool.eq_false_iff.2 hnull) hr
      exact (hc.garbage ih hp ht).2.allocated

/-- In every sequence of calls, at each collection no object is recorded twice and no recorded one
can be reached from the environment; the collection leaves no entry and frees no object of the
environment. -/
theorem session_garbage (hs : Session s) (hp : parseExpression expr fuel 0 = .ok parsed)
    (hnull : parsed.1.isNull = false) (hr : exec (evalExpression fuel expr) s = (.ok r, u)) :
    ∃ t, exec (eval fuel (load s.heap parsed.1).1) (loaded s parsed.1) = (.ok r, t) ∧
      u = collectGarbage t ∧ t.allocated.Nodup ∧
      (∀ a ∈ t.allocated, ¬Reachable t.heap t.env a) ∧ u.allocated = [] ∧
      ∀ a o, Reachable t.heap t.env a → objectAt t.heap a = some o →
        ∃ o', objectAt u.heap a = some o' ∧ o'.freed = o.freed := by
  obtain ⟨c, hc⟩ := hs.between
  obtain ⟨t, ht, rfl⟩ := evalExpression_eq hp hnull hr
  obtain ⟨hapart, hswept⟩ := hc.garbage hs.emptied hp ht
  exact ⟨t, ht, rfl, hapart.nodup, hapart.unreachable, hswept.allocated, hswept.kept⟩

theorem session_garbage_cons : ∃ r t, exec (evalExpression 10 "(cons 1 '(2))".toList)
    (interpreterInit : Interpreter NoFloat) = (.ok r, collectGarbage t) ∧
      t.allocated.Nodup ∧ (∀ a ∈ t.allocated, ¬Reachable t.heap t.env a) ∧
      (collectGarbage t).allocated = [] := by
  let tree : Obj NoFloat := .list (.atom "cons".toList) (.list (.int 1)
    (.list (.list (.atom "quote".toList) (.list (.list (.int 2) .null) .null)) .null))
  have hp : parseExpression "(cons 1 '(2))".toList 10 0 = .ok (tree, 13) := by decide +kernel
  have hr : ∃ r, (exec (evalExpression 10 "(cons 1 '(2))".toList)
      (interpreterInit : Interpreter NoFloat)).1 = .ok r := ⟨116, by decide +kernel⟩
  obtain ⟨r, hr⟩ := hr
  obtain ⟨t, -, hu, hnodup, hunreachable, hempty, -⟩ :=
    session_garbage (F := NoFloat) .init hp rfl (exec_eq hr)
  exact ⟨r, t, hu ▸ exec_eq hr, hnodup, hunreachable, hu ▸ hempty⟩

end sessions
end Lisp
