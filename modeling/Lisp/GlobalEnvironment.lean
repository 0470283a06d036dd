import Lisp.Sessions
import Lisp.Simulation

/-! The global environment between the calls of `interpret_expression`: a finite map, to which
`set` adds a name or in which it replaces a value. -/
namespace Lisp
open ExceptState
variable {F : Type} {h : Heap F} {e : Nat} {binds binds' : List (Text × Nat)} {s s' : Interpreter F}
  {n m : Text} {c d : Config F} {bs : List Binding} {S : Nat → Prop}

section map

/-- `e` is a proper list of pairs of a name and a value. -/
inductive Environment (h : Heap F) : Nat → List (Text × Nat) → Prop where
  | nil : Environment h 0 []
  | cons {e next pair key slot value : Nat} {n : Text} {binds : List (Text × Nat)}
      (he : cellAt h e = some (.list pair next)) (hpair : cellAt h pair = some (.list key slot))
      (hslot : cellAt h slot = some (.list value 0)) (hkey : cellAt h key = some (.atom n))
      (hnext : Environment h next binds) : Environment h e ((n, value) :: binds)

/-- The environment binds different names, none of them a truth name, to values. -/
structure FiniteMap (s : Interpreter F) (binds : List (Text × Nat)) : Prop where
  list : Environment s.heap s.env binds
  distinct : (binds.map Prod.fst).Nodup
  names : ∀ b ∈ binds, isTruthName b.1 = false
  values : ∀ b ∈ binds, b.2 ≠ 0

/-- The value that the environment gives a name, as a tree. -/
def lookupName (s : Interpreter F) (n : Text) : Option (Obj F) :=
  ((treeOf s.heap s.env).bindings.find? fun b => b.1 == some n).map Prod.snd

theorem EnvList.environment (he : EnvList h S e bs) (hnamed : ∀ b ∈ bs, ∃ n, b.name = some n)
    (hvalues : ∀ b ∈ bs, ∃ v, v ≠ 0 ∧ cellAt h b.slot = some (.list v 0)) :
    ∃ binds, Environment h e binds ∧ binds.map (fun b => some b.1) = bs.map Binding.name ∧
      (∀ b ∈ binds, isTruthName b.1 = false) ∧ ∀ b ∈ binds, b.2 ≠ 0 := by
  induction he with
  | nil => exact ⟨[], .nil, rfl, by simp, by simp⟩
  | @cons e next pair key value b bs he hpair hslot hkey _ _ _ ih =>
    obtain ⟨binds, henv, hnames, htruth, hnull⟩ := ih (fun b hb => hnamed b (by simp [hb]))
      fun b hb => hvalues b (by simp [hb])
    obtain ⟨n, hn⟩ := hnamed b (by simp)
    obtain ⟨v, hv, hcell⟩ := hvalues b (by simp)
    rw [hn] at hkey
    refine ⟨(n, v) :: binds, .cons he hpair hcell hkey.1 henv, by simp [hnames, hn], ?_, ?_⟩
    · simpa [hkey.2] using htruth
    · simpa [hv] using hnull

theorem Between.finiteMap (hc : Between c s) : ∃ binds, FiniteMap s binds ∧
    binds.map (fun b => some b.1) = c.base.map Binding.name := by
  have hstate := hc.state
  subst hstate
  have hbase := Config.base_of_nil hc.below
  have henv : EnvList c.state.heap c.slots c.state.env c.base := hbase ▸ c.wf.env
  obtain ⟨binds, hlist, hnames, htruth, hnull⟩ := henv.environment hc.base.named hc.base.values
  refine ⟨binds, ⟨hlist, ?_, htruth, hnull⟩, hnames⟩
  have hdistinct := hc.base.distinct
  rw [← hnames] at hdistinct
  refine List.Nodup.of_map some ?_
  rwa [List.map_map]

/-- What `interpreter_init` binds a name to. -/
theorem lookupName_init [CFloat F] (n : Text) : lookupName (interpreterInit : Interpreter F) n =
    (initLibrary.find? fun p => p.1 == n).map fun p => .primitive p.2 := by
  obtain ⟨bs, vs, hi, htrees⟩ := initial_library (F := F)
  obtain ⟨t, cs, hr⟩ := hi.heap.readable _ hi.env.le
  rw [lookupName, interpreterInit]
  dsimp only
  rw [hr.treeOf, hi.env.bindings hr, htrees, List.find?_map, Option.map_map]
  congr 1

theorem Between.lookupName (hc : Between c s) (n : Text) :
    lookupName s n = lookupTree s.heap c.top n := by
  have hstate := hc.state
  subst hstate
  obtain ⟨t, cs, hr⟩ := c.wf.heap.readable _ c.wf.env.le
  rw [Lisp.lookupName, hr.treeOf, c.wf.env.bindings hr, lookupTree_eq]

end map

section set
variable {t e : Obj F} {o slot v fuel : Nat}

/-- The expression `(set 'n e)`. -/
def setExpression (n : Text) (e : Obj F) : Obj F :=
  .list (.atom "set".toList) (.list (.list (.atom "quote".toList) (.list (.atom n) .null))
    (.list e .null))

theorem slotOf_cons_ne {b : Binding} (hb : b.name ≠ some m) : slotOf (b :: bs) m = slotOf bs m := by
  simp [slotOf, hb]

/-- Two names are bound in different slots. -/
theorem slotOf_ne {x y : Nat} (hnodup : (bs.map Binding.slot).Nodup) (hnm : n ≠ m)
    (hx : slotOf bs n = some x) (hy : slotOf bs m = some y) : x ≠ y := by
  rintro rfl
  obtain ⟨b, hb, hbx, hbn⟩ := slotOf_mem hx
  obtain ⟨b', hb', hbx', hbm⟩ := slotOf_mem hy
  have hbb : b = b' := List.inj_on_of_nodup_map hnodup hb hb' (hbx.trans hbx'.symm)
  subst hbb
  exact hnm (Option.some.inj (hbn.symm.trans hbm))

/-- `set` gives the name its value. -/
theorem Stored.lookupTree_self (hd : Stored c n t d) :
    Lisp.lookupTree d.state.heap d.top n = some t := by
  obtain ⟨slot, w, cs, hcell, hr, -, htop⟩ := hd.slot
  have hslot : slotOf d.top n = some slot := by
    rcases htop with ⟨-, htop⟩ | ⟨hslot, htop⟩
    · simp [htop, slotOf]
    · rw [htop, hslot]
  rw [Lisp.lookupTree, hslot, Option.map_some, car_eq hcell, hr.treeOf]

/-- `set` changes the value of the name, and no other. -/
theorem Stored.lookupTree (hd : Stored c n t d) (hc : Between c s) (m : Text) :
    lookupTree d.state.heap d.top m =
      if m = n then some t else lookupTree c.state.heap c.top m := by
  obtain ⟨slot, w, cs, hcell, hr, hsame, htop⟩ := hd.slot
  have hbase := Config.base_of_nil hc.below
  by_cases hmn : m = n
  · subst hmn
    rw [if_pos rfl, hd.lookupTree_self]
  · have htops : slotOf d.top m = slotOf c.top m := by
      rcases htop with ⟨-, htop⟩ | ⟨-, htop⟩
      · rw [htop, slotOf_cons_ne]
        exact fun h => hmn (Option.some.inj h).symm
      · rw [htop]
    have hnew : ∀ a ≤ c.state.heap.length, ¬c.slots a → a ≠ slot := by
      rintro a hle hna rfl
      refine hna (hd.action.later.slots a hle (Or.inl ?_))
      rcases htop with ⟨-, htop⟩ | ⟨hslot, htop⟩
      · simp [htop]
      · obtain ⟨b, hb, rfl, -⟩ := slotOf_mem hslot
        rw [htop]
        exact List.mem_map_of_mem hb
    rw [if_neg hmn, Lisp.lookupTree, htops, Lisp.lookupTree]
    cases hx : slotOf c.top m with
    | none => rfl
    | some x =>
      have hne : x ≠ slot := by
        rcases htop with ⟨-, htop⟩ | ⟨hslot, -⟩
        · obtain ⟨b, hb, rfl, -⟩ := slotOf_mem hx
          have hnodup := d.wf.nodup
          rw [htop, List.map_cons, List.cons_append, List.nodup_cons] at hnodup
          have hmem : b.slot ∈ c.top.map Binding.slot := List.mem_map_of_mem hb
          exact fun he => hnodup.1 (List.mem_append_left _ (he ▸ hmem))
        · exact slotOf_ne (List.nodup_append.1 c.wf.nodup).1 hmn hx hslot
      obtain ⟨b, hb, rfl, -⟩ := slotOf_mem hx
      have hstored := hc.separated.base b (hbase ▸ hb)
      obtain ⟨cs', ⟨v, u, -, hv, hu⟩, -, hcs'⟩ := hc.separated.stored _ hstored
      have hle := slots_le c (Or.inl (List.mem_map_of_mem hb))
      have hu' : Reads d.state.heap v u cs' := by
        refine hu.congr fun a ha => ?_
        have hale := (hu.valid.2 a ha).2
        exact hsame a hale (hnew a hale (hcs' a ha).1)
      rw [Option.map_some, Option.map_some, car_eq ((hsame _ hle hne).trans hv), car_eq hv,
        hu.treeOf, hu'.treeOf]

theorem SameMemory.lookupName (hs : SameMemory s s') : lookupName s' n = lookupName s n := by
  simp only [Lisp.lookupName, hs.heap, hs.env]

theorem Between.steps (hc : Between c s) (hs : Steps c d) (hb : Balanced c d) :
    Between d d.state :=
  ⟨rfl, hb.below.trans hc.below, hb.pending.trans hc.pending, hc.base.steps hs,
    hc.separated.steps hs⟩

variable [CFloat F]

/-- A name bound to a primitive evaluates to it. -/
theorem Config.returns_primitive (c : Config F) {x : Nat} {f : Primitive}
    (hx : cellAt c.state.heap x = some (.atom n)) (hn : isTruthName n = false)
    (hf : lookupTree c.state.heap c.top n = some (.primitive f)) :
    ∃ p, cellAt c.state.heap p = some (.primitive f) ∧
      ∀ fuel, Returns (eval (fuel + 1) x) c.state p c.state := by
  obtain ⟨t, cs, hr⟩ := c.wf.heap.readable _ c.wf.env.le
  have hentry := c.wf.env.lookupEntry hr hx
  rw [lookupTree] at hf
  obtain ⟨slot, hslot, htree⟩ := Option.map_eq_some_iff.1 hf
  rw [hslot, Option.getD_some] at hentry
  refine ⟨car c.state.heap slot, ?_, fun fuel => ?_⟩
  · obtain ⟨u, ds, hu⟩ := c.wf.heap.readable _ (c.wf.heap.car_le slot)
    rw [hu.treeOf] at htree
    exact hu.leaf_inv (htree ▸ rfl)
  · have hname : Returns (eval (fuel + 1) x) c.state (lookup c.state.heap x c.state.env) c.state :=
      returns_name hx hn
    rwa [lookup, hentry] at hname

theorem Between.returns_primitive {x : Nat} {f : Primitive} (hc : Between c s)
    (hx : cellAt s.heap x = some (.atom n)) (hn : isTruthName n = false)
    (hf : Lisp.lookupName s n = some (.primitive f)) :
    ∃ p, cellAt s.heap p = some (.primitive f) ∧
      ∀ fuel, Returns (eval (fuel + 1) x) s p s := by
  rw [hc.lookupName n] at hf
  have hstate := hc.state
  subst hstate
  exact c.returns_primitive hx hn hf

/-- `(set 'n e)` in a state between two calls, in which the operand `e` evaluates to `v`: it returns
an object with the value of `v`, or `NULL`. -/
theorem Between.setValue {s₂ : Interpreter F} (hc : Between c s) (ho : o ≤ s.heap.length)
    (htree : treeOf s.heap o = setExpression n e) (hn : isTruthName n = false)
    (hset : Lisp.lookupName s "set".toList = some (.primitive .set))
    (hquote : Lisp.lookupName s "quote".toList = some (.primitive .quote))
    (he : exec (eval fuel (ith s.heap o 2)) s = (.ok v, s₂)) :
    ∃ r u, (r = 0 ↔ v = 0) ∧ (∀ k, fuel + 3 ≤ k → Returns (eval k o) s r u) ∧
      (∃ us, Reads u.heap r (treeOf s₂.heap v) us) ∧ ∀ m, Lisp.lookupName u m =
        if v ≠ 0 ∧ m = n then some (treeOf s₂.heap v) else Lisp.lookupName s₂ m := by
  have hstate := hc.state
  subst hstate
  obtain ⟨t, co, hr⟩ := c.wf.heap.readable o ho
  rw [hr.treeOf] at htree
  subst htree
  obtain ⟨x, y, _, _, hox, -, hx, hy⟩ := hr.list_inv
  obtain ⟨q, z, _, _, hyq, -, hq, hz⟩ := hy.list_inv
  obtain ⟨qx, qy, _, _, hqx, -, hqxr, hqy⟩ := hq.list_inv
  obtain ⟨a, qz, _, _, hqa, -, ha, -⟩ := hqy.list_inv
  obtain ⟨w, zz, _, _, hzw, -, hw, -⟩ := hz.list_inv
  have hxa : cellAt c.state.heap x = some (.atom "set".toList) := hx.leaf_inv rfl
  have hqxa : cellAt c.state.heap qx = some (.atom "quote".toList) := hqxr.leaf_inv rfl
  have han : cellAt c.state.heap a = some (.atom n) := ha.leaf_inv rfl
  have hoperand : ith c.state.heap o 2 = w := by
    simp [ith, isList, hox, cdr, hyq, hzw, car]
  rw [hoperand] at he
  obtain ⟨p, hp, hpset⟩ := hc.returns_primitive hxa (by decide) hset
  obtain ⟨p', hp', hpquote⟩ := hc.returns_primitive hqxa (by decide) hquote
  obtain ⟨d, hd, hsteps, hv, hbal⟩ := (runs_eval fuel c w hw.valid.1).of_ok he
  subst hd
  have hdb := hc.steps hsteps hbal
  obtain ⟨tv, cv, hread⟩ := d.wf.heap.readable v hv
  have hx0 : x ≠ 0 := Nat.pos_iff_ne_zero.1 (cellAt_le hxa).1
  have hqx0 : qx ≠ 0 := Nat.pos_iff_ne_zero.1 (cellAt_le hqxa).1
  have htail : ∃ r u, (r = 0 ↔ v = 0) ∧
      Returns (if v = 0 then pure 0 else Primitives.store a v) d.state r u ∧
      (∃ us, Reads u.heap r (treeOf d.state.heap v) us) ∧ ∀ m, Lisp.lookupName u m =
        if v ≠ 0 ∧ m = n then some (treeOf d.state.heap v) else Lisp.lookupName d.state m := by
    by_cases hv0 : v = 0
    · simp only [hv0, if_true]
      have hzero : Reads d.state.heap 0 (treeOf d.state.heap 0) [] := by
        rw [Reads.null.treeOf]
        exact .null
      exact ⟨0, d.state, by simp, .pure 0, ⟨_, hzero⟩, by simp⟩
    · obtain ⟨r, e, hexec, hvalue, hr0, hstored⟩ :=
        Runs.store hread hv0 (hsteps.later.evolves.atom han) hn
      have heb := hdb.steps (.single hstored.action) hstored.balanced
      refine ⟨r, e.state, by simp [hr0, hv0], ?_, hread.treeOf ▸ hvalue, fun m => ?_⟩
      · rw [if_neg hv0]
        exact (simulates_store a v).returns hexec
      · rw [heb.lookupName, hdb.lookupName, hstored.lookupTree hdb, hread.treeOf]
        simp only [ne_eq, hv0, not_false_eq_true, true_and]
  obtain ⟨r, u, hr0, htail, hvalue, hlookup⟩ := htail
  refine ⟨r, u, hr0, fun k hk => ?_, hvalue, hlookup⟩
  obtain ⟨j, rfl⟩ : ∃ j, k = j + 3 := ⟨k - 3, by omega⟩
  refine returns_application hox hx0 (hpset _) hp ?_
  have hlen : listLength c.state.heap y = 2 := hy.listLength
  have hlen' : listLength c.state.heap qy = 1 := hqy.listLength
  refine .get fun tr => ?_
  simp only [hlen, ne_eq, not_true_eq_false, if_false]
  have hq0 : ith c.state.heap y 0 = q := by simp [ith, isList, hyq, car]
  have hw1 : ith c.state.heap y 1 = w := by simp [ith, isList, hyq, cdr, hzw, car]
  simp only [hq0]
  refine .bind (returns_quote hqx hqx0 (hpquote _) hp' hqa hlen').holding (.get fun tr' => ?_)
  have hnil : isNil c.state.heap a = false := by simp [isNil, isList, han]
  have hatom : isAtom c.state.heap a = true := by simp [isAtom, han]
  have hT : isT c.state.heap a = false := by simp [isT, hatom, atomName, han, hn]
  have hle : fuel ≤ j + 2 := by omega
  have hoperand' := (simulates_eval hle w).returns he
  simp only [hnil, hatom, hT, hw1, Bool.false_eq_true, if_false, Bool.not_true]
  exact .bind hoperand'.holding htail

theorem Between.set {s₂ : Interpreter F} (hc : Between c s) (ho : o ≤ s.heap.length)
    (htree : treeOf s.heap o = setExpression n e) (hn : isTruthName n = false)
    (hset : Lisp.lookupName s "set".toList = some (.primitive .set))
    (hquote : Lisp.lookupName s "quote".toList = some (.primitive .quote))
    (he : exec (eval fuel (ith s.heap o 2)) s = (.ok v, s₂)) :
    ∃ r u, (r = 0 ↔ v = 0) ∧ (∀ k, fuel + 3 ≤ k → Returns (eval k o) s r u) ∧
      ∀ m, Lisp.lookupName u m =
        if v ≠ 0 ∧ m = n then some (treeOf s₂.heap v) else Lisp.lookupName s₂ m := by
  obtain ⟨r, u, hr, hreturns, -, hlookup⟩ := hc.setValue ho htree hn hset hquote he
  exact ⟨r, u, hr, hreturns, hlookup⟩

end set

section sessions

theorem Environment.unique (he : Environment h e binds) (he' : Environment h e binds') :
    binds = binds' := by
  induction he generalizing binds' with
  | nil =>
    cases he' with
    | nil => rfl
    | cons he => simp [cellAt_zero] at he
  | cons he hpair hslot hkey _ ih =>
    cases he' with
    | nil => simp [cellAt_zero] at he
    | cons he' hpair' hslot' hkey' hnext' =>
      obtain ⟨rfl, rfl⟩ := Cell.list.inj (Option.some.inj (he.symm.trans he'))
      obtain ⟨rfl, rfl⟩ := Cell.list.inj (Option.some.inj (hpair.symm.trans hpair'))
      obtain ⟨rfl, -⟩ := Cell.list.inj (Option.some.inj (hslot.symm.trans hslot'))
      obtain rfl := Cell.atom.inj (Option.some.inj (hkey.symm.trans hkey'))
      rw [ih hnext']

/-- A parsed expression is loaded between two calls. -/
theorem Between.loaded {t : Obj F} (hc : Between c s) (ht : t.Ok) :
    ∃ d : Config F, Between d (loaded s t) := by
  have hstate := hc.state
  subst hstate
  obtain ⟨d, hd, ha, hb, -⟩ := (loaded_extended (c := c) ht).reached
  exact ⟨d, hd ▸ hc.steps (.single ha) hb⟩

variable [CFloat F]

/-- Over every sequence of calls the global environment is a finite map that only gains names,
and `(set 'n e)` leaves what `e` leaves, with `n` bound to the value of `e` if it has one. -/
theorem session_environment (hs : Session s) :
    (∃ binds, FiniteMap s binds) ∧
    (∀ (fuel : Nat) (expr : Text) (r : Nat) (s' : Interpreter F),
      exec (evalExpression fuel expr) s = (.ok r, s') →
      ∀ binds binds', FiniteMap s binds → FiniteMap s' binds' →
        ∀ n ∈ binds.map Prod.fst, n ∈ binds'.map Prod.fst) ∧
    ∀ (fuel₀ : Nat) (expr : Text) (parsed : Obj F × Nat),
      parseExpression expr fuel₀ 0 = .ok parsed →
      ∀ (o : Nat) (n : Text) (e : Obj F), o ≤ (loaded s parsed.1).heap.length →
        treeOf (loaded s parsed.1).heap o = setExpression n e → isTruthName n = false →
        lookupName (loaded s parsed.1) "set".toList = some (.primitive .set) →
        lookupName (loaded s parsed.1) "quote".toList = some (.primitive .quote) →
        ∀ (fuel v : Nat) (s₂ : Interpreter F),
          exec (eval fuel (ith (loaded s parsed.1).heap o 2)) (loaded s parsed.1) = (.ok v, s₂) →
          ∃ r k₀, (r = 0 ↔ v = 0) ∧ ∀ k, k₀ ≤ k →
            ∃ s₃, exec (eval k o) (loaded s parsed.1) = (.ok r, s₃) ∧
              ∀ m, lookupName s₃ m =
                if v ≠ 0 ∧ m = n then some (treeOf s₂.heap v) else lookupName s₂ m := by
  obtain ⟨c, hc⟩ := hs.between
  refine ⟨?_, ?_, ?_⟩
  · obtain ⟨binds, hmap, -⟩ := hc.finiteMap
    exact ⟨binds, hmap⟩
  · intro fuel expr r s' hr binds binds' hmap hmap' n hn
    obtain ⟨d, e, hsteps, hcol, he⟩ := hc.call hr
    have hsuffix := hsteps.base_suffix
    rw [← hcol.base] at hsuffix
    obtain ⟨bs, hbs, hnames⟩ := hc.finiteMap
    obtain ⟨bs', hbs', hnames'⟩ := he.finiteMap
    obtain rfl := hmap.list.unique hbs.list
    obtain rfl := hmap'.list.unique hbs'.list
    have hsome : some n ∈ binds.map fun b => some b.1 := by
      simpa using hn
    rw [hnames] at hsome
    have := (hsuffix.map Binding.name).subset hsome
    rw [← hnames'] at this
    simpa using this
  · intro fuel₀ expr parsed hparsed o n e ho htree hn hset hquote fuel v s₂ he
    obtain ⟨d, hd⟩ := hc.loaded ((parsed_ok fuel₀).1 _ _ hparsed)
    obtain ⟨r, u, hr, hreturns, hlookup⟩ := hd.set ho htree hn hset hquote he
    refine ⟨r, fuel + 3, hr, fun k hk => ?_⟩
    obtain ⟨s₃, hs₃, hsame⟩ := hreturns k hk _ ⟨rfl, rfl, rfl⟩
    exact ⟨s₃, hs₃, fun m => hsame.lookupName.trans (hlookup m)⟩

/-- The initial state once `(set 'x 5)` is in memory, and the object of the expression. -/
def setX : Nat × Interpreter NoFloat :=
  let tree : Obj NoFloat := setExpression ['x'] (.int 5)
  ((load (interpreterInit (F := NoFloat)).heap tree).1, loaded interpreterInit tree)

theorem session_environment_setX : ∃ k₀, ∀ k, k₀ ≤ k →
    ∃ r s₃, exec (eval k setX.1) setX.2 = (.ok r, s₃) ∧
      lookupName s₃ ['x'] = some (.int 5) := by
  have hparsed : parseExpression "(set 'x 5)".toList 10 0 =
      .ok ((setExpression ['x'] (.int 5) : Obj NoFloat), 10) := by decide +kernel
  have hrun : (exec (eval 1 (ith setX.2.heap setX.1 2)) setX.2).1 = .ok 111 := by decide +kernel
  obtain ⟨r, k₀, -, h⟩ := (session_environment (F := NoFloat) .init).2.2 10 "(set 'x 5)".toList _
    hparsed setX.1 ['x'] (.int 5) (by decide +kernel) (by decide +kernel) (by decide +kernel)
    (by decide +kernel) (by decide +kernel) 1 111 _ (exec_eq hrun)
  refine ⟨k₀, fun k hk => ?_⟩
  obtain ⟨s₃, hs₃, hlookup⟩ := h k hk
  refine ⟨r, s₃, hs₃, ?_⟩
  rw [hlookup, if_pos (by decide)]
  decide +kernel

end sessions
end Lisp
