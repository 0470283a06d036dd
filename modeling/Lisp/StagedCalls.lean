import Lisp.ClosedApplication
import Lisp.GlobalEnvironment

/-! Calls in stages: a closure gets its arguments in groups, and the body is evaluated once it has
all of them. -/
namespace Lisp
open ExceptState
variable {F : Type} {c d : Config F} {s : Interpreter F} {ev : Nat → Eval F Nat}
  {a o r args params fuel : Nat} {u v b p k tp tb tk : Obj F} {cs ds : List Nat} {h h' : Heap F}
  {m : Nat} {n : Text} {missing : Int} {ps : List Text} {us vs : List (Obj F)} {S : Nat → Prop}
  {ns : List (Option Text)} {ρ l l' C : Scope F}

section names

/-- With different names, each binding is found. -/
theorem Scope.find_of_mem (hl : (l.map Prod.fst).Nodup) (hv : (some n, v) ∈ l) (ρ : Scope F) :
    Scope.find (l ++ ρ) n = some v := by
  obtain ⟨w, hw, hfind⟩ := Scope.find_append_of_mem (List.mem_map_of_mem (f := Prod.fst) hv)
  have heq := List.inj_on_of_nodup_map hl hw hv rfl
  rw [hfind ρ, (Prod.mk.inj heq).2]

/-- The bindings of the first and of the other arguments. -/
theorem zip_append_drop {α β : Type} (l : List α) (xs ys : List β) :
    l.zip (xs ++ ys) = l.zip xs ++ (l.drop xs.length).zip ys := by
  induction xs generalizing l with
  | nil => simp
  | cons x xs ih =>
    cases l with
    | nil => simp
    | cons y l => simp [ih]

/-- A parameter list with the names `ps`. -/
def Obj.Params (p : Obj F) (ps : List Text) : Prop :=
  p.paramNames = some (ps.map some) ∨ p = .nil ∧ ps = []

theorem Obj.Params.names (h : p.Params ps) : ∃ names, p.ParamTree names ∧
    paramCountOf names = ps.length ∧ (names = ps.map some ∨ ps = []) := by
  rcases h with hnames | ⟨rfl, rfl⟩
  · refine ⟨_, paramTree_iff.2 hnames, ?_, Or.inl rfl⟩
    have hne : ps.map some ≠ [none] := by
      cases ps <;> simp
    rw [paramCountOf, if_neg hne, List.length_map]
  · exact ⟨[none], .cons rfl .nil, rfl, Or.inr rfl⟩

theorem Obj.Params.drop (h : p.Params ps) (hm : m < ps.length) : (p.drop m).Params (ps.drop m) := by
  rcases h with hnames | ⟨-, rfl⟩
  · refine Or.inl ?_
    rw [List.map_drop]
    exact paramTree_iff.1 ((paramTree_iff.2 hnames).drop m)
  · cases hm

end names

section stages

/-- A closure with the parameters `ps`, the body `b` and the captured list `C`, after calls with the
first arguments `vs`. -/
structure Stage (ps : List Text) (b : Obj F) (C : Scope F) (vs : List (Obj F)) (t : Obj F) :
    Prop where
  length : vs.length ≤ ps.length
  distinct : ps.Nodup
  captured : (C.map Prod.fst).Nodup
  disjoint : ∀ n ∈ ps, some n ∉ C.map Prod.fst
  closure : ∃ p l, t = .closure p b (Obj.bindTree (l ++ C)) (ps.length - vs.length : Nat) ∧
    p.Params (ps.drop vs.length) ∧ l.Perm ((ps.map some).zip vs)

/-- What `lambda` makes. -/
theorem lambda_closure {find : Text → Option (Obj F)} {t : Obj F}
    (h : t.lambda find = .closure p b k missing) : ∃ names, p.paramNames = some names ∧
      k = Obj.ofBindings (Obj.capture names find [] b) ∧ missing = paramCountOf names := by
  unfold Obj.lambda at h
  split at h
  · cases h
  split at h
  · cases h
  split at h
  · cases h
  split at h
  · cases h
  next names hnames =>
  split at h
  · cases h
  cases h
  exact ⟨names, hnames, rfl, rfl⟩

theorem Stage.lambda {find : Text → Option (Obj F)} {t : Obj F}
    (h : t.lambda find = .closure p b k missing) (hp : p.Params ps) (hps : ps.Nodup) :
    Stage ps b k.bindings [] (t.lambda find) := by
  obtain ⟨names, hnames, rfl, rfl⟩ := lambda_closure h
  obtain ⟨names', htree, hcount, hcase⟩ := hp.names
  obtain rfl := Option.some.inj (hnames.symm.trans (paramTree_iff.1 htree))
  rw [h, ofBindings_eq, bindings_bindTree]
  refine ⟨Nat.zero_le _, hps, ?_, ?_, p, [], ?_, hp, ?_⟩
  · rw [List.map_map]
    have hnodup : ((Obj.capture names find [] b).map Prod.fst).Nodup :=
      Obj.nodup_capture List.nodup_nil
    have hsome := hnodup.map (Option.some_injective _)
    rwa [List.map_map] at hsome
  · intro n hn hin
    rw [List.map_map] at hin
    obtain ⟨x, hx, hxn⟩ := List.mem_map.1 hin
    obtain rfl := Option.some.inj hxn
    rcases hcase with rfl | rfl
    · rcases Obj.mem_capture.1 (List.mem_map_of_mem (f := Prod.fst) hx) with hnil | ⟨-, hout, -⟩
      · cases hnil
      · exact hout (List.mem_map_of_mem hn)
    · cases hn
  · rw [hcount]
    rfl
  · simp

/-- A call with some of the arguments. -/
theorem Stage.supplied (h : Stage ps b C vs (.closure p tb k missing)) (hp : p.ParamTree ns)
    (hus : (us.length : Int) < missing) :
    Stage ps b C (vs ++ us) (.closure (p.drop us.length) tb
      (Obj.bindTree (ns.zip us ++ k.bindings)) (p.drop us.length).paramCount) := by
  obtain ⟨p, l, ⟨⟩, hparams, hperm⟩ := h.closure
  obtain ⟨names, htree, -, hcase⟩ := hparams.names
  obtain rfl := Option.some.inj ((paramTree_iff.1 hp).symm.trans (paramTree_iff.1 htree))
  have hlt : us.length < (ps.drop vs.length).length := by
    rw [List.length_drop]
    omega
  have hdrop := hparams.drop hlt
  obtain ⟨names', htree', hcount, -⟩ := hdrop.names
  rw [List.length_drop] at hlt
  rcases hcase with rfl | hnil
  rotate_left
  · have := congrArg List.length hnil
    rw [List.length_drop, List.length_nil] at this
    omega
  have hlen : (vs ++ us).length ≤ ps.length := by
    rw [List.length_append]
    omega
  refine ⟨hlen, h.distinct, h.captured, h.disjoint, p.drop us.length,
    ((ps.drop vs.length).map some).zip us ++ l, ?_, ?_, ?_⟩
  · have hcount' : (p.drop us.length).paramCount =
        ((ps.length - (vs ++ us).length : Nat) : Int) := by
      rw [ParamTree_names htree', hcount, List.drop_drop, List.length_drop, List.length_append]
    rw [hcount', bindings_bindTree, List.append_assoc]
  · rw [List.length_append, ← List.drop_drop]
    exact hdrop
  · rw [zip_append_drop, List.map_drop]
    exact List.perm_append_comm.trans (hperm.append_right _)

/-- What the names of the body are bound to: the parameters to the arguments, the captured names
to the captured values, and the other names as in the environment of the call. -/
structure BodyScope (ps : List Text) (vs : List (Obj F)) (C : Scope F)
    (call body : Text → Option (Obj F)) : Prop where
  parameters : ps.map body = vs.map some
  captured : ∀ n v, (some n, v) ∈ C → body n = some v
  others : ∀ n, n ∉ ps → some n ∉ C.map Prod.fst → body n = call n

/-- The names that a stage has bound, and those that the last arguments bind. -/
theorem Stage.names (h : Stage ps b C vs u) {l l' : Scope F}
    (hl : l.Perm ((ps.map some).zip vs)) (hl' : ((ps.map some).drop vs.length).zip us = l')
    (hlen : us.length = (ps.drop vs.length).length) :
    (l.map Prod.fst).Perm ((ps.take vs.length).map some) ∧
      l'.map Prod.fst = (ps.drop vs.length).map some ∧
      (l.map Prod.fst).Nodup ∧ (l'.map Prod.fst).Nodup ∧
      (∀ n ∈ ps.drop vs.length, some n ∉ l.map Prod.fst) ∧
      ∀ n, n ∉ ps → some n ∉ l.map Prod.fst ∧ some n ∉ l'.map Prod.fst := by
  have hfirst : (l.map Prod.fst).Perm ((ps.take vs.length).map some) := by
    have hmap := hl.map Prod.fst
    rwa [fst_zip, ← List.map_take] at hmap
  have hlast : l'.map Prod.fst = (ps.drop vs.length).map some := by
    rw [← hl', fst_zip, ← List.map_drop, List.take_of_length_le]
    rw [List.length_map, hlen]
  have hnodup : ∀ {qs : List Text}, qs.Sublist ps → (qs.map some).Nodup := fun hqs =>
    (h.distinct.sublist hqs).map (Option.some_injective _)
  refine ⟨hfirst, hlast, hfirst.nodup_iff.2 (hnodup (List.take_sublist _ _)),
    hlast ▸ hnodup (List.drop_sublist _ _), ?_, ?_⟩
  · intro n hn hin
    obtain ⟨n', hn', heq⟩ := List.mem_map.1 (hfirst.subset hin)
    obtain rfl := Option.some.inj heq
    exact List.disjoint_take_drop h.distinct (Nat.le_refl _) hn' hn
  · intro n hn
    constructor
    · intro hin
      obtain ⟨n', hn', heq⟩ := List.mem_map.1 (hfirst.subset hin)
      exact hn (List.mem_of_mem_take (Option.some.inj heq ▸ hn'))
    · intro hin
      rw [hlast] at hin
      obtain ⟨n', hn', heq⟩ := List.mem_map.1 hin
      exact hn (List.mem_of_mem_drop (Option.some.inj heq ▸ hn'))

theorem Stage.bodyScope (h : Stage ps b C vs (.closure p tb k missing)) (hp : p.ParamTree ns)
    (hus : (us.length : Int) = missing) (ρ : Scope F) :
    BodyScope ps (vs ++ us) C ρ.find (Scope.find (k.bindings ++ ns.zip us ++ ρ)) := by
  obtain ⟨p, l, ⟨⟩, hparams, hperm⟩ := id h.closure
  obtain ⟨names, htree, -, hcase⟩ := hparams.names
  obtain rfl := Option.some.inj ((paramTree_iff.1 hp).symm.trans (paramTree_iff.1 htree))
  have hvs := h.length
  have hlen : us.length = (ps.drop vs.length).length := by
    rw [List.length_drop]
    omega
  have hzip : ns.zip us = ((ps.map some).drop vs.length).zip us := by
    rcases hcase with rfl | hnil
    · rw [List.map_drop]
    · rw [hnil, List.length_nil, List.length_eq_zero_iff] at hlen
      rw [hlen, List.zip_nil_right, List.zip_nil_right]
  rw [hzip, bindings_bindTree, List.append_assoc, List.append_assoc]
  generalize hl' : ((ps.map some).drop vs.length).zip us = l'
  have hall := zip_append_drop (ps.map some) vs us
  rw [hl'] at hall
  obtain ⟨-, hlast, hnodup, hnodup', hdiff, hout⟩ := h.names hperm hl' hlen
  constructor
  case parameters =>
    rw [← List.forall₂_eq_eq_eq, List.forall₂_map_left_iff, List.forall₂_map_right_iff,
      List.forall₂_iff_zip]
    refine ⟨by rw [List.length_append, hlen, List.length_drop]; omega, ?_⟩
    intro n v hmem
    have hmem' : (some n, v) ∈ (ps.map some).zip (vs ++ us) := by
      rw [List.zip_map_left]
      exact List.mem_map.2 ⟨(n, v), hmem, rfl⟩
    rw [hall, List.mem_append] at hmem'
    rcases hmem' with hin | hin
    · exact Scope.find_of_mem hnodup (hperm.symm.subset hin) _
    · have hn := List.mem_map_of_mem (f := Prod.fst) hin
      rw [hlast] at hn
      obtain ⟨n', hn', heq⟩ := List.mem_map.1 hn
      obtain rfl : n' = n := Option.some.inj heq
      rw [Scope.find_append_of_not_mem (hdiff n' hn'),
        Scope.find_append_of_not_mem (h.disjoint n' (List.mem_of_mem_drop hn'))]
      exact Scope.find_of_mem hnodup' hin ρ
  case captured =>
    intro n v hv
    have hn : n ∉ ps := fun hn => h.disjoint n hn (List.mem_map_of_mem (f := Prod.fst) hv)
    rw [Scope.find_append_of_not_mem (hout n hn).1]
    exact Scope.find_of_mem h.captured hv _
  case others =>
    intro n hn hC
    rw [Scope.find_append_of_not_mem (hout n hn).1, Scope.find_append_of_not_mem hC,
      Scope.find_append_of_not_mem (hout n hn).2]

/-- The names of the body have no other values. -/
theorem BodyScope.unique {call call' body body' : Text → Option (Obj F)}
    (h : BodyScope ps vs C call body) (h' : BodyScope ps vs C call' body')
    (hcall : ∀ n, call n = call' n) (n : Text) : body n = body' n := by
  by_cases hn : n ∈ ps
  · have hmap := h.parameters.trans h'.parameters.symm
    exact List.map_inj_left.1 hmap n hn
  · by_cases hC : some n ∈ C.map Prod.fst
    · obtain ⟨x, hx, hxn⟩ := List.mem_map.1 hC
      have hx' : (some n, x.2) ∈ C := hxn ▸ hx
      rw [h.captured n x.2 hx', h'.captured n x.2 hx']
    · rw [h.others n hn hC, h'.others n hn hC, hcall n]

end stages

section lengths

theorem Evolves.length (hh : Evolves S h h') (hr : Reads h a u cs) (hr' : Reads h' a v ds) :
    v.length = u.length := by
  induction hr generalizing v ds with
  | null => rw [hr'.null_iff.1 rfl]
  | @leaf a k u ha hk =>
    rcases hh.2 a (cellAt_le ha).2 with hsame | ⟨-, x, y, hx, -⟩
    · rw [(hr'.of_leaf (hsame.trans ha) hk).1]
    · obtain rfl := Option.some.inj (ha.symm.trans hx)
      cases hk
  | @list a x y tx ty _ _ ha _ hy _ ih =>
    obtain ⟨x', hx'⟩ := hh.list_cdr ha
    obtain ⟨ux, uy, _, _, rfl, -, -, hy'⟩ := hr'.of_list hx'
    rw [Obj.length, Obj.length, ih hy']
  | closure ha _ _ _ =>
    obtain ⟨tp, tq, tr, _, _, _, rfl, -⟩ := hr'.of_closure (hh.closure ha)
    rfl

/-- The length of a list of expressions does not change. -/
theorem Later.listLength (hl : Later c d) (ha : a ≤ c.state.heap.length) :
    listLength d.state.heap a = listLength c.state.heap a := by
  obtain ⟨u, cs, hu⟩ := c.wf.heap.readable a ha
  obtain ⟨v, ds, hv⟩ := d.wf.heap.readable a (ha.trans hl.evolves.1)
  rw [hu.listLength, hv.listLength, hl.evolves.length hu hv]

/-- An argument list. -/
def IsArguments (h : Heap F) (args : Nat) : Prop := args = 0 ∨ isList h args = true

theorem Later.isArguments (hl : Later c d) (ha : IsArguments c.state.heap args) :
    IsArguments d.state.heap args := by
  rcases ha with rfl | ha
  · exact Or.inl rfl
  · obtain ⟨x, y, hcell⟩ := isList_iff.1 ha
    obtain ⟨x', hcell'⟩ := hl.evolves.list_cdr hcell
    exact Or.inr (isList_eq hcell')

theorem listLength_cons {x y : Nat} (ha : cellAt c.state.heap a = some (.list x y)) :
    listLength c.state.heap a = listLength c.state.heap y + 1 := by
  obtain ⟨u, cs, hu⟩ := c.wf.heap.readable a (cellAt_le ha).2
  obtain ⟨tx, ty, _, _, rfl, -, -, hy⟩ := hu.of_list ha
  rw [hu.listLength, hy.listLength, Obj.length]

end lengths

section values

/-- The values of the arguments of `associate`, each with the state in which its evaluation
ended. -/
def argumentValues (ev : Nat → Eval F Nat) :
    Nat → Nat → Nat → Interpreter F → List (Nat × Interpreter F)
  | 0, _, _, _ => []
  | fuel + 1, names, args, s =>
    if !isList s.heap names || !isList s.heap args then [] else
    match exec (notChecked (holding [names, args] (ev (car s.heap args)))) s with
    | (.error _, _) => []
    | (.ok v, s₁) =>
      (v, s₁) :: argumentValues ev fuel (cdr s₁.heap names) (cdr s₁.heap args)
        (boundState names v s₁)

variable [CFloat F]

/-- `associate` binds the first names to the values of the arguments. -/
theorem associate_values (hev : RunsAll ev) (hp : ParamList c.state.heap c.slots params ns)
    (ha : IsArguments c.state.heap args) :
    wp (associate ev fuel params args) (fun r s => ∃ d bs vs, Linked c d s r bs vs ∧
        vs = (argumentValues ev fuel params args c.state).map Prod.fst ∧
        bs.map Binding.name = ns.take (listLength c.state.heap args))
      (fun _ _ => True) c.state := by
  induction fuel generalizing c params args ns with
  | zero => trivial
  | succ fuel ih =>
    rw [associate, argumentValues]
    refine wp_get_bind.2 (wp_ite ?_ ?_)
    · intro hstop
      rw [if_pos hstop]
      refine wp_pure.2 ⟨c, [], [], .nil c, rfl, ?_⟩
      cases hp with
      | nil => rw [List.take_nil, List.map_nil]
      | cons hp =>
        rcases ha with rfl | ha
        · rfl
        · simp [isList_eq hp, ha] at hstop
    · intro hlists
      rw [if_neg hlists]
      simp only [Bool.or_eq_true, Bool.not_eq_true', not_or, Bool.not_eq_false] at hlists
      cases hp with
      | nil => simp [isList, cellAt_zero] at hlists
      | @cons _ next key name ns hp hkey hsp hnext =>
      refine wp_seq (Runs.ran (Runs.notChecked (Runs.holding hev (c.wf.heap.car_le args)))) ?_
        fun _ _ _ => trivial
      rintro v _ ⟨d, rfl, hsteps, ⟨⟨hv, hbal⟩, -⟩, hexec⟩
      obtain ⟨x, y, hargs⟩ := isList_iff.1 hlists.2
      obtain ⟨x', hargs'⟩ := hsteps.later.evolves.list_cdr hargs
      obtain ⟨e, he, hbound, hext, -, -, -, hnext', hbind⟩ := wp_bindArgument ev fuel hp hkey hsp
        hnext hsteps hbal hv (cellAt_le hargs').2
      have hnames : cdr d.state.heap params = next :=
        cdr_eq (hsteps.later.evolves.cellAt_of_not hsp hp)
      have hall := hsteps.trans hbound
      have hy : IsArguments e.state.heap y := by
        rcases d.wf.heap.cells args _ hargs' with rfl | ⟨u, w, hy⟩
        · exact Or.inl rfl
        · exact Or.inr (isList_eq (hext.cellAt hy))
      have hlen : listLength c.state.heap args = listLength e.state.heap y + 1 := by
        have hle := c.wf.heap.part_le hargs y (by simp [Cell.parts])
        rw [listLength_cons hargs, hall.later.listLength hle]
      apply hbind
      rw [hexec]
      simp only [cdr_eq hargs', hnames, List.map_cons]
      refine wp_mono (ih hnext' hy) ?_ fun _ _ _ => trivial
      rintro r s ⟨d', bs, vs, hlink, hvs, hbs⟩
      refine ⟨d', bs, vs, hlink, fun r' s' hlinked => ⟨d', _, _, hlinked, ?_, ?_⟩⟩
      · rw [hvs, he]
      · rw [List.map_cons, hbs, hlen, List.take_succ_cons]

theorem holding_values (os : List Nat) (hev : RunsAll ev)
    (hp : ParamList c.state.heap c.slots params ns) (ha : IsArguments c.state.heap args) :
    wp (holding os (associate ev fuel params args)) (fun r s => ∃ d bs vs, Linked c d s r bs vs ∧
        vs = (argumentValues ev fuel params args
          { c.state with trace.held := os ++ c.state.trace.held }).map Prod.fst ∧
        bs.map Binding.name = ns.take (listLength c.state.heap args))
      (fun _ _ => True) c.state := by
  obtain ⟨c', hstate, hact, -, -, hrule⟩ := wp_holding_linked c os
  have hheap : c'.state.heap = c.state.heap := by rw [hstate]
  apply hrule
  refine wp_mono (associate_values hev (hact.later.paramList hp) (hheap ▸ ha)) ?_
    fun _ _ _ => trivial
  rintro r s ⟨d, bs, vs, hlink, hvs, hbs⟩
  refine ⟨d, bs, vs, hlink, fun s' h => ⟨d, bs, vs, h, ?_, ?_⟩⟩
  · rw [hvs, hstate]
  · rw [hbs, hheap]

end values

section calls

/-- The values of the arguments of a call, while `os` are held. -/
def heldValues (os : List Nat) (ev : Nat → Eval F Nat) (fuel closure args : Nat)
    (s : Interpreter F) : List (Nat × Interpreter F) :=
  argumentValues ev fuel (parameters s.heap closure) args
    { s with trace.held := os ++ s.trace.held }

/-- The values of the arguments of a call. -/
def callValues (ev : Nat → Eval F Nat) (fuel closure args : Nat) (s : Interpreter F) :
    List (Nat × Interpreter F) :=
  if (listLength s.heap args : Int) < nargs s.heap closure then
    match exec (copyClosure closure args) s with
    | (.ok os, s₁) => heldValues os ev fuel closure args s₁
    | (.error _, _) => []
  else heldValues [closure] ev fuel closure args s

/-- The values as they were when their evaluation ended. -/
def valueTrees (xs : List (Nat × Interpreter F)) : List (Obj F) :=
  xs.map fun x => treeOf x.2.heap x.1

/-- No value is another one in `s` than when its evaluation ended. -/
def Unchanged (xs : List (Nat × Interpreter F)) (s : Interpreter F) : Prop :=
  ∀ x ∈ xs, treeOf s.heap x.1 = treeOf x.2.heap x.1

theorem Unchanged.trees {xs : List (Nat × Interpreter F)} (h : Unchanged xs s) :
    (xs.map Prod.fst).map (treeOf s.heap) = valueTrees xs := by
  rw [List.map_map]
  exact List.map_congr_left h

theorem paramCountOf_le (ns : List (Option Text)) : paramCountOf ns ≤ ns.length := by
  unfold paramCountOf
  split <;> omega

/-- The bindings of the arguments, as trees. -/
theorem bindingTrees_frame {bs : List Binding} {xs : List Nat}
    (hvs : List.Forall₂ (fun b v => cellAt h b.slot = some (.list v 0)) bs xs)
    (hbs : bs.map Binding.name = ns.take m) (hm : (m : Int) ≤ paramCountOf ns) :
    xs.length = m ∧ bindingTrees h bs = ns.zip (xs.map (treeOf h)) := by
  have hle := paramCountOf_le ns
  have htake : (ns.take m).length = m := by
    rw [List.length_take]
    omega
  have hlen : xs.length = m := by
    rw [← hvs.length_eq, ← htake, ← hbs, List.length_map]
  refine ⟨hlen, ?_⟩
  have hzip : bindingTrees h bs = (bs.map Binding.name).zip (xs.map (treeOf h)) := by
    clear hbs hlen
    induction hvs with
    | nil => rfl
    | cons hb _ ih =>
      simp only [bindingTrees, List.map_cons, List.zip_cons_cons, car_eq hb] at ih ⊢
      rw [ih]
  have happend : (ns.take m ++ ns.drop m).zip (xs.map (treeOf h) ++ []) =
      (ns.take m).zip (xs.map (treeOf h)) ++ (ns.drop m).zip [] :=
    List.zip_append (by rw [htake, List.length_map, hlen])
  rw [List.take_append_drop, List.append_nil, List.zip_nil_right, List.append_nil] at happend
  rw [hzip, hbs, happend]

variable [CFloat F]

/-- What a call with some of the arguments returns. -/
theorem partial_tree (hev : RunsAll ev) (hr : Reads c.state.heap o (.closure tp tb tk missing) cs)
    (hp : tp.ParamTree ns) (ha : IsArguments c.state.heap args)
    (hfew : (listLength c.state.heap args : Int) < missing)
    (h : exec (closurePartialApplication ev fuel o args) c.state = (.ok r, s)) :
    ∃ us, us = ((callValues ev fuel o args c.state).map Prod.fst).map (treeOf s.heap) ∧
      us.length = listLength c.state.heap args ∧
      treeOf s.heap r = .closure (tp.drop us.length) tb (Obj.bindTree (ns.zip us ++ tk.bindings))
        (tp.drop us.length).paramCount := by
  obtain ⟨p, b, k, bs₂, _, _, _, hcell, hcount, hpl, hk, hrp, hrb, hrk⟩ := closure_parts hr hp
  obtain ⟨c₁, os, hcopy, hsteps, hbal, hext, -, -, hrule⟩ :=
    wp_closurePartialApplication ev fuel args hcell hpl hk hrp hrb hrk
  have hparams : parameters c₁.state.heap o = p := by
    simp [parameters, hext.cellAt hcell]
  have hnargs : nargs c.state.heap o = missing := by simp [nargs, hcell]
  have hle : args ≤ c.state.heap.length := by
    rcases ha with rfl | ha
    · exact Nat.zero_le _
    · obtain ⟨x, y, hx⟩ := isList_iff.1 ha
      exact (cellAt_le hx).2
  have hvalues : callValues ev fuel o args c.state = argumentValues ev fuel p args
      { c₁.state with trace.held := os ++ c₁.state.trace.held } := by
    rw [callValues, hnargs, if_pos hfew, hcopy]
    simp only [heldValues, hparams]
  rw [hvalues]
  have hrun : wp (closurePartialApplication ev fuel o args) (fun r s => ∃ us,
      us = ((argumentValues ev fuel p args { c₁.state with
        trace.held := os ++ c₁.state.trace.held }).map Prod.fst).map (treeOf s.heap) ∧
      us.length = listLength c.state.heap args ∧
      treeOf s.heap r = .closure (tp.drop us.length) tb (Obj.bindTree (ns.zip us ++ tk.bindings))
        (tp.drop us.length).paramCount) (fun _ _ => True) c.state := by
    apply hrule
    refine wp_mono (holding_values os hev (hsteps.later.paramList hpl)
      (hsteps.later.isArguments ha)) ?_ fun _ _ _ => trivial
    rintro r s ⟨e, bs, vs, hlink, hvs, hbs⟩
    refine ⟨e, bs, vs, hlink, fun r' d _ hd => ?_⟩
    rw [hsteps.later.listLength hle] at hbs
    obtain ⟨hnew, cr, hread⟩ := hd.reads hlink.values
    have hvs' := hlink.values.imp fun _ _ h => hd.heap.cellAt h
    obtain ⟨hlen, hframe⟩ := bindingTrees_frame hvs' hbs (by omega)
    refine ⟨_, rfl, ?_, ?_⟩
    · rw [← hvs, List.length_map, hlen]
    · rw [← hvs, List.length_map, hlen, hread.treeOf, ← hnew, hframe]
  exact (wp_ok h).1 hrun

/-- A call with all the arguments: the body, and the bindings of its environment. -/
theorem body_tree (hev : RunsAll ev) (hr : Reads c.state.heap o (.closure tp tb tk missing) cs)
    (hp : tp.ParamTree ns) (ha : IsArguments c.state.heap args)
    (hall : (listLength c.state.heap args : Int) = missing)
    (h : exec (holding [o] (associate ev fuel (parameters c.state.heap o) args)) c.state =
      (.ok r, s))
    (hsame : treeOf s.heap o = treeOf c.state.heap o) :
    ∃ us, us = ((callValues ev fuel o args c.state).map Prod.fst).map (treeOf s.heap) ∧
      (us.length : Int) = missing ∧
      ∃ (body : Nat) (e : Config F), treeOf e.state.heap body = tb ∧
        exec (applyBody ev fuel o args) c.state = exec (leaving s.env (ev body)) e.state ∧
        (treeOf e.state.heap e.state.env).bindings =
          tk.bindings ++ ns.zip us ++ (treeOf s.heap s.env).bindings := by
  obtain ⟨p, b, k, bs₂, _, _, _, hcell, hcount, hpl, hk, hrp, hrb, hrk⟩ := closure_parts hr hp
  have hparams : parameters c.state.heap o = p := by simp [parameters, hcell]
  have hnargs : nargs c.state.heap o = missing := by simp [nargs, hcell]
  have hvalues : callValues ev fuel o args c.state = argumentValues ev fuel p args
      { c.state with trace.held := [o] ++ c.state.trace.held } := by
    rw [callValues, hnargs, if_neg (by omega)]
    simp only [heldValues, hparams]
  have hbound := h
  rw [hparams] at hbound
  obtain ⟨d, bs, vs, hlink, hvs, hbs⟩ := (wp_ok hbound).1 (holding_values [o] hev hpl ha)
  have hcell' := hlink.steps.later.evolves.closure hcell
  have hext := hlink.allocates.heap
  obtain ⟨td, cd, hrd⟩ := d.wf.heap.readable o (cellAt_le hcell').2
  have htd : td = .closure tp tb tk missing := by
    rw [← (hrd.mono hext).treeOf, hsame, hr.treeOf]
  subst htd
  obtain ⟨p', b', k', _, _, _, hcell'', -, -, hrb', hrk'⟩ := hrd.closure_inv
  obtain ⟨rfl, rfl, rfl, -⟩ := Cell.closure.inj (Option.some.inj (hcell''.symm.trans hcell'))
  obtain ⟨e, capBs, -, htop, -, -, -, -, hexte, htrees, hexec⟩ := linked_enterBody hlink hcell'
    (hlink.steps.later.envList hk) hrk'
  obtain ⟨te, ce, hre⟩ := e.wf.heap.readable _ e.wf.env.le
  obtain ⟨tz, cz, hrz⟩ := d.wf.heap.readable _ d.wf.env.le
  have hscope : (treeOf s.heap s.env).bindings = d.scope := by
    rw [hlink.env, (hrz.mono hext).treeOf, d.wf.env.bindings hrz]
    rfl
  have hvs' := hlink.values.imp fun _ _ h => hext.cellAt h
  obtain ⟨hlen, hframe⟩ := bindingTrees_frame hvs' hbs (by omega)
  have hnew : bindingTrees e.state.heap bs = bindingTrees s.heap bs := by
    rw [d.wf.heap.bindingTrees_mono hexte hlink.values,
      d.wf.heap.bindingTrees_mono hext hlink.values]
  refine ⟨_, rfl, ?_, b', e, (hrb'.mono hexte).treeOf, ?_, ?_⟩
  · rw [hvalues, ← hvs, List.length_map, hlen, hall]
  · rw [exec_applyBody, exec_bind_ok h, hexec, hlink.env]
  · rw [hre.treeOf, e.wf.env.bindings hre, htop, hscope, hvalues, ← hvs, ← hframe, ← hnew, ← htrees,
      Config.scope, ← hexte.bindingTrees d.wf.env hrz]
    simp only [bindingTrees, List.map_append]

end calls

section staged

theorem reads_closure (h : treeOf c.state.heap o = .closure p tb k missing) :
    ∃ cs, Reads c.state.heap o (.closure p tb k missing) cs := by
  rcases Nat.lt_or_ge c.state.heap.length o with hlt | hle
  · have hnone : cellAt c.state.heap o = none := by
      cases hcell : cellAt c.state.heap o with
      | none => rfl
      | some x => exact absurd (cellAt_le hcell).2 (Nat.not_le.2 hlt)
    have hnull : treeOf c.state.heap o = .null := by
      unfold treeOf
      cases c.state.heap.length <;> simp [treeFrom, hnone]
    rw [hnull] at h
    cases h
  · obtain ⟨t, cs, hr⟩ := c.wf.heap.readable o hle
    rw [hr.treeOf] at h
    exact ⟨cs, h ▸ hr⟩

theorem Stage.of_tree (h : Stage ps b C vs (treeOf c.state.heap o)) :
    ∃ p k missing ns cs, Reads c.state.heap o (.closure p b k missing) cs ∧ p.ParamTree ns ∧
      nargs c.state.heap o = missing ∧ missing = (ps.length - vs.length : Nat) ∧
      ∃ x y z, cellAt c.state.heap o = some (.closure x y z missing) := by
  obtain ⟨p, l, htree, hparams, -⟩ := h.closure
  obtain ⟨cs, hr⟩ := reads_closure htree
  obtain ⟨ns, hns, -⟩ := hparams.names
  obtain ⟨x, y, z, _, _, _, hcell, -⟩ := hr.closure_inv
  refine ⟨p, _, _, ns, cs, hr, hns, ?_, rfl, x, y, z, hcell⟩
  simp [nargs, hcell]

theorem lookupName_eq (c : Config F) (n : Text) : lookupName c.state n = c.scope.find n := by
  obtain ⟨t, cs, hr⟩ := c.wf.heap.readable _ c.wf.env.le
  rw [lookupName, hr.treeOf, c.wf.env.bindings hr]
  rfl

variable [CFloat F]

/-- `o` is a closure that `lambda` made with the parameters `ps`, the body `b` and the captured list
`C`, after calls with the first arguments `vs`. Between the calls it may be stored or copied, and
its tree is the same. -/
inductive Staged (ps : List Text) (b : Obj F) (C : Scope F) :
    List (Obj F) → Config F → Nat → Prop where
  | made {c d : Config F} {args o : Nat} {p k : Obj F} {missing : Int}
      (hargs : args ≤ c.state.heap.length)
      (made : exec (Primitives.lambda args) c.state = (.ok o, d.state))
      (closure : treeOf d.state.heap o = .closure p b k missing) (captured : C = k.bindings)
      (params : p.Params ps) (distinct : ps.Nodup) : Staged ps b C [] d o
  | kept {c d : Config F} {vs : List (Obj F)} {o o' : Nat} (h : Staged ps b C vs c o)
      (same : treeOf d.state.heap o' = treeOf c.state.heap o) : Staged ps b C vs d o'
  | called {c d : Config F} {vs : List (Obj F)} {o r args fuel : Nat} (h : Staged ps b C vs c o)
      (hargs : IsArguments c.state.heap args)
      (few : (listLength c.state.heap args : Int) < nargs c.state.heap o)
      (call : exec (apply (eval fuel) fuel o args) c.state = (.ok r, d.state))
      (unchanged : Unchanged (callValues (eval fuel) fuel o args c.state) d.state) :
      Staged ps b C (vs ++ valueTrees (callValues (eval fuel) fuel o args c.state)) d r

theorem Staged.stage (h : Staged ps b C vs c o) : Stage ps b C vs (treeOf c.state.heap o) := by
  induction h with
  | @made c d args o p k missing hargs made closure captured params distinct =>
    obtain ⟨r, s, hexec, -, cs, hr⟩ := lambda_ok c hargs
    obtain ⟨hr', hs⟩ := Prod.mk.inj (made.symm.trans hexec)
    obtain rfl := Except.ok.inj hr'
    have htree : (treeOf c.state.heap args).lambda (lookupTree c.state.heap c.top) =
        .closure p b k missing := by
      rw [← hr.treeOf, ← hs, closure]
    rw [closure, ← htree, captured]
    exact .lambda htree params distinct
  | kept _ same ih =>
    rw [same]
    exact ih
  | @called c d vs o r args fuel _ hargs few call unchanged ih =>
    obtain ⟨p, k, missing, ns, cs, hr, hns, hnargs, -, x, y, z, hcell⟩ := ih.of_tree
    rw [hnargs] at few
    have hpartial : exec (closurePartialApplication (eval fuel) fuel o args) c.state =
        (.ok r, d.state) := by
      rw [← call, apply, exec_get_bind]
      simp only [hcell, hnargs]
      rw [if_neg (by omega), if_pos few]
    obtain ⟨us, hus, hlen, htree⟩ := partial_tree (runs_eval fuel) hr hns hargs few hpartial
    rw [unchanged.trees] at hus
    rw [htree, ← hus]
    rw [hr.treeOf] at ih
    exact ih.supplied hns (by omega)

/-- A closure is the same later, unless a value that it has captured contains a binding of an
environment. -/
theorem Staged.later (h : Staged ps b C vs c o) (hr : Reads c.state.heap o u cs)
    (hcs : ∀ a ∈ cs, ¬c.slots a) (hs : Steps c d) : Staged ps b C vs d o := by
  obtain ⟨hr', -⟩ := hs.later.reads hr hcs
  exact .kept h (by rw [hr'.treeOf, hr.treeOf])

/-- `set` stores a copy of the closure, and the name then has the copy. -/
theorem Staged.stored {key : Nat} (h : Staged ps b C vs c o)
    (hkey : cellAt c.state.heap key = some (.atom n)) (hn : isTruthName n = false) :
    ∃ r d, exec (Primitives.store key o) c.state = (.ok r, Config.state d) ∧
      Staged ps b C vs d (lookup d.state.heap key d.state.env) := by
  obtain ⟨p, k, missing, ns, cs, hr, -, -, -, x, y, z, hcell⟩ := h.stage.of_tree
  have ho : o ≠ 0 := Nat.pos_iff_ne_zero.1 (cellAt_le hcell).1
  obtain ⟨r, d, hexec, -, -, hd⟩ := Runs.store hr ho hkey hn
  have htree := d.wf.env.lookup_tree d.wf.heap hd.lookupTree_self
    (hd.action.later.evolves.atom hkey)
  exact ⟨r, d, hexec, .kept h (by rw [htree, hr.treeOf])⟩

/-- A closure made by `lambda` gets its arguments in groups. It always takes as many arguments as
it has parameters left, also when it was stored in between, and too many are refused before anything
is evaluated. With the last ones the body is evaluated where each parameter is bound to its
argument, each captured name to the captured value, and every other name as in the environment of
the call, so as if all the arguments had come at once. -/
theorem staged_calls (h : Staged ps b C vs c o) (hargs : IsArguments c.state.heap args) :
    nargs c.state.heap o = (ps.length : Int) - vs.length ∧
    (∀ key n, cellAt c.state.heap key = some (.atom n) → isTruthName n = false →
      ∃ r d, exec (Primitives.store key o) c.state = (.ok r, Config.state d) ∧
        Staged ps b C vs d (lookup d.state.heap key d.state.env)) ∧
    (nargs c.state.heap o < listLength c.state.heap args →
      ∀ ev fuel, exec (apply ev fuel o args) c.state = (.ok 0, c.state)) ∧
    ((listLength c.state.heap args : Int) = nargs c.state.heap o → ∀ fuel frame s,
      exec (holding [o] (associate (eval fuel) fuel (parameters c.state.heap o) args)) c.state =
        (.ok frame, s) →
      treeOf s.heap o = treeOf c.state.heap o →
      Unchanged (callValues (eval fuel) fuel o args c.state) s →
      ∃ (body : Nat) (e : Config F), treeOf e.state.heap body = b ∧
        exec (apply (eval fuel) fuel o args) c.state =
          exec (leaving s.env (eval fuel body)) e.state ∧
        BodyScope ps (vs ++ valueTrees (callValues (eval fuel) fuel o args c.state)) C
          (lookupName s) (lookupName e.state) ∧
        ∀ call body', BodyScope ps (vs ++ valueTrees (callValues (eval fuel) fuel o args c.state)) C
          call body' → (∀ n, lookupName s n = call n) → ∀ n, lookupName e.state n = body' n) := by
  have hstage := h.stage
  obtain ⟨p, k, missing, ns, cs, hr, hns, hnargs, hmissing, x, y, z, hcell⟩ := hstage.of_tree
  have hlen := hstage.length
  rw [hnargs]
  refine ⟨by omega, fun key n hkey hn => h.stored hkey hn, ?_, ?_⟩
  · intro hmany ev fuel
    rw [apply, exec_get_bind]
    simp only [hcell, hnargs]
    rw [if_pos hmany]
    rfl
  · intro hall fuel frame s hassoc hsame hunchanged
    obtain ⟨us, hus, hcount, body, e, hbody, hexec, hscope⟩ :=
      body_tree (runs_eval fuel) hr hns hargs hall hassoc hsame
    rw [hunchanged.trees] at hus
    rw [hr.treeOf] at hstage
    have hfind := hstage.bodyScope hns hcount (treeOf s.heap s.env).bindings
    rw [← hscope, hus] at hfind
    refine ⟨body, e, hbody, ?_, hfind, fun call body' h' hcall => hfind.unique h' hcall⟩
    rw [← hexec, apply, exec_get_bind]
    simp only [hcell, hnargs]
    rw [if_neg (by omega), if_neg (by omega)]

/-- The argument lists `((x y) x)` of `lambda`, `(7)` and `(8)`. -/
def curried : Heap NoFloat :=
  [⟨.atom ['x'], false, false⟩, ⟨.atom ['y'], false, false⟩, ⟨.list 2 0, false, false⟩,
    ⟨.list 1 3, false, false⟩, ⟨.list 1 0, false, false⟩, ⟨.list 4 5, false, false⟩,
    ⟨.int 7, false, false⟩, ⟨.list 7 0, false, false⟩, ⟨.int 8, false, false⟩,
    ⟨.list 9 0, false, false⟩]

theorem heapOk_curried : HeapOk curried S := by
  constructor
  · intro a ha
    refine readable_of_earlier (fun a x y hc => ?_) (fun a p b c n hc => ?_) ha
    · have hle : a ≤ 10 := (cellAt_le hc).2
      interval_cases a <;> cases hc <;> decide
    · have hle : a ≤ 10 := (cellAt_le hc).2
      interval_cases a <;> cases hc
  · intro a c hac
    have ha : a ≤ 10 := (cellAt_le hac).2
    interval_cases a <;> cases hac <;> first | trivial | exact Or.inl rfl | exact Or.inr ⟨_, _, rfl⟩

/-- The empty environment. -/
def uncurried : Config NoFloat where
  state := ⟨curried, 0, [], ⟨[], [], [], [], 0, 0⟩⟩
  top := []
  below := []
  pending := []
  wf := ⟨heapOk_curried, .nil, .nil, .singleton _, by simp, by simp⟩

/-- The closure of `(lambda (x y) x)`. -/
def curriedMade : Interpreter NoFloat := (exec (Primitives.lambda 6) uncurried.state).2

/-- What is left by a call of it with `(7)`. -/
def curriedCalled : Interpreter NoFloat := (exec (apply (eval 4) 4 16 8) curriedMade).2

instance (xs : List (Nat × Interpreter NoFloat)) (s : Interpreter NoFloat) :
    Decidable (Unchanged xs s) :=
  inferInstanceAs (Decidable (∀ x ∈ xs, treeOf s.heap x.1 = treeOf x.2.heap x.1))

theorem staged_curried : ∃ d : Config NoFloat, d.state = curriedCalled ∧
    Staged [['x'], ['y']] (.atom ['x']) [] [.int 7] d 23 := by
  have hlambda : (exec (Primitives.lambda 6) uncurried.state).1 = .ok 16 := by decide +kernel
  have hcall : (exec (apply (eval 4) 4 16 8) curriedMade).1 = .ok 23 := by decide +kernel
  obtain ⟨r, s, hexec, hext, -⟩ := lambda_ok uncurried
    (show 6 ≤ uncurried.state.heap.length by decide)
  obtain ⟨-, hs⟩ := Prod.mk.inj ((exec_eq hlambda).symm.trans hexec)
  obtain ⟨c, hc, -⟩ := hext.reached
  have hc : c.state = curriedMade := hc.trans hs.symm
  have hmade : Staged [['x'], ['y']] (.atom ['x']) [] [] c 16 :=
    .made (show 6 ≤ uncurried.state.heap.length by decide) (hc ▸ exec_eq hlambda)
      (by rw [hc]; rfl) rfl (Or.inl rfl) (by decide)
  have hrun : Runs c (apply (eval 4) 4 16 8) (Value c) :=
    runs_apply (runs_eval 4) (by rw [hc]; decide +kernel)
  rw [← hc] at hcall
  obtain ⟨d, hd, -⟩ := (wp_ok (exec_eq hcall)).1 hrun
  have hcalled : Staged [['x'], ['y']] (.atom ['x']) []
      ([] ++ valueTrees (callValues (eval 4) 4 16 8 c.state)) d 23 := by
    refine .called hmade (Or.inr ?_) ?_ ?_ ?_
    · rw [hc]
      decide +kernel
    · rw [hc]
      decide +kernel
    · rw [hd]
      exact exec_eq hcall
    · rw [hd, hc]
      decide +kernel
  rw [hc] at hd hcalled
  have hvalues : valueTrees (callValues (eval 4) 4 16 8 curriedMade) = [.int 7] := by
    decide +kernel
  rw [hvalues] at hcalled
  exact ⟨d, hd, hcalled⟩

/-- The body of `(lambda (x y) x)` after a call with `7` and another one with `8`. -/
theorem staged_calls_curried : ∃ (body : Nat) (e : Config NoFloat),
    treeOf e.state.heap body = .atom ['x'] ∧
    exec (apply (eval 4) 4 23 10) curriedCalled = exec (leaving 0 (eval 4 body)) e.state ∧
    [['x'], ['y']].map (lookupName e.state) = [some (.int 7), some (.int 8)] := by
  obtain ⟨d, hd, hstaged⟩ := staged_curried
  have hbound : (exec (holding [23] (associate (eval 4) 4 (parameters curriedCalled.heap 23) 10))
      curriedCalled).1 = .ok 26 := by decide +kernel
  have hargs : IsArguments d.state.heap 10 := by
    rw [hd]
    exact Or.inr (by decide +kernel)
  obtain ⟨-, -, -, hbody⟩ := staged_calls hstaged hargs
  rw [hd] at hbody
  obtain ⟨body, e, htree, hexec, hscope, -⟩ := hbody (by decide +kernel) 4 26 _ (exec_eq hbound)
    (by decide +kernel) (by decide +kernel)
  refine ⟨body, e, htree, hexec, hscope.parameters.trans ?_⟩
  decide +kernel

/-- An interpreter with some of the primitives. -/
def fourPrimitives : Interpreter NoFloat :=
  let init := createEnvironment [] [("quote".toList, .quote), ("set".toList, .set),
    ("env".toList, .env), ("lambda".toList, .lambda)]
  ⟨init.2, init.1, [], ⟨[], [], slotsOf init.2 init.1, [], 0, 0⟩⟩

/-- What an environment that was returned gives a name. -/
def lookupReturned (run : Except Halt Nat × Interpreter NoFloat) (n : Text) :
    Option (Obj NoFloat) :=
  match run.1 with
  | .ok r => Scope.find (treeOf run.2.heap r).bindings n
  | .error _ => none

/-- The first argument is the environment itself. Its binding of `lambda` changes before the closure
is copied in the call without arguments, and again in the call with the last argument: the body
finds neither the value that the argument had, nor the one it has. -/
theorem staged_calls_environment :
    let run := exec (evalExpression 20
      "((((lambda (a b c) a) (env) (set 'lambda 2))) (set 'lambda 3))".toList) fourPrimitives
    lookupName fourPrimitives "lambda".toList = some (.primitive .lambda) ∧
      lookupReturned run "lambda".toList = some (.int 2) ∧
      lookupName run.2 "lambda".toList = some (.int 3) := by
  decide +kernel

end staged
end Lisp
