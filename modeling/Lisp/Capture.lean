import Mathlib.Tactic.IntervalCases
import Lisp.Executions
import Lisp.Primitives

/-! `lambda`: the parameter list it accepts, the list that `capture_variables` builds, and the
closure as one step of the machine. -/
namespace Lisp
open ExceptState
variable {F : Type} {c d : Config F} {h h' h₀ : Heap F} {S : Nat → Prop}
  {a b e p key fuel args params proc cap env : Nat} {t u tb : Obj F} {cs ds : List Nat}
  {bs : List Binding} {n : Text} {r : Nat × Heap F} {names : List (Option Text)}
  {binds : List (Text × Obj F)} {find : Text → Option (Obj F)}

namespace Obj

/-- The name that `lambda` reads a parameter as; a missing parameter has none. -/
def keyName : Obj F → Option (Option Text)
  | .null => some none
  | .atom n => if isTruthName n then none else some (some n)
  | _ => none

def paramNames : Obj F → Option (List (Option Text))
  | .null => some []
  | .list key next => do return (← key.keyName) :: (← next.paramNames)
  | _ => none

/-- A list of pairs of a name and a value. -/
def ofBindings : List (Text × Obj F) → Obj F
  | [] => .null
  | (n, v) :: binds => .list (.list (.atom n) (.list v .null)) (ofBindings binds)

/-- `capture_variables` on trees. -/
def capture (params : List (Option Text)) (find : Text → Option (Obj F)) :
    List (Text × Obj F) → Obj F → List (Text × Obj F)
  | captured, .atom n =>
    if n ∈ captured.map Prod.fst ∨ some n ∈ params then captured
    else match find n with
      | none => captured
      | some v => (n, v) :: captured
  | captured, .list a d => capture params find (capture params find captured a) d
  | captured, _ => captured

/-- `lambda` on trees: the closure it makes, or `NULL`. -/
def lambda (find : Text → Option (Obj F)) (args : Obj F) : Obj F :=
  if args.length < 1 then .null
  else if 2 < args.length then .null
  else if !(args.ith 0).isList then .null
  else match (args.ith 0).paramNames with
    | none => .null
    | some names =>
      if (args.ith 1).isNull then .null
      else .closure (args.ith 0) (args.ith 1)
        (ofBindings (capture names find [] (args.ith 1))) (paramCountOf names)

theorem envTree_ofBindings (hb : ∀ b ∈ binds, isTruthName b.1 = false) :
    (ofBindings binds).EnvTree (binds.map fun b => some b.1) := by
  induction binds with
  | nil => exact .nil
  | cons b binds ih =>
    exact .cons ⟨rfl, hb b (by simp)⟩ (ih fun b' hb' => hb b' (by simp [hb']))

theorem EnvTree.isTail (ht : t.EnvTree names) : t.IsTail := by
  cases ht <;> trivial

end Obj

section parameters

theorem isKey_iff {key : Obj F} {name : Option Text} :
    key.IsKey name ↔ key.keyName = some name := by
  cases key with
  | atom n =>
    cases name with
    | none => cases h : isTruthName n <;> simp [Obj.IsKey, Obj.keyName, h]
    | some m => cases h : isTruthName n <;> simp [Obj.IsKey, Obj.keyName, h] <;> grind
  | _ => cases name <;> simp [Obj.IsKey, Obj.keyName]

theorem paramTree_iff : t.ParamTree names ↔ t.paramNames = some names := by
  induction t generalizing names with
  | null =>
    constructor
    · rintro ⟨⟩
      rfl
    · rintro ⟨⟩
      exact .nil
  | list key next _ ih =>
    constructor
    · rintro (_ | ⟨hkey, hnext⟩)
      simp [Obj.paramNames, isKey_iff.1 hkey, ih.1 hnext]
    · intro hp
      simp only [Obj.paramNames, Option.bind_eq_bind, Option.bind_eq_some_iff] at hp
      obtain ⟨name, hkey, names, hnext, ⟨⟩⟩ := hp
      exact .cons (isKey_iff.2 hkey) (ih.2 hnext)
  | _ =>
    constructor
    · rintro ⟨⟩
    · rintro ⟨⟩

theorem Reads.isParameter (hr : Reads h a t cs) : isParameter h a = t.keyName.isSome := by
  cases hr with
  | null => rfl
  | @leaf _ c _ ha ht =>
    have h0 := Nat.pos_iff_ne_zero.1 (cellAt_le ha).1
    cases c <;> simp [Cell.leaf?] at ht <;> subst ht <;>
      simp [Lisp.isParameter, isAtom, isT, atomName, ha, h0, Obj.keyName]
    split <;> simp_all
  | list ha _ _ =>
    have h0 := Nat.pos_iff_ne_zero.1 (cellAt_le ha).1
    simp [Lisp.isParameter, isAtom, ha, h0, Obj.keyName]
  | closure ha _ _ _ =>
    have h0 := Nat.pos_iff_ne_zero.1 (cellAt_le ha).1
    simp [Lisp.isParameter, isAtom, ha, h0, Obj.keyName]

/-- The test of `lambda` accepts the lists of names. -/
theorem Reads.parameters (hr : Reads h a t cs) (hok : t.Ok) (htail : t.IsTail)
    (hf : t.depth ≤ fuel) :
    ((cellsFrom h fuel a).map (car h)).all (Lisp.isParameter h) = t.paramNames.isSome := by
  induction hr generalizing fuel with
  | null => simp [cellsFrom_zero, Obj.paramNames]
  | @leaf _ c _ _ ht => cases c <;> simp [Cell.leaf?] at ht <;> subst ht <;> exact htail.elim
  | @list a x y tx ty cx cy ha hx hy _ ihy =>
    obtain _ | fuel := fuel
    · simp [Obj.depth] at hf
    simp only [Obj.depth] at hf
    have ha0 : a ≠ 0 := Nat.pos_iff_ne_zero.1 (cellAt_le ha).1
    simp only [cellsFrom, ha0, if_false, List.map_cons, List.all_cons, car_eq ha, cdr_eq ha,
      hx.isParameter, ihy hok.2.1 hok.2.2 (show ty.depth ≤ fuel by omega), Obj.paramNames]
    cases tx.keyName <;> cases ty.paramNames <;> rfl
  | closure => exact htail.elim

end parameters

section capture

theorem ParamList.length_le (hp : ParamList h S p names) (hr : Reads h p t cs) :
    names.length ≤ h.length := by
  refine Nat.le_trans ?_ hr.depth_le
  induction hp generalizing t cs with
  | nil => simp
  | cons hp _ _ _ ih =>
    obtain ⟨tk, tn, ck, cn, rfl, -, -, hn⟩ := hr.of_list hp
    have := ih hn
    simp only [List.length_cons, Obj.depth]
    omega

/-- `list_contains` on a list of names. -/
theorem ParamList.listContains (hp : ParamList h S p names) (hf : names.length < fuel)
    (hkey : cellAt h key = some (.atom n)) :
    listContains h fuel p key = some (decide (some n ∈ names)) := by
  have hkey0 : key ≠ 0 := Nat.pos_iff_ne_zero.1 (cellAt_le hkey).1
  induction hp generalizing fuel with
  | nil =>
    obtain _ | fuel := fuel
    · simp at hf
    simp [Lisp.listContains]
  | @cons p next k name names hp hk _ _ ih =>
    obtain _ | fuel := fuel
    · simp at hf
    have hp0 : p ≠ 0 := Nat.pos_iff_ne_zero.1 (cellAt_le hp).1
    have hrest := ih (show names.length < fuel by simp at hf; omega)
    have hcompare : compareRecursive h (h.length + 1) k key = some (decide (name = some n)) := by
      cases name with
      | none =>
        obtain rfl := hk
        simp [compareRecursive, hkey0]
      | some m =>
        have hk0 : k ≠ 0 := Nat.pos_iff_ne_zero.1 (cellAt_le hk.1).1
        simp only [compareRecursive, hk0, if_false, hk.1, hkey, Option.some.injEq]
        rw [Bool.beq_eq_decide_eq]
    simp only [Lisp.listContains, hp0, hkey0, or_self, if_false, car_eq hp, cdr_eq hp, hcompare,
      hrest, Option.bind_eq_bind, Option.bind_some, List.mem_cons]
    by_cases hn : name = some n
    · simp [hn]
    · simp [hn, Ne.symm hn]

/-- A list of captured bindings: new objects without sharing. -/
structure Captured (h₀ h : Heap F) (cap : Nat) (binds : List (Text × Obj F)) (cs : List Nat) :
    Prop where
  reads : Reads h cap (Obj.ofBindings binds) cs
  names : ∀ b ∈ binds, isTruthName b.1 = false
  ok : (Obj.ofBindings binds).Ok
  nodup : cs.Nodup
  fresh : ∀ a ∈ cs, h₀.length < a

/-- A copy of a pair of the environment in front of the captured list. -/
theorem Captured.cons (hh : HeapOk h S) (hext : Extends h₀ h) (hS : ∀ a, S a → a ≤ h₀.length)
    (hcap : Captured h₀ h cap binds cs) {b : Binding} (hb : Found h bs n p b) :
    Extends h (alloc (copyRecursive h p).2 (.list (copyRecursive h p).1 cap)).2 ∧
      HeapOk (alloc (copyRecursive h p).2 (.list (copyRecursive h p).1 cap)).2 S ∧
      ∃ cs', Captured h₀ (alloc (copyRecursive h p).2 (.list (copyRecursive h p).1 cap)).2
        (alloc (copyRecursive h p).2 (.list (copyRecursive h p).1 cap)).1
        ((n, treeOf h (car h b.slot)) :: binds) cs' := by
  obtain ⟨k, hpair, hkey⟩ := hb.pair
  obtain ⟨v, hv⟩ := hb.value
  obtain ⟨tp, cp, hp⟩ := hh.readable p (cellAt_le hpair).2
  have hok := hh.cells.tree hp
  have hcopy := hp.copyRecursive
  rw [hok.copied] at hcopy
  obtain ⟨tk, ts, ck, cs', rfl, -, hk, hs⟩ := hp.of_list hpair
  obtain ⟨rfl, -⟩ := hk.of_leaf hkey.1 rfl
  obtain ⟨tv, tz, cv, cz, rfl, -, hrv, hz⟩ := hs.of_list hv
  obtain ⟨rfl, -⟩ := hz.unique .null
  rw [car_eq hv, hrv.treeOf]
  generalize hcp : copyRecursive h p = q at hcopy
  have hle := hcopy.1.1
  have hSq : ∀ a, S a → a ≤ h.length := fun a ha => (hS a ha).trans hext.1
  have hnew := extends_alloc q.2 (.list q.1 cap)
  have htail := (Obj.envTree_ofBindings hcap.names).isTail
  have hqle := hcopy.2.valid.1
  have hcapq := hcap.reads.mono hcopy.1
  refine ⟨hcopy.1.trans hnew, (hh.built hcopy hok hSq).alloc ?_ ?_, _,
    .list (cellAt_alloc _ _) (hcopy.2.mono hnew) (hcapq.mono hnew), ?_, ⟨hok, hcap.ok, htail⟩,
    ?_, ?_⟩
  · simpa [Cell.parts] using ⟨hqle, hcapq.valid.1⟩
  · obtain rfl | ⟨x, y, hx⟩ := hcap.reads.tail htail
    · exact Or.inl rfl
    · exact Or.inr ⟨x, y, hcopy.1.cellAt hx⟩
  · intro b hb
    obtain rfl | hb := List.mem_cons.1 hb
    · exact hkey.2
    · exact hcap.names b hb
  · have hle' : ∀ a ∈ cs, a ≤ h.length := fun a ha => (hcap.reads.valid.2 a ha).2
    rw [List.nodup_append, List.nodup_append]
    refine ⟨⟨List.nodup_range', hcap.nodup, ?_⟩, List.nodup_singleton _, ?_⟩
    · intro a ha b hb
      rw [List.mem_range'_1] at ha
      have := hle' b hb
      omega
    · intro a ha b hb
      rw [List.mem_singleton.1 hb, alloc_fst]
      rw [List.mem_append, List.mem_range'_1] at ha
      obtain ha | ha := ha
      · omega
      · have := hle' a ha
        omega
  · intro a ha
    have := hext.1
    simp only [List.mem_append, List.mem_range'_1, List.mem_singleton, alloc_fst] at ha
    obtain (ha | ha) | rfl := ha
    · omega
    · exact hcap.fresh a ha
    · omega

theorem Extends.lookupTree (hext : Extends h h') (hh : HeapOk h S) (henv : EnvList h S e bs) :
    lookupTree h' bs = lookupTree h bs := by
  funext n
  unfold Lisp.lookupTree
  cases hs : slotOf bs n with
  | none => rfl
  | some slot =>
    obtain ⟨b, hb, rfl, -⟩ := slotOf_mem hs
    obtain ⟨v, hv⟩ := henv.slot_mem hb
    obtain ⟨t, cs, hr⟩ := hh.readable v (hh.part_le hv v (by simp [Cell.parts]))
    simp only [Option.map_some, car_eq hv, car_eq (hext.cellAt hv), hr.treeOf,
      (hr.mono hext).treeOf]

variable [CFloat F]

/-- The names of the list are those that `lookup_pair` finds. -/
theorem Captured.lookupPair (hcap : Captured h₀ h cap binds cs)
    (hkey : cellAt h key = some (.atom n)) :
    lookupPair h key cap ≠ 0 ↔ n ∈ binds.map Prod.fst := by
  obtain ⟨bs, hnames, -, -, hlist⟩ :=
    (Obj.envTree_ofBindings hcap.names).list hcap.reads hcap.nodup
  have hbs := hlist (fun _ => False) (by simp)
  have hmem : n ∈ binds.map Prod.fst ↔ some n ∈ bs.map Binding.name := by
    rw [hnames]
    simp
  rw [hmem]
  obtain ⟨h0, hnone⟩ | ⟨b, hb⟩ := hbs.lookupPair hcap.reads hkey
  · simp only [slotOf, Option.map_eq_none_iff, List.find?_eq_none, beq_iff_eq] at hnone
    simp only [h0, ne_eq, not_true_eq_false, false_iff, List.mem_map, not_exists, not_and]
    exact hnone
  · obtain ⟨k, hpair, -⟩ := hb.pair
    have hpos := (cellAt_le hpair).1
    constructor
    · rintro -
      exact List.mem_map.2 ⟨b, hb.mem, hb.name⟩
    · rintro -
      omega

/-- `capture_variables` builds the list of `capture`, of new objects. -/
theorem captureVariables_ok (hS : ∀ a, S a → a ≤ h₀.length) (h₀ok : HeapOk h₀ S)
    (henv : EnvList h₀ S env bs) (hparams : ParamList h₀ S params names)
    (hh : HeapOk h S) (hext : Extends h₀ h) (hcap : Captured h₀ h cap binds cs)
    (hproc : Reads h proc tb ds) (hf : tb.depth ≤ fuel) :
    ∃ r, captureVariables params env fuel h cap proc = some r ∧ Extends h r.2 ∧ HeapOk r.2 S ∧
      ∃ cs', Captured h₀ r.2 r.1 (Obj.capture names (lookupTree h₀ bs) binds tb) cs' := by
  have hsame : ∀ {h : Heap F} {cap : Nat} {binds : List (Text × Obj F)} {cs : List Nat},
      HeapOk h S → Captured h₀ h cap binds cs → ∃ r, some (cap, h) = some r ∧ Extends h r.2 ∧
        HeapOk r.2 S ∧ ∃ cs', Captured h₀ r.2 r.1 binds cs' :=
    fun hh hcap => ⟨_, rfl, .refl _, hh, _, hcap⟩
  induction tb generalizing fuel h cap proc binds cs ds with
  | atom n =>
    obtain _ | fuel := fuel
    · simp [Obj.depth] at hf
    have hatom : cellAt h proc = some (.atom n) := by
      cases hproc with
      | @leaf _ c _ ha ht => cases c <;> simp_all [Cell.leaf?]
    obtain ⟨tp, cp, hrp⟩ := hh.readable params (hparams.evolves hext.evolves).le
    obtain ⟨te, ce, hre⟩ := hh.readable env (henv.evolves hext.evolves).le
    have hlen := (hparams.evolves hext.evolves).length_le hrp
    have hfound := hcap.lookupPair hatom
    simp only [captureVariables, isAtom, hatom, if_true, Option.bind_eq_bind,
      (hparams.evolves hext.evolves).listContains (Nat.lt_succ_of_le hlen) hatom,
      Option.bind_some, Obj.capture]
    by_cases hmem : n ∈ binds.map Prod.fst
    · simpa [hfound.2 hmem, hmem] using hsame hh hcap
    have h0 : lookupPair h proc cap = 0 := by
      by_contra hne
      exact hmem (hfound.1 hne)
    by_cases hname : some n ∈ names
    · simpa [h0, hname] using hsame hh hcap
    obtain ⟨hpair, hnone⟩ | ⟨b, hb⟩ := (henv.evolves hext.evolves).lookupPair hre hatom
    · simpa [h0, hname, hmem, hpair, lookupTree, hnone] using hsame hh hcap
    · obtain ⟨k, hk, -⟩ := hb.pair
      have hne := Nat.pos_iff_ne_zero.1 (cellAt_le hk).1
      have htree : lookupTree h₀ bs n = some (treeOf h (car h b.slot)) := by
        rw [← hext.lookupTree h₀ok henv, lookupTree, hb.slot, Option.map_some]
      obtain ⟨hext', hh', cs', hcap'⟩ := hcap.cons hh hext hS hb
      simpa [h0, hname, hmem, hne, htree] using ⟨hext', hh', cs', hcap'⟩
  | list ta td iha ihd =>
    obtain _ | fuel := fuel
    · simp [Obj.depth] at hf
    simp only [Obj.depth] at hf
    obtain ⟨x, y, cx, cy, hcell, -, hx, hy⟩ := hproc.list_inv
    obtain ⟨r, hr, hext₁, hh₁, cs₁, hcap₁⟩ :=
      iha hh hext hcap hx (show ta.depth ≤ fuel by omega)
    obtain ⟨r', hr', hext₂, hh₂, cs₂, hcap₂⟩ :=
      ihd hh₁ (hext.trans hext₁) hcap₁ (hy.mono hext₁) (show td.depth ≤ fuel by omega)
    refine ⟨r', ?_, hext₁.trans hext₂, hh₂, cs₂, hcap₂⟩
    have hcdr : cdr r.2 proc = y := cdr_eq (hext₁.cellAt hcell)
    simp [captureVariables, isAtom, isList, hcell, car_eq hcell, cdr_eq hcell, hr, hr']
  | null =>
    have h0 := hproc.null_iff.2 rfl
    cases fuel <;>
      simpa [captureVariables, isAtom, isList, h0, cellAt_zero, Obj.capture] using hsame hh hcap
  | closure _ _ _ _ _ _ _ =>
    obtain ⟨p, b, c, _, _, _, hcell, -⟩ := hproc.closure_inv
    cases fuel <;> simpa [captureVariables, isAtom, isList, hcell, Obj.capture] using hsame hh hcap
  | primitive _ | int _ | float _ =>
    obtain _ | fuel := fuel
    · simp [Obj.depth] at hf
    cases hproc with
    | @leaf _ c _ ha ht =>
      cases c <;> simp [Cell.leaf?] at ht
      simpa [captureVariables, isAtom, isList, ha, Obj.capture] using hsame hh hcap

end capture

section exactness

/-- An atom with the name stands in the object, at any depth: in quoted data and in the nested
lambdas as well. -/
def Obj.Occurs (n : Text) : Obj F → Prop
  | .atom m => m = n
  | .list a d => a.Occurs n ∨ d.Occurs n
  | _ => False

theorem Obj.nodup_capture (hb : (binds.map Prod.fst).Nodup) :
    ((Obj.capture names find binds t).map Prod.fst).Nodup := by
  induction t generalizing binds with
  | atom m =>
    simp only [Obj.capture]
    by_cases hm : m ∈ binds.map Prod.fst ∨ some m ∈ names
    · simpa only [hm, if_true] using hb
    · simp only [hm, if_false]
      cases find m with
      | none => exact hb
      | some v => exact List.nodup_cons.2 ⟨fun hin => hm (Or.inl hin), hb⟩
  | list a d iha ihd =>
    apply ihd
    apply iha
    exact hb
  | _ => exact hb

/-- What is captured is what was captured before, and each atom with a value that is no
parameter. -/
theorem Obj.mem_capture : n ∈ (Obj.capture names find binds t).map Prod.fst ↔
    n ∈ binds.map Prod.fst ∨ t.Occurs n ∧ some n ∉ names ∧ (find n).isSome := by
  induction t generalizing binds with
  | atom m =>
    simp only [Obj.capture, Obj.Occurs]
    by_cases hm : m ∈ binds.map Prod.fst ∨ some m ∈ names
    · rw [if_pos hm]
      constructor
      · exact Or.inl
      · rintro (hin | ⟨rfl, hp, -⟩)
        · exact hin
        · exact hm.resolve_right hp
    · rw [if_neg hm]
      obtain ⟨-, hp⟩ := not_or.1 hm
      cases hfind : find m with
      | none =>
        constructor
        · exact Or.inl
        · rintro (hin | ⟨rfl, -, hs⟩)
          · exact hin
          · simp [hfind] at hs
      | some v =>
        rw [List.map_cons, List.mem_cons]
        constructor
        · rintro (rfl | hin)
          · exact Or.inr ⟨rfl, hp, by simp [hfind]⟩
          · exact Or.inl hin
        · rintro (hin | ⟨rfl, -, -⟩)
          · exact Or.inr hin
          · exact Or.inl rfl
  | list a d iha ihd =>
    simp only [Obj.capture, Obj.Occurs, ihd, iha]
    tauto
  | _ => simp [Obj.capture, Obj.Occurs]

theorem Obj.capture_value {v : Obj F} (hv : (n, v) ∈ Obj.capture names find binds t) :
    (n, v) ∈ binds ∨ find n = some v := by
  induction t generalizing binds with
  | atom m =>
    simp only [Obj.capture] at hv
    by_cases hm : m ∈ binds.map Prod.fst ∨ some m ∈ names
    · rw [if_pos hm] at hv
      exact Or.inl hv
    · rw [if_neg hm] at hv
      cases hfind : find m with
      | none =>
        rw [hfind] at hv
        exact Or.inl hv
      | some w =>
        rw [hfind] at hv
        rcases List.mem_cons.1 hv with heq | hin
        · cases heq
          exact Or.inr hfind
        · exact Or.inl hin
  | list a d iha ihd =>
    rcases ihd hv with hin | hfind
    · exact iha hin
    · exact Or.inr hfind
  | _ => exact Or.inl hv

theorem isSome_lookupTree : (lookupTree h bs n).isSome ↔ some n ∈ bs.map Binding.name := by
  rw [lookupTree, Option.isSome_map, slotOf, Option.isSome_map, List.find?_isSome]
  simp only [beq_iff_eq, List.mem_map]

variable [CFloat F]

theorem EnvList.lookup_tree {key : Nat} {v : Obj F} (henv : EnvList h S env bs)
    (hh : HeapOk h S) (hv : lookupTree h bs n = some v) (hkey : cellAt h key = some (.atom n)) :
    treeOf h (lookup h key env) = v := by
  obtain ⟨te, ce, hre⟩ := hh.readable env henv.le
  obtain ⟨slot, hslot, rfl⟩ := Option.map_eq_some_iff.1 hv
  rw [Lisp.lookup, henv.lookupEntry hre hkey, hslot, Option.getD_some]

/-- What `capture_variables` leaves: the bound names of the procedure that are no parameters, once
each, with the values that `lookup` gives. The objects that were there stay as they are. -/
theorem captureVariables_exact (hh : HeapOk h S) (henv : EnvList h S env bs)
    (hparams : ParamList h S params names) (hproc : Reads h proc tb ds) :
    ∃ captured h', captureVariables params env h.length h 0 proc = some (captured, h') ∧
      Extends h h' ∧ ∃ binds cs, Reads h' captured (Obj.ofBindings binds) cs ∧
        (binds.map Prod.fst).Nodup ∧
        (∀ n, n ∈ binds.map Prod.fst ↔
          tb.Occurs n ∧ some n ∉ names ∧ some n ∈ bs.map Binding.name) ∧
        ∀ n v, (n, v) ∈ binds → ∀ key, cellAt h key = some (.atom n) →
          v = treeOf h (lookup h key env) := by
  have hnone : ∀ a ≤ h.length, False → S a := fun _ _ hf => hf.elim
  have hh' := hh.weaken hnone
  have henv' := henv.weaken hnone
  obtain ⟨⟨captured, h'⟩, hrun, hext, -, cs, hcap⟩ := captureVariables_ok
    (fun a ha => ha.elim) hh' henv' (hparams.weaken hnone) hh' (.refl h)
    (show Captured h h 0 [] [] from ⟨.null, by simp, trivial, List.nodup_nil, by simp⟩)
    hproc hproc.depth_le
  refine ⟨captured, h', hrun, hext, _, cs, hcap.reads, ?_, fun n => ?_, fun n v hv key hkey => ?_⟩
  · apply Obj.nodup_capture
    exact List.nodup_nil
  · rw [Obj.mem_capture, isSome_lookupTree]
    simp
  · rcases Obj.capture_value hv with hin | hfind
    · simp at hin
    · exact (henv'.lookup_tree hh' hfind hkey).symm

/-- An environment where `x` is `v`. -/
def boundX : Heap NoFloat :=
  [⟨.atom ['x'], false, false⟩, ⟨.atom ['v'], false, false⟩, ⟨.list 2 0, false, false⟩,
    ⟨.list 1 3, false, false⟩, ⟨.list 4 0, false, false⟩]

/-- An environment where also `y` is 8, the parameter list `(y)` and the body `(x y x z)`. -/
def boundXY : Heap NoFloat :=
  boundX ++ [⟨.atom ['y'], false, false⟩, ⟨.int 8, false, false⟩, ⟨.list 7 0, false, false⟩,
    ⟨.list 6 8, false, false⟩, ⟨.list 9 5, false, false⟩, ⟨.list 6 0, false, false⟩,
    ⟨.atom ['z'], false, false⟩, ⟨.list 12 0, false, false⟩, ⟨.list 1 13, false, false⟩,
    ⟨.list 6 14, false, false⟩, ⟨.list 1 15, false, false⟩]

theorem heapOk_boundXY : HeapOk boundXY fun _ => False := by
  constructor
  · intro a ha
    refine readable_of_earlier (fun a x y hc => ?_) (fun a p b c n hc => ?_) ha
    · have hle : a ≤ 16 := (cellAt_le hc).2
      interval_cases a <;> cases hc <;> decide
    · have hle : a ≤ 16 := (cellAt_le hc).2
      interval_cases a <;> cases hc
  · intro a c hac
    have ha : a ≤ 16 := (cellAt_le hac).2
    interval_cases a <;> cases hac <;> first | trivial | exact Or.inl rfl | exact Or.inr ⟨_, _, rfl⟩

/-- The body names `x` twice, the parameter `y`, and `z`, which is not bound. -/
theorem captureVariables_exact_repeated : ∃ captured h',
    captureVariables 11 10 boundXY.length boundXY 0 16 = some (captured, h') ∧
      Extends boundXY h' ∧ ∃ binds cs, Reads h' captured (Obj.ofBindings binds) cs ∧
        (binds.map Prod.fst).Nodup ∧
        (∀ n, n ∈ binds.map Prod.fst ↔ (treeOf boundXY 16).Occurs n ∧
          some n ∉ [some ['y']] ∧ some n ∈ [some ['y'], some ['x']]) ∧
        ∀ n v, (n, v) ∈ binds → ∀ key, cellAt boundXY key = some (.atom n) →
          v = treeOf boundXY (lookup boundXY key 10) := by
  have henv : EnvList boundXY (fun _ => False) 10 [⟨8, some ['y']⟩, ⟨3, some ['x']⟩] :=
    .cons rfl rfl rfl ⟨rfl, by decide⟩ id id (.cons rfl rfl rfl ⟨rfl, by decide⟩ id id .nil)
  have hparams : ParamList boundXY (fun _ => False) 11 [some ['y']] :=
    .cons rfl ⟨rfl, by decide⟩ id .nil
  obtain ⟨t, cs, hbody⟩ := heapOk_boundXY.readable 16 (by decide)
  rw [hbody.treeOf]
  exact captureVariables_exact heapOk_boundXY henv hparams hbody

end exactness

section closure

theorem exec_orUndefined_bind {α β : Type} (v : α) (f : α → Eval F β) (s : Interpreter F) :
    exec (orUndefined (some v) >>= f) s = exec (f v) s := rfl

theorem nodup_parts {cp cb cc : List Nat} {l₀ l₁ l₂ l₃ : Nat} (hcp : cp.Nodup) (hcb : cb.Nodup)
    (hcc : cc.Nodup) (hp : ∀ a ∈ cp, l₀ < a ∧ a ≤ l₁) (hb : ∀ a ∈ cb, l₁ < a ∧ a ≤ l₂)
    (hc : ∀ a ∈ cc, l₂ < a ∧ a ≤ l₃) (h₁₂ : l₁ ≤ l₂) (h₂₃ : l₂ ≤ l₃) :
    (cp ++ cb ++ cc ++ [l₃ + 1]).Nodup := by
  have hle : ∀ a ∈ cp ++ cb, a ≤ l₂ := by
    intro a ha
    obtain ha | ha := List.mem_append.1 ha
    · exact (hp a ha).2.trans h₁₂
    · exact (hb a ha).2
  have hle' : ∀ a ∈ cp ++ cb ++ cc, a ≤ l₃ := by
    intro a ha
    obtain ha | ha := List.mem_append.1 ha
    · exact (hle a ha).trans h₂₃
    · exact (hc a ha).2
  rw [List.nodup_append, List.nodup_append, List.nodup_append]
  refine ⟨⟨⟨hcp, hcb, ?_⟩, hcc, ?_⟩, List.nodup_singleton _, ?_⟩
  · intro a ha b hb'
    have := (hp a ha).2
    have := (hb b hb').1
    omega
  · intro a ha b hb'
    have := hle a ha
    have := (hc b hb').1
    omega
  · intro a ha b hb'
    have := hle' a ha
    rw [List.mem_singleton.1 hb']
    omega

/-- A closure of new objects, once they are recorded. -/
theorem Extended.closure {s : Interpreter F} (hall : Extends c.state.heap s.heap)
    (hh : HeapOk s.heap c.slots) (henv : s.env = c.state.env) (htrace : s.trace = c.state.trace)
    (hregs : s.allocated = c.state.allocated) {tp tc : Obj F} {cp cb cc : List Nat}
    {l₁ l₂ : Nat} (hp : Reads s.heap params tp cp) (hb : Reads s.heap proc tb cb)
    (hc : Reads s.heap cap tc cc) (hcp : cp.Nodup) (hcb : cb.Nodup) (hcc : cc.Nodup)
    (hpl : ∀ a ∈ cp, c.state.heap.length < a ∧ a ≤ l₁) (hbl : ∀ a ∈ cb, l₁ < a ∧ a ≤ l₂)
    (hcl : ∀ a ∈ cc, l₂ < a) (hl₁ : c.state.heap.length ≤ l₁) (hl₂ : l₁ ≤ l₂)
    (hl₃ : l₂ ≤ s.heap.length)
    (hnames : tp.ParamTree names) {binds : List (Option Text)} (hbinds : tc.EnvTree binds) :
    Extended c { s with
      heap := flagged (newClosureSet s.heap params proc cap).2
        (newClosureSet s.heap params proc cap).1
      allocated := s.allocated ++ disposed (newClosureSet s.heap params proc cap).2
        (newClosureSet s.heap params proc cap).1 } ∧
    ∃ cs, Reads (flagged (newClosureSet s.heap params proc cap).2
      (newClosureSet s.heap params proc cap).1) (newClosureSet s.heap params proc cap).1
      (.closure tp tb tc (paramCountOf names)) cs := by
  have hlen := hall.1
  have hnew := extends_alloc s.heap (.closure params proc cap (paramCountOf names))
  rw [newClosureSet_eq hp, ParamTree_names hnames]
  have hread : Reads (alloc s.heap (.closure params proc cap (paramCountOf names))).2
      (s.heap.length + 1) (.closure tp tb tc (paramCountOf names))
      (cp ++ cb ++ cc ++ [s.heap.length + 1]) :=
    .closure (cellAt_alloc _ _) (hp.mono hnew) (hb.mono hnew) (hc.mono hnew)
  have hslots : ∀ a, c.state.heap.length < a → ¬c.slots a := by
    intro a ha hs
    have := slots_le c hs
    omega
  have hfresh : ∀ a ∈ cp ++ cb ++ cc ++ [s.heap.length + 1],
      c.state.heap.length < a ∧ a ≤ s.heap.length + 1 := by
    intro a ha
    simp only [List.mem_append, List.mem_singleton] at ha
    obtain ((ha | ha) | ha) | rfl := ha
    · have := (hp.valid.2 a ha).2
      have := hpl a ha
      omega
    · have := (hb.valid.2 a ha).2
      have := hbl a ha
      omega
    · have := (hc.valid.2 a ha).2
      have := hcl a ha
      omega
    · omega
  have hok : HeapOk (alloc s.heap (.closure params proc cap (paramCountOf names))).2 c.slots := by
    refine hh.alloc ?_ ⟨⟨names, ?_, rfl⟩, ?_⟩
    · simpa [Cell.parts] using ⟨hp.valid.1, hb.valid.1, hc.valid.1⟩
    · exact hnames.list hp fun a ha => hslots a (hpl a ha).1
    · obtain ⟨bs, -, -, -, hlist⟩ := hbinds.list hc hcc
      refine ⟨bs, hlist c.slots fun a ha hs => absurd hs (hslots a ?_)⟩
      have := hcl a ha
      omega
  simp only [alloc_fst, hread.disposed]
  refine ⟨⟨⟨?_, _, congrArg (· ++ _) hregs, ?_, ?_⟩, hok.sameCells sameCells_flagged, henv,
    htrace⟩, _, hread.sameCells sameCells_flagged⟩
  · refine (hall.trans hnew).foldl_update fun a ha => ?_
    rw [hread.disposed] at ha
    exact (hfresh a ha).1
  · exact nodup_parts hcp hcb hcc hpl hbl (fun a ha => ⟨hcl a ha, (hc.valid.2 a ha).2⟩) hl₂ hl₃
  · intro a ha
    refine ⟨(hfresh a ha).1, ?_⟩
    rw [sameCells_flagged.1, length_alloc]
    exact (hfresh a ha).2

variable [CFloat F]

/-- `lambda` makes the closure that `Obj.lambda` says, of new objects. -/
theorem lambda_ok (c : Config F) (hargs : args ≤ c.state.heap.length) :
    ∃ r s, exec (Primitives.lambda args) c.state = (.ok r, s) ∧ Extended c s ∧
      ∃ cs, Reads s.heap r ((treeOf c.state.heap args).lambda
        (lookupTree c.state.heap c.top)) cs := by
  obtain ⟨ta, ca, hra⟩ := c.wf.heap.readable args hargs
  obtain ⟨cp, hrp⟩ := hra.ith 0
  have hokp := c.wf.heap.cells.tree hrp
  have hfail : ∃ r s, exec (pure 0 : Eval F Nat) c.state = (.ok r, s) ∧ Extended c s ∧
      ∃ cs, Reads s.heap r (.null : Obj F) cs := ⟨0, _, rfl, .refl c, [], .null⟩
  rw [hra.treeOf]
  simp only [Primitives.lambda, exec_get_bind, exec_ite, hra.listLength, hrp.isList, Obj.lambda,
    exec_onHeap_bind]
  by_cases hfew : ta.length < 1
  · simpa only [hfew, if_true] using hfail
  by_cases hmany : 2 < ta.length
  · simpa only [hfew, hmany, if_true, if_false] using hfail
  by_cases hlist : (ta.ith 0).isList = true
  rotate_left
  · simpa only [hfew, hmany, hlist, Bool.not_false, if_true, if_false] using hfail
  have htail : (ta.ith 0).IsTail := by
    cases h0 : ta.ith 0 <;> simp_all [Obj.isList, Obj.IsTail]
  simp only [hfew, hmany, hlist, Bool.not_true, if_false, hrp.parameters hokp htail hrp.depth_le]
  cases hnames : (ta.ith 0).paramNames with
  | none => simpa using hfail
  | some names =>
    have hcopy := hrp.copyRecursive
    rw [hokp.copied] at hcopy
    generalize hq : copyRecursive c.state.heap (ith c.state.heap args 0) = q at hcopy
    obtain ⟨cb, hrb⟩ := (hra.mono hcopy.1).ith 1
    have hS : ∀ {h : Heap F}, Extends c.state.heap h → ∀ a, c.slots a → a ≤ h.length :=
      fun hh a ha => (slots_le c ha).trans hh.1
    have hh₁ := c.wf.heap.built hcopy hokp (hS (.refl _))
    have hcopy' := hrb.copyRecursive
    have hokb := hh₁.cells.tree hrb
    rw [hokb.copied] at hcopy'
    generalize hq' : copyRecursive q.2 (ith q.2 args 1) = q' at hcopy'
    have hh₂ := hh₁.built hcopy' hokb (hS hcopy.1)
    have hext₂ := hcopy.1.trans hcopy'.1
    obtain ⟨cp', hp', hcp', hpl⟩ := hcopy.fresh
    obtain ⟨cb', hb', hcb', hbl⟩ := hcopy'.fresh
    have hparams0 : q.1 ≠ 0 := by
      rw [Ne, hp'.null_iff]
      rintro h0
      simp [h0, Obj.isList] at hlist
    have hproc := hb'.isNull
    by_cases hnull : (ta.ith 1).isNull = true
    · simp only [Option.isSome_some, Bool.not_true, Bool.false_eq_true, if_false, hparams0,
        hproc.2 hnull, or_true, if_true, hnull, exec_modify_bind]
      have hp₂ := hp'.mono hcopy'.1
      have hsame := sameCells_disposeRecursive q'.2 q.1
      have hdisposed :
          disposeRecursive (disposeRecursive q'.2 q.1) 0 = disposeRecursive q'.2 q.1 := by
        rw [disposeRecursive, Reads.null.disposed]
        rfl
      rw [hdisposed]
      refine ⟨_, _, rfl, ⟨⟨?_, [], (List.append_nil _).symm, List.nodup_nil, by simp⟩,
        hh₂.sameCells hsame, rfl, rfl⟩, _, .null⟩
      refine hext₂.foldl_update fun a ha => ?_
      rw [hp₂.disposed] at ha
      exact (hpl a ha).1
    · have hne : ¬(q.1 = 0 ∨ q'.1 = 0) := by
        rw [hproc]
        tauto
      have htree := paramTree_iff.2 hnames
      have hpt := hp'.mono hcopy'.1
      have hslots : ∀ a, c.state.heap.length < a → ¬c.slots a := by
        intro a ha hs
        have := slots_le c hs
        omega
      have hparams := htree.list hpt fun a ha => hslots a (hpl a ha).1
      obtain ⟨r, hr, hext₃, hh₃, cc, hcap⟩ := captureVariables_ok (hS hext₂) hh₂
        (c.wf.env.evolves hext₂.evolves) hparams hh₂ (.refl _)
        (show Captured q'.2 q'.2 0 [] [] from ⟨.null, by simp, trivial, List.nodup_nil, by simp⟩)
        hb' hb'.depth_le
      rw [hext₂.lookupTree c.wf.heap c.wf.env] at hcap
      have hall := hext₂.trans hext₃
      have hclosure := Extended.closure (c := c) (s := { c.state with heap := r.2 }) hall hh₃ rfl
        rfl rfl (hpt.mono hext₃) (hb'.mono hext₃) hcap.reads hcp' hcb' hcap.nodup hpl hbl
        hcap.fresh hcopy.1.1 hcopy'.1.1 hext₃.1 htree (Obj.envTree_ofBindings hcap.names)
      refine ⟨(newClosureSet r.2 q.1 q'.1 r.1).1, _, ?_, hclosure.1, ?_⟩
      · simp only [Option.isSome_some, Bool.not_true, Bool.false_eq_true, if_false, hne, hr,
          exec_orUndefined_bind, exec_modify_bind, exec_onHeap_bind, exec_gcAddRecursive_bind,
          exec_pure]
      · simpa [hnull] using hclosure.2

end closure
end Lisp
