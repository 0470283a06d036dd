import Lisp.ParserComplete
import Lisp.Refinement
import Lisp.Initialization

/-! Calls of `interpret_expression` from one state to the next, as runs of the machine. -/
namespace Lisp
open ExceptState
variable {F : Type} {c d e : Config F} {h h' : Heap F} {a o fuel : Nat} {t : Obj F}
  {cs l : List Nat} {s s' : Interpreter F} {expr : Text}

section parsed
variable [CFloat F] {text : Text}

theorem ok_of_bind {ε α β : Type} {x : Except ε α} {f : α → Except ε β} {b : β}
    (hx : x >>= f = .ok b) : ∃ a, x = .ok a ∧ f a = .ok b := by
  cases x with
  | error e => cases hx
  | ok a => exact ⟨a, rfl, hx⟩

theorem ok_parseAtom {e : Text} {o : Obj F} (ho : (parseAtom (F := F) e).1 = o) : o.Ok := by
  have h := parseAtom_cases (F := F) e
  rw [ho] at h
  rcases h with ⟨z, rfl⟩ | ⟨y, rfl⟩ | ⟨z, rfl⟩
  · exact True.intro
  · exact True.intro
  · exact True.intro

omit [CFloat F] in
theorem ok_nil : (Obj.nil : Obj F).Ok := ⟨trivial, trivial, trivial⟩

/-- What the parser returns is a tree as `CellOk` says; what `parse_list` returns is a list. -/
theorem parsed_ok (fuel : Nat) :
    (∀ (e : Int) (r : Obj F × Nat), parseExpression text fuel e = .ok r → r.1.Ok) ∧
      ∀ (e : Int) (r : Obj F × Nat), parseList text fuel e = .ok r → r.1.Ok ∧ r.1.IsTail := by
  induction fuel with
  | zero => simp [parseExpression, parseList]
  | succ fuel ih =>
    obtain ⟨ihe, ihl⟩ := ih
    constructor
    · intro e r hr
      rw [parseExpression] at hr
      obtain ⟨s, -, hr⟩ := ok_of_bind hr
      dsimp only at hr
      split_ifs at hr
      · obtain rfl := Except.ok.inj hr
        trivial
      · obtain ⟨first, -, hr⟩ := ok_of_bind hr
        split_ifs at hr
        · obtain rfl := Except.ok.inj hr
          trivial
        · obtain ⟨quoted, hq, hr⟩ := ok_of_bind hr
          obtain rfl := Except.ok.inj hr
          generalize hp : (parseAtom (F := F) "quote".toList).1 = q
          simp only [quoteList, hp, Obj.Ok]
          exact ⟨ok_parseAtom hp, ⟨ihe _ _ hq, True.intro, True.intro⟩, True.intro⟩
        · obtain ⟨elements, hl, hr⟩ := ok_of_bind hr
          obtain rfl := Except.ok.inj hr
          show Obj.Ok (if elements.1.isNull then .nil else elements.1)
          split_ifs
          · exact ok_nil
          · exact (ihl _ _ hl).1
        · obtain ⟨rest, -, hr⟩ := ok_of_bind hr
          simp only [pure, Except.pure, Except.ok.injEq] at hr
          exact ok_parseAtom (e := rest) (by rw [← hr])
    · intro e r hr
      rw [parseList] at hr
      obtain ⟨s, -, hr⟩ := ok_of_bind hr
      obtain ⟨first, -, hr⟩ := ok_of_bind hr
      split_ifs at hr
      · obtain rfl := Except.ok.inj hr
        exact ⟨True.intro, True.intro⟩
      · obtain ⟨next, hn, hr⟩ := ok_of_bind hr
        obtain ⟨rest, hl, hr⟩ := ok_of_bind hr
        obtain rfl := Except.ok.inj hr
        exact ⟨⟨ihe _ _ hn, ihl _ _ hl⟩, trivial⟩

end parsed

section loading

theorem load_built (h : Heap F) (t : Obj F) : Built h t (load h t) := by
  induction t generalizing h with
  | null => exact built_null h
  | list x y ihx ihy => exact built_list (ihx h) (ihy _)
  | closure p b c n ihp ihb ihc => exact built_closure (ihp h) (ihb _) (ihc _)
  | _ => exact built_leaf rfl

/-- The state once a parsed expression is in memory and known to the collector. -/
def loaded (s : Interpreter F) (t : Obj F) : Interpreter F :=
  { s with
    heap := flagged (load s.heap t).2 (load s.heap t).1
    allocated := s.allocated ++ disposed (load s.heap t).2 (load s.heap t).1 }

theorem loaded_extended (ht : t.Ok) : Extended c (loaded c.state t) := by
  have hload := load_built c.state.heap t
  obtain ⟨cs, hread, hnodup, hfresh⟩ := hload.fresh
  constructor
  case allocates =>
    refine ⟨hload.heap.foldl_update fun a ha => ?_, _, rfl, ?_⟩
    · rw [hread.disposed] at ha
      exact (hfresh a ha).1
    · show (disposed _ _).Nodup ∧ ∀ a ∈ disposed _ _, _ ∧ a ≤ (flagged _ _).length
      rw [hread.disposed, sameCells_flagged.1]
      exact ⟨hnodup, hfresh⟩
  case heap =>
    exact (c.wf.heap.built hload ht fun a ha => slots_le c ha).sameCells sameCells_flagged
  case env => rfl
  case trace => rfl

theorem loaded_reads : Reads (loaded s t).heap (load s.heap t).1 t
    (disposed (load s.heap t).2 (load s.heap t).1) := by
  obtain ⟨cs, hread, -, -⟩ := (load_built s.heap t).fresh
  rw [hread.disposed]
  exact hread.sameCells sameCells_flagged

end loading

section collection

/-- The objects have the same contents, and the same ones are freed. -/
structure SameObjects (h h' : Heap F) : Prop where
  cells : SameCells h h'
  freed : ∀ a o, objectAt h' a = some o → ∃ o', objectAt h a = some o' ∧ o'.freed = o.freed

theorem SameObjects.refl (h : Heap F) : SameObjects h h :=
  ⟨⟨rfl, fun _ => rfl⟩, fun _ o ho => ⟨o, ho, rfl⟩⟩

theorem SameObjects.trans {h₁ h₂ h₃ : Heap F} (h12 : SameObjects h₁ h₂)
    (h23 : SameObjects h₂ h₃) : SameObjects h₁ h₃ := by
  refine ⟨h12.cells.trans h23.cells, fun a o ho => ?_⟩
  obtain ⟨o', ho', hf'⟩ := h23.freed a o ho
  obtain ⟨o'', ho'', hf''⟩ := h12.freed a o' ho'
  exact ⟨o'', ho'', hf''.trans hf'⟩

theorem objectAt_update (f : Object F → Object F) :
    objectAt (update h a f) a = (objectAt h a).map f := by
  cases a with
  | zero => rfl
  | succ a => simp [objectAt, update]

theorem sameObjects_update {f : Object F → Object F}
    (hf : ∀ x, (f x).cell = x.cell ∧ (f x).freed = x.freed) : SameObjects h (update h a f) := by
  refine ⟨sameCells_update fun x => (hf x).1, fun b o ho => ?_⟩
  by_cases hab : a = b
  · subst hab
    rw [objectAt_update] at ho
    obtain ⟨o', ho', rfl⟩ := Option.map_eq_some_iff.1 ho
    exact ⟨o', ho', (hf o').2.symm⟩
  · rw [objectAt_update_of_ne f hab] at ho
    exact ⟨o, ho, rfl⟩

theorem sameObjects_markFrom (fuel : Nat) : SameObjects h (markFrom fuel h a) := by
  induction fuel generalizing h a with
  | zero => exact .refl h
  | succ fuel ih =>
    unfold markFrom
    cases ho : objectAt h a with
    | none => exact .refl h
    | some x =>
      dsimp only
      split_ifs
      · exact .refl h
      · have hmark : SameObjects h (update h a fun x => { x with reachable := true }) :=
          sameObjects_update fun _ => ⟨rfl, rfl⟩
        cases x.cell with
        | list x y => exact hmark.trans (ih.trans ih)
        | closure p b c n => exact hmark.trans (ih.trans (ih.trans ih))
        | _ => exact hmark

theorem sameObjects_foldl {f : Object F → Object F}
    (hf : ∀ x, (f x).cell = x.cell ∧ (f x).freed = x.freed) (l : List Nat) (h : Heap F) :
    SameObjects h (l.foldl (fun h a => update h a f) h) := by
  induction l generalizing h with
  | nil => exact .refl h
  | cons a l ih => exact (sameObjects_update hf).trans (ih _)

theorem sameObjects_marked (s : Interpreter F) : SameObjects s.heap (marked s) :=
  (sameObjects_foldl (f := fun x => { x with reachable := false }) (fun _ => ⟨rfl, rfl⟩)
    s.allocated s.heap).trans (sameObjects_markFrom _)

theorem objectAt_foldl_dispose (ha : a ∉ l) : objectAt (l.foldl dispose h) a = objectAt h a := by
  induction l generalizing h with
  | nil => rfl
  | cons b l ih =>
    have hba : b ≠ a := fun he => ha (by simp [he])
    rw [List.foldl_cons, ih fun hm => ha (List.mem_cons_of_mem _ hm), dispose,
      objectAt_update_of_ne _ hba]

/-- What a collection leaves: it frees objects that it knows. -/
structure Collected (c d : Config F) : Prop where
  cells : SameCells c.state.heap d.state.heap
  freed : ∀ a ∉ c.state.allocated, ∀ o, objectAt d.state.heap a = some o →
    ∃ o', objectAt c.state.heap a = some o' ∧ o'.freed = o.freed
  env : d.state.env = c.state.env
  allocated : ∀ a ∈ d.state.allocated, a ∈ c.state.allocated
  trace : d.state.trace = c.state.trace
  top : d.top = c.top
  below : d.below = c.below
  pending : d.pending = c.pending

theorem Collected.refl (c : Config F) : Collected c c :=
  ⟨⟨rfl, fun _ => rfl⟩, fun _ _ o ho => ⟨o, ho, rfl⟩, rfl, fun _ h => h, rfl, rfl, rfl, rfl⟩

theorem Config.collected (c : Config F) :
    ∃ d : Config F, d.state = collectGarbage c.state ∧ Collected c d := by
  have hmarked := sameObjects_marked c.state
  have hcells : SameCells c.state.heap (collectGarbage c.state).heap :=
    hmarked.cells.trans (sameCells_foldl (fun o => { o with freed := true }) (fun _ => rfl) _ _)
  have hwf : WellFormed (collectGarbage c.state) c.top c.below c.pending := by
    constructor
    case heap => exact c.wf.heap.sameCells hcells
    case env => exact c.wf.env.evolves hcells.evolves
    case saved => exact c.wf.saved.imp fun _ _ he => he.evolves hcells.evolves
    case suffixes => exact c.wf.suffixes
    case nodup => exact c.wf.nodup
    case pending =>
      intro a ha
      obtain ⟨v, hv⟩ := c.wf.pending a ha
      exact ⟨v, (hcells.2 a).trans hv⟩
  refine ⟨⟨_, _, _, _, hwf⟩, rfl, hcells, fun a ha o ho => ?_, rfl, fun a ha => ?_, rfl, rfl, rfl,
    rfl⟩
  · refine hmarked.freed a o ?_
    rwa [← objectAt_foldl_dispose fun hm => ha (List.mem_of_mem_filter hm)]
  · exact List.mem_of_mem_filter ha

theorem Collected.base (hc : Collected c d) : d.base = c.base := by
  simp only [Config.base, hc.top, hc.below]

theorem BaseOk.collected (hb : BaseOk c) (hc : Collected c d) : BaseOk d := by
  refine ⟨hc.base ▸ hb.named, hc.base ▸ hb.distinct, fun b hm => ?_⟩
  obtain ⟨v, hv, hs⟩ := hb.values b (hc.base ▸ hm)
  exact ⟨v, hv, (hc.cells.2 _).trans hs⟩

theorem Collected.holds (hc : Collected c d) (s : Nat) (cs : List Nat) :
    Holds d.state.heap s cs ↔ Holds c.state.heap s cs := by
  constructor
  · exact fun hh => hh.congr (hc.cells.2 s).symm fun a _ => (hc.cells.2 a).symm
  · exact fun hh => hh.congr (hc.cells.2 s) fun a _ => hc.cells.2 a

theorem Separated.collected (hs : Separated c) (hc : Collected c d) : Separated d := by
  have hslots : d.slots = c.slots := by
    unfold Config.slots
    rw [hc.top, hc.pending]
  constructor
  case base =>
    rw [hc.base, hc.trace]
    exact hs.base
  case stored =>
    rw [hc.trace, hslots]
    intro s hm
    obtain ⟨cs, hh, hnodup, hcs⟩ := hs.stored s hm
    refine ⟨cs, (hc.holds s cs).2 hh, hnodup, fun a ha => ?_⟩
    obtain ⟨h1, h2, h3⟩ := hcs a ha
    exact ⟨h1, h2, fun hall => h3 (hc.allocated a hall)⟩
  case disjoint =>
    rw [hc.trace]
    intro s hm s' hm' hne cs cs' h1 h2
    exact hs.disjoint s hm s' hm' hne cs cs' ((hc.holds s cs).1 h1) ((hc.holds s' cs').1 h2)
  case allocated =>
    intro a ha
    rw [hc.cells.1]
    exact hs.allocated a (hc.allocated a ha)

end collection

section calls
variable [CFloat F]

/-- The states of an interpreter between the calls of `interpret_expression`. -/
inductive Session : Interpreter F → Prop where
  | init : Session interpreterInit
  | call {s t : Interpreter F} {fuel : Nat} {expr : Text} {r : Nat} (hs : Session s)
      (hr : exec (evalExpression fuel expr) s = (.ok r, t)) : Session t

omit [CFloat F] in
theorem exec_liftFault_bind {α β : Type} (x : Except Fault α) (f : α → Eval F β)
    (s : Interpreter F) : (∃ h, exec (liftFault x >>= f) s = (.error h, s)) ∨
      ∃ a, x = .ok a ∧ exec (liftFault x >>= f) s = exec (f a) s := by
  rcases x with (_ | _) | a
  · exact Or.inl ⟨.undefined, rfl⟩
  · exact Or.inl ⟨.outOfFuel, rfl⟩
  · exact Or.inr ⟨a, rfl, rfl⟩

/-- A call is a run of the machine with a collection at its end, or the first part of one. -/
theorem call_runs (c : Config F) (fuel : Nat) (expr : Text) :
    wp (evalExpression fuel expr)
      (fun _ s => ∃ d e : Config F, Steps c d ∧ Balanced c d ∧ Collected d e ∧ e.state = s)
      (fun _ s => ∃ d : Config F, Steps c d ∧ d.state = s) c.state := by
  unfold evalExpression
  rcases exec_liftFault_bind (parseExpression (F := F) expr fuel 0) _ c.state
    with ⟨h, he⟩ | ⟨p, hp, he⟩
  · exact (wp_error he).2 ⟨c, .refl c, rfl⟩
  refine (wp_congr he).2 (wp_ite (fun _ => ⟨c, c, .refl c, .refl c, .refl c, rfl⟩) fun _ => ?_)
  have hok := (parsed_ok fuel).1 _ _ hp
  obtain ⟨d, hd, ha, hbal, -⟩ := (loaded_extended (c := c) hok).reached
  have hle : (load c.state.heap p.1).1 ≤ d.state.heap.length := by
    rw [hd]
    exact loaded_reads.valid.1
  have hrun := runs_eval fuel d _ hle
  have hload : exec (do
      let o ← onHeap fun h => load h p.1
      gcAddRecursive o
      let result ← eval fuel o
      modify collectGarbage
      return result) c.state =
      exec (do
        let result ← eval fuel (load c.state.heap p.1).1
        modify collectGarbage
        return result) d.state := by
    rw [exec_onHeap_bind, exec_gcAddRecursive_bind, hd]
    rfl
  refine (wp_congr hload).2 (wp_seq hrun ?_ ?_)
  · rintro r s ⟨e, rfl, hs, -, hbal'⟩
    obtain ⟨e', he', hc⟩ := e.collected
    exact ⟨e, e', (Steps.single ha).trans hs, hbal.trans hbal', hc, he'⟩
  · rintro h s ⟨e, rfl, hs⟩
    exact ⟨e, (Steps.single ha).trans hs, rfl⟩

/-- The configuration of a state between two calls. -/
structure Between (c : Config F) (s : Interpreter F) : Prop where
  state : c.state = s
  below : c.below = []
  pending : c.pending = []
  base : BaseOk c
  separated : Separated c

theorem Between.call {r : Nat} (hc : Between c s)
    (hr : exec (evalExpression fuel expr) s = (.ok r, s')) :
    ∃ d e : Config F, Steps c d ∧ Collected d e ∧ Between e s' := by
  have hstate := hc.state
  subst hstate
  obtain ⟨d, e, hsteps, hbal, hcol, he⟩ := (call_runs c fuel expr).of_ok hr
  refine ⟨d, e, hsteps, hcol, ⟨he, ?_, ?_, (hc.base.steps hsteps).collected hcol,
    (hc.separated.steps hsteps).collected hcol⟩⟩
  · exact hcol.below.trans (hbal.below.trans hc.below)
  · exact hcol.pending.trans (hbal.pending.trans hc.pending)

theorem Session.between (hs : Session s) : ∃ c : Config F, Between c s := by
  induction hs with
  | init =>
    obtain ⟨c, hstate, hi⟩ := initialized (F := F)
    exact ⟨c, hstate, hi.below, hi.pending, hi.base, hi.separated⟩
  | call _ hr ih =>
    obtain ⟨c, hc⟩ := ih
    obtain ⟨-, e, -, -, he⟩ := hc.call hr
    exact ⟨e, he⟩

end calls
end Lisp
