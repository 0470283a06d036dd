import Lisp.EvaluationRules
import Lisp.Garbage
import Lisp.StagedCalls

/-! Calls of `interpret_expression` on expressions whose evaluation stores nothing, and on
definitions by such expressions. -/
namespace Lisp
open ExceptState
variable {F : Type} {c d : Config F} {s u : Interpreter F} {e t v : Obj F} {n : Text} {r : Nat}
  {expr : Text} {fuel size : Nat}

section parsing
variable [CFloat F]

/-- More fuel changes nothing about a text that the parser reads. -/
theorem parse_more (text : Text) (fuel : Nat) :
    (∀ (e : Int) (r : Obj F × Nat), parseExpression text fuel e = .ok r →
      ∀ k, fuel ≤ k → parseExpression text k e = .ok r) ∧
    ∀ (e : Int) (r : Obj F × Nat), parseList text fuel e = .ok r →
      ∀ k, fuel ≤ k → parseList text k e = .ok r := by
  induction fuel with
  | zero => simp [parseExpression, parseList]
  | succ fuel ih =>
    obtain ⟨ihe, ihl⟩ := ih
    constructor
    · intro e r hr k hk
      obtain ⟨k, rfl⟩ : ∃ j, k = j + 1 := ⟨k - 1, by omega⟩
      rw [parseExpression] at hr ⊢
      obtain ⟨s, hs, hr⟩ := ok_of_bind hr
      rw [hs]
      dsimp only [Bind.bind, Except.bind] at hr ⊢
      split_ifs at hr ⊢
      · exact hr
      · obtain ⟨first, hfirst, hr⟩ := ok_of_bind hr
        rw [hfirst]
        dsimp only at hr ⊢
        split_ifs at hr ⊢
        · exact hr
        · obtain ⟨quoted, hq, hr⟩ := ok_of_bind hr
          rw [ihe _ _ hq k (by omega)]
          exact hr
        · obtain ⟨elements, hl, hr⟩ := ok_of_bind hr
          rw [ihl _ _ hl k (by omega)]
          exact hr
        · exact hr
    · intro e r hr k hk
      obtain ⟨k, rfl⟩ : ∃ j, k = j + 1 := ⟨k - 1, by omega⟩
      rw [parseList] at hr ⊢
      obtain ⟨s, hs, hr⟩ := ok_of_bind hr
      obtain ⟨first, hfirst, hr⟩ := ok_of_bind hr
      rw [hs]
      dsimp only [Bind.bind, Except.bind]
      rw [hfirst]
      dsimp only
      split_ifs at hr ⊢
      · exact hr
      · obtain ⟨next, hn, hr⟩ := ok_of_bind hr
        obtain ⟨rest, hl, hr⟩ := ok_of_bind hr
        rw [ihe _ _ hn k (by omega)]
        dsimp only
        rw [ihl _ _ hl k (by omega)]
        exact hr

/-- The parser reads the text as the expression. -/
def ReadsAs (expr : Text) (t : Obj F) : Prop :=
  ∃ fuel size, parseExpression expr fuel 0 = .ok (t, size)

theorem ReadsAs.more (h : ReadsAs expr t) : ∃ fuel₀ size, ∀ fuel, fuel₀ ≤ fuel →
    parseExpression expr fuel 0 = .ok (t, size) := by
  obtain ⟨fuel₀, size, hp⟩ := h
  exact ⟨fuel₀, size, fun fuel hf => (parse_more expr fuel₀).1 _ _ hp fuel hf⟩

theorem ReadsAs.ok (h : ReadsAs expr t) : t.Ok := by
  obtain ⟨fuel, size, hp⟩ := h
  exact (parsed_ok fuel).1 _ _ hp

end parsing

section scope

theorem Collected.scope (hc : Collected c d) : d.scope = c.scope := by
  obtain ⟨t, cs, hr⟩ := c.wf.heap.readable _ c.wf.env.le
  have hr' := hr.sameCells hc.cells
  rw [← hc.env] at hr'
  exact (d.wf.env.bindings hr').symm.trans (c.wf.env.bindings hr)

/-- The collector changes no value of a name. -/
theorem Config.lookupName_collected (c : Config F) (n : Text) :
    lookupName (collectGarbage c.state) n = lookupName c.state n := by
  obtain ⟨d, hd, hcol⟩ := c.collected
  rw [← hd, lookupName_eq, lookupName_eq, hcol.scope]

/-- A parsed expression is loaded in the scope of the state. -/
theorem Between.loaded_scope (hc : Between c s) (ht : t.Ok) : ∃ d : Config F,
    Between d (Lisp.loaded s t) ∧ ∀ n, d.scope.find n = Lisp.lookupName s n := by
  have hstate := hc.state
  subst hstate
  obtain ⟨d, hd, hgrows⟩ := (loaded_extended (c := c) ht).grows
  refine ⟨d, hd ▸ hc.steps hgrows.steps hgrows.balanced, fun n => ?_⟩
  rw [hgrows.scope, lookupName_eq]

/-- The run of an expression that has a value. -/
theorem Ends.returns {m : Eval F Nat} (h : Ends c m (.ok v)) : ∃ r d cs,
    exec m c.state = (.ok r, d.state) ∧ Grows c d ∧ Reads d.state.heap r v cs := by
  rcases hx : exec m c.state with ⟨e | r, s⟩
  · cases (wp_error hx).1 h
  · obtain ⟨d, rfl, hgrows, t, cs, ht, hr⟩ := (wp_ok hx).1 h
    obtain rfl := Except.ok.inj ht
    exact ⟨r, d, cs, rfl, hgrows, hr⟩

theorem Ends.halts {m : Eval F Nat} {e : Halt} (h : Ends c m (.error e)) :
    ∃ s, exec m c.state = (.error e, s) := by
  rcases hx : exec m c.state with ⟨e' | r, s⟩
  · exact ⟨s, by rw [Except.error.inj ((wp_error hx).1 h)]⟩
  · obtain ⟨d, rfl, hgrows, t, cs, ht, hr⟩ := (wp_ok hx).1 h
    cases ht

end scope

section calls
variable [CFloat F]

theorem exec_evalExpression (hp : parseExpression expr fuel 0 = .ok (t, size))
    (hnull : t.isNull = false)
    (hr : exec (eval fuel (load s.heap t).1) (loaded s t) = (.ok r, u)) :
    exec (evalExpression fuel expr) s = (.ok r, collectGarbage u) := by
  simp only [evalExpression, hp, liftFault, pure_bind, hnull, Bool.false_eq_true, if_false]
  rw [exec_onHeap_bind, exec_gcAddRecursive_bind]
  change exec (eval fuel (load s.heap t).1 >>= _) (loaded s t) = _
  rw [exec_bind, hr]
  rfl

theorem exec_evalExpression_halts {h : Halt} (hp : parseExpression expr fuel 0 = .ok (t, size))
    (hnull : t.isNull = false)
    (hr : exec (eval fuel (load s.heap t).1) (loaded s t) = (.error h, u)) :
    exec (evalExpression fuel expr) s = (.error h, u) := by
  simp only [evalExpression, hp, liftFault, pure_bind, hnull, Bool.false_eq_true, if_false]
  rw [exec_onHeap_bind, exec_gcAddRecursive_bind]
  change exec (eval fuel (load s.heap t).1 >>= _) (loaded s t) = _
  rw [exec_bind, hr]

/-- A call on an expression that has a value in the scope of the state. -/
theorem Between.evaluates (hc : Between c s) (hp : ReadsAs expr t) (hnull : t.isNull = false)
    (hv : ∀ ρ : Scope F, (∀ n, ρ.find n = Lisp.lookupName s n) → HasValue ρ t v) :
    ∃ fuel₀, ∀ fuel, fuel₀ ≤ fuel → ∃ r u,
      exec (eval fuel (load s.heap t).1) (Lisp.loaded s t) = (.ok r, u) ∧ treeOf u.heap r = v ∧
      exec (evalExpression fuel expr) s = (.ok r, collectGarbage u) := by
  obtain ⟨d, hd, hfind⟩ := hc.loaded_scope hp.ok
  obtain ⟨f₁, size, hp⟩ := hp.more
  obtain ⟨f₂, hends⟩ := hv _ hfind
  refine ⟨max f₁ f₂, fun fuel hf => ?_⟩
  have hread := loaded_reads (s := s) (t := t)
  rw [← hd.state] at hread
  obtain ⟨r, e, cs, hrun, -, hr⟩ := (hends fuel (by omega) d _ _ rfl hread).returns
  rw [hd.state] at hrun
  exact ⟨r, e.state, hrun, hr.treeOf, exec_evalExpression (hp fuel (by omega)) hnull hrun⟩

/-- A call on an expression whose evaluation does not return. -/
theorem Between.halts {h : Halt} (hc : Between c s) (hp : ReadsAs expr t) (hnull : t.isNull = false)
    (hv : ∀ ρ : Scope F, (∀ n, ρ.find n = Lisp.lookupName s n) → HasResult ρ t (.error h)) :
    ∃ fuel₀, ∀ fuel, fuel₀ ≤ fuel → ∃ u, exec (evalExpression fuel expr) s = (.error h, u) := by
  obtain ⟨d, hd, hfind⟩ := hc.loaded_scope hp.ok
  obtain ⟨f₁, size, hp⟩ := hp.more
  obtain ⟨f₂, hends⟩ := hv _ hfind
  refine ⟨max f₁ f₂, fun fuel hf => ?_⟩
  have hread := loaded_reads (s := s) (t := t)
  rw [← hd.state] at hread
  obtain ⟨u, hrun⟩ := (hends fuel (by omega) d _ _ rfl hread).halts
  rw [hd.state] at hrun
  exact ⟨u, exec_evalExpression_halts (hp fuel (by omega)) hnull hrun⟩

section definitions
variable (hc : Between c s) (hn : isTruthName n = false)
  (hset : Lisp.lookupName s "set".toList = some (.primitive .set))
  (hquote : Lisp.lookupName s "quote".toList = some (.primitive .quote))
  (hv : ∀ ρ : Scope F, (∀ m, ρ.find m = Lisp.lookupName s m) → HasValue ρ e v) (hnull : v ≠ .null)
include hc hn hset hquote hv hnull

/-- With enough fuel `(set 'n e)` gives the name its value, and changes no other. -/
theorem Between.definition (hok : (setExpression n e).Ok) : ∃ fuel₀ r u,
    (∀ fuel, fuel₀ ≤ fuel → Returns (eval fuel (load s.heap (setExpression n e)).1)
      (Lisp.loaded s (setExpression n e)) r u) ∧
    ∀ m, Lisp.lookupName u m = if m = n then some v else Lisp.lookupName s m := by
  obtain ⟨d, hd, hfind⟩ := hc.loaded_scope hok
  obtain ⟨f, hends⟩ := hv _ hfind
  have hloaded (m : Text) :
      Lisp.lookupName (Lisp.loaded s (setExpression n e)) m = Lisp.lookupName s m := by
    rw [← hd.state, lookupName_eq, hfind]
  have hread := loaded_reads (s := s) (t := setExpression n e)
  have hle := hread.valid.1
  obtain ⟨ds, hoperand⟩ := hread.ith 2
  rw [← hd.state] at hoperand
  obtain ⟨w, d', cs, hw, hgrows, hvalue⟩ := (hends f (Nat.le_refl _) d _ _ rfl hoperand).returns
  rw [hd.state] at hw
  obtain ⟨r, u, -, hreturns, hlookup⟩ := hd.set hle hread.treeOf hn ((hloaded _).trans hset)
    ((hloaded _).trans hquote) hw
  have hw0 : w ≠ 0 := mt hvalue.null_iff.1 hnull
  refine ⟨f + 3, r, u, hreturns, fun m => ?_⟩
  rw [hlookup, hvalue.treeOf, lookupName_eq, hgrows.scope, hfind]
  simp only [ne_eq, hw0, not_false_eq_true, true_and]

/-- What a call on a definition leaves. -/
theorem Between.defines (hp : parseExpression expr fuel 0 = .ok (setExpression n e, size))
    (hr : exec (evalExpression fuel expr) s = (.ok r, u)) (m : Text) :
    Lisp.lookupName u m = if m = n then some v else Lisp.lookupName s m := by
  have hok := (parsed_ok fuel).1 _ _ hp
  obtain ⟨t, ht, rfl⟩ := evalExpression_eq hp rfl hr
  obtain ⟨fuel₀, r', u', hreturns, hlookup⟩ := hc.definition hn hset hquote hv hnull hok
  obtain ⟨d, hd, -⟩ := hc.loaded_scope hok
  -- with enough fuel for both, the two runs are one
  obtain ⟨x, hx, hsame⟩ :=
    (simulates_eval (Nat.le_max_left fuel fuel₀) _).returns ht _ ⟨rfl, rfl, rfl⟩
  obtain ⟨y, hy, hsame'⟩ := hreturns _ (Nat.le_max_right fuel fuel₀) _ ⟨rfl, rfl, rfl⟩
  obtain rfl : x = y := congrArg Prod.snd (hx.symm.trans hy)
  have hnames : Lisp.lookupName t m = Lisp.lookupName u' m :=
    hsame.lookupName.symm.trans hsame'.lookupName
  have hle := (loaded_reads (s := s) (t := setExpression n e)).valid.1
  rw [← hd.state] at ht hle
  obtain ⟨g, rfl, -⟩ := (runs_eval fuel d _ hle).of_ok ht
  rw [g.lookupName_collected, hnames, hlookup]

/-- With enough fuel a call on a definition returns. -/
theorem Between.define_returns (hp : ReadsAs expr (setExpression n e)) : ∃ fuel₀, ∀ fuel,
    fuel₀ ≤ fuel → ∃ r u, exec (evalExpression fuel expr) s = (.ok r, u) := by
  obtain ⟨f₁, r, u, hreturns, -⟩ := hc.definition hn hset hquote hv hnull hp.ok
  obtain ⟨f₂, size, hp⟩ := hp.more
  refine ⟨max f₁ f₂, fun fuel hf => ?_⟩
  obtain ⟨t, ht, -⟩ := hreturns fuel (by omega) _ ⟨rfl, rfl, rfl⟩
  exact ⟨r, _, exec_evalExpression (hp fuel (by omega)) rfl ht⟩

end definitions

/-- A session in which a definition is made. -/
theorem Session.definition (hs : Session s) (hn : isTruthName n = false)
    (hset : Lisp.lookupName s "set".toList = some (.primitive .set))
    (hquote : Lisp.lookupName s "quote".toList = some (.primitive .quote))
    (hv : ∀ ρ : Scope F, (∀ m, ρ.find m = Lisp.lookupName s m) → HasValue ρ e v) (hnull : v ≠ .null)
    (hp : ReadsAs expr (setExpression n e)) : ∃ t, Session t ∧
      ∀ m, Lisp.lookupName t m = if m = n then some v else Lisp.lookupName s m := by
  obtain ⟨c, hc⟩ := hs.between
  obtain ⟨f₁, hreturns⟩ := hc.define_returns hn hset hquote hv hnull hp
  obtain ⟨f₂, size, hp⟩ := hp.more
  obtain ⟨r, t, hr⟩ := hreturns (max f₁ f₂) (by omega)
  exact ⟨t, hs.call hr, hc.defines hn hset hquote hv hnull (hp _ (by omega)) hr⟩

end calls
end Lisp
