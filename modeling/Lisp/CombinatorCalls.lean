import Lisp.CallValues
import Lisp.NumericTokens
import Lisp.YCombinator

/-! An interpreter that sets `Y` and `F`, and the calls it can make besides. -/
namespace Lisp.YCombinator
open ExceptState
variable {F : Type} [CFloat F] {ρ : Scope F} {e v : Obj F} {l : List Text} {s t : Interpreter F}
  {expr m : Text} {fuel r : Nat}

/-- The expressions that the program sets `Y` and `F` to. -/
def definitions : List (Text × Obj F) := [(['Y'], yExpression), (['F'], fExpression)]

/-- The names that `Y` and `F` capture. -/
def capturedNames : List (Text × Primitive) :=
  [("lambda".toList, .lambda), ("cond".toList, .cond), (['='], .equal), (['-'], .sub)]

/-- The names that `Y` and `F` bind. -/
def boundNames : List Text := [['r'], ['f'], ['x'], ['g'], ['n']]

/-- The states of an interpreter between calls of which some set `Y` and `F`. Those of the two that
are in the list have the value that they were set to. Between these calls there may be any others,
as long as they do not change what the names that `Y` and `F` capture or bind have as values. -/
inductive Series : List Text → Interpreter F → Prop where
  | init : Series [] interpreterInit
  | define {l : List Text} {s t : Interpreter F} {fuel size r : Nat} {expr m : Text} {e : Obj F}
      (hs : Series l s) (hd : (m, e) ∈ definitions)
      (hset : lookupName s "set".toList = some (.primitive .set))
      (hquote : lookupName s "quote".toList = some (.primitive .quote))
      (hp : parseExpression expr fuel 0 = .ok (setExpression m e, size))
      (hr : exec (evalExpression fuel expr) s = (.ok r, t)) : Series (m :: l) t
  | other {l l' : List Text} {s t : Interpreter F} {fuel r : Nat} {expr : Text} (hs : Series l s)
      (hr : exec (evalExpression fuel expr) s = (.ok r, t)) (hl : l' ⊆ l)
      (hsame : ∀ m ∈ capturedNames.map Prod.fst ++ boundNames ++ l',
        lookupName t m = lookupName s m) : Series l' t

/-- What the calls preserve. -/
structure Prepared (l : List Text) (s : Interpreter F) : Prop where
  between : ∃ c : Config F, Between c s
  captured : ∀ p ∈ capturedNames, lookupName s p.1 = some (.primitive p.2)
  bound : ∀ m ∈ boundNames, lookupName s m = none
  y : ['Y'] ∈ l → lookupName s ['Y'] = some yValue
  f : ['F'] ∈ l → lookupName s ['F'] = some fValue

theorem prepared_init : Prepared [] (interpreterInit : Interpreter F) := by
  constructor
  case between => exact Session.init.between
  case captured =>
    intro p hp
    have hfind : ∀ p ∈ capturedNames, (initLibrary.find? fun q => q.1 == p.1) = some p := by decide
    rw [lookupName_init, hfind p hp, Option.map_some]
  case bound =>
    intro m hm
    have hfind : ∀ m ∈ boundNames, (initLibrary.find? fun q => q.1 == m) = none := by decide
    rw [lookupName_init, hfind m hm, Option.map_none]
  case y => simp
  case f => simp

omit [CFloat F] in
/-- The truth name of the last clause has no other value. -/
theorem lookupName_truth (hs : Prepared l s) : lookupName s ['t'] = none := by
  obtain ⟨c, hc⟩ := hs.between
  rw [← hc.state, lookupName_eq]
  exact scope_truth c (by decide)

theorem Prepared.yExpression (hs : Prepared l s) (hρ : ∀ m, ρ.find m = lookupName s m) :
    HasValue ρ yExpression yValue := by
  refine hasValue_yExpression ?_ ?_ ?_
  · rw [hρ, hs.captured ("lambda".toList, .lambda) (by simp [capturedNames])]
  · rw [hρ, hs.bound _ (by simp [boundNames])]
  · rw [hρ, hs.bound _ (by simp [boundNames])]

theorem Prepared.fExpression (hs : Prepared l s) (hρ : ∀ m, ρ.find m = lookupName s m) :
    HasValue ρ fExpression fValue := by
  have hcaptured (p : Text × Primitive) (hp : p ∈ capturedNames) :
      ρ.find p.1 = some (.primitive p.2) := (hρ p.1).trans (hs.captured p hp)
  refine hasValue_fExpression ?_ ?_ ?_ ?_ ?_ ?_
  · rw [hρ, lookupName_truth hs]
  · rw [hρ, hs.bound _ (by simp [boundNames])]
  · exact hcaptured ("lambda".toList, .lambda) (by simp [capturedNames])
  · exact hcaptured ("cond".toList, .cond) (by simp [capturedNames])
  · exact hcaptured (['='], .equal) (by simp [capturedNames])
  · exact hcaptured (['-'], .sub) (by simp [capturedNames])

omit [CFloat F] in
/-- One of the two definitions, after which the name has its value. -/
theorem Prepared.bind (hs : Prepared l s) (hc : ∃ c : Config F, Between c t)
    (hm : m = ['Y'] ∧ v = yValue ∨ m = ['F'] ∧ v = fValue)
    (hlookup : ∀ m', lookupName t m' = if m' = m then some v else lookupName s m') :
    Prepared (m :: l) t := by
  have hkeep : ∀ m' ∈ capturedNames.map Prod.fst ++ boundNames,
      lookupName t m' = lookupName s m' := by
    intro m' hmem
    have hne : m' ≠ ['Y'] ∧ m' ≠ ['F'] := by
      revert m'
      decide
    rw [hlookup, if_neg]
    rintro rfl
    rcases hm with ⟨rfl, -⟩ | ⟨rfl, -⟩
    · exact hne.1 rfl
    · exact hne.2 rfl
  constructor
  case between => exact hc
  case captured =>
    intro p hp
    rw [hkeep _ (List.mem_append_left _ (List.mem_map_of_mem hp)), hs.captured p hp]
  case bound =>
    intro m' hm'
    rw [hkeep _ (List.mem_append_right _ hm'), hs.bound m' hm']
  case y =>
    intro hy
    rw [hlookup]
    rcases hm with ⟨rfl, rfl⟩ | ⟨rfl, rfl⟩
    · rw [if_pos rfl]
    · rw [if_neg (by decide), hs.y (by simpa using hy)]
  case f =>
    intro hf
    rw [hlookup]
    rcases hm with ⟨rfl, rfl⟩ | ⟨rfl, rfl⟩
    · rw [if_neg (by decide), hs.f (by simpa using hf)]
    · rw [if_pos rfl]

/-- The expression of a definition has a value, which is no `NULL`. -/
theorem Prepared.value (hs : Prepared l s) (hd : (m, e) ∈ definitions) : ∃ v,
    (m = ['Y'] ∧ v = yValue ∨ m = ['F'] ∧ v = fValue) ∧ isTruthName m = false ∧ v ≠ .null ∧
    ∀ ρ : Scope F, (∀ m, ρ.find m = lookupName s m) → HasValue ρ e v := by
  simp only [definitions, List.mem_cons, Prod.mk.injEq, List.not_mem_nil, or_false] at hd
  rcases hd with ⟨rfl, rfl⟩ | ⟨rfl, rfl⟩
  · exact ⟨yValue, Or.inl ⟨rfl, rfl⟩, by decide, by simp [yValue, closureOf],
      fun ρ hρ => hs.yExpression hρ⟩
  · exact ⟨fValue, Or.inr ⟨rfl, rfl⟩, by decide, by simp [fValue, closureOf],
      fun ρ hρ => hs.fExpression hρ⟩

section define
variable {size : Nat} (hs : Prepared l s) (hd : (m, e) ∈ definitions)
  (hset : lookupName s "set".toList = some (.primitive .set))
  (hquote : lookupName s "quote".toList = some (.primitive .quote))
include hs hd hset hquote

theorem Prepared.define (hp : parseExpression expr fuel 0 = .ok (setExpression m e, size))
    (hr : exec (evalExpression fuel expr) s = (.ok r, t)) : Prepared (m :: l) t := by
  obtain ⟨c, hc⟩ := hs.between
  obtain ⟨-, c', -, -, hc'⟩ := hc.call hr
  obtain ⟨v, hm, htruth, hnull, hv⟩ := hs.value hd
  exact hs.bind ⟨c', hc'⟩ hm (hc.defines htruth hset hquote hv hnull hp hr)

/-- A definition can be called, and others after it. -/
theorem Prepared.define_returns (hp : ReadsAs expr (setExpression m e)) : ∃ fuel₀, ∀ fuel,
    fuel₀ ≤ fuel → ∃ r t, exec (evalExpression fuel expr) s = (.ok r, t) ∧
      lookupName t "set".toList = some (.primitive .set) ∧
      lookupName t "quote".toList = some (.primitive .quote) := by
  obtain ⟨c, hc⟩ := hs.between
  obtain ⟨v, hm, htruth, hnull, hv⟩ := hs.value hd
  obtain ⟨f₁, hreturns⟩ := hc.define_returns htruth hset hquote hv hnull hp
  obtain ⟨f₂, size, hp⟩ := hp.more
  have hne : "set".toList ≠ m ∧ "quote".toList ≠ m := by
    rcases hm with ⟨rfl, -⟩ | ⟨rfl, -⟩
    · decide
    · decide
  refine ⟨max f₁ f₂, fun fuel hf => ?_⟩
  obtain ⟨r, t, hr⟩ := hreturns fuel (by omega)
  have hlookup := hc.defines htruth hset hquote hv hnull (hp fuel (by omega)) hr
  refine ⟨r, t, hr, ?_, ?_⟩
  · rw [hlookup, if_neg hne.1, hset]
  · rw [hlookup, if_neg hne.2, hquote]

end define

theorem Prepared.other {l' : List Text} (hs : Prepared l s)
    (hr : exec (evalExpression fuel expr) s = (.ok r, t)) (hl : l' ⊆ l)
    (hsame : ∀ m ∈ capturedNames.map Prod.fst ++ boundNames ++ l',
      lookupName t m = lookupName s m) : Prepared l' t := by
  obtain ⟨c, hc⟩ := hs.between
  obtain ⟨-, c', -, -, hc'⟩ := hc.call hr
  constructor
  case between => exact ⟨c', hc'⟩
  case captured =>
    intro p hp
    rw [hsame _ (by simp [List.mem_map_of_mem (f := Prod.fst) hp]), hs.captured p hp]
  case bound =>
    intro m hm
    rw [hsame _ (by simp [hm]), hs.bound m hm]
  case y =>
    intro hy
    rw [hsame _ (by simp [hy]), hs.y (hl hy)]
  case f =>
    intro hf
    rw [hsame _ (by simp [hf]), hs.f (hl hf)]

theorem Series.prepared (hs : Series l s) : Prepared l s := by
  induction hs with
  | init => exact prepared_init
  | define _ hd hset hquote hp hr ih => exact ih.define hd hset hquote hp hr
  | other _ hr hl hsame ih => exact ih.other hr hl hsame

/-- A definition can be made. -/
theorem Series.exists_define (hs : Series l s) (hd : (m, e) ∈ definitions)
    (hset : lookupName s "set".toList = some (.primitive .set))
    (hquote : lookupName s "quote".toList = some (.primitive .quote))
    (hp : ReadsAs expr (setExpression m e)) : ∃ fuel r t, Series (m :: l) t ∧
      exec (evalExpression fuel expr) s = (.ok r, t) ∧
      lookupName t "set".toList = some (.primitive .set) ∧
      lookupName t "quote".toList = some (.primitive .quote) := by
  obtain ⟨f₁, hreturns⟩ := hs.prepared.define_returns hd hset hquote hp
  obtain ⟨f₂, size, hp⟩ := hp.more
  obtain ⟨r, t, hr, hkeep⟩ := hreturns (max f₁ f₂) (by omega)
  exact ⟨_, r, t, hs.define hd hset hquote (hp _ (by omega)) hr, hr, hkeep⟩

/-- A definition of another name by an expression that has a value can be made. -/
theorem Series.exists_other (hs : Series l s) (hn : isTruthName m = false)
    (hm : m ∉ capturedNames.map Prod.fst ++ boundNames ++ l)
    (hset : lookupName s "set".toList = some (.primitive .set))
    (hquote : lookupName s "quote".toList = some (.primitive .quote))
    (hp : ReadsAs expr (setExpression m e))
    (hv : ∀ ρ : Scope F, (∀ m, ρ.find m = lookupName s m) → HasValue ρ e v) (hnull : v ≠ .null) :
    ∃ fuel r t, Series l t ∧ exec (evalExpression fuel expr) s = (.ok r, t) ∧
      lookupName t m = some v := by
  obtain ⟨c, hc⟩ := hs.prepared.between
  obtain ⟨f₁, hreturns⟩ := hc.define_returns hn hset hquote hv hnull hp
  obtain ⟨f₂, size, hp⟩ := hp.more
  obtain ⟨r, t, hr⟩ := hreturns (max f₁ f₂) (by omega)
  have hlookup := hc.defines hn hset hquote hv hnull (hp _ (by omega)) hr
  refine ⟨_, r, t, hs.other hr (List.Subset.refl l) fun m' hm' => ?_, hr, ?_⟩
  · rw [hlookup, if_neg]
    rintro rfl
    exact hm hm'
  · rw [hlookup, if_pos rfl]

/-- `((Y F) tok)`. -/
def callText (tok : Text) : SExpr :=
  .paren [.paren [.token ['Y'], .token ['F']], .token tok]

theorem toObj_callText {tok : Text} {n : Int} (h : (parseAtom tok : Obj F × Nat).1 = .int n) :
    (callText tok).toObj = (callExpression n : Obj F) := by
  have hY : (parseAtom ['Y'] : Obj F × Nat).1 = .atom ['Y'] :=
    parseAtom_word (by decide) (by decide) (by decide)
  have hF : (parseAtom ['F'] : Obj F × Nat).1 = .atom ['F'] :=
    parseAtom_word (by decide) (by decide) (by decide)
  simp only [callText, SExpr.toObj, SExpr.elementsToObj, h, hY, hF, callExpression, listOf]

/-- The parser reads every layout of `((Y F) tok)` so, where the token is an integer literal. -/
theorem readsAs_callText {tok : Text} {n : Int} (htok : IntegerLiteral tok n) (hint : InInt n)
    (h : Layout (callText tok) expr) (hlen : expr.length < 2 ^ 31) :
    ReadsAs expr (callExpression n : Obj F) := by
  have htoken : IsToken tok ∧ tok.length ≤ expr.length := by
    cases h with
    | paren _ h =>
      cases h with
      | cons _ h _ =>
        cases h with
        | cons h _ _ =>
          cases h with
          | token _ hn =>
            refine ⟨hn, ?_⟩
            simp only [List.length_append, List.length_cons]
            omega
  have hatom := parseAtom_literal (F := F) htoken.1 htok hint (by omega)
  refine ⟨expr.length, expr.length, ?_⟩
  have hparse := @parseExpression_complete F _ _ _ [] _ h (by simp [callText, SExpr.endsInToken])
    (by simpa using hlen) (Nat.le_refl _)
  rwa [List.append_nil, toObj_callText hatom] at hparse

/-- The layout of the call with one space between its parts. -/
theorem layout_callText {tok : Text} (hn : IsToken tok) :
    Layout (callText tok) ("((Y F) ".toList ++ (tok ++ [')'])) := by
  have hspace : AllWhite [' '] := by simp [AllWhite]
  have hclose : Delimited [')'] := by simp [Delimited, isAtomChar]
  have hname : Delimited [' ', 'F', ')'] := by simp [Delimited, isAtomChar, isWhiteSpace]
  have hY : Layout (.token ['Y']) ['Y'] :=
    @Layout.token [] _ allWhite_nil (by simp [IsToken, isAtomChar, isWhiteSpace])
  have hF : Layout (.token ['F']) [' ', 'F'] :=
    @Layout.token [' '] _ hspace (by simp [IsToken, isAtomChar, isWhiteSpace])
  have hoperator : Layout (.paren [.token ['Y'], .token ['F']]) "(Y F)".toList :=
    @Layout.paren [] _ _ allWhite_nil
      (.cons hY (.cons hF (@ElementsLayout.nil [] allWhite_nil) fun _ => hclose) fun _ => hname)
  have htok : Layout (.token tok) (' ' :: tok) := @Layout.token [' '] _ hspace hn
  have hcall := @Layout.paren [] _ _ allWhite_nil
    (.cons hoperator (.cons htok (@ElementsLayout.nil [] allWhite_nil) fun _ => hclose)
      (by rintro ⟨⟩))
  exact hcall

/-- The definitions as a program writes them. -/
def yText : Text :=
  ("(set 'Y  (lambda (r)   ((lambda (f) (f f)) " ++
    "   (lambda (f) (r (lambda (x) ((f f) x)))))))").toList

def fText : Text :=
  ("(set 'F  (lambda (g)   (lambda (n)    (cond     ((= n 0) 42) " ++
    "    (t       (g (- n 1)))))))").toList

/-- In every interpreter in which `Y` and `F` are set, whatever else it binds, `((Y F) n)` has the
value 42 for every number `n` that is not negative. -/
theorem series_countdown {n : Int} (hs : Series l s) (hY : ['Y'] ∈ l) (hF : ['F'] ∈ l)
    (hn : 0 ≤ n) (hint : InInt n) (hp : ReadsAs expr (callExpression n : Obj F)) :
    ∃ fuel₀, ∀ fuel, fuel₀ ≤ fuel → ∃ r t,
      exec (eval fuel (load s.heap (callExpression n)).1) (loaded s (callExpression n)) =
        (.ok r, t) ∧
      treeOf t.heap r = .int 42 ∧
      exec (evalExpression fuel expr) s = (.ok r, collectGarbage t) := by
  have hprepared := hs.prepared
  obtain ⟨c, hc⟩ := hprepared.between
  obtain ⟨k, rfl⟩ := Int.eq_ofNat_of_zero_le hn
  refine hc.evaluates hp rfl fun ρ hρ => ?_
  have ht : ρ.find ['t'] = none := (hρ _).trans (lookupName_truth hprepared)
  have hx : ρ.find ['x'] = none := (hρ _).trans (hprepared.bound _ (by simp [boundNames]))
  have hY' : ρ.find ['Y'] = some yValue := (hρ _).trans (hprepared.y hY)
  have hF' : ρ.find ['F'] = some fValue := (hρ _).trans (hprepared.f hF)
  have hk : (k : Int) < 2 ^ 31 := hint.2
  exact hasValue_countdown k (by omega) ht (hasValue_fixedPoint ht hx hY' hF') (.int k)

/-- Ten steps of the recursion, in an interpreter that also binds `a`. -/
theorem series_countdown_ten : ∃ s : Interpreter NoFloat,
    Series [['F'], ['Y']] s ∧ lookupName s ['a'] = some (.int 5) ∧
    ∃ fuel₀, ∀ fuel, fuel₀ ≤ fuel → ∃ r t,
      exec (evalExpression fuel "((Y F) 10)".toList) s = (.ok r, collectGarbage t) ∧
      treeOf t.heap r = .int 42 := by
  have hY : ReadsAs yText (setExpression ['Y'] yExpression : Obj NoFloat) :=
    ⟨30, 88, by decide +kernel⟩
  have hF : ReadsAs fText (setExpression ['F'] fExpression : Obj NoFloat) :=
    ⟨30, 90, by decide +kernel⟩
  have ha : ReadsAs "(set 'a 5)".toList (setExpression ['a'] (.int 5) : Obj NoFloat) :=
    ⟨30, 10, by decide +kernel⟩
  have hset : lookupName (interpreterInit : Interpreter NoFloat) "set".toList =
      some (.primitive .set) := by
    rw [lookupName_init]
    rfl
  have hquote : lookupName (interpreterInit : Interpreter NoFloat) "quote".toList =
      some (.primitive .quote) := by
    rw [lookupName_init]
    rfl
  obtain ⟨_, _, s₁, hs, -, hset, hquote⟩ :=
    Series.init.exists_define (by simp [definitions]) hset hquote hY
  obtain ⟨_, _, s₂, hs, -, hset, hquote⟩ := hs.exists_define (by simp [definitions]) hset hquote hF
  obtain ⟨_, _, s, hs, -, hlookup⟩ := hs.exists_other (by decide) (by decide) hset hquote ha
    (fun _ _ => .int 5) (by simp)
  have hlayout : Layout (callText ['1', '0']) "((Y F) 10)".toList :=
    layout_callText (by simp [IsToken, isAtomChar, isWhiteSpace])
  have hliteral : IntegerLiteral ['1', '0'] 10 :=
    ⟨false, _, _, .plain _, .decimal (by decide) (by simp [AllDigits]; decide), by decide⟩
  obtain ⟨fuel₀, h⟩ := series_countdown hs (by simp) (by simp) (by decide) (by decide)
    (readsAs_callText hliteral (by decide) hlayout (by decide))
  refine ⟨s, hs, hlookup, fuel₀, fun fuel hf => ?_⟩
  obtain ⟨r, t, -, hvalue, hcall⟩ := h fuel hf
  exact ⟨r, t, hcall, hvalue⟩

end Lisp.YCombinator
