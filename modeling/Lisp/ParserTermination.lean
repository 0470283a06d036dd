import Lisp.ParserComplete
import Mathlib.Data.List.TakeWhile

/-! Where the parser stops. `parse_list` does not test for the end of the text: there it
steps back by one character, and returns only if that character is a closing parenthesis. -/
namespace Lisp
variable {F : Type} [CFloat F]

section places

/-- Where a character stands: between elements, in an atom, or behind a quote character
whose element has not begun. -/
inductive Place where
  | between
  | atom
  | quoted
deriving DecidableEq

/-- The text behind the parenthesis that closes `depth + 1` lists. A closing parenthesis in
the place of a quoted element closes none. -/
def closeFrom : Place → Nat → Text → Option Text
  | _, _, [] => none
  | place, depth, c :: s =>
    if c = '(' then closeFrom .between (depth + 1) s
    else if c = ')' then
      if place = .quoted then closeFrom .between depth s
      else if depth = 0 then some s
      else closeFrom .between (depth - 1) s
    else if isWhiteSpace c then closeFrom (if place = .quoted then .quoted else .between) depth s
    else if c = '\'' ∧ place ≠ .atom then closeFrom .quoted depth s
    else closeFrom .atom depth s

/-- The first expression of the text is not a list that is left open. -/
def firstCloses : Text → Bool
  | [] => true
  | c :: s =>
    if isWhiteSpace c || c == '\'' then firstCloses s
    else if c = '(' then (closeFrom .between 0 s).isSome
    else true

/-- The last character that is not whitespace. -/
def lastSolid (text : Text) : Option Char :=
  (text.filter fun c => !isWhiteSpace c).getLast?

variable {place : Place} {depth : Nat} {c : Char} {s t ws name rest : Text}

@[simp] theorem closeFrom_open :
    closeFrom place depth ('(' :: s) = closeFrom .between (depth + 1) s := by
  simp [closeFrom]

@[simp] theorem closeFrom_close_quoted :
    closeFrom .quoted depth (')' :: s) = closeFrom .between depth s := by
  simp [closeFrom]

@[simp] theorem closeFrom_close_zero (h : place ≠ .quoted) :
    closeFrom place 0 (')' :: s) = some s := by
  simp [closeFrom, h]

@[simp] theorem closeFrom_close_succ (h : place ≠ .quoted) :
    closeFrom place (depth + 1) (')' :: s) = closeFrom .between depth s := by
  simp [closeFrom, h]

theorem closeFrom_quote (h : place ≠ .atom) :
    closeFrom place depth ('\'' :: s) = closeFrom .quoted depth s := by
  simp [closeFrom, h, isWhiteSpace]

/-- To close `m + n + 2` lists is to close `m + 1` of them and then the others. -/
theorem closeFrom_add (place : Place) (m n : Nat) (s : Text) :
    closeFrom place (m + n + 1) s = (closeFrom place m s).bind (closeFrom .between n) := by
  induction s generalizing place m with
  | nil => rfl
  | cons c s ih =>
    by_cases hopen : c = '('
    · subst hopen
      have h := ih .between (m + 1)
      rw [show m + 1 + n + 1 = m + n + 1 + 1 by omega] at h
      simpa using h
    by_cases hclose : c = ')'
    · subst hclose
      by_cases hq : place = .quoted
      · subst hq
        simpa using ih .between m
      cases m with
      | zero => simp [hq]
      | succ m =>
        have h := ih .between m
        rw [show m + 1 + n + 1 = m + n + 1 + 1 by omega]
        simpa [hq] using h
    · simp only [closeFrom, hopen, hclose, if_false]
      split_ifs
      all_goals exact ih _ m

theorem closeFrom_blank (hp : place ≠ .atom) (hw : Blank ws) :
    closeFrom place depth (ws ++ s) = closeFrom place depth s := by
  induction ws with
  | nil => rfl
  | cons c ws ih =>
    have hc : isWhiteSpace c = true := hw c (by simp)
    have hplace : (if place = .quoted then .quoted else .between : Place) = place := by
      cases place <;> simp_all
    have hparen : c ≠ '(' ∧ c ≠ ')' := by
      constructor <;> rintro rfl <;> simp [isWhiteSpace] at hc
    rw [List.cons_append, closeFrom, if_neg hparen.1, if_neg hparen.2, if_pos hc, hplace]
    exact ih fun d hd => hw d (by simp [hd])

theorem closeFrom_of_blank (hp : place ≠ .atom) (hs : Blank s) :
    closeFrom place depth s = none := by
  rw [← List.append_nil s, closeFrom_blank hp hs, closeFrom]

/-- Behind an atom it does not matter that there was one. -/
theorem closeFrom_delimited (hr : Delimited rest) :
    closeFrom .atom depth rest = closeFrom .between depth rest := by
  cases rest with
  | nil => rfl
  | cons c s =>
    have hc := hr c rfl
    simp only [isAtomChar, Bool.not_eq_false', Bool.or_eq_true, beq_iff_eq] at hc
    rcases hc with (hc | rfl) | rfl
    · simp [closeFrom, hc]
    · simp
    · cases depth <;> simp

theorem closeFrom_atom (ha : ∀ c ∈ name, isAtomChar c = true) :
    closeFrom .atom depth (name ++ rest) = closeFrom .atom depth rest := by
  induction name with
  | nil => rfl
  | cons c name ih =>
    have hc := ha c (by simp)
    simp only [isAtomChar, Bool.not_eq_true', Bool.or_eq_false_iff, beq_eq_false_iff_ne] at hc
    rw [List.cons_append, closeFrom, if_neg hc.1.2, if_neg hc.2, if_neg (by simp [hc.1.1]),
      if_neg (by simp)]
    exact ih fun d hd => ha d (by simp [hd])

theorem closeFrom_token (hn : IsToken name) (hr : Delimited rest) :
    closeFrom place depth (name ++ rest) = closeFrom .between depth rest := by
  obtain ⟨c, s, rfl, hc, hclose, hquote, hopen⟩ := hn.head
  rw [List.cons_append, closeFrom, if_neg hopen, if_neg hclose, if_neg (by simp [hc]),
    if_neg (by simp [hquote]), closeFrom_atom fun d hd => hn.2.2 d (by simp [hd]),
    closeFrom_delimited hr]

/-- An element that does not begin with a closing parenthesis may be quoted. -/
theorem closeFrom_element (hc : isWhiteSpace c = false) (hclose : c ≠ ')') :
    closeFrom .between depth (c :: s) = closeFrom .quoted depth (c :: s) := by
  simp [closeFrom, hc, hclose]

theorem firstCloses_blank (hw : Blank ws) : firstCloses (ws ++ s) = firstCloses s := by
  induction ws with
  | nil => rfl
  | cons c ws ih =>
    have hc : isWhiteSpace c = true := hw c (by simp)
    simp only [List.cons_append, firstCloses, hc, Bool.true_or, if_true]
    exact ih fun d hd => hw d (by simp [hd])

theorem Blank.append (hw : Blank ws) (hs : Blank s) : Blank (ws ++ s) := by
  intro c hc
  rcases List.mem_append.1 hc with hc | hc
  · exact hw c hc
  · exact hs c hc

theorem blank_or_element (s : Text) : Blank s ∨
    ∃ ws c t, s = ws ++ c :: t ∧ Blank ws ∧ isWhiteSpace c = false := by
  induction s with
  | nil => exact Or.inl (by simp [Blank])
  | cons c s ih =>
    by_cases hc : isWhiteSpace c = true
    · have hcons : Blank [c] := by simpa [Blank] using hc
      rcases ih with hs | ⟨ws, d, t, rfl, hw, hd⟩
      · exact Or.inl (hcons.append hs)
      · exact Or.inr ⟨c :: ws, d, t, rfl, hcons.append hw, hd⟩
    · exact Or.inr ⟨[], c, s, rfl, by simp [Blank], by simpa using hc⟩

theorem exists_token (hc : isAtomChar c = true) (hq : c ≠ '\'') :
    ∃ name rest, c :: s = name ++ rest ∧ IsToken name ∧ Delimited rest := by
  refine ⟨(c :: s).takeWhile isAtomChar, (c :: s).dropWhile isAtomChar,
    List.takeWhile_append_dropWhile.symm, ?_, ?_⟩
  · refine ⟨by simp [hc], by simp [hc, hq], fun d hd => ?_⟩
    exact List.mem_takeWhile_imp hd
  · intro d hd
    have h := List.head?_dropWhile_not isAtomChar (c :: s)
    simpa [hd] using h

theorem Blank.lastSolid (hs : Blank s) : lastSolid (t ++ s) = lastSolid t := by
  have hfilter : (s.filter fun c => !isWhiteSpace c) = [] :=
    List.filter_eq_nil_iff.2 fun c hc => by simp [hs c hc]
  simp [Lisp.lastSolid, hfilter]

theorem lastSolid_concat (hc : isWhiteSpace c = false) : lastSolid (t ++ [c]) = some c := by
  simp [lastSolid, hc]

end places

section calls
variable {α : Type} {inner outer : Nat → Except Fault (α × Nat)} {m n : Nat}

/-- What a call answers for each bound on its depth: either it needs a greater one, or it
reads `n` characters. -/
def ReadsCount (call : Nat → Except Fault (α × Nat)) (n : Nat) : Prop :=
  ∃ bound, ∀ fuel, (∃ o, call fuel = .ok (o, n)) ∨ (fuel < bound ∧ call fuel = .error .outOfFuel)

/-- No bound on the depth is enough for the call. -/
def Hangs (call : Nat → Except Fault (α × Nat)) : Prop :=
  ∀ fuel, call fuel = .error .outOfFuel

theorem ReadsCount.enter (hzero : outer 0 = .error .outOfFuel)
    (hok : ∀ fuel o, inner fuel = .ok (o, m) → ∃ o', outer (fuel + 1) = .ok (o', n))
    (herr : ∀ fuel, inner fuel = .error .outOfFuel → outer (fuel + 1) = .error .outOfFuel)
    (h : ReadsCount inner m) : ReadsCount outer n := by
  obtain ⟨bound, h⟩ := h
  refine ⟨bound + 1, fun fuel => ?_⟩
  cases fuel with
  | zero => exact Or.inr ⟨by omega, hzero⟩
  | succ fuel =>
    rcases h fuel with ⟨o, ho⟩ | ⟨hlt, he⟩
    · exact Or.inl (hok fuel o ho)
    · exact Or.inr ⟨by omega, herr fuel he⟩

theorem Hangs.enter (hzero : outer 0 = .error .outOfFuel)
    (herr : ∀ fuel, inner fuel = .error .outOfFuel → outer (fuel + 1) = .error .outOfFuel)
    (h : Hangs inner) : Hangs outer := by
  intro fuel
  cases fuel with
  | zero => exact hzero
  | succ fuel => exact herr fuel (h fuel)

/-- A call that answers at once. -/
theorem ReadsCount.of_succ (hzero : outer 0 = .error .outOfFuel)
    (hok : ∀ fuel, ∃ o, outer (fuel + 1) = .ok (o, n)) : ReadsCount outer n := by
  refine ⟨1, fun fuel => ?_⟩
  cases fuel with
  | zero => exact Or.inr ⟨by omega, hzero⟩
  | succ fuel => exact Or.inl (hok fuel)

end calls

section steps
variable {text pre s t ws : Text} {c : Char} {fuel m n e k : Nat}

variable (F) in
def exprAt (text : Text) (e : Nat) : Nat → Except Fault (Obj F × Nat) :=
  fun fuel => parseExpression text fuel e

variable (F) in
def listAt (text : Text) (e : Nat) : Nat → Except Fault (Obj F × Nat) :=
  fun fuel => parseList text fuel e

theorem distance_blank (hs : Blank s) : distanceToNextElement s = -1 := by
  have h : s.takeWhile isWhiteSpace = s := List.takeWhile_eq_self_iff.2 hs
  simp [distanceToNextElement, h]

theorem parseExpression_blank (hs : Blank s) :
    parseExpression (pre ++ s) (fuel + 1) pre.length = .ok ((.null : Obj F), s.length) := by
  simp [parseExpression, suffixAt_append, distance_blank hs, Bind.bind, Except.bind, pure,
    Except.pure]

theorem parseExpression_close (hw : Blank ws) (hl : ws.length + 1 < 2 ^ 31) :
    parseExpression (pre ++ (ws ++ ')' :: t)) (fuel + 1) pre.length =
      .ok ((.null : Obj F), ws.length + 1) := by
  obtain ⟨h1, h2, h3, h4⟩ := call_start pre t ')' hw (by decide) (by omega)
  have hne : (ws.length : Int) ≠ -1 := by omega
  have hsum := toSize_add (m := ws.length) (n := 1) hl
  have hsize : toSize ws.length = ws.length := toSize_natCast (by omega)
  simp only [Nat.cast_one] at hsum
  simp only [parseExpression, h1, h2, h4, hne, Bind.bind, Except.bind, pure, Except.pure, reduceIte,
    hsize, hsum]

theorem parseExpression_quote_error {e : Fault} (hw : Blank ws) (hl : ws.length < 2 ^ 31)
    (h : (parseExpression (pre ++ ws ++ ['\''] ++ t) fuel (pre ++ ws ++ ['\'']).length :
      Except Fault (Obj F × Nat)) = .error e) :
    (parseExpression (pre ++ (ws ++ '\'' :: t)) (fuel + 1) pre.length :
      Except Fault (Obj F × Nat)) = .error e := by
  obtain ⟨h1, h2, h3, h4⟩ := call_start pre t '\'' hw (by decide) hl
  have hne : (ws.length : Int) ≠ -1 := by omega
  have hpos : (pre.length : Int) + ws.length + 1 = ((pre ++ ws ++ ['\'']).length : Nat) := by
    simp
    omega
  have htext : pre ++ (ws ++ '\'' :: t) = pre ++ ws ++ ['\''] ++ t := by simp
  rw [htext] at h1 h4 ⊢
  simp only [parseExpression, h1, h2, h4, hpos, h, hne, Bind.bind, Except.bind, reduceIte,
    Char.reduceEq]

theorem parseExpression_paren_error {e : Fault} (hw : Blank ws) (hl : ws.length < 2 ^ 31)
    (h : (parseList (pre ++ ws ++ ['('] ++ t) fuel (pre ++ ws ++ ['(']).length :
      Except Fault (Obj F × Nat)) = .error e) :
    (parseExpression (pre ++ (ws ++ '(' :: t)) (fuel + 1) pre.length :
      Except Fault (Obj F × Nat)) = .error e := by
  obtain ⟨h1, h2, h3, h4⟩ := call_start pre t '(' hw (by decide) hl
  have hne : (ws.length : Int) ≠ -1 := by omega
  have hpos : (pre.length : Int) + ws.length + 1 = ((pre ++ ws ++ ['(']).length : Nat) := by
    simp
    omega
  have htext : pre ++ (ws ++ '(' :: t) = pre ++ ws ++ ['('] ++ t := by simp
  rw [htext] at h1 h4 ⊢
  simp only [parseExpression, h1, h2, h4, hpos, h, hne, Bind.bind, Except.bind, reduceIte,
    Char.reduceEq]

/-- `parse_list` at `e` goes on with the element at `k`: the one after the whitespace or,
at the end of the text, the last character. -/
structure Element (text : Text) (e : Nat) (s : Text) (k : Nat) : Prop where
  suffix : suffixAt text e = .ok s
  place : (e : Int) + distanceToNextElement s = k
  element : ∃ c, charAt text k = .ok c ∧ c ≠ ')'

theorem Element.parseList (h : Element text e s k) :
    (parseList text (fuel + 1) e : Except Fault (Obj F × Nat)) = (do
      let next ← parseExpression text fuel k
      let rest ← Lisp.parseList text fuel (k + next.2 : Nat)
      return (.list next.1 rest.1, toSize (distanceToNextElement s + next.2 + rest.2))) := by
  obtain ⟨hsuffix, hplace, c, hc, hclose⟩ := h
  simp only [Lisp.parseList, hsuffix, hplace, hc, hclose, Bind.bind, Except.bind, reduceIte,
    Nat.cast_add]

theorem Element.of_blank (hs : Blank s) (hc : c ≠ ')') :
    Element (pre ++ c :: s) (pre.length + 1) s pre.length := by
  constructor
  case suffix => simpa using suffixAt_append (pre ++ [c]) s
  case place =>
    rw [distance_blank hs]
    omega
  case element => exact ⟨c, charAt_append pre s c, hc⟩

theorem Element.of_element (hw : Blank ws) (hl : ws.length < 2 ^ 31) (hc : isWhiteSpace c = false)
    (hclose : c ≠ ')') : Element (pre ++ (ws ++ c :: s)) pre.length (ws ++ c :: s)
      (pre ++ ws).length := by
  obtain ⟨h1, h2, h3, h4⟩ := call_start pre s c hw hc hl
  constructor
  case suffix => exact h1
  case place => simp [h2]
  case element => exact ⟨c, by simpa using h4, hclose⟩

theorem Element.reads (h : Element text e s k) (he : ReadsCount (exprAt F text k) m)
    (hr : ReadsCount (listAt F text (k + m)) n) :
    ReadsCount (listAt F text e) (toSize (distanceToNextElement s + m + n)) := by
  obtain ⟨b, he⟩ := he
  obtain ⟨b', hr⟩ := hr
  refine ⟨max b b' + 1, fun fuel => ?_⟩
  cases fuel with
  | zero => exact Or.inr ⟨by omega, rfl⟩
  | succ fuel =>
    simp only [exprAt, listAt] at he hr ⊢
    rw [h.parseList]
    rcases he fuel with ⟨o, ho⟩ | ⟨hlt, ho⟩
    · rcases hr fuel with ⟨o', ho'⟩ | ⟨hlt, ho'⟩
      · exact Or.inl ⟨.list o o', by simp only [ho, ho', Bind.bind, Except.bind, pure, Except.pure]⟩
      · exact Or.inr ⟨by omega, by simp only [ho, ho', Bind.bind, Except.bind]⟩
    · exact Or.inr ⟨by omega, by simp [ho, Bind.bind, Except.bind]⟩

theorem Element.hangs (h : Element text e s k) (he : Hangs (exprAt F text k)) :
    Hangs (listAt F text e) := by
  refine he.enter rfl fun fuel ho => ?_
  simp only [exprAt, listAt] at ho ⊢
  simp [h.parseList, ho, Bind.bind, Except.bind]

theorem Element.rest_hangs (h : Element text e s k) (he : ReadsCount (exprAt F text k) m)
    (hr : Hangs (listAt F text (k + m))) : Hangs (listAt F text e) := by
  obtain ⟨b, he⟩ := he
  refine hr.enter rfl fun fuel ho => ?_
  simp only [exprAt, listAt] at he ho ⊢
  rw [h.parseList]
  rcases he fuel with ⟨o, he⟩ | ⟨_, he⟩
  · simp only [he, ho, Bind.bind, Except.bind]
  · simp [he, Bind.bind, Except.bind]

end steps

section ends
variable {text pre s t ws : Text} {c : Char} {fuel e k : Nat}

/-- `parse_list` stands at the end of the text and not directly behind a closing parenthesis. -/
def Stuck (text : Text) (e : Nat) : Prop :=
  ∃ pre c s, text = pre ++ c :: s ∧ Blank s ∧ c ≠ ')' ∧ e = pre.length + 1

theorem stuck_length (hs : Blank s) (hc : c ≠ ')') :
    Stuck (pre ++ c :: s) (pre ++ c :: s).length := by
  rcases List.eq_nil_or_concat s with rfl | ⟨s, d, rfl⟩
  · exact ⟨pre, c, [], rfl, hs, hc, by simp⟩
  · have hd : isWhiteSpace d = true := hs d (by simp)
    refine ⟨pre ++ c :: s, d, [], by simp, by simp [Blank], ?_, by simp; omega⟩
    rintro rfl
    simp [isWhiteSpace] at hd

theorem blank_nil : Blank [] := by simp [Blank]

/-- The last character is read again, and `parse_list` is where it was or at the end. -/
theorem last_element (hl : (pre ++ c :: s).length < 2 ^ 31) (hs : Blank s) (hc : c ≠ ')')
    (hstuck : ∀ fuel' < fuel, ∀ e, Stuck (pre ++ c :: s) e →
      (parseList (pre ++ c :: s) fuel' e : Except Fault (Obj F × Nat)) = .error .outOfFuel) :
    (parseExpression (pre ++ c :: s) fuel pre.length : Except Fault (Obj F × Nat)) =
      .error .outOfFuel ∨ ∃ o m,
        (parseExpression (pre ++ c :: s) fuel pre.length : Except Fault (Obj F × Nat)) =
          .ok (o, m) ∧ Stuck (pre ++ c :: s) (pre.length + m) := by
  have hlen : (pre ++ c :: s).length = pre.length + (s.length + 1) := by simp
  have hend : Stuck (pre ++ c :: s) (pre ++ c :: s).length := stuck_length hs hc
  rw [hlen] at hl hend
  cases fuel with
  | zero => exact Or.inl rfl
  | succ fuel =>
    by_cases hwhite : isWhiteSpace c = true
    · have hblank : Blank (c :: s) := by
        intro d hd
        rcases List.mem_cons.1 hd with rfl | hd
        · exact hwhite
        · exact hs d hd
      exact Or.inr ⟨_, _, parseExpression_blank hblank, by simpa using hend⟩
    by_cases hquote : c = '\''
    · subst hquote
      cases fuel with
      | zero =>
        exact Or.inl (parseExpression_quote_error blank_nil (by simp) rfl)
      | succ fuel =>
        have hinner : parseExpression (pre ++ [] ++ ['\''] ++ s) (fuel + 1)
            (pre ++ [] ++ ['\'']).length = .ok ((.null : Obj F), s.length) :=
          parseExpression_blank hs
        have h := parseExpression_quote blank_nil (by simp; omega) hinner
        refine Or.inr ⟨_, _, h, ?_⟩
        simpa [Nat.add_comm] using hend
    by_cases hopen : c = '('
    · subst hopen
      left
      refine parseExpression_paren_error blank_nil (by simp) ?_
      have h := hstuck fuel (by omega) (pre.length + 1) ⟨pre, '(', s, rfl, hs, hc, rfl⟩
      simpa using h
    · have hatom : IsToken [c] := by
        simp [IsToken, isAtomChar, hwhite, hquote, hopen, hc]
      have hdelim : Delimited s := by
        intro d hd
        simp [isAtomChar, hs d (List.mem_of_mem_head? hd)]
      have h : (parseExpression (pre ++ ([] ++ ([c] ++ s))) (fuel + 1) pre.length :
          Except Fault (Obj F × Nat)) = .ok ((parseAtom [c]).1, 0 + 1) :=
        parseExpression_token blank_nil hatom hdelim (by simp; omega)
      exact Or.inr ⟨_, _, h, pre, c, s, rfl, hs, hc, by simp⟩

/-- At the end of the text, and not behind a closing parenthesis, `parse_list` never returns. -/
theorem Stuck.hangs (hl : text.length < 2 ^ 31) (h : Stuck text e) : Hangs (listAt F text e) := by
  intro fuel
  induction fuel using Nat.strong_induction_on generalizing e with
  | _ fuel ih =>
    cases fuel with
    | zero => rfl
    | succ fuel =>
      obtain ⟨pre, c, s, rfl, hs, hc, rfl⟩ := h
      have helement : Element (pre ++ c :: s) (pre.length + 1) s pre.length := .of_blank hs hc
      simp only [listAt] at ih ⊢
      rw [helement.parseList]
      have hbelow : ∀ fuel' < fuel, ∀ e, Stuck (pre ++ c :: s) e → _ :=
        fun fuel' hlt e he => ih fuel' (by omega) he
      rcases last_element hl hs hc hbelow with herr | ⟨o, m, hok, hstuck⟩
      · simp [herr, Bind.bind, Except.bind]
      · have hrest := ih fuel (by omega) hstuck
        simp only [hok, hrest, Bind.bind, Except.bind]

/-- Behind the last closing parenthesis an open list ends a second time. -/
theorem reads_end (hs : Blank s) : ReadsCount (listAt F (pre ++ ')' :: s) (pre.length + 1)) 0 := by
  refine .of_succ rfl fun fuel => ⟨.null, ?_⟩
  have hsuffix : suffixAt (pre ++ ')' :: s) (pre.length + 1 : Nat) = .ok s := by
    simpa using suffixAt_append (pre ++ [')']) s
  have hchar := charAt_append pre s ')'
  have hplace : ((pre.length + 1 : Nat) : Int) + -1 = pre.length := by omega
  have hsize : toSize (toSize (-1) + 1) = 0 := by decide
  simp only [listAt, parseList, hsuffix, distance_blank hs, hplace, hchar, hsize, Bind.bind,
    Except.bind, pure, Except.pure, reduceIte]

end ends

section specs
variable {α : Type} {text pre s t u ws rest : Text} {c : Char}

/-- What becomes of a list that the text leaves open: it ends behind the last closing
parenthesis if nothing solid follows that, and never otherwise. -/
def LeftOpen (text pre s : Text) (call : Nat → Except Fault (α × Nat)) : Prop :=
  if lastSolid text = some ')' then
    ∃ u ws, s = u ++ ws ∧ Blank ws ∧ (pre ++ u).getLast? = some ')' ∧ ReadsCount call u.length
  else Hangs call

/-- Where nothing solid is left of a text that ends in a closing parenthesis, the parser is
directly behind it. -/
def Ready (text pre s : Text) : Prop :=
  Blank s → lastSolid text = some ')' → pre.getLast? = some ')'

/-- `parse_expression` at `pre` with the text `s` before it. -/
structure ExprSpec (F : Type) [CFloat F] (text pre s : Text) : Prop where
  closes : firstCloses s = true → ∃ u rest, s = u ++ rest ∧ (s ≠ [] → u ≠ []) ∧
    (∀ depth, closeFrom .quoted depth s = closeFrom .between depth rest) ∧
    Ready text (pre ++ u) rest ∧ ReadsCount (exprAt F text pre.length) u.length
  leftOpen : firstCloses s = false → (∀ depth, closeFrom .quoted depth s = none) ∧
    LeftOpen text pre s (exprAt F text pre.length)

/-- `parse_list` at `pre` with the text `s` before it. -/
structure ListSpec (F : Type) [CFloat F] (text pre s : Text) : Prop where
  closes : ∀ rest, closeFrom .between 0 s = some rest →
    ∃ u, s = u ++ rest ∧ u.getLast? = some ')' ∧ ReadsCount (listAt F text pre.length) u.length
  leftOpen : closeFrom .between 0 s = none → LeftOpen text pre s (listAt F text pre.length)

theorem ready_of_getLast? (h : pre.getLast? = some ')') : Ready text pre s := fun _ _ => h

/-- The rest of a call inside another. -/
theorem LeftOpen.enter {inner outer : Nat → Except Fault (α × Nat)} {v : Text}
    (hreads : ∀ n ≤ t.length, ReadsCount inner n → ReadsCount outer (v.length + n))
    (hhangs : Hangs inner → Hangs outer) (h : LeftOpen text (pre ++ v) t inner) :
    LeftOpen text pre (v ++ t) outer := by
  unfold LeftOpen at h ⊢
  by_cases hlast : lastSolid text = some ')'
  · rw [if_pos hlast] at h ⊢
    obtain ⟨u, ws, rfl, hw, hu, hr⟩ := h
    refine ⟨v ++ u, ws, by simp, hw, by rw [← List.append_assoc]; exact hu, ?_⟩
    have := hreads u.length (by simp) hr
    simpa using this
  · rw [if_neg hlast] at h ⊢
    exact hhangs h

/-- A quote character and what is quoted, or an opening parenthesis and its list. -/
theorem enter_quote (hw : Blank ws) (htext : pre ++ (ws ++ '\'' :: t) = text)
    (hl : text.length < 2 ^ 31) :
    (∀ n ≤ t.length, ReadsCount (exprAt F text (pre ++ (ws ++ ['\''])).length) n →
      ReadsCount (exprAt F text pre.length) ((ws ++ ['\'']).length + n)) ∧
    (Hangs (exprAt F text (pre ++ (ws ++ ['\''])).length) →
      Hangs (exprAt F text pre.length)) := by
  have htext' : pre ++ ws ++ ['\''] ++ t = text := by simp [← htext]
  have hlen : ws.length + t.length + 1 < 2 ^ 31 := by
    simp [← htext] at hl
    omega
  have herror : ∀ fuel, exprAt F text (pre ++ (ws ++ ['\''])).length fuel = .error .outOfFuel →
      exprAt F text pre.length (fuel + 1) = .error .outOfFuel := by
    intro fuel he
    rw [← List.append_assoc, ← htext'] at he
    rw [← htext]
    exact parseExpression_quote_error hw (by omega) he
  constructor
  · intro n hn
    refine ReadsCount.enter rfl (fun fuel o ho => ?_) herror
    rw [← List.append_assoc, ← htext'] at ho
    rw [← htext]
    have hquote := parseExpression_quote hw (by omega) ho
    exact ⟨_, by simpa [exprAt] using hquote⟩
  · exact Hangs.enter rfl herror

theorem enter_paren (hw : Blank ws) (htext : pre ++ (ws ++ '(' :: t) = text)
    (hl : text.length < 2 ^ 31) :
    (∀ n ≤ t.length, ReadsCount (listAt F text (pre ++ (ws ++ ['('])).length) n →
      ReadsCount (exprAt F text pre.length) ((ws ++ ['(']).length + n)) ∧
    (Hangs (listAt F text (pre ++ (ws ++ ['('])).length) →
      Hangs (exprAt F text pre.length)) := by
  have htext' : pre ++ ws ++ ['('] ++ t = text := by simp [← htext]
  have hlen : ws.length + t.length + 1 < 2 ^ 31 := by
    simp [← htext] at hl
    omega
  have herror : ∀ fuel, listAt F text (pre ++ (ws ++ ['('])).length fuel = .error .outOfFuel →
      exprAt F text pre.length (fuel + 1) = .error .outOfFuel := by
    intro fuel he
    rw [← List.append_assoc, ← htext'] at he
    rw [← htext]
    exact parseExpression_paren_error hw (by omega) he
  constructor
  · intro n hn
    refine ReadsCount.enter rfl (fun fuel o ho => ?_) herror
    rw [← List.append_assoc, ← htext'] at ho
    rw [← htext]
    have hparen := parseExpression_paren hw (by omega) ho
    exact ⟨_, by simpa [exprAt] using hparen⟩
  · exact Hangs.enter rfl herror

theorem exprSpec_quote (hw : Blank ws) (htext : pre ++ (ws ++ '\'' :: t) = text)
    (hl : text.length < 2 ^ 31) (h : ExprSpec F text (pre ++ (ws ++ ['\''])) t) :
    ExprSpec F text pre (ws ++ '\'' :: t) := by
  obtain ⟨hreads, hhangs⟩ := enter_quote (F := F) hw htext hl
  have hfirst : firstCloses (ws ++ '\'' :: t) = firstCloses t := by
    simp [firstCloses_blank hw, firstCloses]
  have hclose : ∀ depth, closeFrom .quoted depth (ws ++ '\'' :: t) = closeFrom .quoted depth t := by
    intro depth
    rw [closeFrom_blank (by simp) hw, closeFrom_quote (by simp)]
  have happend : ws ++ '\'' :: t = (ws ++ ['\'']) ++ t := by simp
  constructor
  case closes =>
    intro hcloses
    obtain ⟨u, rest, rfl, _, hdepth, hready, hr⟩ := h.closes (hfirst ▸ hcloses)
    refine ⟨(ws ++ ['\'']) ++ u, rest, by simp, by simp, ?_, ?_, ?_⟩
    · exact fun depth => (hclose depth).trans (hdepth depth)
    · rwa [← List.append_assoc]
    · rw [List.length_append]
      exact hreads u.length (by simp) hr
  case leftOpen =>
    intro hopen
    obtain ⟨hdepth, hend⟩ := h.leftOpen (hfirst ▸ hopen)
    refine ⟨fun depth => (hclose depth).trans (hdepth depth), ?_⟩
    rw [happend]
    exact hend.enter hreads hhangs

theorem exprSpec_paren (hw : Blank ws) (htext : pre ++ (ws ++ '(' :: t) = text)
    (hl : text.length < 2 ^ 31) (h : ListSpec F text (pre ++ (ws ++ ['('])) t) :
    ExprSpec F text pre (ws ++ '(' :: t) := by
  obtain ⟨hreads, hhangs⟩ := enter_paren (F := F) hw htext hl
  have hfirst : firstCloses (ws ++ '(' :: t) = (closeFrom .between 0 t).isSome := by
    simp [firstCloses_blank hw, firstCloses, isWhiteSpace]
  have hclose : ∀ depth, closeFrom .quoted depth (ws ++ '(' :: t) =
      (closeFrom .between 0 t).bind (closeFrom .between depth) := by
    intro depth
    have hadd := closeFrom_add .between 0 depth t
    rw [Nat.zero_add] at hadd
    rw [closeFrom_blank (by simp) hw, closeFrom_open, hadd]
  have happend : ws ++ '(' :: t = (ws ++ ['(']) ++ t := by simp
  constructor
  case closes =>
    intro hcloses
    obtain ⟨rest, hrest⟩ := Option.isSome_iff_exists.1 (hfirst ▸ hcloses)
    obtain ⟨u, rfl, hlast, hr⟩ := h.closes rest hrest
    refine ⟨(ws ++ ['(']) ++ u, rest, by simp, by simp, ?_, ?_, ?_⟩
    · intro depth
      rw [hclose depth, hrest]
      rfl
    · refine ready_of_getLast? ?_
      rw [← List.append_assoc, List.getLast?_append, hlast]
      rfl
    · rw [List.length_append]
      exact hreads u.length (by simp) hr
  case leftOpen =>
    intro hopen
    have hnone : closeFrom .between 0 t = none := by simpa [hfirst] using hopen
    refine ⟨fun depth => by rw [hclose depth, hnone]; rfl, ?_⟩
    rw [happend]
    exact (h.leftOpen hnone).enter hreads hhangs

theorem exprSpec_close (hw : Blank ws) (htext : pre ++ (ws ++ ')' :: t) = text)
    (hl : text.length < 2 ^ 31) : ExprSpec F text pre (ws ++ ')' :: t) := by
  have hfirst : firstCloses (ws ++ ')' :: t) = true := by
    simp [firstCloses_blank hw, firstCloses, isWhiteSpace]
  constructor
  case closes =>
    intro _
    refine ⟨ws ++ [')'], t, by simp, by simp, ?_, ready_of_getLast? (by simp), ?_⟩
    · intro depth
      rw [closeFrom_blank (by simp) hw, closeFrom_close_quoted]
    · have hlen : ws.length + 1 < 2 ^ 31 := by
        simp [← htext] at hl
        omega
      refine .of_succ rfl fun fuel => ⟨.null, ?_⟩
      rw [← htext]
      simpa [exprAt] using parseExpression_close hw hlen
  case leftOpen => simp [hfirst]

theorem exprSpec_token {name : Text} (hw : Blank ws) (hn : IsToken name) (hr : Delimited rest)
    (htext : pre ++ (ws ++ (name ++ rest)) = text) (hl : text.length < 2 ^ 31) :
    ExprSpec F text pre (ws ++ (name ++ rest)) := by
  have hfirst : firstCloses (ws ++ (name ++ rest)) = true := by
    obtain ⟨c, s, rfl, hc, _, hquote, hopen⟩ := hn.head
    simp [firstCloses_blank hw, firstCloses, hc, hquote, hopen]
  constructor
  case closes =>
    intro _
    refine ⟨ws ++ name, rest, by simp, fun _ => by simp [hn.1], ?_, ?_, ?_⟩
    · intro depth
      rw [closeFrom_blank (by simp) hw, closeFrom_token hn hr]
    · intro hrest hlast
      obtain ⟨name, c, rfl⟩ := (List.eq_nil_or_concat name).resolve_left hn.1
      have hc := hn.2.2 c (by simp)
      simp only [isAtomChar, Bool.not_eq_true', Bool.or_eq_false_iff, beq_eq_false_iff_ne] at hc
      have hassoc : pre ++ (ws ++ (name.concat c ++ rest)) =
          pre ++ (ws ++ name) ++ [c] ++ rest := by simp
      rw [← htext, hassoc, hrest.lastSolid, lastSolid_concat hc.1.1] at hlast
      exact absurd (Option.some.inj hlast) hc.2
    · refine .of_succ rfl fun fuel => ⟨(parseAtom name).1, ?_⟩
      rw [← htext, List.length_append]
      refine parseExpression_token hw hn hr ?_
      simp [← htext] at hl
      simp
      omega
  case leftOpen => simp [hfirst]

theorem exprSpec_blank (hs : Blank s) (htext : pre ++ s = text)
    (hlast : lastSolid text ≠ some ')') : ExprSpec F text pre s := by
  have hfirst : firstCloses s = true := by
    simpa [firstCloses] using firstCloses_blank (s := []) hs
  constructor
  case closes =>
    intro _
    refine ⟨s, [], by simp, id, ?_, fun _ h => absurd h hlast, ?_⟩
    · intro depth
      rw [closeFrom_of_blank (by simp) hs, closeFrom]
    · refine .of_succ rfl fun fuel => ⟨.null, ?_⟩
      rw [← htext]
      exact parseExpression_blank hs
  case leftOpen => simp [hfirst]

theorem listSpec_close (hw : Blank ws) (htext : pre ++ (ws ++ ')' :: t) = text)
    (hl : text.length < 2 ^ 31) : ListSpec F text pre (ws ++ ')' :: t) := by
  have hcloses : closeFrom .between 0 (ws ++ ')' :: t) = some t := by
    rw [closeFrom_blank (by simp) hw, closeFrom_close_zero (by simp)]
  have hlen : ws.length + 1 < 2 ^ 31 := by
    simp [← htext] at hl
    omega
  constructor
  case closes =>
    intro rest hrest
    obtain rfl : t = rest := Option.some.inj (hcloses ▸ hrest)
    refine ⟨ws ++ [')'], by simp, by simp, ?_⟩
    refine .of_succ rfl fun fuel => ⟨.null, ?_⟩
    rw [← htext]
    simpa [listAt] using parseList_nil pre t fuel hw hlen
  case leftOpen =>
    intro hnone
    rw [hcloses] at hnone
    cases hnone

theorem listSpec_blank (hs : Blank s) (htext : pre ++ s = text) (hl : text.length < 2 ^ 31)
    (hpre : pre ≠ []) (hready : Ready text pre s) : ListSpec F text pre s := by
  have hnone : closeFrom .between 0 s = none := by
    exact closeFrom_of_blank (by simp) hs
  constructor
  case closes =>
    intro rest hrest
    rw [hnone] at hrest
    cases hrest
  case leftOpen =>
    intro _
    obtain ⟨pre, c, rfl⟩ := (List.eq_nil_or_concat pre).resolve_left hpre
    have hlast := hready hs
    simp only [List.concat_eq_append, List.append_assoc, List.cons_append, List.nil_append,
      List.getLast?_concat, Option.some.injEq, List.length_append, List.length_singleton]
      at htext hlast ⊢
    unfold LeftOpen
    by_cases hclose : c = ')'
    · subst hclose
      have hsolid : lastSolid text = some ')' := by
        have happend : pre ++ ')' :: s = pre ++ [')'] ++ s := by simp
        rw [← htext, happend, hs.lastSolid, lastSolid_concat (by decide)]
      rw [if_pos hsolid]
      refine ⟨[], s, rfl, hs, by simp, ?_⟩
      rw [← htext]
      exact reads_end hs
    · rw [if_neg fun h => hclose (hlast h)]
      exact Stuck.hangs hl ⟨pre, c, s, htext.symm, hs, hclose, rfl⟩

/-- An element and the rest of the list. -/
theorem enter_element (hw : Blank ws) (hc : isWhiteSpace c = false) (hclose : c ≠ ')')
    (happend : c :: t = u ++ rest) (htext : pre ++ (ws ++ c :: t) = text)
    (hl : text.length < 2 ^ 31) (he : ReadsCount (exprAt F text (pre ++ ws).length) u.length) :
    (∀ n ≤ rest.length, ReadsCount (listAt F text (pre ++ (ws ++ u)).length) n →
      ReadsCount (listAt F text pre.length) ((ws ++ u).length + n)) ∧
    (Hangs (listAt F text (pre ++ (ws ++ u)).length) → Hangs (listAt F text pre.length)) := by
  have hlen : ws.length + u.length + rest.length < 2 ^ 31 := by
    rw [← htext, happend] at hl
    simp at hl
    omega
  have helement : Element text pre.length (ws ++ c :: t) (pre ++ ws).length :=
    htext ▸ Element.of_element hw (by omega) hc hclose
  have hplace : (pre ++ (ws ++ u)).length = (pre ++ ws).length + u.length := by
    simp [Nat.add_assoc]
  have hdistance : distanceToNextElement (ws ++ c :: t) = ws.length :=
    (call_start pre t c hw hc (by omega)).2.1
  rw [hplace]
  constructor
  · intro n hn hr
    have hreads := helement.reads he hr
    rw [hdistance] at hreads
    have hsize : toSize ((ws.length : Int) + u.length + n) = (ws ++ u).length + n := by
      rw [List.length_append]
      exact_mod_cast toSize_add (m := ws.length + u.length) (n := n) (by omega)
    rwa [hsize] at hreads
  · exact helement.rest_hangs he

theorem listSpec_cons (hw : Blank ws) (hc : isWhiteSpace c = false) (hclose : c ≠ ')')
    (htext : pre ++ (ws ++ c :: t) = text) (hl : text.length < 2 ^ 31)
    (hexpr : ExprSpec F text (pre ++ ws) (c :: t))
    (hlist : ∀ u rest, c :: t = u ++ rest → u ≠ [] → Ready text (pre ++ (ws ++ u)) rest →
      ListSpec F text (pre ++ (ws ++ u)) rest) : ListSpec F text pre (ws ++ c :: t) := by
  have hquoted : closeFrom .between 0 (ws ++ c :: t) = closeFrom .quoted 0 (c :: t) := by
    rw [closeFrom_blank (by simp) hw, closeFrom_element hc hclose]
  by_cases hfirst : firstCloses (c :: t) = true
  · obtain ⟨u, rest, happend, hu, hdepth, hready, hr⟩ := hexpr.closes hfirst
    rw [List.append_assoc] at hready
    obtain ⟨hreads, hhangs⟩ := enter_element hw hc hclose happend htext hl hr
    have hrest := hlist u rest happend (hu (by simp)) hready
    have hsplit : ws ++ c :: t = (ws ++ u) ++ rest := by rw [happend, List.append_assoc]
    have hbetween := hquoted.trans (hdepth 0)
    constructor
    case closes =>
      intro rest' hrest'
      obtain ⟨v, rfl, hlast, hv⟩ := hrest.closes rest' (hbetween ▸ hrest')
      refine ⟨(ws ++ u) ++ v, by simp [hsplit], ?_, ?_⟩
      · rw [List.getLast?_append, hlast]
        rfl
      · rw [List.length_append]
        exact hreads v.length (by simp) hv
    case leftOpen =>
      intro hnone
      rw [hsplit]
      exact (hrest.leftOpen (hbetween ▸ hnone)).enter hreads hhangs
  · have hopen : firstCloses (c :: t) = false := by simpa using hfirst
    obtain ⟨hdepth, hend⟩ := hexpr.leftOpen hopen
    have hnone := hquoted.trans (hdepth 0)
    constructor
    case closes =>
      intro rest hrest
      rw [hnone] at hrest
      cases hrest
    case leftOpen =>
      intro _
      unfold LeftOpen at hend ⊢
      by_cases hlast : lastSolid text = some ')'
      · rw [if_pos hlast] at hend ⊢
        -- the list inside has ended at the end of the text, and this one ends there again
        obtain ⟨u, rest, happend, hb, hu, hr⟩ := hend
        rw [List.append_assoc] at hu
        have hne : u ≠ [] := by
          rintro rfl
          obtain rfl : c :: t = rest := happend
          have hwhite : isWhiteSpace c = true := hb c (by simp)
          simp [hc] at hwhite
        have hrest := hlist u rest happend hne (ready_of_getLast? hu)
        obtain ⟨hreads, _⟩ := enter_element hw hc hclose happend htext hl hr
        have hblank : closeFrom .between 0 rest = none := by
          exact closeFrom_of_blank (by simp) hb
        have hagain := hrest.leftOpen hblank
        rw [LeftOpen, if_pos hlast] at hagain
        obtain ⟨v, ws', rfl, hw', hv, hr'⟩ := hagain
        refine ⟨(ws ++ u) ++ v, ws', by simp [happend], hw', by simpa using hv, ?_⟩
        rw [List.length_append]
        exact hreads v.length (by simp) hr'
      · rw [if_neg hlast] at hend ⊢
        have hlen : ws.length < 2 ^ 31 := by
          simp [← htext] at hl
          omega
        have helement : Element text pre.length (ws ++ c :: t) (pre ++ ws).length :=
          htext ▸ Element.of_element hw hlen hc hclose
        exact helement.hangs hend

theorem lastSolid_of_blank (hs : Blank s) : lastSolid s = none := by
  simpa [lastSolid] using hs.lastSolid (t := [])

theorem exprSpec_of_shorter {k : Nat} (hl : text.length < 2 ^ 31)
    (hexpr : ∀ pre s, s.length < k → pre ++ s = text →
      (Blank s → lastSolid text ≠ some ')') → ExprSpec F text pre s)
    (hlist : ∀ pre s, s.length < k → pre ++ s = text → pre ≠ [] → Ready text pre s →
      ListSpec F text pre s)
    (hk : s.length ≤ k) (htext : pre ++ s = text)
    (hlast : Blank s → lastSolid text ≠ some ')') : ExprSpec F text pre s := by
  rcases blank_or_element s with hs | ⟨ws, c, t, rfl, hw, hc⟩
  · exact exprSpec_blank hs htext (hlast hs)
  have hshort : t.length < k := by
    simp at hk
    omega
  have hafter : pre ++ (ws ++ [c]) ++ t = text := by simp [← htext]
  have hnot : c ≠ ')' → Blank t → lastSolid text ≠ some ')' := by
    intro hclose ht hlast
    have hassoc : pre ++ (ws ++ c :: t) = pre ++ ws ++ [c] ++ t := by simp
    rw [← htext, hassoc, ht.lastSolid, lastSolid_concat hc] at hlast
    exact hclose (Option.some.inj hlast)
  by_cases hclose : c = ')'
  · subst hclose
    exact exprSpec_close hw htext hl
  by_cases hquote : c = '\''
  · subst hquote
    exact exprSpec_quote hw htext hl (hexpr _ _ hshort hafter (hnot hclose))
  by_cases hopen : c = '('
  · subst hopen
    have hready : Ready text (pre ++ (ws ++ ['('])) t := fun ht h => absurd h (hnot hclose ht)
    exact exprSpec_paren hw htext hl (hlist _ _ hshort hafter (by simp) hready)
  · have hatom : isAtomChar c = true := by simp [isAtomChar, hc, hopen, hclose]
    obtain ⟨name, rest, hsplit, hn, hr⟩ := exists_token (s := t) hatom hquote
    rw [hsplit] at htext ⊢
    exact exprSpec_token hw hn hr htext hl

theorem listSpec_of_shorter {k : Nat} (hl : text.length < 2 ^ 31)
    (hexpr : ∀ pre s, s.length ≤ k → pre ++ s = text →
      (Blank s → lastSolid text ≠ some ')') → ExprSpec F text pre s)
    (hlist : ∀ pre s, s.length < k → pre ++ s = text → pre ≠ [] → Ready text pre s →
      ListSpec F text pre s)
    (hk : s.length ≤ k) (htext : pre ++ s = text) (hpre : pre ≠ [])
    (hready : Ready text pre s) : ListSpec F text pre s := by
  rcases blank_or_element s with hs | ⟨ws, c, t, rfl, hw, hc⟩
  · exact listSpec_blank hs htext hl hpre hready
  by_cases hclose : c = ')'
  · subst hclose
    exact listSpec_close hw htext hl
  · have helement : ExprSpec F text (pre ++ ws) (c :: t) := by
      apply hexpr
      · simp at hk ⊢
        omega
      · simpa using htext
      · intro hb
        have hwhite : isWhiteSpace c = true := hb c (by simp)
        simp [hc] at hwhite
    refine listSpec_cons hw hc hclose htext hl helement fun u rest happend hu hrest => ?_
    apply hlist _ _ _ _ (by simp [hpre]) hrest
    · have hpos := List.length_pos_iff.2 hu
      have hlen := congrArg List.length happend
      simp at hk hlen
      omega
    · rw [← htext, happend]
      simp

theorem parser_spec (hl : text.length < 2 ^ 31) (k : Nat) :
    (∀ pre s, s.length ≤ k → pre ++ s = text → (Blank s → lastSolid text ≠ some ')') →
      ExprSpec F text pre s) ∧
    (∀ pre s, s.length ≤ k → pre ++ s = text → pre ≠ [] → Ready text pre s →
      ListSpec F text pre s) := by
  induction k using Nat.strong_induction_on with
  | _ k ih =>
    have hexpr : ∀ pre s, s.length ≤ k → pre ++ s = text →
        (Blank s → lastSolid text ≠ some ')') → ExprSpec F text pre s := by
      intro pre s hk htext hlast
      refine exprSpec_of_shorter hl ?_ ?_ hk htext hlast
      · exact fun pre s hs => (ih s.length hs).1 pre s le_rfl
      · exact fun pre s hs => (ih s.length hs).2 pre s le_rfl
    refine ⟨hexpr, fun pre s hk htext hpre hready => ?_⟩
    refine listSpec_of_shorter hl hexpr ?_ hk htext hpre hready
    exact fun pre s hs => (ih s.length hs).2 pre s le_rfl

theorem ReadsCount.not_hangs {call : Nat → Except Fault (α × Nat)} {n : Nat}
    (h : ReadsCount call n) : ∃ fuel o, call fuel = .ok (o, n) := by
  obtain ⟨bound, h⟩ := h
  rcases h bound with ⟨o, ho⟩ | ⟨hlt, _⟩
  · exact ⟨bound, o, ho⟩
  · exact absurd hlt (Nat.lt_irrefl _)

theorem ReadsCount.in_bounds {call : Nat → Except Fault (α × Nat)} {n : Nat} (h : ReadsCount call n)
    (fuel : Nat) : call fuel ≠ .error .outOfBounds := by
  obtain ⟨bound, h⟩ := h
  rcases h fuel with ⟨o, ho⟩ | ⟨_, he⟩
  · simp [ho]
  · simp [he]

end specs

section results
variable {text : Text}

theorem parse_spec (hl : text.length < 2 ^ 31) : ExprSpec F text [] text :=
  (parser_spec hl _).1 [] text le_rfl rfl fun hs => by simp [lastSolid_of_blank hs]

theorem parse_reads (hl : text.length < 2 ^ 31)
    (h : lastSolid text = some ')' ∨ firstCloses text = true) :
    ∃ n ≤ text.length, ReadsCount (exprAt F text 0) n := by
  have hlength : ∀ {u rest : Text}, text = u ++ rest → u.length ≤ text.length := by
    intro u rest hsplit
    simp [hsplit]
  by_cases hfirst : firstCloses text = true
  · obtain ⟨u, rest, hsplit, _, _, _, hr⟩ := (parse_spec hl : ExprSpec F text [] text).closes hfirst
    exact ⟨u.length, hlength hsplit, hr⟩
  · have hend := ((parse_spec hl : ExprSpec F text [] text).leftOpen (by simpa using hfirst)).2
    rw [LeftOpen, if_pos (h.resolve_right hfirst)] at hend
    obtain ⟨u, ws, hsplit, _, _, hr⟩ := hend
    exact ⟨u.length, hlength hsplit, hr⟩

theorem parse_hangs (hl : text.length < 2 ^ 31) (hlast : lastSolid text ≠ some ')')
    (hfirst : firstCloses text = false) : Hangs (exprAt F text 0) := by
  have hend := ((parse_spec hl : ExprSpec F text [] text).leftOpen hfirst).2
  rwa [LeftOpen, if_neg hlast] at hend

theorem parse_count_le {fuel n : Nat} {o : Obj F} (hl : text.length < 2 ^ 31)
    (h : parseExpression text fuel 0 = .ok (o, n)) : n ≤ text.length := by
  by_cases hreturns : lastSolid text = some ')' ∨ firstCloses text = true
  · obtain ⟨m, hm, bound, hr⟩ : ∃ m ≤ text.length, ReadsCount (exprAt F text 0) m :=
      parse_reads hl hreturns
    have hcall : exprAt F text 0 fuel = .ok (o, n) := h
    rcases hr fuel with ⟨o', ho⟩ | ⟨_, he⟩
    · rw [hcall] at ho
      cases ho
      exact hm
    · rw [hcall] at he
      cases he
  · have hhang : exprAt F text 0 fuel = .error .outOfFuel :=
      parse_hangs hl (fun hlast => hreturns (Or.inl hlast))
        (by simpa using fun hf => hreturns (Or.inr hf)) fuel
    rw [exprAt, Nat.cast_zero, h] at hhang
    cases hhang

/-- The parser never looks outside its text, and it returns, with a count that is within the
text, if and only if the text ends in a closing parenthesis or its first expression is not a
list that is left open. -/
theorem parse_returns_iff (hl : text.length < 2 ^ 31) :
    (∀ fuel, (parseExpression text fuel 0 : Except Fault (Obj F × Nat)) ≠ .error .outOfBounds) ∧
    ((∃ fuel o n, (parseExpression text fuel 0 : Except Fault (Obj F × Nat)) = .ok (o, n) ∧
      n ≤ text.length) ↔ lastSolid text = some ')' ∨ firstCloses text = true) := by
  by_cases h : lastSolid text = some ')' ∨ firstCloses text = true
  · obtain ⟨n, hn, hr⟩ : ∃ n ≤ text.length, ReadsCount (exprAt F text 0) n := parse_reads hl h
    obtain ⟨fuel, o, ho⟩ := hr.not_hangs
    exact ⟨hr.in_bounds, iff_of_true ⟨fuel, o, n, ho, hn⟩ h⟩
  · have hhang : ∀ fuel, (parseExpression text fuel 0 : Except Fault (Obj F × Nat)) =
        .error .outOfFuel :=
      parse_hangs hl (fun hlast => h (Or.inl hlast)) (by simpa using fun hf => h (Or.inr hf))
    constructor
    · intro fuel
      simp [hhang]
    · refine iff_of_false ?_ h
      rintro ⟨fuel, o, n, ho, _⟩
      simp [hhang] at ho

theorem parse_returns_iff_nested :
    (∀ fuel, (parseExpression "(')a)".toList fuel 0 : Except Fault (Obj NoFloat × Nat)) ≠
      .error .outOfBounds) ∧
    ((∃ fuel o n, (parseExpression "(')a)".toList fuel 0 : Except Fault (Obj NoFloat × Nat)) =
      .ok (o, n) ∧ n ≤ "(')a)".toList.length) ↔
        lastSolid "(')a)".toList = some ')' ∨ firstCloses "(')a)".toList = true) :=
  parse_returns_iff (by decide)

/-- The parenthesis goes to the quote character, and the list is never closed. -/
theorem parse_never_returns : isValid "(')a".toList = true ∧ isBalanced "(')a".toList = true ∧
    ∀ fuel, (parseExpression "(')a".toList fuel 0 : Except Fault (Obj NoFloat × Nat)) =
      .error .outOfFuel :=
  ⟨by decide, by decide, parse_hangs (by decide) (by decide) (by decide)⟩

end results

end Lisp
