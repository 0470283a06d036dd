import Lisp.Grammar

/-! Completeness of the parser on the grammar. `parse_expression` and `parse_list` meet
only in the counts they return, so both are followed through one text at once. -/
namespace Lisp
variable {F : Type} [CFloat F]

def Blank (s : Text) : Prop :=
  ∀ c ∈ s, isWhiteSpace c = true

theorem AllWhite.blank {ws : Text} (h : AllWhite ws) : Blank ws := by
  intro c hc
  rcases h c hc with rfl | rfl | rfl | rfl <;> decide

theorem takeWhile_append_cons {p : Char → Bool} {xs s : Text} {c : Char}
    (hx : ∀ x ∈ xs, p x = true) (hc : p c = false) :
    (xs ++ c :: s).takeWhile p = xs := by
  rw [List.takeWhile_append_of_pos hx, List.takeWhile_cons_of_neg (by simp [hc])]
  simp

theorem suffixAt_append (pre s : Text) : suffixAt (pre ++ s) pre.length = .ok s := by
  simp [suffixAt]

theorem charAt_append (pre s : Text) (c : Char) :
    charAt (pre ++ c :: s) pre.length = .ok c := by
  simp only [charAt, suffixAt_append]
  rfl

theorem distance_append {ws s : Text} {c : Char} (hw : Blank ws)
    (hc : isWhiteSpace c = false) (hl : ws.length < 2 ^ 31) :
    distanceToNextElement (ws ++ c :: s) = ws.length := by
  simp [distanceToNextElement, takeWhile_append_cons (hw) hc,
    toInt_natCast hl]

/-- On a text of at most `INT_MAX` characters the conversion in `atom_size` does nothing. -/
theorem atomSize_eq {e : Text} (h : e.length < 2 ^ 31) :
    atomSize e = (e.takeWhile isAtomChar).length := by
  simp [atomSize, toInt_natCast h]

theorem takeWhile_token {name rest : Text} (hn : IsToken name) (hr : Delimited rest) :
    (name ++ rest).takeWhile isAtomChar = name := by
  cases rest with
  | nil =>
    rw [List.takeWhile_append_of_pos hn.2.2]
    simp
  | cons c s => exact takeWhile_append_cons hn.2.2 (hr c rfl)

theorem atomSize_token {name rest : Text} (hn : IsToken name) (hr : Delimited rest)
    (hl : (name ++ rest).length < 2 ^ 31) : atomSize (name ++ rest) = name.length := by
  rw [atomSize_eq hl, takeWhile_token hn hr]

/-- `parse_atom` reads a token and nothing else, whatever follows it. -/
theorem parseAtom_token {name rest : Text} (hn : IsToken name) (hr : Delimited rest)
    (hl : (name ++ rest).length < 2 ^ 31) :
    (parseAtom (name ++ rest) : Obj F × Nat) = ((parseAtom name).1, name.length) := by
  have hself : atomSize name = name.length := by
    have := atomSize_token (show IsToken name from hn) delimited_nil
      (by simp at hl ⊢; omega)
    simpa using this
  simp [parseAtom, atomSize_token hn hr hl, hself, containsDot]

theorem parseAtom_cases (e : Text) : (∃ z, (parseAtom (F := F) e).1 = .int z) ∨
    (∃ y, (parseAtom (F := F) e).1 = .float y) ∨ ∃ z, (parseAtom (F := F) e).1 = .atom z := by
  simp only [parseAtom]
  by_cases hi : ((strtol (List.take (atomSize e) e)).2 != 0 && !containsDot e (atomSize e)) = true
  · rw [if_pos hi]
    exact Or.inl ⟨_, rfl⟩
  · rw [if_neg hi]
    by_cases hf : strtofConverts (List.take (atomSize e) e) = true
    · rw [if_pos hf]
      exact Or.inr (Or.inl ⟨_, rfl⟩)
    · rw [if_neg hf]
      exact Or.inr (Or.inr ⟨_, rfl⟩)

/-- A word that is no number. -/
theorem parseAtom_word {w : Text} (ha : w.take (atomSize w) = w) (hi : (strtol w).2 = 0)
    (hf : strtofConverts w = false) : (parseAtom w : Obj F × Nat).1 = .atom w := by
  simp only [parseAtom, ha, hi, hf, bne_self_eq_false, Bool.false_and, Bool.false_eq_true, if_false]

theorem parseAtom_quote : (parseAtom "quote".toList : Obj F × Nat).1 = .atom "quote".toList :=
  parseAtom_word (by decide) (by decide) (by decide)

theorem IsToken.head {name : Text} (h : IsToken name) :
    ∃ c s, name = c :: s ∧ isWhiteSpace c = false ∧ c ≠ ')' ∧ c ≠ '\'' ∧ c ≠ '(' := by
  obtain ⟨hne, hq, hc⟩ := h
  cases name with
  | nil => exact (hne rfl).elim
  | cons c s =>
    have := hc c (by simp)
    simp only [isAtomChar, Bool.not_eq_true', Bool.or_eq_false_iff, beq_eq_false_iff_ne] at this
    exact ⟨c, s, rfl, this.1.1, this.2, by simpa using hq, this.1.2⟩

/-- The state of a call whose text begins with whitespace and then `c`. -/
theorem call_start (pre s : Text) (c : Char) {ws : Text} (hw : Blank ws)
    (hc : isWhiteSpace c = false) (hl : ws.length < 2 ^ 31) :
    suffixAt (pre ++ (ws ++ c :: s)) pre.length = .ok (ws ++ c :: s) ∧
    distanceToNextElement (ws ++ c :: s) = ws.length ∧
    suffixAt (pre ++ (ws ++ c :: s)) (pre.length + ws.length) = .ok (c :: s) ∧
    charAt (pre ++ (ws ++ c :: s)) (pre.length + ws.length) = .ok c := by
  refine ⟨suffixAt_append _ _, distance_append hw hc hl, ?_, ?_⟩
  · simpa using suffixAt_append (pre ++ ws) (c :: s)
  · simpa using charAt_append (pre ++ ws) s c

theorem toSize_add {m n : Nat} (h : m + n < 2 ^ 31) : toSize ((m : Int) + n) = m + n := by
  exact_mod_cast toSize_natCast (n := m + n) (by omega)

theorem parseExpression_token {pre ws name rest : Text} {fuel : Nat} (hw : Blank ws)
    (hn : IsToken name) (hr : Delimited rest) (hl : (ws ++ name ++ rest).length < 2 ^ 31) :
    (parseExpression (pre ++ (ws ++ (name ++ rest))) (fuel + 1) pre.length :
      Except Fault (Obj F × Nat)) = .ok ((parseAtom name).1, ws.length + name.length) := by
  have hatom := parseAtom_token (F := F) hn hr (by simp at hl ⊢; omega)
  obtain ⟨c, s, rfl, hc, hclose, hquote, hopen⟩ := hn.head
  simp only [List.length_append, List.length_cons] at hl
  obtain ⟨h1, h2, h3, h4⟩ := call_start pre (s ++ rest) c hw hc (by omega)
  rw [List.cons_append] at hatom ⊢
  have hne : (ws.length : Int) ≠ -1 := by omega
  have hsum := toSize_add (m := ws.length) (n := (c :: s).length) (by simp; omega)
  simp [parseExpression, h1, h2, h3, h4, hne, hclose, hquote, hopen, hatom, Bind.bind, Except.bind,
    pure, Except.pure] at hsum ⊢
  exact hsum

theorem parseExpression_quote {pre ws t : Text} {fuel size : Nat} {o : Obj F}
    (hw : Blank ws) (hl : ws.length + 1 + size < 2 ^ 31)
    (h : parseExpression (pre ++ ws ++ ['\''] ++ t) fuel (pre ++ ws ++ ['\'']).length =
      .ok (o, size)) :
    parseExpression (pre ++ (ws ++ '\'' :: t)) (fuel + 1) pre.length =
      .ok (.list (.atom "quote".toList) (.list o .null), ws.length + 1 + size) := by
  obtain ⟨h1, h2, h3, h4⟩ := call_start pre t '\'' hw (by decide) (by omega)
  have hne : (ws.length : Int) ≠ -1 := by omega
  have hsize := toSize_add (m := size) (n := 1) (by omega)
  have hsum := toSize_add (m := ws.length) (n := size + 1) (by omega)
  have hpos : (pre.length : Int) + ws.length + 1 = ((pre ++ ws ++ ['\'']).length : Nat) := by
    simp
    omega
  have htext : pre ++ (ws ++ '\'' :: t) = pre ++ ws ++ ['\''] ++ t := by simp
  rw [htext] at h1 h4 ⊢
  simp only [parseExpression, h1, h2, h4, hpos, h, hne, quoteList, parseAtom_quote, Bind.bind,
    Except.bind, pure, Except.pure, reduceIte, Char.reduceEq]
  simp only [Nat.cast_one] at hsize
  rw [hsize, hsum]
  simp [Nat.add_comm, Nat.add_left_comm]

theorem parseExpression_paren {pre ws t : Text} {fuel size : Nat} {o : Obj F}
    (hw : Blank ws) (hl : ws.length + 1 + size < 2 ^ 31)
    (h : parseList (pre ++ ws ++ ['('] ++ t) fuel (pre ++ ws ++ ['(']).length = .ok (o, size)) :
    parseExpression (pre ++ (ws ++ '(' :: t)) (fuel + 1) pre.length =
      .ok (if o.isNull then .nil else o, ws.length + 1 + size) := by
  obtain ⟨h1, h2, h3, h4⟩ := call_start pre t '(' hw (by decide) (by omega)
  have hne : (ws.length : Int) ≠ -1 := by omega
  have hsize := toSize_add (m := size) (n := 1) (by omega)
  have hsum := toSize_add (m := ws.length) (n := size + 1) (by omega)
  have hpos : (pre.length : Int) + ws.length + 1 = ((pre ++ ws ++ ['(']).length : Nat) := by
    simp
    omega
  have htext : pre ++ (ws ++ '(' :: t) = pre ++ ws ++ ['('] ++ t := by simp
  rw [htext] at h1 h4 ⊢
  simp only [parseExpression, h1, h2, h4, hpos, h, hne, Bind.bind, Except.bind, pure, Except.pure,
    reduceIte, Char.reduceEq]
  simp only [Nat.cast_one] at hsize
  rw [hsize, hsum, Nat.add_assoc, Nat.add_comm 1 size]

theorem parseList_nil (pre t : Text) (fuel : Nat) {ws : Text} (hw : Blank ws)
    (hl : ws.length + 1 < 2 ^ 31) :
    (parseList (pre ++ (ws ++ ')' :: t)) (fuel + 1) pre.length : Except Fault (Obj F × Nat)) =
      .ok (.null, ws.length + 1) := by
  obtain ⟨h1, h2, h3, h4⟩ := call_start pre t ')' hw (by decide) (by omega)
  have hsum := toSize_add (m := ws.length) (n := 1) hl
  have hsize : toSize ws.length = ws.length := toSize_natCast (by omega)
  simp only [Nat.cast_one] at hsum
  simp only [parseList, h1, h2, h4, Bind.bind, Except.bind, pure, Except.pure, reduceIte, hsize,
    hsum]

theorem parseList_cons {pre ws s t u : Text} {c : Char} {fuel m n : Nat} {o rest : Obj F}
    (hw : Blank ws) (hc : isWhiteSpace c = false) (hclose : c ≠ ')')
    (ht : t = ws ++ c :: s) (hm : ws.length + m = t.length) (hl : t.length + n < 2 ^ 31)
    (he : parseExpression (pre ++ ws ++ (c :: s ++ u)) fuel (pre ++ ws).length = .ok (o, m))
    (hr : parseList (pre ++ t ++ u) fuel (pre ++ t).length = .ok (rest, n)) :
    parseList (pre ++ (t ++ u)) (fuel + 1) pre.length = .ok (.list o rest, t.length + n) := by
  obtain ⟨h1, h2, h3, h4⟩ := call_start pre (s ++ u) c hw hc
    (by subst ht; simp at hl; omega)
  have htext : pre ++ (ws ++ c :: (s ++ u)) = pre ++ (t ++ u) := by simp [ht]
  have htext' : pre ++ ws ++ (c :: s ++ u) = pre ++ (t ++ u) := by simp [ht]
  have htext'' : pre ++ t ++ u = pre ++ (t ++ u) := by simp
  have hpos : (pre.length : Int) + ws.length = ((pre ++ ws).length : Nat) := by simp
  have hpos' : ((pre ++ ws).length : Int) + m = ((pre ++ t).length : Nat) := by
    simp
    omega
  have hsum := toSize_add (m := t.length) (n := n) hl
  have hsum' : (ws.length : Int) + m = t.length := by omega
  rw [htext] at h1
  rw [htext, hpos] at h4
  rw [htext'] at he
  rw [htext''] at hr
  simp only [parseList, h1, h2, h4, hclose, hpos, he, hpos', hr, Bind.bind, Except.bind, pure,
    Except.pure, reduceIte, hsum', hsum]

/-- What `parse_expression` does with the text `s` of an expression behind any whitespace
and before any text that cannot continue it. -/
def ParsesTo (F : Type) [CFloat F] (e : SExpr) (s : Text) : Prop :=
  ∀ (pre ws rest : Text) (fuel : Nat), AllWhite ws → (e.endsInToken = true → Delimited rest) →
    (ws ++ s ++ rest).length < 2 ^ 31 → s.length ≤ fuel →
    (parseExpression (pre ++ (ws ++ (s ++ rest))) fuel pre.length : Except Fault (Obj F × Nat)) =
      .ok (e.toObj, ws.length + s.length)

/-- A layout is whitespace and then a text that starts the expression. -/
def ParsesAfterSpace (F : Type) [CFloat F] (e : SExpr) (t : Text) : Prop :=
  ∃ ws c s, t = ws ++ c :: s ∧ AllWhite ws ∧ isWhiteSpace c = false ∧ c ≠ ')' ∧
    ParsesTo F e (c :: s)

theorem parsesTo_token {name : Text} (hn : IsToken name) : ParsesTo F (.token name) name := by
  intro pre ws rest fuel hw hr hl hf
  obtain ⟨c, s, rfl, _⟩ := hn.head
  cases fuel with
  | zero => simp at hf
  | succ fuel => exact parseExpression_token hw.blank hn (hr rfl) hl

theorem parsesTo_quote {e : SExpr} {t : Text} (h : ParsesAfterSpace F e t) :
    ParsesTo F (.quote e) ('\'' :: t) := by
  intro pre ws rest fuel hw hr hl hf
  obtain ⟨ws', c, s, rfl, hw', hc, hp, he⟩ := h
  cases fuel with
  | zero => simp at hf
  | succ fuel =>
    simp at hl hf
    have hbody := he (pre ++ ws ++ ['\'']) ws' rest fuel hw' hr (by simp; omega) (by simp; omega)
    have hquote := parseExpression_quote hw.blank (by simp; omega) hbody
    simpa [SExpr.toObj, Nat.add_assoc, Nat.add_comm, Nat.add_left_comm] using hquote

/-- What `parse_list` does with the elements of a list and its closing parenthesis. -/
def ElementsParseTo (F : Type) [CFloat F] (es : List SExpr) (u : Text) : Prop :=
  ∀ (pre rest : Text) (fuel : Nat), (u ++ rest).length < 2 ^ 31 → u.length ≤ fuel →
    (parseList (pre ++ (u ++ rest)) fuel pre.length : Except Fault (Obj F × Nat)) =
      .ok (SExpr.elementsToObj es, u.length)

/-- `parse_list` returns `NULL` for an empty list and `parse_expression` makes it a cell. -/
theorem toObj_paren (es : List SExpr) :
    (if (SExpr.elementsToObj es : Obj F).isNull then .nil else SExpr.elementsToObj es) =
      ((SExpr.paren es).toObj : Obj F) := by
  cases es <;> simp [SExpr.elementsToObj, SExpr.toObj, Obj.isNull]

theorem parsesTo_paren {es : List SExpr} {t : Text} (h : ElementsParseTo F es t) :
    ParsesTo F (.paren es) ('(' :: t) := by
  intro pre ws rest fuel hw _ hl hf
  cases fuel with
  | zero => simp at hf
  | succ fuel =>
    simp at hl hf
    have hbody := h (pre ++ ws ++ ['(']) rest fuel (by simp; omega) (by omega)
    have hparen := parseExpression_paren hw.blank (by omega) hbody
    simpa [toObj_paren, Nat.add_assoc, Nat.add_comm, Nat.add_left_comm] using hparen

theorem elementsParseTo_nil {ws : Text} (hw : AllWhite ws) :
    ElementsParseTo F [] (ws ++ [')']) := by
  intro pre rest fuel hl hf
  cases fuel with
  | zero => simp at hf
  | succ fuel =>
    simp at hl
    simpa [SExpr.elementsToObj] using
      parseList_nil (F := F) pre rest fuel hw.blank (by omega)

theorem elementsParseTo_cons {e : SExpr} {es : List SExpr} {t u : Text}
    (he : ParsesAfterSpace F e t) (hs : ElementsParseTo F es u) (hu : 0 < u.length)
    (hd : e.endsInToken = true → Delimited u) : ElementsParseTo F (e :: es) (t ++ u) := by
  intro pre rest fuel hl hf
  obtain ⟨ws, c, s, rfl, hw, hc, hp, he⟩ := he
  cases fuel with
  | zero => simp at hf
  | succ fuel =>
    simp at hl hf
    have hrest : e.endsInToken = true → Delimited (u ++ rest) := by
      intro h d hhead
      obtain ⟨b, v, rfl⟩ := List.exists_cons_of_length_pos hu
      exact hd h d (by simpa using hhead)
    have hexpr := he (pre ++ ws) [] (u ++ rest) fuel allWhite_nil hrest
      (by simp; omega) (by simp; omega)
    have hlist := hs (pre ++ (ws ++ c :: s)) rest fuel (by simp; omega) (by omega)
    have hcons := parseList_cons (s := s) (u := u ++ rest) (m := (c :: s).length) (n := u.length)
      hw.blank hc hp rfl (by simp) (by simp; omega) (by simpa using hexpr) (by simpa using hlist)
    simpa [SExpr.elementsToObj, Nat.add_assoc, Nat.add_comm, Nat.add_left_comm] using hcons

mutual

theorem layout_parses {e : SExpr} {t : Text} : Layout e t → ParsesAfterSpace F e t
  | .token hw hn => by
    obtain ⟨c, s, rfl, hc, hp, _⟩ := hn.head
    exact ⟨_, c, s, rfl, hw, hc, hp, parsesTo_token hn⟩
  | .paren hw h => ⟨_, _, _, rfl, hw, by decide, by decide, parsesTo_paren (elements_parse h)⟩
  | .quote hw h => ⟨_, _, _, rfl, hw, by decide, by decide, parsesTo_quote (layout_parses h)⟩

theorem elements_parse {es : List SExpr} {t : Text} : ElementsLayout es t → ElementsParseTo F es t
  | .nil hw => elementsParseTo_nil hw
  | .cons h hs hd =>
    elementsParseTo_cons (layout_parses h) (elements_parse hs) hs.length_pos hd

end

/-- Every layout of an expression, before any text that does not continue it, is read back
as that expression, and the count is the length of the layout. -/
theorem parseExpression_complete {e : SExpr} {t rest : Text} {fuel : Nat} (h : Layout e t)
    (hr : e.endsInToken = true → Delimited rest) (hl : (t ++ rest).length < 2 ^ 31)
    (hf : t.length ≤ fuel) :
    parseExpression (t ++ rest) fuel 0 = .ok ((e.toObj : Obj F), t.length) := by
  obtain ⟨ws, c, s, rfl, hw, _, _, hp⟩ := layout_parses (F := F) h
  simpa using hp [] ws rest fuel hw hr (by simpa using hl) (by simp at hf; simp; omega)

theorem atomSize_of_overflow {e : Text} (h : toInt e.length ≤ 0) : atomSize e = 0 := by
  simp [atomSize, Int.toNat_of_nonpos h]

theorem layout_a : Layout (.token ['a']) ['a'] :=
  .token allWhite_nil (by simp [IsToken, isAtomChar, isWhiteSpace])

/-- `(a '(b c))`. -/
def nested : SExpr :=
  .paren [.token ['a'], .quote (.paren [.token ['b'], .token ['c']])]

theorem layout_nested : Layout nested "\t( a  '(b\n c) )".toList := by
  have ha : Layout (.token ['a']) ([' '] ++ ['a']) :=
    .token (by simp [AllWhite]) (by simp [IsToken, isAtomChar, isWhiteSpace])
  have hb : Layout (.token ['b']) ([] ++ ['b']) :=
    .token allWhite_nil (by simp [IsToken, isAtomChar, isWhiteSpace])
  have hc : Layout (.token ['c']) (['\n', ' '] ++ ['c']) :=
    .token (by simp [AllWhite]) (by simp [IsToken, isAtomChar, isWhiteSpace])
  have hinner := ElementsLayout.cons hb
    (.cons hc (.nil allWhite_nil) fun _ => by simp [Delimited, isAtomChar])
    fun _ => by simp [Delimited, isAtomChar, isWhiteSpace]
  have hquote : Layout (.quote (.paren [.token ['b'], .token ['c']])) ([' ', ' '] ++ _) :=
    .quote (by simp [AllWhite]) (.paren allWhite_nil hinner)
  have hend : ElementsLayout [] ([' '] ++ [')']) := .nil (by simp [AllWhite])
  have helements := ElementsLayout.cons ha (.cons hquote hend fun h => by cases h)
    fun _ => by simp [Delimited, isAtomChar, isWhiteSpace]
  exact show Layout nested (['\t'] ++ '(' :: _) from .paren (by simp [AllWhite]) helements

theorem parseExpression_complete_nested :
    parseExpression ("\t( a  '(b\n c) )".toList ++ ['d']) 15 0 =
      .ok ((nested.toObj : Obj NoFloat), 15) := by
  have hcount : "\t( a  '(b\n c) )".toList.length = 15 := by decide
  have h := parseExpression_complete (F := NoFloat) layout_nested
    (show _ → Delimited ['d'] from fun h => by cases h) (by decide) hcount.le
  rwa [hcount] at h

theorem parseExpression_of_overflow {rest : Text} (hlen : rest.length = 2 ^ 31) (fuel : Nat) :
    parseExpression ('a' :: rest) fuel 0 ≠
      .ok (((SExpr.token ['a']).toObj : Obj NoFloat), 1) := by
  intro hparse
  cases fuel with
  | zero => simp [parseExpression] at hparse
  | succ fuel =>
    obtain ⟨h1, h2, h3, h4⟩ := call_start [] rest 'a' allWhite_nil.blank
      (by decide) (by simp)
    simp only [List.nil_append, List.length_nil, Nat.cast_zero, add_zero] at h1 h2 h3 h4
    have hsize : atomSize ('a' :: rest) = 0 := by
      apply atomSize_of_overflow
      simp only [List.length_cons, hlen]
      decide
    have hsum : toSize (0 + (0 : Nat)) = 0 := by decide
    have hne : (0 : Int) ≠ -1 := by decide
    simp only [parseExpression, h1, h2, h4, hne, parseAtom, hsize, hsum, add_zero, Bind.bind,
      Except.bind, pure, Except.pure, Char.reduceEq, reduceIte, Except.ok.injEq,
      Prod.mk.injEq] at hparse
    exact absurd hparse.2 Nat.zero_ne_one

/-- `(int) strlen(e)` in `atom_size` is negative on a text of 2^31 + 1 characters, and the
token at its start is read as an empty one. -/
theorem parseExpression_long_text :
    Layout (.token ['a']) ['a'] ∧ Delimited (List.replicate (2 ^ 31) ' ') ∧
    ∀ fuel, parseExpression (['a'] ++ List.replicate (2 ^ 31) ' ') fuel 0 ≠
      .ok (((SExpr.token ['a']).toObj : Obj NoFloat), 1) := by
  refine ⟨layout_a, ?_, parseExpression_of_overflow List.length_replicate⟩
  intro c hc
  rw [(List.mem_replicate.mp (List.mem_of_mem_head? hc)).2]
  decide

end Lisp
