import Lisp.ProgramReading
import Mathlib.Data.List.Nodup

/-! Which expressions of a program file are passed to `eval`. Each text that the reader puts
together gives one expression, and the text left in the buffer at the end of the file is
read once more. -/
namespace Lisp
variable {F : Type} [CFloat F] {σ : Type} {evaluate : σ → Obj F → Option σ} {s : σ}
  {fuel n p : Nat} {file t ws ws' rest : Text} {ls run : List Text} {r r' : Reader} {e : SExpr}

section occurrences

/-- An expression of a file and the part of the file that it is. -/
structure Occurrence where
  expr : SExpr
  start : Nat
  stop : Nat

variable {occs : List Occurrence} {cuts : Bool}

def Occurrence.passed (o : Occurrence) : Passed F := ⟨o.start, o.stop, o.expr.toObj⟩

def Occurrence.span (o : Occurrence) : Nat × Nat := (o.start, o.stop)

def Passed.span (o : Passed F) : Nat × Nat := (o.start, o.stop)

def Solid (t : Text) : Prop := ∃ c s, t = c :: s ∧ isWhiteSpace c = false

/-- The text at an offset of a file is a sequence of expressions separated by whitespace. -/
inductive Contents : Nat → Text → List Occurrence → Prop where
  | nil {p : Nat} {ws : Text} : AllWhite ws → Contents p ws []
  | cons {p : Nat} {ws t rest : Text} {e : SExpr} {occs : List Occurrence} :
      AllWhite ws → Layout e t → Solid t → (e.endsInToken = true → Delimited rest) →
      Contents (p + ws.length + t.length) rest occs →
      Contents p (ws ++ (t ++ rest))
        (⟨e, p + ws.length, p + ws.length + t.length⟩ :: occs)

/-- Each expression has lines of its own, which are read at once. With `cuts`, the quote
characters in front of an expression may also stand on earlier lines. -/
inductive Program (cuts : Bool) : Nat → List Text → List Occurrence → Prop where
  | nil {p : Nat} : Program cuts p [] []
  | blank {p : Nat} {line : Text} {ls : List Text} {occs : List Occurrence} : AllWhite line →
      Program cuts (p + line.length) ls occs → Program cuts p (line :: ls) occs
  | run {p : Nat} {run ls : List Text} {ws t ws' : Text} {e : SExpr} {occs : List Occurrence} :
      AllWhite ws → Layout e t → Solid t → AllWhite ws' →
      run.flatten = ws ++ (t ++ ws') → Group run →
      Program cuts (p + run.flatten.length) ls occs →
      Program cuts p (run ++ ls) (⟨e, p + ws.length, p + ws.length + t.length⟩ :: occs)
  | cut {p start stop : Nat} {ws q line : Text} {ls : List Text} {e : SExpr}
      {occs : List Occurrence} : cuts = true → line = ws ++ '\'' :: q → AllWhite ws →
      (∀ c ∈ q, isWhiteSpace c = true ∨ c = '\'') →
      Program cuts (p + line.length) ls (⟨e, start, stop⟩ :: occs) →
      Program cuts p (line :: ls)
        (⟨SExpr.quote^[line.count '\''] e, p + ws.length, stop⟩ :: occs)

theorem AllWhite.append (hw : AllWhite ws) (hw' : AllWhite ws') : AllWhite (ws ++ ws') := by
  intro c hc
  rcases List.mem_append.1 hc with hc | hc
  · exact hw c hc
  · exact hw' c hc

theorem AllWhite.delimited (hw : AllWhite ws) : Delimited ws := by
  intro c hc
  simp [isAtomChar, hw.blank c (List.mem_of_mem_head? hc)]

/-- Whitespace in front of a layout is part of one. -/
theorem Layout.white (hw : AllWhite ws) (h : Layout e t) : Layout e (ws ++ t) := by
  cases h with
  | token hw' ht =>
    rw [← List.append_assoc]
    exact .token (hw.append hw') ht
  | paren hw' h =>
    rw [← List.append_assoc]
    exact .paren (hw.append hw') h
  | quote hw' h =>
    rw [← List.append_assoc]
    exact .quote (hw.append hw') h

theorem takeWhile_solid (hw : AllWhite ws) (ht : Solid t) :
    (ws ++ (t ++ rest)).takeWhile isWhiteSpace = ws := by
  obtain ⟨c, s, rfl, hc⟩ := ht
  exact takeWhile_append_cons hw.blank hc

theorem Solid.length_pos (ht : Solid t) : 0 < t.length := by
  obtain ⟨c, s, rfl, _⟩ := ht
  simp

theorem isNull_toObj (e : SExpr) : (e.toObj : Obj F).isNull = false := by
  cases e with
  | token name =>
    rw [SExpr.toObj]
    rcases parseAtom_cases (F := F) name with ⟨z, h⟩ | ⟨y, h⟩ | ⟨z, h⟩
    all_goals
      rw [h]
      rfl
  | paren es => cases es <;> rfl
  | quote e => rfl

/-- A text with one expression is read as that expression. -/
theorem parse_layout (hw : AllWhite ws) (h : Layout e t) (hw' : AllWhite ws')
    (hl : (ws ++ (t ++ ws')).length < 2 ^ 31) (hf : (ws ++ (t ++ ws')).length ≤ fuel) :
    parseExpression (ws ++ (t ++ ws')) fuel 0 =
      .ok ((e.toObj : Obj F), ws.length + t.length) := by
  rw [← List.append_assoc] at hl hf ⊢
  rw [← List.length_append]
  refine parseExpression_complete (h.white hw) (fun _ => hw'.delimited) hl ?_
  rw [List.length_append] at hf
  omega

end occurrences

section through
variable {occs : List Occurrence} {cuts : Bool} {q line : Text} {fresh : List (Passed F)}

theorem After.trans {r'' : Reader} (h : After r run r') (h' : After r' ls r'') :
    After r (run ++ ls) r'' := by
  constructor
  case file => rw [h.file, h'.file, List.flatten_append, List.append_assoc]
  case pos =>
    rw [h'.pos, h.pos, List.flatten_append, List.length_append]
    omega
  case buff =>
    rw [h'.buff, h.buff]
    cases ls with
    | nil => rw [List.append_nil, List.getLastD_nil]
    | cons l ls => simp

/-- The run passes `fresh` to `eval` while it reads `ls`, up to the end of the file, and goes on
from there with the reader `r'`. -/
structure Through (evaluate : σ → Obj F → Option σ) (fuel : Nat) (r : Reader) (s : σ)
    (ls : List Text) (fresh : List (Passed F)) (r' : Reader) (s' : σ) : Prop where
  after : After r ls r'
  atEnd : r'.file = []
  log : (interpretProgram evaluate fuel r s).1 =
    fresh ++ (interpretProgram evaluate fuel r' s').1
  stop : (interpretProgram evaluate fuel r s).2 = (interpretProgram evaluate fuel r' s').2

/-- What becomes of the first group of a file: it may give a `NULL` result, and otherwise the
run goes on behind it, with the expression of the group passed to `eval` if it has one. -/
theorem group_cases {o : Obj F} (hg : Group run) (hp : pieces r.file = run ++ ls)
    (hparse : parseExpression run.flatten fuel 0 = .ok (o, n))
    (hnull : (interpretProgram evaluate fuel r s).2 ≠ .nullResult false) :
    ∃ r' s', After r run r' ∧ pieces r'.file = ls ∧
      (interpretProgram evaluate fuel r s).1 =
        (if o.isNull then [] else [passedAt r.pos run.flatten o n]) ++
          (interpretProgram evaluate fuel r' s').1 ∧
      (interpretProgram evaluate fuel r s).2 = (interpretProgram evaluate fuel r' s').2 := by
  obtain ⟨r', hafter, hpieces, hrun⟩ := interpretProgram_group evaluate s hg hp
    hparse
  rw [hrun] at hnull ⊢
  by_cases hisNull : o.isNull = true
  · exact ⟨r', s, hafter, hpieces, by simp [hisNull], by simp [hisNull]⟩
  · cases heval : evaluate s o with
    | none => simp [hisNull, heval] at hnull
    | some s' => exact ⟨r', s', hafter, hpieces, by simp [hisNull], by simp [hisNull]⟩

theorem Through.group {pre : List (Passed F)} {s₁ s' : σ} {r₁ : Reader} (ha : After r run r₁)
    (hlog : (interpretProgram evaluate fuel r s).1 =
      pre ++ (interpretProgram evaluate fuel r₁ s₁).1)
    (hstop : (interpretProgram evaluate fuel r s).2 = (interpretProgram evaluate fuel r₁ s₁).2)
    (h : Through evaluate fuel r₁ s₁ ls fresh r' s') :
    Through evaluate fuel r s (run ++ ls) (pre ++ fresh) r' s' := by
  constructor
  case after => exact ha.trans h.after
  case atEnd => exact h.atEnd
  case log => rw [hlog, h.log, List.append_assoc]
  case stop => rw [hstop, h.stop]

/-- What is passed is read in order, from a part of the file. -/
structure Ordered (lo hi : Nat) (fresh : List (Passed F)) : Prop where
  sorted : fresh.Pairwise fun a b => a.start < b.start
  within : ∀ a ∈ fresh, lo ≤ a.start ∧ a.start < hi

omit [CFloat F] in
theorem Ordered.mono {lo mid hi : Nat} (h : Ordered mid hi fresh) (hlo : lo ≤ mid) :
    Ordered lo hi fresh :=
  ⟨h.sorted, fun a ha => ⟨hlo.trans (h.within a ha).1, (h.within a ha).2⟩⟩

omit [CFloat F] in
theorem Ordered.cons {lo mid hi : Nat} {a : Passed F} (h : Ordered mid hi fresh)
    (hlo : lo ≤ a.start) (hmid : a.start < mid) (hhi : mid ≤ hi) : Ordered lo hi (a :: fresh) := by
  constructor
  case sorted => exact List.pairwise_cons.2 ⟨fun b hb => hmid.trans_le (h.within b hb).1, h.sorted⟩
  case within =>
    intro b hb
    rcases List.mem_cons.1 hb with rfl | hb
    · exact ⟨hlo, by omega⟩
    · have := h.within b hb
      omega

theorem group_singleton (hc : Counts 0 0 line) : Group [line] := by
  constructor
  case nonempty => exact List.cons_ne_nil _ _
  case counts => simpa using hc
  case opens =>
    intro k hk hlen
    simp at hlen
    omega

theorem counts_quotes (hq : ∀ c ∈ q, isWhiteSpace c = true ∨ c = '\'') : Counts 0 0 q := by
  apply counts_neutral le_rfl
  intro c hc
  rcases hq c hc with h | rfl
  · constructor <;> rintro rfl <;> simp [isWhiteSpace] at h
  · decide

/-- Quote characters with nothing behind them are read up to the end of the text. -/
theorem parse_quotes {k : Nat} (pre : Text) (hk : q.length ≤ k) (hf : k < fuel)
    (hq : ∀ c ∈ q, isWhiteSpace c = true ∨ c = '\'') (hl : q.length < 2 ^ 31) :
    ∃ o, parseExpression (pre ++ q) fuel pre.length = .ok ((o : Obj F), q.length) := by
  induction k generalizing q pre fuel with
  | zero =>
    obtain ⟨fuel, rfl⟩ := Nat.exists_eq_add_one_of_ne_zero (Nat.ne_of_gt hf)
    obtain rfl : q = [] := List.length_eq_zero_iff.1 (Nat.le_zero.1 hk)
    exact ⟨.null, parseExpression_blank blank_nil⟩
  | succ k ih =>
    obtain ⟨fuel, rfl⟩ := Nat.exists_eq_add_one_of_ne_zero (Nat.ne_of_gt (Nat.zero_lt_of_lt hf))
    rcases blank_or_element q with hs | ⟨ws, c, t, rfl, hw, hc⟩
    · exact ⟨.null, parseExpression_blank hs⟩
    obtain rfl : c = '\'' := (hq c (by simp)).resolve_left (by simp [hc])
    simp only [List.length_append, List.length_cons] at hk hl
    obtain ⟨o, ho⟩ := ih (q := t) (pre ++ ws ++ ['\'']) (by omega)
      (Nat.lt_of_succ_lt_succ hf)
      (fun c hc => hq c (by simp [hc])) (by omega)
    have hquote := parseExpression_quote hw (by omega) ho
    have hlen : (ws ++ '\'' :: t).length = ws.length + 1 + t.length := by
      simp
      omega
    rw [hlen]
    exact ⟨_, hquote⟩

theorem length_getLastD_le (ls : List Text) : (ls.getLastD []).length ≤ ls.flatten.length := by
  rcases List.eq_nil_or_concat ls with rfl | ⟨ls, l, rfl⟩
  · simp
  · simp

theorem getLastD_append (hls : ls ≠ []) : (run ++ ls).getLastD [] = ls.getLastD [] := by
  obtain ⟨ls, l, rfl⟩ := (List.eq_nil_or_concat ls).resolve_left hls
  simp

/-- Where the last of the lines at an offset begins. -/
def lastStart (p : Nat) (ls : List Text) : Nat :=
  p + ls.flatten.length - (ls.getLastD []).length

theorem lastStart_append (hls : ls ≠ []) :
    lastStart p (run ++ ls) = lastStart (p + run.flatten.length) ls := by
  rw [lastStart, lastStart, getLastD_append hls, List.flatten_append, List.length_append,
    Nat.add_assoc]

theorem le_lastStart : p ≤ lastStart p ls := by
  have := length_getLastD_le ls
  unfold lastStart
  omega

theorem Program.of_nil (h : Program cuts p [] occs) : occs = [] := by
  generalize hls : ([] : List Text) = ls at h
  cases h with
  | nil => rfl
  | blank => cases hls
  | cut => cases hls
  | run _ _ _ _ _ hg _ =>
    have := (List.append_eq_nil_iff.1 hls.symm).1
    exact absurd this hg.nonempty

theorem file_eq (hr : pieces r.file = ls) : r.file = ls.flatten := by
  rw [← hr, flatten_pieces]

theorem fuel_pos (hr : pieces r.file = ls) (hls : ls ≠ []) (hf : ls.flatten.length ≤ fuel) :
    0 < fuel := by
  have hfile : r.file ≠ [] := by
    intro h
    rw [h, pieces_nil] at hr
    exact hls hr.symm
  rw [file_eq hr] at hfile
  exact (List.length_pos_iff.2 hfile).trans_le hf

theorem parse_blank {b : Text} (hs : Blank b) (hf : 0 < fuel) :
    parseExpression b fuel 0 = .ok ((.null : Obj F), b.length) := by
  obtain ⟨fuel, rfl⟩ := Nat.exists_eq_add_one_of_ne_zero (Nat.ne_of_gt hf)
  have h : parseExpression ([] ++ b) (fuel + 1) ([] : Text).length =
      .ok ((.null : Obj F), b.length) := parseExpression_blank hs
  exact h

/-- The expressions that begin on the last line, for the lines behind a group. -/
theorem late_of_rest {P : Occurrence → Prop} (h : Program cuts (p + run.flatten.length) ls occs)
    (hrest : ∀ o ∈ occs, lastStart (p + run.flatten.length) ls ≤ o.start → P o) :
    ∀ o ∈ occs, lastStart p (run ++ ls) ≤ o.start → P o := by
  intro o ho hstart
  by_cases hls : ls = []
  · subst hls
    rw [h.of_nil] at ho
    cases ho
  · rw [lastStart_append hls] at hstart
    exact hrest o ho hstart

/-- Up to the end of its file a program passes expressions in the order of the file; where its
lines are read at once, exactly its own. Those that begin on the last line are among them. -/
theorem Program.through (h : Program cuts p ls occs) (hl : ls.flatten.length < 2 ^ 31)
    (hf : ls.flatten.length ≤ fuel) (hr : pieces r.file = ls) (hp : r.pos = p)
    (hnull : (interpretProgram evaluate fuel r s).2 ≠ .nullResult false) :
    ∃ fresh r' s', Through evaluate fuel r s ls fresh r' s' ∧
      Ordered p (p + ls.flatten.length) fresh ∧
      (cuts = false → fresh = occs.map Occurrence.passed) ∧
      ∀ o ∈ occs, lastStart p ls ≤ o.start → o.passed ∈ fresh := by
  induction h generalizing r s with
  | nil =>
    refine ⟨[], r, s, ⟨.refl r, pieces_eq_nil.1 hr, rfl, rfl⟩, ⟨.nil, by simp⟩, by simp, by simp⟩
  | @blank p line ls occs hw hprogram ih =>
    have hpos := fuel_pos hr (List.cons_ne_nil _ _) hf
    have hg : Group [line] := group_singleton (counts_white le_rfl hw)
    have hparse : parseExpression [line].flatten fuel 0 = .ok ((.null : Obj F), line.length) := by
      simpa using parse_blank hw.blank hpos
    rw [List.flatten_cons, List.length_append] at hl hf
    obtain ⟨r₁, s₁, hafter, hpieces, hlog, hstop⟩ := group_cases hg hr hparse hnull
    have hpos₁ : r₁.pos = p + line.length := by simp [hafter.pos, hp]
    obtain ⟨fresh, r', s', hthrough, hordered, hexact, hlate⟩ := ih (by omega) (by omega) hpieces
      hpos₁ (by rwa [← hstop])
    have hthis := hthrough.group hafter hlog hstop
    refine ⟨fresh, r', s', hthis, ?_, hexact, ?_⟩
    · rw [List.flatten_cons, List.length_append, ← Nat.add_assoc]
      exact hordered.mono (Nat.le_add_right _ _)
    · have hrest : ∀ o ∈ occs, lastStart p ([line] ++ ls) ≤ o.start →
          (o.passed : Passed F) ∈ fresh :=
        late_of_rest (by simpa using hprogram) (by simpa using hlate)
      exact hrest
  | @run p run ls ws t ws' e occs hw ht hsolid hw' hflat hg hprogram ih =>
    rw [List.flatten_append, List.length_append] at hl hf
    have hlen : run.flatten.length = ws.length + (t.length + ws'.length) := by simp [hflat]
    have hparse : parseExpression run.flatten fuel 0 =
        .ok ((e.toObj : Obj F), ws.length + t.length) := by
      rw [hflat] at hl hf ⊢
      exact parse_layout hw ht hw' (by omega) (by omega)
    obtain ⟨r₁, s₁, hafter, hpieces, hlog, hstop⟩ := group_cases hg hr hparse hnull
    have hpos₁ : r₁.pos = p + run.flatten.length := by rw [hafter.pos, hp]
    obtain ⟨fresh, r', s', hthrough, hordered, hexact, hlate⟩ := ih (by omega) (by omega) hpieces
      hpos₁ (by rwa [← hstop])
    have hthis := hthrough.group hafter hlog hstop
    have hpassed : passedAt r.pos run.flatten (e.toObj : Obj F) (ws.length + t.length) =
        (⟨e, p + ws.length, p + ws.length + t.length⟩ : Occurrence).passed := by
      rw [passedAt, hflat, takeWhile_solid hw hsolid, hp, Occurrence.passed, Nat.add_assoc]
    rw [isNull_toObj, hpassed] at hthis
    refine ⟨_, r', s', hthis, ?_, ?_, ?_⟩
    · have hsolidlen := hsolid.length_pos
      rw [List.flatten_append, List.length_append, ← Nat.add_assoc]
      have hstart : p + ws.length < p + run.flatten.length := by omega
      exact hordered.cons (Nat.le_add_right _ _) hstart (Nat.le_add_right _ _)
    · intro hcuts
      simp [hexact hcuts]
    · intro o ho hstart
      rcases List.mem_cons.1 ho with rfl | ho
      · simp
      · exact List.mem_append_right _ (late_of_rest hprogram hlate o ho hstart)
  | @cut p start stop ws q line ls e occs hcuts hline hw hq hinner ih =>
    have hls : ls ≠ [] := by
      rintro rfl
      cases hinner.of_nil
    have hquotes : ∀ c ∈ line, isWhiteSpace c = true ∨ c = '\'' := by
      intro c hc
      rw [hline] at hc
      rcases List.mem_append.1 hc with hc | hc
      · exact Or.inl (hw.blank c hc)
      · rcases List.mem_cons.1 hc with rfl | hc
        · exact Or.inr rfl
        · exact hq c hc
    have hg : Group [line] := group_singleton (counts_quotes hquotes)
    have hmore : 0 < ls.flatten.length := by
      obtain ⟨rest, -, hrest, -⟩ := fgets_piece hr
      rw [← hrest, flatten_pieces, List.length_pos_iff]
      exact fun h => hls (hrest ▸ pieces_eq_nil.2 h)
    rw [List.flatten_cons, List.length_append] at hl hf
    obtain ⟨obj, hobj⟩ : ∃ obj, parseExpression line fuel 0 = .ok ((obj : Obj F), line.length) :=
      parse_quotes [] le_rfl (by omega) hquotes (by omega)
    have hparse : parseExpression [line].flatten fuel 0 = .ok (obj, line.length) := by
      simpa using hobj
    obtain ⟨r₁, s₁, hafter, hpieces, hlog, hstop⟩ := group_cases hg hr hparse hnull
    have hpos₁ : r₁.pos = p + line.length := by simp [hafter.pos, hp]
    obtain ⟨fresh, r', s', hthrough, hordered, -, hlate⟩ := ih (by omega) (by omega) hpieces
      hpos₁ (by rwa [← hstop])
    have hthis := hthrough.group hafter hlog hstop
    have hstart : (passedAt r.pos [line].flatten obj line.length).start = p + ws.length := by
      have htake : line.takeWhile isWhiteSpace = ws := by
        rw [hline]
        exact takeWhile_append_cons hw.blank (by decide)
      simp [passedAt, htake, hp]
    have hlen : line.length = ws.length + (q.length + 1) := by simp [hline]
    refine ⟨_, r', s', hthis, ?_, by simp [hcuts], ?_⟩
    · rw [List.flatten_cons, List.length_append, ← Nat.add_assoc]
      split_ifs
      · exact hordered.mono (Nat.le_add_right _ _)
      · exact hordered.cons (by omega) (by omega) (Nat.le_add_right _ _)
    · intro o ho hlast
      rcases List.mem_cons.1 ho with rfl | ho
      · have hle : p + line.length ≤ p + ws.length := by
          rw [← List.singleton_append, lastStart_append hls] at hlast
          simpa using le_lastStart.trans hlast
        omega
      · have hrest : ∀ o ∈ (⟨e, start, stop⟩ :: occs : List Occurrence),
            lastStart p ([line] ++ ls) ≤ o.start → (o.passed : Passed F) ∈ fresh :=
          late_of_rest (by simpa using hinner) (by simpa using hlate)
        exact List.mem_append_right _ (hrest o (List.mem_cons_of_mem _ ho) hlast)

end through

section twice
variable {occs : List Occurrence} {cuts : Bool} {line : Text} {offset : Nat} {o : Occurrence}

/-- The expression is all that the line at an offset holds. -/
def OnLine (offset : Nat) (line : Text) (o : Occurrence) : Prop :=
  ∃ ws t ws', AllWhite ws ∧ Layout o.expr t ∧ Solid t ∧ AllWhite ws' ∧ line = ws ++ (t ++ ws') ∧
    o.start = offset + ws.length ∧ o.stop = offset + ws.length + t.length

/-- A valid last line holds the expressions that begin on it alone. -/
theorem Program.last (h : Program cuts p ls occs) (hv : isValid (ls.getLastD []) = true) :
    ∀ o ∈ occs, lastStart p ls ≤ o.start → OnLine (lastStart p ls) (ls.getLastD []) o := by
  induction h with
  | nil => simp
  | @blank p line ls occs hw hprogram ih =>
    intro o ho hstart
    have hls : ls ≠ [] := by
      rintro rfl
      rw [hprogram.of_nil] at ho
      cases ho
    have hcons : line :: ls = [line] ++ ls := rfl
    rw [hcons, lastStart_append hls, List.flatten_singleton] at hstart ⊢
    rw [hcons, getLastD_append hls] at hv
    rw [getLastD_append hls]
    exact ih hv o ho hstart
  | @run p run ls ws t ws' e occs hw ht hsolid hw' hflat hg hprogram ih =>
    intro o ho hstart
    by_cases hls : ls = []
    · subst hls
      rw [hprogram.of_nil] at ho
      obtain rfl := List.mem_singleton.1 ho
      obtain ⟨init, last, rfl⟩ := (List.eq_nil_or_concat run).resolve_left hg.nonempty
      rw [List.concat_eq_append] at hg hflat
      by_cases hinit : init = []
      · subst hinit
        refine ⟨ws, t, ws', hw, ht, hsolid, hw', ?_, ?_, ?_⟩
        · simpa using hflat
        · simp [lastStart]
        · simp [lastStart]
      · simp [hg.last_invalid hinit] at hv
    · rw [lastStart_append hls] at hstart ⊢
      rw [getLastD_append hls] at hv ⊢
      rcases List.mem_cons.1 ho with rfl | ho
      · have hle : p + run.flatten.length ≤ p + ws.length := le_lastStart.trans hstart
        have hpos := hsolid.length_pos
        have hlen : run.flatten.length = ws.length + (t.length + ws'.length) := by simp [hflat]
        omega
      · exact ih hv o ho hstart
  | @cut p start stop ws q line ls e occs hcuts hline hw hq hinner ih =>
    intro o ho hstart
    have hls : ls ≠ [] := by
      rintro rfl
      cases hinner.of_nil
    have hcons : line :: ls = [line] ++ ls := rfl
    rw [hcons, lastStart_append hls, List.flatten_singleton] at hstart ⊢
    rw [hcons, getLastD_append hls] at hv
    rw [getLastD_append hls]
    rcases List.mem_cons.1 ho with rfl | ho
    · have hle : p + line.length ≤ p + ws.length := le_lastStart.trans hstart
      have hlen : line.length = ws.length + (q.length + 1) := by simp [hline]
      omega
    · exact ih hv o (List.mem_cons_of_mem _ ho) hstart

theorem OnLine.group (h : OnLine offset line o) : Group [line] := by
  obtain ⟨ws, t, ws', hw, ht, -, hw', rfl, -, -⟩ := h
  exact group_singleton ((counts_white le_rfl hw).append
    ((ht.counts 0 le_rfl).append (counts_white le_rfl hw')))

/-- An expression on the line that the buffer still holds is passed to `eval` again. -/
theorem OnLine.passed_again (evaluate : σ → Obj F → Option σ) (s : σ)
    (h : OnLine offset r.buff o) (hf : r.file = [])
    (hoffset : r.pos - r.buff.length = offset) (hl : r.buff.length < 2 ^ 31)
    (hfuel : r.buff.length ≤ fuel) :
    (interpretProgram evaluate fuel r s).1 = [(o.passed : Passed F)] := by
  have hg := h.group
  obtain ⟨ws, t, ws', hw, ht, hsolid, hw', hline, hstart, hstop⟩ := h
  have hcounts : Counts 0 0 r.buff := by simpa using hg.counts
  have hparse : parseExpression r.buff fuel 0 =
      .ok ((o.expr.toObj : Obj F), ws.length + t.length) := by
    rw [hline] at hl hfuel ⊢
    exact parse_layout hw ht hw' hl hfuel
  rw [interpretProgram_end hf hcounts hparse, isNull_toObj, hoffset]
  simp only [passedAt, hline, takeWhile_solid hw hsolid, Occurrence.passed, hstart, hstop,
    Nat.add_assoc, Bool.false_eq_true, if_false]

omit [CFloat F] in
theorem Ordered.count_le {lo hi : Nat} {fresh : List (Passed F)} (h : Ordered lo hi fresh)
    (sp : Nat × Nat) : (fresh.map Passed.span).count sp ≤ 1 := by
  have hnodup : (fresh.map Passed.span).Nodup := by
    rw [List.nodup_iff_pairwise_ne, List.pairwise_map]
    refine h.sorted.imp fun {a b} hab heq => ?_
    have : a.start = b.start := congrArg Prod.fst heq
    omega
  exact List.nodup_iff_count_le_one.1 hnodup sp

section example_t

theorem layout_t : Layout (.token ['t']) ['t'] :=
  .token allWhite_nil (by simp [IsToken, isAtomChar, isWhiteSpace])

theorem solid_t : Solid ['t'] := ⟨'t', [], rfl, by decide⟩

theorem allWhite_newline : AllWhite ['\n'] := by simp [AllWhite]

theorem group_t : Group ["t\n".toList] :=
  group_singleton ⟨by decide, by decide⟩

/-- The line `t` in front of blank lines. -/
theorem program_t {ls : List Text} (h : Program cuts 2 ls []) :
    Program cuts 0 ("t\n".toList :: ls) [⟨.token ['t'], 0, 1⟩] :=
  .run allWhite_nil layout_t solid_t allWhite_newline rfl group_t h

end example_t

/-- A program whose expressions have lines of their own passes none of them to `eval` twice,
and meets no syntax error, if and only if no expression begins on its last line and that line
(the buffer as it was, if the file is empty) closes no parenthesis that it does not open. -/
theorem passes_once_iff {buff : Text} (h : Program true 0 (pieces file) occs)
    (hl : file.length < 2 ^ 31) (hf : file.length ≤ fuel)
    (hnull : (interpretProgram evaluate fuel ⟨file, 0, buff⟩ s).2 ≠ .nullResult false) :
    ((∀ o ∈ occs, ((interpretProgram evaluate fuel ⟨file, 0, buff⟩ s).1.map
        Passed.span).count o.span ≤ 1) ∧
      (interpretProgram evaluate fuel ⟨file, 0, buff⟩ s).2 ≠ .syntaxError) ↔
    isValid ((pieces file).getLastD buff) = true ∧
      ∀ o ∈ occs, o.start < lastStart 0 (pieces file) := by
  have hflat := flatten_pieces file
  obtain ⟨fresh, r', s', hthrough, hordered, -, hlate⟩ := h.through (r := ⟨file, 0, buff⟩)
    (by rwa [hflat]) (by rwa [hflat]) rfl rfl hnull
  obtain ⟨⟨-, hpos, hbuff⟩, hend, hlog, hstop⟩ := hthrough
  simp only [hflat, Nat.zero_add] at hpos hbuff
  have hlast : ∀ o ∈ occs, (pieces file).getLastD buff = (pieces file).getLastD [] ∧
      r'.pos - r'.buff.length = lastStart 0 (pieces file) := by
    intro o ho
    obtain ⟨ls, l, hls⟩ := (List.eq_nil_or_concat (pieces file)).resolve_left fun hnil => by
      rw [hnil] at h
      rw [h.of_nil] at ho
      cases ho
    rw [hbuff, hpos, lastStart, hflat]
    simp [hls]
  rw [hlog, hstop]
  constructor
  · rintro ⟨honce, hsyntax⟩
    have hvalid : isValid r'.buff = true := by
      by_contra hinvalid
      exact hsyntax (by rw [interpretProgram_end_invalid hend (by simpa using hinvalid)])
    refine ⟨hbuff ▸ hvalid, fun o ho => ?_⟩
    by_contra hstart
    obtain ⟨hsame, hoffset⟩ := hlast o ho
    rw [hsame] at hbuff
    have honline := h.last (hbuff ▸ hvalid) o ho (Nat.not_lt.1 hstart)
    rw [← hbuff] at honline
    have hlen : r'.buff.length ≤ file.length := by
      have hle := length_getLastD_le (pieces file)
      rwa [hflat, ← hbuff] at hle
    have hagain := honline.passed_again evaluate s' hend hoffset
      (hlen.trans_lt hl) (hlen.trans hf)
    have hfirst : o.span ∈ fresh.map Passed.span :=
      List.mem_map.2 ⟨_, hlate o ho (Nat.not_lt.1 hstart), rfl⟩
    have hcount := honce o ho
    rw [hagain, List.map_append, List.count_append] at hcount
    have hone := List.count_pos_iff.2 hfirst
    have hself : List.count o.span ([(o.passed : Passed F)].map Passed.span) = 1 := by
      simp [Passed.span, Occurrence.span, Occurrence.passed]
    omega
  · rintro ⟨hvalid, hstarts⟩
    have hvalid' : isValid r'.buff = true := hbuff ▸ hvalid
    refine ⟨fun o ho => ?_, (interpretProgram_end_valid hend hvalid').1⟩
    have hnone : List.count o.span ((interpretProgram evaluate fuel r' s').1.map Passed.span) =
        0 := by
      rw [List.count_eq_zero]
      intro hmem
      obtain ⟨a, ha, heq⟩ := List.mem_map.1 hmem
      have hstart := start_le evaluate fuel r' s' a ha
      rw [Reader.start, if_pos hend, (hlast o ho).2] at hstart
      have hsame : a.start = o.start := congrArg Prod.fst heq
      have := hstarts o ho
      omega
    rw [List.map_append, List.count_append, hnone]
    exact hordered.count_le o.span

theorem passes_once_blank :
    ((∀ o ∈ [(⟨.token ['t'], 0, 1⟩ : Occurrence)],
      ((interpretProgram (evaluateObject 9) 3 ⟨"t\n\n".toList, 0, []⟩ interpreterInit :
        List (Passed NoFloat) × Stop).1.map Passed.span).count o.span ≤ 1) ∧
      (interpretProgram (evaluateObject 9) 3 ⟨"t\n\n".toList, 0, []⟩ interpreterInit :
        List (Passed NoFloat) × Stop).2 ≠ .syntaxError) ↔
    isValid ((pieces "t\n\n".toList).getLastD []) = true ∧
      ∀ o ∈ [(⟨.token ['t'], 0, 1⟩ : Occurrence)],
        o.start < lastStart 0 (pieces "t\n\n".toList) := by
  have hpieces : pieces "t\n\n".toList = ["t\n".toList, "\n".toList] := by decide +kernel
  exact passes_once_iff (hpieces ▸ program_t (.blank allWhite_newline .nil)) (by decide)
    (by decide) (by decide +kernel)

/-- The line that the buffer still holds at the end of the file is evaluated again, or it is the
end of an expression and a syntax error is reported. -/
theorem passes_last_twice :
    Program true 0 (pieces "t\n".toList) [⟨.token ['t'], 0, 1⟩] ∧
    (interpretProgram (evaluateObject 9) 2 ⟨"t\n".toList, 0, []⟩ interpreterInit :
      List (Passed NoFloat) × Stop).1.map Passed.span = [(0, 1), (0, 1)] ∧
    (interpretProgram (evaluateObject 9) 12 ⟨"(set 'x\n 1)\n".toList, 0, []⟩ interpreterInit :
      List (Passed NoFloat) × Stop).2 = .syntaxError := by
  have hpieces : pieces "t\n".toList = ["t\n".toList] := by decide +kernel
  exact ⟨hpieces ▸ program_t .nil, by decide +kernel, by decide +kernel⟩

end twice

section all
variable {occs : List Occurrence} {g : Text} {o : Obj F}

theorem Contents.counts (h : Contents p file occs) : Counts 0 0 file := by
  induction h with
  | nil hw => exact counts_white le_rfl hw
  | cons hw ht _ _ _ ih =>
    exact (counts_white le_rfl hw).append ((ht.counts 0 le_rfl).append ih)

theorem Contents.starts (h : Contents p file occs) : ∀ o ∈ occs, p ≤ o.start := by
  induction h with
  | nil => simp
  | cons hw ht _ _ _ ih =>
    intro o ho
    rcases List.mem_cons.1 ho with rfl | ho
    · exact Nat.le_add_right _ _
    · have := ih o ho
      omega

/-- Whitespace in front of the rest of a file is not part of its expressions. -/
theorem Contents.blank (h : Contents p (g ++ rest) occs) (hg : Blank g) :
    AllWhite g ∧ Contents (p + g.length) rest occs := by
  generalize hfile : g ++ rest = file at h
  cases h with
  | @nil _ ws hw =>
    rw [← hfile] at hw
    refine ⟨fun c hc => hw c (by simp [hc]), .nil fun c hc => hw c (by simp [hc])⟩
  | @cons _ ws t rest' e occs hw ht hsolid hd hrest =>
    rcases List.append_eq_append_iff.1 hfile with ⟨ws', rfl, rfl⟩ | ⟨g', rfl, hg'⟩
    · have hwhite : AllWhite g := fun c hc => hw c (by simp [hc])
      refine ⟨hwhite, ?_⟩
      rw [List.length_append, ← Nat.add_assoc] at hrest ⊢
      exact .cons (fun c hc => hw c (by simp [hc])) ht hsolid hd hrest
    · obtain ⟨c, s, rfl, hc⟩ := hsolid
      cases g' with
      | nil =>
        refine ⟨fun c hc => hw c (by simpa using hc), ?_⟩
        obtain rfl : rest = c :: s ++ rest' := by simpa using hg'.symm
        rw [List.append_nil]
        have hnone : Contents (p + ws.length) ([] ++ (c :: s ++ rest')) _ :=
          .cons (by simp [AllWhite]) ht ⟨c, s, rfl, hc⟩ hd hrest
        exact hnone
      | cons d g' =>
        obtain rfl : c = d := (List.cons.inj hg').1
        have hwhite : isWhiteSpace c = true := hg c (by simp)
        simp [hc] at hwhite

/-- Where something solid is read of a file, that is where the next expression begins. -/
theorem Contents.solid (h : Contents p (g ++ rest) occs) (hg : ¬Blank g) :
    ∃ e ws t rest' occs', occs = ⟨e, p + ws.length, p + ws.length + t.length⟩ :: occs' ∧
      g ++ rest = ws ++ (t ++ rest') ∧ AllWhite ws ∧ Layout e t ∧ Solid t ∧
      Contents (p + ws.length + t.length) rest' occs' ∧ g.takeWhile isWhiteSpace = ws := by
  generalize hfile : g ++ rest = file at h
  cases h with
  | nil hw =>
    rw [← hfile] at hw
    exact absurd (fun c hc => hw.blank c (by simp [hc])) hg
  | @cons _ ws t rest' e occs hw ht hsolid hd hrest =>
    refine ⟨e, ws, t, rest', occs, rfl, rfl, hw, ht, hsolid, hrest, ?_⟩
    rcases List.append_eq_append_iff.1 hfile with ⟨ws', rfl, -⟩ | ⟨g', rfl, hg'⟩
    · exact absurd (fun c hc => hw.blank c (by simp [hc])) hg
    · obtain ⟨c, s, rfl, hc⟩ := hsolid
      cases g' with
      | nil => exact absurd (by simpa using hw.blank) hg
      | cons d g' =>
        obtain rfl : c = d := (List.cons.inj hg').1
        exact takeWhile_append_cons hw.blank hc

/-- Behind a group, what is passed to `eval` is read behind it, or it is the expression of the
group once more. -/
theorem passed_after (hg : Group run) (hafter : After r run r')
    (hparse : parseExpression run.flatten fuel 0 = .ok (o, n)) :
    ∀ a ∈ (interpretProgram evaluate fuel r' s).1,
      r'.pos ≤ a.start ∨ a = passedAt r.pos run.flatten o n := by
  intro a ha
  by_cases hf : r'.file = []
  · right
    obtain ⟨init, last, rfl⟩ := (List.eq_nil_or_concat run).resolve_left hg.nonempty
    rw [List.concat_eq_append] at hg hafter hparse ⊢
    have hbuff : r'.buff = last := by simp [hafter.buff]
    by_cases hinit : init = []
    · subst hinit
      simp only [List.nil_append, List.flatten_singleton] at hg hafter hparse ⊢
      have hpos : r'.pos - r'.buff.length = r.pos := by simp [hafter.pos, hbuff]
      have hcounts : Counts 0 0 r'.buff := by simpa [hbuff] using hg.counts
      rw [interpretProgram_end hf hcounts (by rwa [hbuff]), hpos, hbuff] at ha
      split_ifs at ha
      · cases ha
      · exact List.mem_singleton.1 ha
      · exact List.mem_singleton.1 ha
    · rw [interpretProgram_end_invalid hf (by rw [hbuff]; exact hg.last_invalid hinit)] at ha
      cases ha
  · left
    have hstart := start_le evaluate fuel r' s a ha
    rwa [start_of_ne hf] at hstart

theorem program_of_white (hw : AllWhite run.flatten)
    (h : Program false (p + run.flatten.length) ls occs) : Program false p (run ++ ls) occs := by
  induction run generalizing p with
  | nil => simpa using h
  | cons l run ih =>
    rw [List.flatten_cons] at hw h
    refine .blank (fun c hc => hw c (by simp [hc])) (ih (fun c hc => hw c (by simp [hc])) ?_)
    rwa [List.length_append, ← Nat.add_assoc] at h

theorem length_takeWhile_lt {g : Text} (hg : ¬Blank g) :
    (g.takeWhile isWhiteSpace).length < g.length := by
  have hbegin := List.takeWhile_prefix isWhiteSpace (l := g)
  rcases Nat.lt_or_ge (g.takeWhile isWhiteSpace).length g.length with hlt | hge
  · exact hlt
  · exact absurd (List.takeWhile_eq_self_iff.1 (hbegin.eq_of_length_le hge)) hg

/-- The first group of a file all of whose expressions are passed to `eval`, if it is not
blank, is one expression. -/
theorem group_of_passes {g : Text} (hl : g.length < 2 ^ 31) (hc : Contents p (g ++ rest) occs)
    (hg : ¬Blank g) (hparse : parseExpression g fuel 0 = .ok (o, n))
    (hpasses : ∀ x ∈ occs, p + g.length ≤ x.start ∨ x.passed = passedAt p g o n) :
    ∃ e ws t ws' occs', occs = ⟨e, p + ws.length, p + ws.length + t.length⟩ :: occs' ∧
      g = ws ++ (t ++ ws') ∧ AllWhite ws ∧ Layout e t ∧ Solid t ∧ AllWhite ws' ∧
      (passedAt p g o n).start < p + g.length ∧ Contents (p + g.length) rest occs' := by
  obtain ⟨e, ws, t, rest', occs', rfl, happend, hw, ht, hsolid, hrest, htake⟩ := hc.solid hg
  have hshort : ws.length < g.length := htake ▸ length_takeWhile_lt hg
  have hpos := hsolid.length_pos
  have hcount := parse_count_le hl hparse
  have hstop : ws.length + t.length = n := by
    rcases hpasses _ (List.mem_cons_self ..) with hle | heq
    · simp only at hle
      omega
    · have : p + ws.length + t.length = p + n := congrArg Passed.stop heq
      omega
  obtain ⟨ws', rfl, hrest'⟩ : ∃ ws', g = ws ++ (t ++ ws') ∧ rest' = ws' ++ rest := by
    rw [← List.append_assoc] at happend
    rcases List.append_eq_append_iff.1 happend with ⟨a, ha, hb⟩ | ⟨c, hc, hd⟩
    · have hlen := congrArg List.length ha
      simp only [List.length_append] at hlen
      obtain rfl : a = [] := List.length_eq_zero_iff.1 (by omega)
      exact ⟨[], by simpa using ha.symm, by simpa using hb.symm⟩
    · exact ⟨c, by rw [hc, List.append_assoc], hd⟩
  rw [hrest'] at hrest
  have hstart : (passedAt p (ws ++ (t ++ ws')) o n).start = p + ws.length := by
    simp [passedAt, takeWhile_solid hw hsolid]
  have hlength : (ws ++ (t ++ ws')).length = ws.length + t.length + ws'.length := by
    simp [Nat.add_assoc]
  have hblank : Blank ws' := by
    by_contra hsolid'
    obtain ⟨e₂, ws₂, t₂, rest₂, occs₂, rfl, -, -, -, -, -, htake₂⟩ := hrest.solid hsolid'
    have hshort₂ : ws₂.length < ws'.length := htake₂ ▸ length_takeWhile_lt hsolid'
    rcases hpasses _ (List.mem_cons_of_mem _ (List.mem_cons_self ..)) with hle | heq
    · simp only [hlength] at hle
      omega
    · have hsame := congrArg Passed.start heq
      rw [hstart] at hsame
      simp only [Occurrence.passed] at hsame
      omega
  obtain ⟨hwhite, hbehind⟩ := hrest.blank hblank
  refine ⟨e, ws, t, ws', occs', rfl, rfl, hw, ht, hsolid, hwhite, ?_, ?_⟩
  · rw [hstart]
    omega
  · rw [hlength]
    simpa [Nat.add_assoc] using hbehind

theorem program_nil (hc : Contents p [] occs) : Program false p (pieces []) occs := by
  generalize hfile : ([] : Text) = file at hc
  cases hc with
  | nil _ =>
    rw [← hfile, pieces_nil]
    exact .nil
  | cons _ _ hsolid _ _ =>
    have hpos := hsolid.length_pos
    have hlen := congrArg List.length hfile
    simp only [List.length_append, List.length_nil] at hlen
    omega

/-- A file all of whose expressions are passed to `eval` has each on lines of its own. -/
theorem program_of_passes {k : Nat} (hk : r.file.length ≤ k) (hc : Contents p r.file occs)
    (hp : r.pos = p) (hl : r.file.length < 2 ^ 31) (hf : r.file.length ≤ fuel)
    (hnull : (interpretProgram evaluate fuel r s).2 ≠ .nullResult false)
    (hpasses : ∀ o ∈ occs, o.passed ∈ (interpretProgram evaluate fuel r s).1) :
    Program false p (pieces r.file) occs := by
  induction k generalizing r s p occs with
  | zero =>
    rw [List.length_eq_zero_iff.1 (Nat.le_zero.1 hk)] at hc ⊢
    exact program_nil hc
  | succ k ih =>
    by_cases hfile : r.file = []
    · rw [hfile] at hc ⊢
      exact program_nil hc
    have hpieces : pieces r.file ≠ [] := fun h => hfile (pieces_eq_nil.1 h)
    obtain ⟨run, ls, hsplit, hg, -⟩ := exists_group hpieces
      (by rw [flatten_pieces]; exact hc.counts)
    obtain ⟨r₁, hafter₁, -⟩ := hg.read hsplit
    have hlen := congrArg List.length hafter₁.file
    rw [List.length_append] at hlen
    have hrunpos : 0 < run.flatten.length := by
      obtain ⟨l, run, rfl⟩ := List.exists_cons_of_ne_nil hg.nonempty
      have := length_piece_pos hsplit
      simp
      omega
    cases hparse : (parseExpression run.flatten fuel 0 : Except Fault (Obj F × Nat)) with
    | error fault =>
      have hblank : ¬Blank run.flatten := by
        intro hb
        rw [parse_blank hb (by omega)] at hparse
        cases hparse
      rw [hafter₁.file] at hc
      obtain ⟨e, ws, t, rest', occs', rfl, -⟩ := hc.solid hblank
      have hmem := hpasses _ (List.mem_cons_self ..)
      rw [interpretProgram_group_error hg hsplit hparse] at hmem
      cases hmem
    | ok parsed =>
      obtain ⟨o, n⟩ := parsed
      obtain ⟨r', s', hafter, hls, hlog, hstop⟩ := group_cases hg hsplit hparse hnull
      have hpos : r'.pos = p + run.flatten.length := by rw [hafter.pos, hp]
      have hsize : r.file.length = run.flatten.length + r'.file.length := by
        rw [hafter.file, List.length_append]
      rw [hafter.file] at hc
      rw [hsplit]
      have hrest : ∀ occs', Contents (p + run.flatten.length) r'.file occs' →
          (∀ x ∈ occs', x.passed ∈ (interpretProgram evaluate fuel r' s').1) →
          Program false (p + run.flatten.length) ls occs' := by
        intro occs' hc' hpasses'
        have hprogram := ih (by omega) hc' hpos (by omega) (by omega) (by rwa [← hstop]) hpasses'
        rwa [hls] at hprogram
      rw [hlog] at hpasses
      by_cases hb : Blank run.flatten
      · obtain ⟨hwhite, hbehind⟩ := hc.blank hb
        rw [parse_blank hb (by omega)] at hparse
        cases hparse
        exact program_of_white hwhite (hrest occs hbehind hpasses)
      · have hfirst : ∀ x ∈ (if o.isNull then [] else [passedAt r.pos run.flatten o n]),
            x = passedAt p run.flatten o n := by
          intro x hx
          split_ifs at hx
          · cases hx
          · rw [List.mem_singleton.1 hx, hp]
        have hcases : ∀ x ∈ occs, p + run.flatten.length ≤ x.start ∨
            x.passed = passedAt p run.flatten o n := by
          intro x hx
          rcases List.mem_append.1 (hpasses x hx) with hmem | hmem
          · exact Or.inr (hfirst _ hmem)
          · rcases passed_after hg hafter hparse _ hmem with hle | heq
            · exact Or.inl (hpos ▸ hle)
            · exact Or.inr (hp ▸ heq)
        obtain ⟨e, ws, t, ws', occs', rfl, hflat, hw, ht, hsolid, hw', hstart, hbehind⟩ :=
          group_of_passes (by omega) hc hb hparse hcases
        refine .run hw ht hsolid hw' hflat hg (hrest occs' hbehind fun x hx => ?_)
        rcases List.mem_append.1 (hpasses x (List.mem_cons_of_mem _ hx)) with hmem | hmem
        · have hsame : x.start = (passedAt p run.flatten o n).start :=
            congrArg Passed.start (hfirst _ hmem)
          have := hbehind.starts x hx
          omega
        · exact hmem

/-- Every expression of a file is passed to `eval`, in the order of the file, if and only if
each has lines of its own, which are read at once. -/
theorem passes_all_iff {buff : Text} (hc : Contents 0 file occs) (hl : file.length < 2 ^ 31)
    (hf : file.length ≤ fuel)
    (hnull : (interpretProgram evaluate fuel ⟨file, 0, buff⟩ s).2 ≠ .nullResult false) :
    (occs.map Occurrence.passed).Sublist
      (interpretProgram evaluate fuel ⟨file, 0, buff⟩ s).1 ↔
    Program false 0 (pieces file) occs := by
  constructor
  · intro hsub
    refine program_of_passes (r := ⟨file, 0, buff⟩) le_rfl hc rfl hl hf hnull fun o ho => ?_
    exact hsub.subset (List.mem_map.2 ⟨o, ho, rfl⟩)
  · intro h
    have hflat := flatten_pieces file
    obtain ⟨fresh, r', s', hthrough, -, hexact, -⟩ := h.through (r := ⟨file, 0, buff⟩)
      (by rwa [hflat]) (by rwa [hflat]) rfl rfl hnull
    rw [hthrough.log, hexact rfl]
    exact List.sublist_append_left _ _

/-- `'(a b)`, on two lines. -/
theorem layout_broken :
    Layout (.quote (.paren [.token ['a'], .token ['b']])) "'(a\n b)".toList := by
  have ha : Layout (.token ['a']) ([] ++ ['a']) :=
    .token allWhite_nil (by simp [IsToken, isAtomChar, isWhiteSpace])
  have hb : Layout (.token ['b']) (['\n', ' '] ++ ['b']) :=
    .token (by simp [AllWhite]) (by simp [IsToken, isAtomChar, isWhiteSpace])
  have helements := ElementsLayout.cons ha
    (.cons hb (.nil allWhite_nil) fun _ => by simp [Delimited, isAtomChar])
    fun _ => by simp [Delimited, isAtomChar, isWhiteSpace]
  exact .quote allWhite_nil (.paren allWhite_nil helements)

/-- Three expressions, the second on two lines, with a blank line behind it. -/
theorem passes_all_three :
    ([⟨.token ['t'], 0, 1⟩, ⟨.quote (.paren [.token ['a'], .token ['b']]), 2, 9⟩,
        ⟨.paren [], 11, 13⟩].map Occurrence.passed).Sublist
      (interpretProgram (evaluateObject 9) 14 ⟨"t\n'(a\n b)\n\n()\n".toList, 0, []⟩
        interpreterInit : List (Passed NoFloat) × Stop).1 := by
  let broken : SExpr := .quote (.paren [.token ['a'], .token ['b']])
  have hnil : Layout (.paren []) "()".toList := .paren allWhite_nil (.nil allWhite_nil)
  have hsolid : Solid "()".toList := ⟨'(', [')'], rfl, by decide⟩
  have hquote : Solid "'(a\n b)".toList := ⟨'\'', "(a\n b)".toList, rfl, by decide⟩
  have hthird : Contents 9 "\n\n()\n".toList [⟨.paren [], 11, 13⟩] :=
    .cons (show AllWhite ['\n', '\n'] by simp [AllWhite]) hnil hsolid (fun h => by cases h)
      (.nil allWhite_newline)
  have hsecond : Contents 1 "\n'(a\n b)\n\n()\n".toList
      [⟨broken, 2, 9⟩, ⟨.paren [], 11, 13⟩] :=
    .cons allWhite_newline layout_broken hquote (fun h => by cases h) hthird
  have hdelim : Delimited "\n'(a\n b)\n\n()\n".toList := by
    simp [Delimited, isAtomChar, isWhiteSpace]
  have hcontents : Contents 0 "t\n'(a\n b)\n\n()\n".toList
      [⟨.token ['t'], 0, 1⟩, ⟨broken, 2, 9⟩, ⟨.paren [], 11, 13⟩] :=
    .cons allWhite_nil layout_t solid_t (fun _ => hdelim) hsecond
  have hlast : Program false 11 (["()\n".toList] ++ []) [⟨.paren [], 11, 13⟩] :=
    .run allWhite_nil hnil hsolid allWhite_newline rfl (group_singleton ⟨by decide, by decide⟩) .nil
  have hgroup : Group ["'(a\n".toList, " b)\n".toList] := by
    refine ⟨List.cons_ne_nil _ _, ⟨by decide, by decide⟩, fun k hpos hlt => ?_⟩
    obtain rfl : k = 1 := Nat.le_antisymm (Nat.le_of_lt_succ hlt) hpos
    decide
  have hlines : Program false 2 (["'(a\n".toList, " b)\n".toList] ++ ["\n".toList, "()\n".toList])
      [⟨broken, 2, 9⟩, ⟨.paren [], 11, 13⟩] :=
    .run allWhite_nil layout_broken hquote allWhite_newline rfl hgroup
      (.blank allWhite_newline hlast)
  have hprogram : Program false 0 (["t\n".toList] ++ _)
      [⟨.token ['t'], 0, 1⟩, ⟨broken, 2, 9⟩, ⟨.paren [], 11, 13⟩] :=
    .run allWhite_nil layout_t solid_t allWhite_newline rfl group_t hlines
  have hpieces : pieces "t\n'(a\n b)\n\n()\n".toList = ["t\n".toList] ++
      (["'(a\n".toList, " b)\n".toList] ++ ["\n".toList, "()\n".toList]) := by decide +kernel
  exact (passes_all_iff hcontents (by decide) (by decide) (by decide +kernel)).2
    (hpieces ▸ hprogram)

/-- Of two expressions on a line, the second is never evaluated. -/
theorem passes_first_only :
    Contents 0 "t t\n".toList [⟨.token ['t'], 0, 1⟩, ⟨.token ['t'], 2, 3⟩] ∧
    (interpretProgram (evaluateObject 9) 4 ⟨"t t\n".toList, 0, []⟩ interpreterInit :
      List (Passed NoFloat) × Stop).2 = .endOfFile ∧
    (interpretProgram (evaluateObject 9) 4 ⟨"t t\n".toList, 0, []⟩ interpreterInit :
      List (Passed NoFloat) × Stop).1.map Passed.span = [(0, 1), (0, 1)] := by
  have hsecond : Contents 1 " t\n".toList [⟨.token ['t'], 2, 3⟩] :=
    .cons (show AllWhite [' '] by simp [AllWhite]) layout_t solid_t
      (fun _ => allWhite_newline.delimited) (.nil allWhite_newline)
  have hdelim : Delimited " t\n".toList := by simp [Delimited, isAtomChar, isWhiteSpace]
  exact ⟨.cons allWhite_nil layout_t solid_t (fun _ => hdelim) hsecond, by decide +kernel,
    by decide +kernel⟩

end all

end Lisp
