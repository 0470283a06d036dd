import Lisp.BracketGrammar
import Lisp.ProgramFile
import Lisp.Library.CString

/-! The interactive reader of `interpreter.c`, over the lines that `readline` returns. -/
namespace Lisp
open CString
variable {n i : Nat} {b e : Buffer} {line : Text} {lines run rest blanks p : List Text}

section source

/-- `REPROMPT`. -/
def repromptText : Text := "  ".toList

/-- `get_indentation_size`. -/
def getIndentationSize (expr : Text) : Int :=
  getNetBalance expr

/-- The loop of `reprompt`: a space at each index from `i` on. -/
def indent (i : Nat) : Nat → Buffer → Option Buffer
  | 0, buff => some buff
  | n + 1, buff => do
    let buff ← buff.memcpy (repromptText.length + i) [' ']
    indent (i + 1) n buff

/-- The prompt that `reprompt` builds in the global buffer, whose earlier text it replaces. -/
def reprompt (expr : Text) : Option Buffer := do
  let indentation := getIndentationSize expr
  let buff ← (Buffer.malloc bufSize).strcpy 0 repromptText
  let buff ← indent 0 indentation.toNat buff
  buff.strcpy (repromptText.length + indentation.toNat) []

/-- What the reader returns, and the lines that are left. -/
structure Prompted where
  expression : Option Text
  eof : Bool
  lines : List Text
deriving DecidableEq, Repr

/-- `strlen`, which must not be given `NULL`. -/
def strlen : Option Text → Option Nat
  | none => none
  | some s => some s.length

/-- The loop of `get_expression_from_prompt`. After the last line `readline` returns `NULL`. -/
def promptLoop (e : Buffer) (totalSize : Nat) (eof : Bool) (lines : List Text) :
    Option Prompted :=
  let valid := isValid e.text
  let balanced := isBalanced e.text
  if valid && balanced then some ⟨some e.text, eof, lines⟩
  else if !valid || eof then some ⟨none, eof, lines⟩
  else do
    let _ ← reprompt e.text
    match lines with
    | [] =>
      -- `*eof` is set, but the next test of it is after this call
      let _ ← strlen none
      none
    | line :: lines =>
      let inputSize ← strlen (some line)
      let e := e.realloc (totalSize + 1 + inputSize + 1)
      let e ← e.strcpy totalSize [' ']
      let e ← e.strcpy (totalSize + 1) line
      promptLoop e (totalSize + (1 + inputSize)) false lines

/-- A string in a buffer of its own. -/
def newString (line : Text) : Buffer :=
  ⟨line.length + 1, line, Nat.le_succ _⟩

/-- `get_expression_from_prompt`, where `readline` returns the given lines and then `NULL`. -/
def getExpressionFromPrompt : List Text → Option Prompted
  | [] => some ⟨none, true, []⟩
  | line :: lines =>
    if emptyExpression line then getExpressionFromPrompt lines
    else promptLoop (newString line) line.length false lines

end source

section reprompt

theorem indent_some (hb : b.text.length = repromptText.length + i)
    (hfits : b.text.length + n ≤ b.size) :
    ∃ b', indent i n b = some b' ∧ b'.size = b.size ∧
      b'.text = b.text ++ List.replicate n ' ' := by
  induction n generalizing i b with
  | zero => exact ⟨b, rfl, rfl, (List.append_nil _).symm⟩
  | succ n ih =>
    obtain ⟨b₁, hb₁, hsize, htext⟩ := Buffer.memcpy_end (s := [' ']) hb.symm
      (by simp only [List.length_singleton]; omega)
    have hlen : b₁.text.length = b.text.length + 1 := by
      rw [htext, List.length_append, List.length_singleton]
    obtain ⟨b₂, hb₂, hsize₂, htext₂⟩ := @ih (i + 1) b₁ (by omega) (by omega)
    refine ⟨b₂, ?_, hsize₂.trans hsize, ?_⟩
    · rw [indent, hb₁]
      exact hb₂
    · rw [htext₂, htext, List.append_assoc]
      rfl

theorem indent_none (hb : b.text.length = repromptText.length + i)
    (hlong : b.size < b.text.length + n) : indent i n b = none := by
  induction n generalizing i b with
  | zero =>
    have := b.fits
    omega
  | succ n ih =>
    rw [indent]
    cases hm : b.memcpy (repromptText.length + i) [' '] with
    | none => rfl
    | some b₁ =>
      have hfits : ¬ b.memcpy (repromptText.length + i) [' '] = none := by simp [hm]
      rw [Buffer.memcpy_none, List.length_singleton] at hfits
      obtain ⟨b₂, hb₂, hsize, htext⟩ := Buffer.memcpy_end (s := [' ']) hb.symm
        (by simp only [List.length_singleton]; omega)
      obtain rfl := Option.some.inj (hm.symm.trans hb₂)
      have hlen : b₁.text.length = b.text.length + 1 := by
        rw [htext, List.length_append, List.length_singleton]
      exact ih (by omega) (by omega)

theorem reprompt_some {expr : Text} (hnet : (getNetBalance expr).toNat ≤ 509) :
    ∃ buff, reprompt expr = some buff ∧
      buff.text = repromptText ++ List.replicate (getNetBalance expr).toNat ' ' := by
  have hlen : repromptText.length = 2 := rfl
  obtain ⟨b₁, hb₁, hsize₁, htext₁⟩ := @Buffer.strcpy_start (.malloc bufSize) repromptText
    (by decide)
  change b₁.size = 512 at hsize₁
  obtain ⟨b₂, hb₂, hsize₂, htext₂⟩ := @indent_some (getNetBalance expr).toNat 0 b₁
    (by rw [htext₁, Nat.add_zero]) (by rw [htext₁]; omega)
  have hlen₂ : b₂.text.length = 2 + (getNetBalance expr).toNat := by
    rw [htext₂, htext₁, List.length_append, List.length_replicate, hlen]
  obtain ⟨b₃, hb₃, -, htext₃⟩ := @Buffer.strcpy_end b₂
    (repromptText.length + (getNetBalance expr).toNat) [] (by omega)
    (by rw [List.length_nil]; omega)
  refine ⟨b₃, ?_, ?_⟩
  · simp only [reprompt, getIndentationSize, hb₁, Option.bind_eq_bind, Option.bind_some, hb₂, hb₃]
  · rw [htext₃, List.append_nil, htext₂, htext₁]

theorem reprompt_none {expr : Text} (hnet : 509 < (getNetBalance expr).toNat) :
    reprompt expr = none := by
  have hlen : repromptText.length = 2 := rfl
  obtain ⟨b₁, hb₁, hsize₁, htext₁⟩ := @Buffer.strcpy_start (.malloc bufSize) repromptText
    (by decide)
  change b₁.size = 512 at hsize₁
  simp only [reprompt, getIndentationSize, hb₁, Option.bind_eq_bind, Option.bind_some]
  rw [Option.bind_eq_none_iff]
  intro b₂ hb₂
  -- with 510 spaces the buffer is full, and only the terminator is too much
  rw [Buffer.strcpy_none, List.length_nil]
  by_cases hfull : 510 < (getNetBalance expr).toNat
  · rw [indent_none (by rw [htext₁, Nat.add_zero]) (by rw [htext₁]; omega)] at hb₂
    cases hb₂
  · obtain ⟨b, hb, hsize, -⟩ := @indent_some (getNetBalance expr).toNat 0 b₁
      (by rw [htext₁, Nat.add_zero]) (by rw [htext₁]; omega)
    obtain rfl := Option.some.inj (hb₂.symm.trans hb)
    omega

/-- The prompt fits in the buffer if and only if at most 509 parentheses are open. -/
theorem reprompt_fits (expr : Text) :
    (∃ buff, reprompt expr = some buff) ↔ (getNetBalance expr).toNat ≤ 509 := by
  constructor
  · rintro ⟨buff, hbuff⟩
    by_contra hlong
    rw [reprompt_none (by omega)] at hbuff
    cases hbuff
  · intro hnet
    obtain ⟨buff, hbuff, -⟩ := reprompt_some hnet
    exact ⟨buff, hbuff⟩

end reprompt

section reader

/-- A text that the reader asks to go on: valid, and not balanced. -/
def Unfinished (expr : Text) : Prop :=
  isValid expr = true ∧ isBalanced expr = false

/-- The text of some lines. -/
def joinedLines (run : List Text) : Text :=
  [' '].intercalate run

/-- The text of each beginning of some lines is unfinished. -/
def UnfinishedRun (run : List Text) : Prop :=
  ∀ p, p <+: run → p ≠ [] → Unfinished (joinedLines p)

/-- The first of some lines is not all whitespace. -/
def Starts (lines : List Text) : Prop :=
  ∀ line ∈ lines.head?, emptyExpression line = false

/-- What the reader is to return for the lines that it is given. -/
inductive Answers : List Text → Prompted → Prop
  | found {blanks run rest : List Text} {line : Text}
      (hblank : ∀ l ∈ blanks, emptyExpression l = true) (hstart : Starts (run ++ [line]))
      (hrun : UnfinishedRun run) (hvalid : isValid (joinedLines (run ++ [line])) = true)
      (hbalanced : isBalanced (joinedLines (run ++ [line])) = true) :
      Answers (blanks ++ run ++ line :: rest) ⟨some (joinedLines (run ++ [line])), false, rest⟩
  | rejected {blanks run rest : List Text} {line : Text}
      (hblank : ∀ l ∈ blanks, emptyExpression l = true) (hstart : Starts (run ++ [line]))
      (hrun : UnfinishedRun run) (hvalid : isValid (joinedLines (run ++ [line])) = false) :
      Answers (blanks ++ run ++ line :: rest) ⟨none, false, rest⟩
  | ended {blanks run : List Text}
      (hblank : ∀ l ∈ blanks, emptyExpression l = true) (hstart : Starts run)
      (hrun : UnfinishedRun run) : Answers (blanks ++ run) ⟨none, true, []⟩

theorem unfinished_opens (hn : 0 < n) :
    Unfinished (List.replicate n '(') ∧ getNetBalance (List.replicate n '(') = n := by
  have hheight (k m : Nat) :
      Brackets.height m (brackets (List.replicate k '(')) = some (m + k) := by
    induction k generalizing m with
    | zero => rfl
    | succ k ih => exact (ih (m + 1)).trans (congrArg some (by omega))
  have hzero := hheight n 0
  rw [Nat.zero_add] at hzero
  have hc : Counts 0 n (List.replicate n '(') := counts_iff_height.2 hzero
  refine ⟨⟨hc.valid, ?_⟩, getNetBalance_height hzero⟩
  rw [← Bool.not_eq_true, hc.isBalanced]
  omega

theorem joinedLines_append (hrun : run ≠ []) (line : Text) :
    joinedLines (run ++ [line]) = joinedLines run ++ ' ' :: line := by
  induction run with
  | nil => exact absurd rfl hrun
  | cons l run ih =>
    cases run with
    | nil => simp [joinedLines]
    | cons l' run =>
      have h := ih (List.cons_ne_nil _ _)
      simp only [joinedLines, List.cons_append, List.intercalate_cons_cons] at h ⊢
      simp only [h, List.append_assoc]

theorem UnfinishedRun.append (hrun : UnfinishedRun run)
    (hline : Unfinished (joinedLines (run ++ [line]))) : UnfinishedRun (run ++ [line]) := by
  intro p hp hne
  rcases List.prefix_concat_iff.1 hp with rfl | hp
  · exact hline
  · exact hrun p hp hne

theorem promptLoop_found (hv : isValid e.text = true) (hb : isBalanced e.text = true) :
    promptLoop e n false lines = some ⟨some e.text, false, lines⟩ := by
  cases lines <;> simp [promptLoop, hv, hb]

theorem promptLoop_rejected (hv : isValid e.text = false) :
    promptLoop e n false lines = some ⟨none, false, lines⟩ := by
  cases lines <;> simp [promptLoop, hv]

/-- At the end of the input the length of `NULL` is asked for. -/
theorem promptLoop_end (hu : Unfinished e.text) : promptLoop e n false [] = none := by
  simp [promptLoop, hu.1, hu.2, strlen]

theorem promptLoop_overflow (hu : Unfinished e.text)
    (hlong : 509 < (getNetBalance e.text).toNat) : promptLoop e n false lines = none := by
  cases lines <;> simp [promptLoop, hu.1, hu.2, reprompt_none hlong]

/-- A line is joined to the text by a space. -/
theorem promptLoop_next (hu : Unfinished e.text) (hn : n = e.text.length)
    (hshort : (getNetBalance e.text).toNat ≤ 509) :
    ∃ e' : Buffer, e'.text = e.text ++ ' ' :: line ∧
      promptLoop e n false (line :: lines) = promptLoop e' e'.text.length false lines := by
  obtain ⟨buff, hbuff, -⟩ := reprompt_some hshort
  have hgrow : (e.realloc (n + 1 + line.length + 1)).text = e.text :=
    Buffer.realloc_text (by omega)
  obtain ⟨e₁, he₁, hsize, htext⟩ := @Buffer.strcpy_end (e.realloc (n + 1 + line.length + 1)) n
    [' '] (by rw [hgrow, hn]) (by rw [Buffer.realloc_size, List.length_singleton]; omega)
  rw [hgrow] at htext
  rw [Buffer.realloc_size] at hsize
  obtain ⟨e₂, he₂, -, htext₂⟩ := @Buffer.strcpy_end e₁ (n + 1) line
    (by rw [htext, List.length_append, hn]; rfl) (by omega)
  refine ⟨e₂, by rw [htext₂, htext, List.append_assoc]; rfl, ?_⟩
  have hlen : e₂.text.length = n + (1 + line.length) := by
    rw [htext₂, htext, List.length_append, List.length_append, List.length_singleton]
    omega
  rw [promptLoop, hlen]
  simp only [hu.1, hu.2, Bool.and_false, Bool.false_eq_true, if_false, Bool.not_true,
    Bool.or_false, hbuff, Option.bind_eq_bind, Option.bind_some, strlen, he₁, he₂]

theorem Starts.append (h : Starts run) (hne : run ≠ []) : Starts (run ++ rest) := by
  cases run with
  | nil => exact absurd rfl hne
  | cons l run => exact h

/-- The loop asks for another line, or it returns what it should. -/
theorem promptLoop_stops (he : e.text = joinedLines (p ++ [line])) (hrun : UnfinishedRun p)
    (hblank : ∀ l ∈ blanks, emptyExpression l = true) (hstart : Starts (p ++ [line])) :
    Unfinished e.text ∨ ∃ r, promptLoop e e.text.length false lines = some r ∧
      Answers (blanks ++ p ++ line :: lines) r := by
  cases hv : isValid e.text with
  | false => exact .inr ⟨_, promptLoop_rejected hv, .rejected hblank hstart hrun (he ▸ hv)⟩
  | true =>
    cases hb : isBalanced e.text with
    | true =>
      refine .inr ⟨_, promptLoop_found hv hb, ?_⟩
      rw [he]
      exact .found hblank hstart hrun (he ▸ hv) (he ▸ hb)
    | false => exact .inl ⟨hv, hb⟩

/-- While the lines that are joined stay unfinished and the prompt for them fits, the loop goes on,
until a line completes them or makes them invalid. -/
theorem promptLoop_answers (he : e.text = joinedLines (p ++ [line])) (hrun : UnfinishedRun p)
    (hblank : ∀ l ∈ blanks, emptyExpression l = true) (hstart : Starts (p ++ [line]))
    (hcond : ∀ run rest, lines = run ++ rest → UnfinishedRun (p ++ line :: run) →
      rest ≠ [] ∧ (getNetBalance (joinedLines (p ++ line :: run))).toNat ≤ 509) :
    ∃ r, promptLoop e e.text.length false lines = some r ∧
      Answers (blanks ++ p ++ line :: lines) r := by
  induction lines generalizing p line e with
  | nil =>
    rcases promptLoop_stops he hrun hblank hstart with hu | hr
    · exact absurd rfl (hcond [] [] rfl (hrun.append (he ▸ hu))).1
    · exact hr
  | cons next lines ih =>
    rcases promptLoop_stops he hrun hblank hstart with hu | hr
    · have hrun' : UnfinishedRun (p ++ [line]) := hrun.append (he ▸ hu)
      have hshort := (hcond [] (next :: lines) rfl hrun').2
      rw [← he] at hshort
      obtain ⟨e', he', hloop⟩ := @promptLoop_next _ e next lines hu rfl hshort
      have hne : p ++ [line] ≠ [] := by simp
      rw [he, ← joinedLines_append hne] at he'
      obtain ⟨r, hr, ha⟩ := ih he' hrun' (hstart.append hne) fun run rest hlines hrun => by
        rw [List.append_assoc, List.singleton_append] at hrun ⊢
        exact hcond (next :: run) rest (congrArg (next :: ·) hlines) hrun
      refine ⟨r, hloop.trans hr, ?_⟩
      simpa only [List.append_assoc, List.singleton_append] using ha
    · exact hr

/-- When the input ends before they are finished, or the prompt for them does not fit, there is no
result. -/
theorem promptLoop_fails (he : e.text = joinedLines (p ++ [line]))
    (hrun : UnfinishedRun (p ++ line :: run))
    (hbad : rest = [] ∨ 509 < (getNetBalance (joinedLines (p ++ line :: run))).toNat) :
    promptLoop e e.text.length false (run ++ rest) = none := by
  induction run generalizing p line e with
  | nil =>
    have hu : Unfinished e.text := he ▸ hrun _ List.prefix_rfl (by simp)
    rcases hbad with rfl | hlong
    · exact promptLoop_end hu
    · exact promptLoop_overflow hu (he ▸ hlong)
  | cons next run ih =>
    have hne : p ++ [line] ≠ [] := by simp
    have hu : Unfinished e.text := he ▸ hrun _ ⟨next :: run, by simp⟩ hne
    by_cases hshort : (getNetBalance e.text).toNat ≤ 509
    · obtain ⟨e', he', hloop⟩ := @promptLoop_next _ e next (run ++ rest) hu rfl hshort
      rw [he, ← joinedLines_append hne] at he'
      have happend : p ++ [line] ++ next :: run = p ++ line :: next :: run := by simp
      exact hloop.trans (ih he' (happend ▸ hrun) (happend ▸ hbad))
    · exact promptLoop_overflow hu (by omega)

theorem prompt_blanks (hblank : ∀ l ∈ blanks, emptyExpression l = true) :
    getExpressionFromPrompt (blanks ++ lines) = getExpressionFromPrompt lines := by
  induction blanks with
  | nil => rfl
  | cons l blanks ih =>
    rw [List.cons_append, getExpressionFromPrompt, if_pos (hblank l (by simp))]
    exact ih fun m hm => hblank m (by simp [hm])

theorem prompt_start (hline : emptyExpression line = false) :
    getExpressionFromPrompt (line :: lines) =
      promptLoop (newString line) (newString line).text.length false lines := by
  rw [getExpressionFromPrompt, if_neg (by simp [hline])]
  rfl

/-- The blank lines, and the first line that is not. -/
theorem exists_start (lines : List Text) : ∃ blanks rest, lines = blanks ++ rest ∧
    (∀ l ∈ blanks, emptyExpression l = true) ∧ Starts rest := by
  refine ⟨lines.takeWhile emptyExpression, lines.dropWhile emptyExpression,
    List.takeWhile_append_dropWhile.symm, fun l hl => List.mem_takeWhile_imp hl, ?_⟩
  intro l hl
  have h := List.head?_dropWhile_not emptyExpression lines
  rw [Option.mem_def.1 hl] at h
  exact h

/-- The reader returns what it should if and only if each unfinished beginning of the expression is
followed by another line and leaves at most 509 parentheses open. Otherwise it asks for the length
of `NULL`, or writes the prompt past the end of the buffer. -/
theorem prompt_iff (lines : List Text) :
    (∃ r, getExpressionFromPrompt lines = some r ∧ Answers lines r) ↔
    ∀ blanks run rest, lines = blanks ++ run ++ rest → run ≠ [] →
      (∀ l ∈ blanks, emptyExpression l = true) → Starts run → UnfinishedRun run →
      rest ≠ [] ∧ getNetBalance (joinedLines run) ≤ 509 := by
  constructor
  · rintro ⟨r, hr, -⟩ blanks run rest rfl hne hblank hstart hrun
    by_contra hbad
    cases run with
    | nil => exact hne rfl
    | cons line run =>
      have hbad : rest = [] ∨ 509 < (getNetBalance (joinedLines ([] ++ line :: run))).toNat := by
        by_cases hrest : rest = []
        · exact .inl hrest
        · refine .inr (Nat.lt_of_not_le fun hle => hbad ⟨hrest, ?_⟩)
          rw [List.nil_append] at hle
          omega
      rw [List.append_assoc, prompt_blanks hblank, List.cons_append,
        prompt_start (hstart line rfl), promptLoop_fails (p := []) _ hrun hbad] at hr
      · cases hr
      · simp [newString, joinedLines]
  · intro hcond
    obtain ⟨blanks, rest, rfl, hblank, hstart⟩ := exists_start lines
    rw [prompt_blanks hblank]
    cases rest with
    | nil => exact ⟨_, rfl, .ended hblank hstart fun p hp hne => absurd (List.prefix_nil.1 hp) hne⟩
    | cons line lines =>
      rw [prompt_start (hstart line rfl)]
      have htext : (newString line).text = joinedLines ([] ++ [line]) := by
        simp [newString, joinedLines]
      rw [← List.append_nil blanks]
      refine promptLoop_answers htext (fun p hp hne => absurd (List.prefix_nil.1 hp) hne) hblank
        hstart fun run rest hlines hrun => ?_
      have h := hcond blanks (line :: run) rest (by simp [hlines]) (by simp) hblank hstart hrun
      exact ⟨h.1, by rw [List.nil_append]; omega⟩

/-- The input ends behind an open parenthesis: there should be a result, and there is none. -/
theorem prompt_unclosed : Answers ["(".toList] ⟨none, true, []⟩ ∧
    ¬∃ r, getExpressionFromPrompt ["(".toList] = some r ∧ Answers ["(".toList] r := by
  constructor
  · refine @Answers.ended [] ["(".toList] nofun ?_ fun p hp hne => ?_
    · intro l hl
      obtain rfl := Option.some.inj hl
      decide
    · rcases List.prefix_concat_iff.1 (show p <+: [] ++ ["(".toList] from hp) with rfl | hp
      · exact ⟨by decide, by decide⟩
      · exact absurd (List.prefix_nil.1 hp) hne
  · have hnone : getExpressionFromPrompt ["(".toList] = none := by decide
    rintro ⟨r, hr, -⟩
    rw [hnone] at hr
    cases hr

end reader

end Lisp
