import Lisp.ParserTermination
import Lisp.Evaluator

/-! Running a program file (`interpret_program`): the lines that `fgets` returns, the texts
that `get_expression_from_file` puts together from them, and the expressions evaluated. -/
namespace Lisp

section source
variable {F : Type} [CFloat F] {σ : Type}

def bufSize : Nat := 512

/-- How many characters `fgets` reads of a file, at most `size`: up to and with a newline. -/
def lineLength : Nat → Text → Nat
  | 0, _ => 0
  | _ + 1, [] => 0
  | size + 1, c :: s => if c = '\n' then 1 else lineLength size s + 1

/-- A program file and the buffer `buff`: what is left of the file, how many characters of
it have been read, and the text in the buffer. -/
structure Reader where
  file : Text
  pos : Nat
  buff : Text

/-- `fgets`, and whether it returns `NULL`; at the end of the file the buffer stays. -/
def fgets (r : Reader) : Bool × Reader :=
  if r.file = [] then (true, r) else
  let size := lineLength (bufSize - 1) r.file
  (false, ⟨r.file.drop size, r.pos + size, r.file.take size⟩)

/-- What `get_expression_from_file` returns and stores. -/
structure Gathered where
  expr : Option Text
  eof : Bool
  syntaxError : Bool
  reader : Reader

theorem lineLength_pos {size : Nat} {file : Text} (hf : file ≠ []) (hs : 0 < size) :
    0 < lineLength size file := by
  cases size with
  | zero => exact absurd hs (Nat.lt_irrefl 0)
  | succ size =>
    cases file with
    | nil => exact absurd rfl hf
    | cons c file =>
      simp only [lineLength]
      split_ifs
      all_goals omega

theorem fgets_shorter {r : Reader} (h : (fgets r).1 = false) :
    (fgets r).2.file.length < r.file.length := by
  by_cases hf : r.file = []
  · simp [fgets, hf] at h
  · have hpos : 0 < lineLength (bufSize - 1) r.file := lineLength_pos hf (by decide)
    have hlen := List.length_pos_iff.2 hf
    simp [fgets, hf]
    omega

theorem fgets_file_le (r : Reader) : (fgets r).2.file.length ≤ r.file.length := by
  cases h : (fgets r).1 with
  | false => exact (fgets_shorter h).le
  | true =>
    by_cases hf : r.file = []
    · simp [fgets, hf]
    · simp [fgets, hf] at h

/-- The loop of `get_expression_from_file`. -/
def gather (eof : Bool) (e : Text) (r : Reader) : Gathered :=
  if isValid e && isBalanced e then ⟨some e, eof, false, r⟩
  else if !isValid e then ⟨none, eof, true, r⟩
  else if eof then ⟨none, eof, false, r⟩
  else gather (fgets r).1 (e ++ (fgets r).2.buff) (fgets r).2
termination_by r.file.length + if eof then 0 else 1
decreasing_by
  rename_i heof
  have hle := fgets_file_le r
  cases hnull : (fgets r).1 with
  | false =>
    have := fgets_shorter hnull
    simp [heof]
    omega
  | true =>
    simp [heof]
    omega

def getExpressionFromFile (r : Reader) : Gathered :=
  gather (fgets r).1 (fgets r).2.buff (fgets r).2

theorem gather_file_le (eof : Bool) (e : Text) (r : Reader) :
    (gather eof e r).reader.file.length ≤ r.file.length := by
  fun_induction gather eof e r with
  | case1 => exact le_rfl
  | case2 => exact le_rfl
  | case3 => exact le_rfl
  | case4 _ e r _ _ _ ih => exact ih.trans (fgets_file_le r)

theorem gather_eof {eof : Bool} {e : Text} {r : Reader} (h : (gather eof e r).eof = false) :
    eof = false := by
  cases eof with
  | false => rfl
  | true =>
    rw [gather] at h
    split_ifs at h with _ _ heof
    exact absurd rfl heof

theorem getExpression_shorter {r : Reader} (h : (getExpressionFromFile r).eof = false) :
    (getExpressionFromFile r).reader.file.length < r.file.length :=
  Nat.lt_of_le_of_lt (gather_file_le _ _ _) (fgets_shorter (gather_eof h))

/-- `read_expression`: the object and the number of characters that the parser read of the
text, which the source does not ask for. -/
def readExpression (fuel : Nat) (expr : Option Text) : Except Fault (Obj F × Nat) :=
  match expr with
  | none => .ok (.null, 0)
  | some e => parseExpression e fuel 0

/-- An expression that was passed to `eval`: the part of the file that it was read from,
and the object. -/
structure Passed (F : Type) where
  start : Nat
  stop : Nat
  object : Obj F

/-- Why the loop of `interpret_program` ends. -/
inductive Stop where
  | endOfFile
  | syntaxError
  | nullResult (eof : Bool)
  | noReturn (fault : Fault)
deriving DecidableEq

/-- Where in the file the next text begins: at the end of the file it is the text that the
buffer still holds. -/
def Reader.start (r : Reader) : Nat :=
  if r.file = [] then r.pos - r.buff.length else r.pos

def passed (r : Reader) (e : Text) (parsed : Obj F × Nat) : Passed F :=
  ⟨r.start + (e.takeWhile isWhiteSpace).length, r.start + parsed.2, parsed.1⟩

/-- `interpret_program`: what it passes to `eval`, and how it ends. `evaluate` is `eval` and
the collection after it, and `none` if `eval` returns `NULL`. -/
def interpretProgram (evaluate : σ → Obj F → Option σ) (fuel : Nat) (r : Reader) (s : σ) :
    List (Passed F) × Stop :=
  if (getExpressionFromFile r).syntaxError then ([], .syntaxError) else
  match readExpression fuel (getExpressionFromFile r).expr with
  | .error fault => ([], .noReturn fault)
  | .ok parsed =>
    if parsed.1.isNull then
      if _ : (getExpressionFromFile r).eof then ([], .endOfFile)
      else interpretProgram evaluate fuel (getExpressionFromFile r).reader s
    else
      let o := passed r ((getExpressionFromFile r).expr.getD []) parsed
      match evaluate s parsed.1 with
      | none => ([o], .nullResult (getExpressionFromFile r).eof)
      | some s =>
        if _ : (getExpressionFromFile r).eof then ([o], .endOfFile)
        else
          let rest := interpretProgram evaluate fuel (getExpressionFromFile r).reader s
          (o :: rest.1, rest.2)
termination_by r.file.length
decreasing_by
  all_goals
    rename_i heof
    exact getExpression_shorter (by simpa using heof)

/-- `eval` of a parsed expression and the collection after it, by the evaluator itself. -/
def evaluateObject (fuel : Nat) (s : Interpreter F) (o : Obj F) : Option (Interpreter F) :=
  let x : Eval F Nat := do
    let a ← onHeap fun h => load h o
    eval fuel a
  match ExceptState.exec x s with
  | (.ok result, s) => if result = 0 then none else some (collectGarbage s)
  | (.error _, _) => none

end source

end Lisp
