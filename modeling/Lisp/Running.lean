import Lisp.Lifetimes
import Lisp.PrintingBuffers

/-! A run of the program (`run_lisp`): one interpreter reads a library, a script and what is typed
at the prompt, and is disposed of at the end. -/
namespace Lisp
open ExceptState
variable {F : Type}

/-- A text that was written to `stdout` or to `stderr`. -/
inductive Output where
  | stdout (text : Text)
  | stderr (text : Text)
deriving DecidableEq, Repr

/-- A program file. -/
structure Script where
  path : Text
  text : Text

/-- The state of a run, with what the loops of `interpret_program`, `interpret_fd` and `run_lisp`
have written: what `eval` logs of an error is left out. `expressions` are the objects that
`read_expression` has returned. -/
structure Running (F : Type) where
  interpreter : Interpreter F
  buff : Text
  output : List Output
  expressions : List Nat

section source

/-- `KBLU`. -/
def kblu : Text := "\x1B[34m".toList

/-- `KRED`. -/
def kred : Text := "\x1B[31m".toList

/-- `ERROR_BUFFER_SIZE`. -/
def errorBufferSize : Nat := 256

/-- What `log_message` and `log_error` write: `vsnprintf` keeps what fits the buffer. -/
def logText (color : Text) (context : String) (message : Text) : Text :=
  color ++ "\t[".toList ++ context.toList ++ "]: ".toList ++ message.take (errorBufferSize - 1) ++
    "\n".toList ++ Buffers.reset

def logMessage (context : String) (message : Text) : Output :=
  .stdout (logText kblu context message)

def logError (context : String) (message : Text) : Output :=
  .stderr (logText kred context message)

def Fault.halt : Fault → Halt
  | .outOfBounds => .undefined
  | .outOfFuel => .outOfFuel

namespace Running

def log (run : Running F) (verbose : Bool) (output : Output) : Running F :=
  if verbose then { run with output := run.output ++ [output] } else run

/-- `collect_garbage`. -/
def collect (run : Running F) : Running F :=
  { run with interpreter := collectGarbage run.interpreter }

variable [CFloat F]

/-- `print_object`. -/
def print (run : Running F) (address : Primitive → Text) (o : Nat) : Except Halt (Running F) :=
  match Buffers.unparse address (treeOf run.interpreter.heap o) with
  | .error _ => .error .undefined
  | .ok none => .ok run
  | .ok (some text) => .ok (run.log true (.stdout (text ++ ['\n'])))

/-- `eval` of an expression that was read. -/
def evaluate (run : Running F) (fuel : Nat) (tree : Obj F) : Except Halt (Nat × Running F) :=
  match exec (evalObject fuel tree) run.interpreter with
  | (.error e, _) => .error e
  | (.ok result, s) => .ok (result, { run with
      interpreter := s
      expressions := run.expressions ++ parsedObjects run.interpreter.heap tree })

/-- The loop of `interpret_program`. -/
def programLoop (address : Primitive → Text) (fuel : Nat) (verbose : Bool) (r : Reader)
    (run : Running F) : Except Halt (Running F) :=
  let read := getExpressionFromFile r
  let run := { run with buff := read.reader.buff }
  if read.syntaxError then
    .ok (run.log true (logError "interpret_program" "Syntax error.".toList))
  else
    match readExpression fuel read.expr with
    | .error fault => .error fault.halt
    | .ok parsed =>
      if parsed.1.isNull then
        if _ : read.eof then .ok run else programLoop address fuel verbose read.reader run
      else
        match run.evaluate fuel parsed.1 with
        | .error e => .error e
        | .ok (result, run) =>
          if result = 0 then
            .ok (run.log verbose (logMessage "interpret_program" "NULL".toList))
          else
            match if verbose then run.print address result else .ok run with
            | .error e => .error e
            | .ok run =>
              if _ : read.eof then .ok run.collect
              else programLoop address fuel verbose read.reader run.collect
termination_by r.file.length
decreasing_by
  all_goals
    rename_i heof
    exact getExpression_shorter (by simpa using heof)

/-- `interpret_program`. -/
def interpretProgram (address : Primitive → Text) (fuel : Nat) (verbose : Bool) (text : Text)
    (run : Running F) : Except Halt (Running F) :=
  programLoop address fuel verbose ⟨text, 0, run.buff⟩ run

end Running

theorem promptLoop_lines {e : CString.Buffer} {n : Nat} {eof : Bool} {lines : List Text}
    {p : Prompted} (h : promptLoop e n eof lines = some p) : p.lines.length ≤ lines.length := by
  induction lines generalizing e n eof with
  | nil =>
    rw [promptLoop] at h
    split_ifs at h
    · cases h
      exact le_rfl
    · cases h
      exact le_rfl
    · simp [strlen] at h
  | cons line lines ih =>
    rw [promptLoop] at h
    split_ifs at h
    · cases h
      exact le_rfl
    · cases h
      exact le_rfl
    · simp only [Option.bind_eq_bind, Option.bind_eq_some_iff] at h
      obtain ⟨_, -, _, -, _, -, _, -, h⟩ := h
      exact (ih h).trans (Nat.le_succ _)

/-- An expression takes a line. -/
theorem getExpressionFromPrompt_lines {lines : List Text} {p : Prompted}
    (h : getExpressionFromPrompt lines = some p) (heof : p.eof = false) :
    p.lines.length < lines.length := by
  induction lines with
  | nil =>
    cases h
    cases heof
  | cons line lines ih =>
    rw [getExpressionFromPrompt] at h
    split_ifs at h
    · exact (ih h).trans (Nat.lt_succ_self _)
    · exact Nat.lt_succ_of_le (promptLoop_lines h)

namespace Running
variable [CFloat F]

/-- `interpret_fd`, where `readline` returns the given lines. -/
def interpretFd (address : Primitive → Text) (fuel : Nat) (verbose : Bool) (lines : List Text)
    (run : Running F) : Except Halt (Running F) :=
  match _ : getExpressionFromPrompt lines with
  | none => .error .undefined
  | some read =>
    match readExpression fuel read.expression with
    | .error fault => .error fault.halt
    | .ok parsed =>
      if _ : read.eof then .ok run
      else if parsed.1.isNull then
        let run := run.log true (logError "interpret_fd" "Invalid expression".toList)
        interpretFd address fuel verbose read.lines run
      else
        match run.evaluate fuel parsed.1 with
        | .error e => .error e
        | .ok (result, run) =>
          let run := run.log (result == 0 && verbose) (logMessage "interpret_fd" "NULL".toList)
          match run.print address result with
          | .error e => .error e
          | .ok run => interpretFd address fuel verbose read.lines run.collect
termination_by lines.length
decreasing_by
  all_goals
    exact getExpressionFromPrompt_lines ‹getExpressionFromPrompt lines = some read›
      (by simpa using ‹¬read.eof = true›)

end Running

/-- The part of `run_lisp` for one of the two files. -/
def Running.interpretScript [CFloat F] (address : Primitive → Text) (fuel : Nat) (verbose : Bool)
    (message : Text) (script : Option Script) (run : Running F) : Except Halt (Running F) :=
  match script with
  | none => .ok run
  | some file =>
    let run := run.log verbose (logMessage "run_lisp" (message ++ file.path))
    run.interpretProgram address fuel verbose file.text

/-- `run_lisp`: the state before the interpreter is disposed of, and the memory after it. The files
can be read, and there is no history file: the message that names it is left out. -/
def runLisp [CFloat F] (address : Primitive → Text) (fuel : Nat) (bootstrap program : Option Script)
    (runRepl : Bool) (lines : List Text) (verbose : Bool) : Except Halt (Running F × Heap F) := do
  let message := fun text : String => logMessage "run_lisp" text.toList
  let run : Running F := ⟨interpreterInit, [], [], []⟩
  let run := run.log verbose (message "Initializing interpreter.")
  let run ← run.interpretScript address fuel verbose "Interpreting library: ".toList bootstrap
  let run ← run.interpretScript address fuel verbose "Running script: ".toList program
  let run ← (if runRepl then
      let run := run.log verbose (message "Running interactive interpreter.")
      run.interpretFd address fuel verbose lines
    else .ok run)
  let run := run.log verbose (message "Disposing of interpreter.")
  return (run, interpreterDispose run.interpreter)

end source

section histories
variable [CFloat F] {address : Primitive → Text} {fuel : Nat} {verbose : Bool} {r : Reader}
  {run run' : Running F} {lines : List Text} {result : Nat} {parsed : Obj F × Nat}

namespace Running

/-- The interpreter is between two expressions. -/
def Ready (run : Running F) : Prop := History run.interpreter run.expressions

theorem ready_log (output : Output) : (run.log verbose output).Ready ↔ run.Ready := by
  unfold log
  split
  · exact Iff.rfl
  · exact Iff.rfl

omit [CFloat F] in
theorem collect_log (output : Output) :
    (run.log verbose output).collect = run.collect.log verbose output := by
  unfold log
  split
  · rfl
  · rfl

theorem print_ready (hs : run.collect.Ready) (hr : run.print address result = .ok run') :
    run'.collect.Ready := by
  unfold print at hr
  split at hr
  · cases hr
  · cases hr
    exact hs
  · cases hr
    exact hs

/-- The collection that follows an evaluation may be left out if its result is `NULL`. -/
theorem evaluate_ready {text : Text} {e : Int}
    (hr : run.evaluate fuel parsed.1 = .ok (result, run')) (hs : run.Ready)
    (hp : parseExpression text fuel e = .ok parsed) :
    run'.collect.Ready ∧ (result = 0 → run'.Ready) := by
  unfold evaluate at hr
  split at hr
  · cases hr
  next v t hexec =>
    cases hr
    exact ⟨History.object hs hp hexec, fun h0 => .stopped hs hp (h0 ▸ hexec)⟩

theorem shown_ready (hs : run.collect.Ready)
    (hr : (if _ : verbose then run.print address result else .ok run) = .ok run') :
    run'.collect.Ready := by
  split_ifs at hr
  · exact print_ready hs hr
  · exact Except.ok.inj hr ▸ hs

theorem read_parsed {expr : Option Text} (h : readExpression fuel expr = .ok parsed)
    (hnull : ¬(parsed.1 : Obj F).isNull = true) :
    ∃ text, parseExpression text fuel 0 = .ok parsed := by
  cases expr with
  | none =>
    cases h
    exact absurd rfl hnull
  | some text => exact ⟨text, h⟩

theorem programLoop_ready (hs : run.Ready)
    (hr : run.programLoop address fuel verbose r = .ok run') : run'.Ready := by
  fun_induction programLoop address fuel verbose r run with
  | case1 =>
    obtain rfl := Except.ok.inj hr
    exact (ready_log _).2 hs
  | case2 => cases hr
  | case3 =>
    obtain rfl := Except.ok.inj hr
    exact hs
  | case4 _ _ _ _ _ _ _ _ _ ih => exact ih hs hr
  | case5 => cases hr
  | case6 _ _ _ _ _ _ hread hnull _ heval =>
    obtain ⟨text, hp⟩ := read_parsed hread hnull
    obtain rfl := Except.ok.inj hr
    exact (ready_log _).2 ((evaluate_ready heval hs hp).2 rfl)
  | case7 => cases hr
  | case8 _ _ _ _ _ _ hread hnull _ _ heval _ _ hshown =>
    obtain ⟨text, hp⟩ := read_parsed hread hnull
    obtain rfl := Except.ok.inj hr
    exact shown_ready (evaluate_ready heval hs hp).1 hshown
  | case9 _ _ _ _ _ _ hread hnull _ _ heval _ _ hshown _ ih =>
    obtain ⟨text, hp⟩ := read_parsed hread hnull
    exact ih (shown_ready (evaluate_ready heval hs hp).1 hshown) hr

theorem interpretFd_ready (hs : run.Ready)
    (hr : run.interpretFd address fuel verbose lines = .ok run') : run'.Ready := by
  fun_induction interpretFd address fuel verbose lines run with
  | case1 => cases hr
  | case2 => cases hr
  | case3 =>
    obtain rfl := Except.ok.inj hr
    exact hs
  | case4 _ _ _ _ _ _ _ _ _ ih => exact ih ((ready_log _).2 hs) hr
  | case5 => cases hr
  | case6 => cases hr
  | case7 _ _ _ _ _ hread _ hnull _ _ heval _ _ hprint ih =>
    obtain ⟨text, hp⟩ := read_parsed hread hnull
    refine ih (print_ready ?_ hprint) hr
    exact (collect_log _).symm ▸ (ready_log _).2 (evaluate_ready heval hs hp).1

theorem interpretScript_ready {message : Text} {script : Option Script} (hs : run.Ready)
    (hr : run.interpretScript address fuel verbose message script = .ok run') : run'.Ready := by
  cases script with
  | none => exact Except.ok.inj hr ▸ hs
  | some file =>
    have hloop : programLoop address fuel verbose _ (run.log verbose _) = .ok run' := hr
    exact programLoop_ready ((ready_log _).2 hs) hloop

end Running

theorem runLisp_ready {bootstrap program : Option Script} {runRepl : Bool} {h : Heap F}
    (hr : runLisp address fuel bootstrap program runRepl lines verbose = .ok (run, h)) :
    run.Ready ∧ h = interpreterDispose run.interpreter := by
  unfold runLisp at hr
  obtain ⟨run₁, h₁, hr⟩ := ok_of_bind hr
  obtain ⟨run₂, h₂, hr⟩ := ok_of_bind hr
  obtain ⟨run₃, h₃, hr⟩ := ok_of_bind hr
  obtain ⟨rfl, rfl⟩ := Prod.mk.inj (Except.ok.inj hr)
  have hready : run₂.Ready := by
    refine Running.interpretScript_ready (Running.interpretScript_ready ?_ h₁) h₂
    exact (Running.ready_log _).2 .init
  refine ⟨(Running.ready_log _).2 ?_, rfl⟩
  cases runRepl with
  | false => exact Except.ok.inj h₃ ▸ hready
  | true => exact Running.interpretFd_ready ((Running.ready_log _).2 hready) h₃

/-- However `run_lisp` ends, no object that the environment needs has been freed, and what is never
freed is the expressions that were read. -/
theorem runLisp_dispose {bootstrap program : Option Script} {runRepl : Bool} {h : Heap F}
    (hr : runLisp address fuel bootstrap program runRepl lines verbose = .ok (run, h))
    (hstored : ∀ x ∈ run.interpreter.trace.stored,
      x ∈ slotsOf run.interpreter.heap run.interpreter.env) :
    (∀ a, Reachable run.interpreter.heap run.interpreter.env a → ¬Freed run.interpreter.heap a) ∧
      (interpreterDisposed run.interpreter).Nodup ∧
      ∀ a, 0 < a → a ≤ h.length → (Freed h a ↔ a ∉ run.expressions) := by
  obtain ⟨hready, rfl⟩ := runLisp_ready hr
  obtain ⟨c, hstate, hc⟩ := hready.managed
  rw [← hstate] at hstored ⊢
  obtain ⟨hnodup, hlive, hdispose⟩ := hc.dispose ((contained_iff hc.below).2 hstored)
  refine ⟨fun a hreach hf => ?_, hnodup, fun a hpos hle => hdispose a hpos ?_⟩
  · exact hlive a ((c.mem_globals hc.below).2 ⟨hreach, Nat.pos_iff_ne_zero.1 hf.le.1⟩) hf
  · rwa [length_interpreterDispose] at hle

section prompt
variable {read : Prompted} {run₁ run₂ : Running F}
  (hread : getExpressionFromPrompt lines = some read)
  (hp : readExpression fuel read.expression = .ok parsed)
include hread hp

theorem Running.interpretFd_end (heof : read.eof = true) :
    run.interpretFd address fuel verbose lines = .ok run := by
  rw [Running.interpretFd]
  split
  · simp_all
  · simp_all

theorem Running.interpretFd_invalid (heof : read.eof = false) (hnull : parsed.1.isNull = true) :
    run.interpretFd address fuel verbose lines =
      (run.log true (logError "interpret_fd" "Invalid expression".toList)).interpretFd address fuel
        verbose read.lines := by
  rw [Running.interpretFd]
  split
  · simp_all
  next read' hread' =>
    obtain rfl := Option.some.inj (hread'.symm.trans hread)
    simp only [hp, heof, hnull, Bool.false_eq_true, dite_false, if_true]

theorem Running.interpretFd_object (heof : read.eof = false) (hnull : parsed.1.isNull = false)
    (heval : run.evaluate fuel parsed.1 = .ok (result, run₁))
    (hprint : (run₁.log (result == 0 && verbose) (logMessage "interpret_fd" "NULL".toList)).print
      address result = .ok run₂) :
    run.interpretFd address fuel verbose lines =
      run₂.collect.interpretFd address fuel verbose read.lines := by
  rw [Running.interpretFd]
  split
  · simp_all
  next read' hread' =>
    obtain rfl := Option.some.inj (hread'.symm.trans hread)
    simp only [hp, heof, hnull, heval, hprint, Bool.false_eq_true, dite_false, if_false]

end prompt

/-- A session of one expression at the prompt. -/
theorem runLisp_line {line expr text : Text} {s : Interpreter F}
    (hread : getExpressionFromPrompt [line] = some ⟨some expr, false, []⟩)
    (hp : readExpression fuel (some expr) = .ok parsed) (hnull : parsed.1.isNull = false)
    (hx : exec (evalObject fuel parsed.1) interpreterInit = (.ok result, s))
    (htext : Buffers.unparse address (treeOf s.heap result) = .ok (some text)) :
    runLisp address fuel none none true [line] false =
      .ok (⟨collectGarbage s, [], [.stdout (text ++ ['\n'])],
        parsedObjects (interpreterInit (F := F)).heap parsed.1⟩,
        interpreterDispose (collectGarbage s)) := by
  have heval : Running.evaluate ⟨interpreterInit, [], [], []⟩ fuel parsed.1 = .ok (result,
      ⟨s, [], [], parsedObjects (interpreterInit (F := F)).heap parsed.1⟩) := by
    simp only [Running.evaluate, hx, List.nil_append]
  have hprint : Running.print ⟨s, [], [], parsedObjects (interpreterInit (F := F)).heap parsed.1⟩
      address result = .ok ⟨s, [], [.stdout (text ++ ['\n'])],
        parsedObjects (interpreterInit (F := F)).heap parsed.1⟩ := by
    simp only [Running.print, htext]
    rfl
  have hloop : Running.interpretFd address fuel false [line] ⟨interpreterInit, [], [], []⟩ =
      .ok ⟨collectGarbage s, [], [.stdout (text ++ ['\n'])],
        parsedObjects (interpreterInit (F := F)).heap parsed.1⟩ := by
    have hlog : (Running.log ⟨s, [], [], parsedObjects (interpreterInit (F := F)).heap parsed.1⟩
        (result == 0 && false) (logMessage "interpret_fd" "NULL".toList)).print address result =
          .ok ⟨s, [], [.stdout (text ++ ['\n'])],
            parsedObjects (interpreterInit (F := F)).heap parsed.1⟩ := by
      rw [Bool.and_false]
      exact hprint
    rw [Running.interpretFd_object hread hp rfl hnull heval hlog]
    exact Running.interpretFd_end rfl rfl rfl
  change (Running.interpretFd address fuel false [line] ⟨interpreterInit, [], [], []⟩ >>= _) = _
  rw [hloop]
  rfl

/-- The list that `(set 'x '(1 2))` stores is printed, and the expression is never freed. -/
theorem runLisp_dispose_setList : ∃ run h,
    runLisp (F := NoFloat) (fun _ => []) 10 none none true ["(set 'x '(1 2))".toList] false =
      .ok (run, h) ∧ run.output = [.stdout "(1 2)\n".toList] ∧
    ∀ a ∈ List.range' 106 15, ¬Freed h a := by
  have hread : getExpressionFromPrompt ["(set 'x '(1 2))".toList] =
      some ⟨some "(set 'x '(1 2))".toList, false, []⟩ := by decide +kernel
  have hp : readExpression 10 (some "(set 'x '(1 2))".toList) = .ok (setList, 15) := by
    decide +kernel
  have hr : (exec (evalObject 10 setList) interpreterInit).1 = .ok 115 := by decide +kernel
  have htext : Buffers.unparse (fun _ => []) (treeOf (exec (evalObject 10 setList)
      interpreterInit).2.heap 115) = .ok (some "(1 2)".toList) := by decide +kernel
  have hx := exec_eq hr
  generalize hs : (exec (evalObject 10 setList) interpreterInit).2 = s at hx htext
  have hrun := runLisp_line hread hp rfl hx htext
  rw [← hs] at hrun
  have hlost : parsedObjects (interpreterInit (F := NoFloat)).heap setList =
      List.range' 106 15 := by decide +kernel
  have hstored : ∀ x ∈ setListState.trace.stored,
      x ∈ slotsOf setListState.heap setListState.env := by decide +kernel
  obtain ⟨-, -, hdispose⟩ := runLisp_dispose hrun hstored
  rw [hlost] at hdispose
  have hle : ∀ a ∈ List.range' 106 15, 0 < a ∧ a ≤ setListState.heap.length := by decide +kernel
  have hlen := length_interpreterDispose setListState
  refine ⟨_, _, hrun, rfl, fun a ha hf => ?_⟩
  exact (hdispose a (hle a ha).1 ((hle a ha).2.trans_eq hlen.symm)).1 hf ha

end histories
end Lisp
