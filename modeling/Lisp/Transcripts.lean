import Lisp.Meaning
import Lisp.Running
import Lisp.CallValues
import Lisp.ProgramExpressions

/-! What a run of the program shows: the meanings of the expressions that it reads, in turn. -/
namespace Lisp
open ExceptState
variable {F : Type}

section commands

/-- What a new interpreter binds the names to. -/
def initialNames : Names F := fun n =>
  (initLibrary.find? fun p => p.1 == n).map fun p => .primitive p.2

def Names.define (names : Names F) (n : Text) (v : Obj F) : Names F := fun m =>
  if m = n then some v else names m

/-- The name and the operand of a definition `(set 'n e)`. -/
def Names.definition (names : Names F) : Obj F → Option (Text × Obj F)
  | .list (.atom set) (.list (.list (.atom quote) (.list (.atom n) .null)) (.list e .null)) =>
    match names set, names quote with
    | some (.primitive .set), some (.primitive .quote) =>
      if set = "set".toList ∧ quote = "quote".toList ∧ isTruthName n = false then some (n, e)
      else none
    | _, _ => none
  | _ => none

/-- The value of an expression, and what the names stand for after it. -/
def command [CFloat F] (fuel : Nat) (names : Names F) (t : Obj F) :
    Except Halt (Obj F × Names F) :=
  match names.definition t with
  | some (n, e) => do
    -- the operand is evaluated three calls of `eval` further down
    let v ← meaning (fuel - 3) names e
    return (v, if v.isNull then names else names.define n v)
  | none => do
    let v ← meaning fuel names t
    return (v, names)

variable {names names' : Names F} {c : Config F} {s : Interpreter F} {t e v : Obj F} {n : Text}
  {fuel o : Nat} {cs : List Nat}

theorem definition_eq (h : names.definition t = some (n, e)) : t = setExpression n e ∧
    isTruthName n = false ∧ names "set".toList = some (.primitive .set) ∧
    names "quote".toList = some (.primitive .quote) := by
  unfold Names.definition at h
  split at h
  · split at h
    next hset hquote =>
      split_ifs at h with hif
      obtain ⟨rfl, rfl, hn⟩ := hif
      obtain ⟨rfl, rfl⟩ := Prod.mk.inj (Option.some.inj h)
      exact ⟨rfl, hn, hset, hquote⟩
    · cases h
  · cases h

variable [CFloat F]

/-- What the machine computes in a state between two expressions. -/
theorem Between.command (hc : Between c s) (hr : Reads s.heap o t cs)
    (hx : Lisp.command fuel (Lisp.lookupName s) t = .ok (v, names')) : ∃ r d us,
      exec (eval fuel o) s = (.ok r, d.state) ∧ Between d d.state ∧ Reads d.state.heap r v us ∧
      Lisp.lookupName d.state = names' := by
  have hstate := hc.state
  subst hstate
  have hnames : c.scope.find = Lisp.lookupName c.state := funext fun n => (lookupName_eq c n).symm
  unfold Lisp.command at hx
  split at hx
  next n e hdef =>
    obtain ⟨rfl, hn, hset, hquote⟩ := definition_eq hdef
    obtain ⟨w, hw, hx⟩ := ok_of_bind hx
    obtain ⟨rfl, rfl⟩ := Prod.mk.inj (Except.ok.inj hx)
    obtain ⟨j, rfl⟩ : ∃ j, fuel = j + 3 := by
      refine ⟨fuel - 3, ?_⟩
      by_contra hf
      rw [show fuel - 3 = 0 by omega] at hw
      cases hw
    rw [← hnames] at hw
    have hends := realizes_eval j c.scope e (by rw [Nat.add_sub_cancel] at hw; simp [hw])
    rw [show meaning j c.scope.find e = .ok w from hw] at hends
    obtain ⟨ds, hoperand⟩ := hr.ith 2
    obtain ⟨x, d, us, hexec, hgrows, hread⟩ := (hends c _ ds rfl hoperand).returns
    obtain ⟨r, u, hr0, hreturns, ⟨vs, hvalue⟩, hlookup⟩ :=
      hc.setValue hr.valid.1 hr.treeOf hn hset hquote hexec
    obtain ⟨t, ht, hsame⟩ := hreturns _ (Nat.le_refl _) _ ⟨rfl, rfl, rfl⟩
    obtain ⟨g, rfl, hsteps, -, hbal⟩ := (runs_eval _ c o hr.valid.1).of_ok ht
    rw [hread.treeOf] at hvalue hlookup
    refine ⟨r, g, vs, ht, hc.steps hsteps hbal, hsame.heap ▸ hvalue, funext fun m => ?_⟩
    rw [hsame.lookupName, hlookup, lookupName_eq d, hgrows.scope, hnames]
    cases hnull : w.isNull with
    | true => simp [hread.isNull, hnull]
    | false => simp [hread.isNull, hnull, Names.define]
  next =>
    obtain ⟨w, hw, hx⟩ := ok_of_bind hx
    obtain ⟨rfl, rfl⟩ := Prod.mk.inj (Except.ok.inj hx)
    rw [← hnames] at hw
    have hends := realizes_eval fuel c.scope t (by rw [hw]; simp)
    rw [hw] at hends
    obtain ⟨r, d, us, hexec, hgrows, hread⟩ := (hends c o cs rfl hr).returns
    refine ⟨r, d, us, hexec, hc.steps hgrows.steps hgrows.balanced, hread, ?_⟩
    rw [← hnames, ← hgrows.scope]
    exact funext fun n => lookupName_eq d n

variable {expr : Text} {size : Nat}

/-- A call of `interpret_expression` evaluates its expression to its meaning in the names of the
session, which it leaves as they are, or ends without a value as the meaning does. -/
theorem call_meaning (hs : Session s) (hp : parseExpression expr fuel 0 = .ok (t, size))
    (hnull : t.isNull = false)
    (hx : meaning fuel (Lisp.lookupName s) t ≠ .error .outOfFuel) :
    (∀ v, meaning fuel (Lisp.lookupName s) t = .ok v → ∃ r u,
      exec (eval fuel (load s.heap t).1) (loaded s t) = (.ok r, u) ∧ treeOf u.heap r = v ∧
      exec (evalExpression fuel expr) s = (.ok r, collectGarbage u) ∧
      Lisp.lookupName (collectGarbage u) = Lisp.lookupName s) ∧
    ∀ h, meaning fuel (Lisp.lookupName s) t = .error h →
      ∃ u, exec (evalExpression fuel expr) s = (.error h, u) := by
  obtain ⟨c, hc⟩ := hs.between
  obtain ⟨d, hd, hfind⟩ := hc.loaded_scope ((parsed_ok fuel).1 _ _ hp)
  have hread := loaded_reads (s := s) (t := t)
  rw [← hd.state] at hread
  have hnames : d.scope.find = Lisp.lookupName s := funext hfind
  rw [← hnames] at hx ⊢
  have hends := realizes_eval fuel d.scope t hx d _ _ rfl hread
  constructor
  · intro v hv
    rw [hv] at hends
    obtain ⟨r, e, us, hrun, hgrows, hvalue⟩ := hends.returns
    rw [hd.state] at hrun
    refine ⟨r, e.state, hrun, hvalue.treeOf, exec_evalExpression hp hnull hrun, ?_⟩
    funext n
    rw [e.lookupName_collected, lookupName_eq, hgrows.scope]
  · intro h hv
    rw [hv] at hends
    obtain ⟨u, hrun⟩ := hends.halts
    rw [hd.state] at hrun
    exact ⟨u, exec_evalExpression_halts hp hnull hrun⟩

theorem call_meaning_square : ∃ r u,
    exec (evalExpression 20 "((lambda (x) (* x x)) 3)".toList) interpreterInit =
      (.ok r, collectGarbage u) ∧ treeOf u.heap r = .int 9 ∧
    lookupName (collectGarbage u) = lookupName (interpreterInit (F := NoFloat)) := by
  let body : Obj NoFloat :=
    .list (.atom ['*']) (.list (.atom ['x']) (.list (.atom ['x']) .null))
  let square : Obj NoFloat :=
    .list (.list (.atom "lambda".toList) (.list (.list (.atom ['x']) .null) (.list body .null)))
      (.list (.int 3) .null)
  have hp : parseExpression "((lambda (x) (* x x)) 3)".toList 20 0 = .ok (square, 24) := by
    decide +kernel
  have hv : meaning 20 (lookupName interpreterInit) square = .ok (.int 9) := by
    rw [show lookupName interpreterInit = initialNames from funext lookupName_init]
    decide +kernel
  obtain ⟨hvalue, -⟩ := call_meaning .init hp rfl (hv ▸ by decide)
  obtain ⟨r, u, -, htree, hcall, hnames⟩ := hvalue _ hv
  exact ⟨r, u, hcall, htree, hnames⟩

end commands

section transcripts

/-- What the names stand for, and what has been shown. -/
structure Transcript (F : Type) where
  names : Names F
  output : List Output

namespace Transcript

def log (tr : Transcript F) (verbose : Bool) (output : Output) : Transcript F :=
  if verbose then { tr with output := tr.output ++ [output] } else tr

variable [CFloat F]

def print (tr : Transcript F) (address : Primitive → Text) (v : Obj F) :
    Except Halt (Transcript F) :=
  match Buffers.unparse address v with
  | .error _ => .error .undefined
  | .ok none => .ok tr
  | .ok (some text) => .ok (tr.log true (.stdout (text ++ ['\n'])))

/-- The expressions of a file, up to the first without a value. -/
def program (address : Primitive → Text) (fuel : Nat) (verbose syntaxError : Bool) :
    List (Obj F) → Transcript F → Except Halt (Transcript F)
  | [], tr => .ok (tr.log syntaxError (logError "interpret_program" "Syntax error.".toList))
  | t :: ts, tr => do
    let value ← command fuel tr.names t
    let tr := { tr with names := value.2 }
    if value.1.isNull then
      return tr.log verbose (logMessage "interpret_program" "NULL".toList)
    else
      let tr ← (if verbose then tr.print address value.1 else .ok tr)
      program address fuel verbose syntaxError ts tr

/-- The expressions that are typed. -/
def typed (address : Primitive → Text) (fuel : Nat) (verbose : Bool) :
    List (Obj F) → Transcript F → Except Halt (Transcript F)
  | [], tr => .ok tr
  | t :: ts, tr =>
    if t.isNull then
      typed address fuel verbose ts
        (tr.log true (logError "interpret_fd" "Invalid expression".toList))
    else do
      let value ← command fuel tr.names t
      let tr := { tr with names := value.2 }
      let tr := tr.log (value.1.isNull && verbose) (logMessage "interpret_fd" "NULL".toList)
      let tr ← tr.print address value.1
      typed address fuel verbose ts tr

def script (address : Primitive → Text) (fuel : Nat) (verbose : Bool) (message : Text)
    (file : Option Script) (syntaxError : Bool) (ts : List (Obj F)) (tr : Transcript F) :
    Except Halt (Transcript F) :=
  match file with
  | none => .ok tr
  | some file =>
    let tr := tr.log verbose (logMessage "run_lisp" (message ++ file.path))
    tr.program address fuel verbose syntaxError ts

end Transcript

variable [CFloat F]

/-- The expressions that `interpret_program` reads, and whether it then finds a syntax error. -/
inductive Listed (fuel : Nat) : Reader → List (Obj F) → Bool → Prop where
  | syntaxError {r : Reader} (h : (getExpressionFromFile r).syntaxError = true) :
      Listed fuel r [] true
  | blank {r : Reader} {ts : List (Obj F)} {b : Bool} {parsed : Obj F × Nat}
      (h : (getExpressionFromFile r).syntaxError = false)
      (hp : readExpression fuel (getExpressionFromFile r).expr = .ok parsed)
      (hnull : parsed.1.isNull = true) (heof : (getExpressionFromFile r).eof = false)
      (hrest : Listed fuel (getExpressionFromFile r).reader ts b) : Listed fuel r ts b
  | blankEnd {r : Reader} {parsed : Obj F × Nat} (h : (getExpressionFromFile r).syntaxError = false)
      (hp : readExpression fuel (getExpressionFromFile r).expr = .ok parsed)
      (hnull : parsed.1.isNull = true) (heof : (getExpressionFromFile r).eof = true) :
      Listed fuel r [] false
  | next {r : Reader} {ts : List (Obj F)} {b : Bool} {parsed : Obj F × Nat}
      (h : (getExpressionFromFile r).syntaxError = false)
      (hp : readExpression fuel (getExpressionFromFile r).expr = .ok parsed)
      (hnull : parsed.1.isNull = false) (heof : (getExpressionFromFile r).eof = false)
      (hrest : Listed fuel (getExpressionFromFile r).reader ts b) : Listed fuel r (parsed.1 :: ts) b
  | last {r : Reader} {parsed : Obj F × Nat} (h : (getExpressionFromFile r).syntaxError = false)
      (hp : readExpression fuel (getExpressionFromFile r).expr = .ok parsed)
      (hnull : parsed.1.isNull = false) (heof : (getExpressionFromFile r).eof = true) :
      Listed fuel r [parsed.1] false

/-- The expressions that are read from the lines typed. -/
inductive Typed (fuel : Nat) : List Text → List (Obj F) → Prop where
  | eof {lines : List Text} {read : Prompted} {parsed : Obj F × Nat}
      (h : getExpressionFromPrompt lines = some read)
      (hp : readExpression fuel read.expression = .ok parsed) (heof : read.eof = true) :
      Typed fuel lines []
  | next {lines : List Text} {read : Prompted} {parsed : Obj F × Nat} {ts : List (Obj F)}
      (h : getExpressionFromPrompt lines = some read)
      (hp : readExpression fuel read.expression = .ok parsed) (heof : read.eof = false)
      (hrest : Typed fuel read.lines ts) : Typed fuel lines (parsed.1 :: ts)

/-- The expressions of one of the two files of `run_lisp`, whatever is in the buffer before. -/
def ListedIn (fuel : Nat) (file : Option Script) (ts : List (Obj F)) (syntaxError : Bool) : Prop :=
  ∀ script ∈ file, ∀ buff, Listed fuel ⟨script.text, 0, buff⟩ ts syntaxError

/-- The expressions that a run reads, from its two files and from the lines typed. -/
structure Expressions (F : Type) where
  bootstrap : List (Obj F)
  bootstrapError : Bool
  program : List (Obj F)
  programError : Bool
  typed : List (Obj F)

/-- What `run_lisp` shows. -/
def transcript (address : Primitive → Text) (fuel : Nat) (bootstrap program : Option Script)
    (runRepl : Bool) (read : Expressions F) (verbose : Bool) : Except Halt (Transcript F) := do
  let message := fun text : String => logMessage "run_lisp" text.toList
  let tr : Transcript F := ⟨initialNames, []⟩
  let tr := tr.log verbose (message "Initializing interpreter.")
  let tr ← tr.script address fuel verbose "Interpreting library: ".toList bootstrap
    read.bootstrapError read.bootstrap
  let tr ← tr.script address fuel verbose "Running script: ".toList program
    read.programError read.program
  let tr ← (if runRepl then
      let tr := tr.log verbose (message "Running interactive interpreter.")
      tr.typed address fuel verbose read.typed
    else .ok tr)
  return tr.log verbose (message "Disposing of interpreter.")

end transcripts

section simulation
variable [CFloat F] {run run₁ : Running F} {tr tr' : Transcript F} {v : Obj F} {names : Names F}
  {fuel result : Nat} {address : Primitive → Text} {verbose : Bool} {parsed : Obj F × Nat}
  {text : Text} {e : Int} {ts : List (Obj F)} {r : Reader} {lines : List Text}

/-- The memory of the run gives the names their values, and the same has been shown. -/
structure Shows (run : Running F) (tr : Transcript F) : Prop where
  ready : run.Ready
  names : lookupName run.interpreter = tr.names
  output : run.output = tr.output

/-- An expression has been evaluated to `v`; a collection follows, unless `v` is `NULL`. -/
structure Replies (run : Running F) (result : Nat) (v : Obj F) (tr : Transcript F) : Prop where
  value : ∃ us, Reads run.interpreter.heap result v us
  collected : Shows run.collect tr
  stopped : result = 0 → Shows run tr

theorem Shows.log (h : Shows run tr) (verbose : Bool) (output : Output) :
    Shows (run.log verbose output) (tr.log verbose output) := by
  cases verbose with
  | false => exact h
  | true => exact ⟨h.ready, h.names, congrArg (· ++ [output]) h.output⟩

theorem Replies.log (h : Replies run result v tr) (output : Output) :
    Replies (run.log verbose output) result v (tr.log verbose output) := by
  cases verbose with
  | false => exact h
  | true =>
    exact ⟨h.value, h.collected.log true output, fun h0 => (h.stopped h0).log true output⟩

theorem Replies.print (h : Replies run result v tr) (hx : tr.print address v = .ok tr') :
    ∃ run', run.print address result = .ok run' ∧ Replies run' result v tr' := by
  obtain ⟨us, hread⟩ := h.value
  unfold Running.print
  unfold Transcript.print at hx
  rw [hread.treeOf]
  cases hunparse : Buffers.unparse address v with
  | error fault =>
    rw [hunparse] at hx
    cases hx
  | ok shown =>
    rw [hunparse] at hx
    cases shown with
    | none => exact ⟨run, rfl, Except.ok.inj hx ▸ h⟩
    | some text => exact ⟨_, rfl, Except.ok.inj hx ▸ h.log _⟩

theorem Shows.evaluate (h : Shows run tr) (hp : parseExpression text fuel e = .ok parsed)
    (hx : command fuel tr.names parsed.1 = .ok (v, names)) : ∃ result run₁,
      run.evaluate fuel parsed.1 = .ok (result, run₁) ∧
      Replies run₁ result v { tr with names := names } := by
  obtain ⟨c, hstate, hc⟩ := h.ready.managed
  obtain ⟨d, hd, hmanaged⟩ := hc.parsed ((parsed_ok fuel).1 _ _ hp)
  have hload := load_built c.state.heap parsed.1
  have hext : Extends c.state.heap d.state.heap := hd ▸ hload.heap
  have henv : d.state.env = c.state.env := by rw [hd]
  have hnames : lookupName d.state = tr.names := by
    rw [← h.names, ← hstate]
    funext n
    rw [lookupName_eq, lookupName_eq, scope_eq hext henv]
  have hread := hload.reads
  rw [show (load c.state.heap parsed.1).2 = d.state.heap by rw [hd]] at hread
  rw [← hnames] at hx
  obtain ⟨result, g, us, hexec, -, hvalue, hlookup⟩ := hmanaged.toBetween.command hread hx
  have heval : run.evaluate fuel parsed.1 = .ok (result, { run with
      interpreter := g.state
      expressions := run.expressions ++ parsedObjects run.interpreter.heap parsed.1 }) := by
    have hobject : exec (evalObject fuel parsed.1) run.interpreter = (.ok result, g.state) := by
      rw [evalObject, exec_onHeap_bind, ← hstate, ← hd]
      exact hexec
    simp only [Running.evaluate, hobject]
  obtain ⟨hready, hstopped⟩ := Running.evaluate_ready heval h.ready hp
  refine ⟨result, _, heval, ⟨us, hvalue⟩, ⟨hready, ?_, h.output⟩, fun h0 =>
    ⟨hstopped h0, hlookup, h.output⟩⟩
  rw [← hlookup]
  exact funext fun n => g.lookupName_collected n

/-- An expression of a file, after which the program stops or goes on. -/
theorem Shows.answer {syntaxError : Bool} (h : Shows run tr)
    (hp : parseExpression text fuel e = .ok parsed)
    (hx : tr.program address fuel verbose syntaxError (parsed.1 :: ts) = .ok tr') :
    ∃ result run₁, run.evaluate fuel parsed.1 = .ok (result, run₁) ∧
      (result = 0 ∧
        Shows (run₁.log verbose (logMessage "interpret_program" "NULL".toList)) tr' ∨
      result ≠ 0 ∧ ∃ run₂ tr₂,
        (if verbose then run₁.print address result else .ok run₁) = .ok run₂ ∧
        Shows run₂.collect tr₂ ∧ tr₂.program address fuel verbose syntaxError ts = .ok tr') := by
  rw [Transcript.program] at hx
  obtain ⟨⟨v, names⟩, hvalue, hx⟩ := ok_of_bind hx
  obtain ⟨result, run₁, heval, hreply⟩ := h.evaluate hp hvalue
  obtain ⟨us, hread⟩ := hreply.value
  refine ⟨result, run₁, heval, ?_⟩
  cases hnull : v.isNull with
  | true =>
    have h0 := hread.isNull.2 hnull
    simp only [hnull, if_true] at hx
    exact Or.inl ⟨h0, Except.ok.inj hx ▸ (hreply.stopped h0).log _ _⟩
  | false =>
    have h0 : result ≠ 0 := fun h0 => Bool.false_ne_true (hnull.symm.trans (hread.isNull.1 h0))
    simp only [hnull, Bool.false_eq_true, if_false] at hx
    obtain ⟨tr₂, hshown, hx⟩ := ok_of_bind hx
    cases verbose with
    | true =>
      obtain ⟨run₂, hprint, hreply⟩ := hreply.print hshown
      exact Or.inr ⟨h0, run₂, tr₂, hprint, hreply.collected, hx⟩
    | false =>
      obtain rfl := Except.ok.inj hshown
      exact Or.inr ⟨h0, run₁, _, rfl, hreply.collected, hx⟩

theorem Shows.buff (h : Shows run tr) (buff : Text) : Shows { run with buff := buff } tr :=
  ⟨h.ready, h.names, h.output⟩

/-- `interpret_program` shows what the expressions of the file do. -/
theorem Listed.program {syntaxError : Bool} (hl : Listed fuel r ts syntaxError) (h : Shows run tr)
    (hx : tr.program address fuel verbose syntaxError ts = .ok tr') : ∃ run',
      run.programLoop address fuel verbose r = .ok run' ∧ Shows run' tr' := by
  induction hl generalizing run tr with
  | syntaxError herror =>
    rw [Running.programLoop]
    simp only [herror, if_true]
    exact ⟨_, rfl, Except.ok.inj hx ▸ (h.buff _).log true _⟩
  | blank herror hp hnull heof _ ih =>
    rw [Running.programLoop]
    simp only [herror, hp, hnull, heof, Bool.false_eq_true, if_false, if_true, dite_false]
    exact ih (h.buff _) hx
  | blankEnd herror hp hnull heof =>
    rw [Running.programLoop]
    simp only [herror, hp, hnull, heof, Bool.false_eq_true, if_false, if_true, dite_true]
    exact ⟨_, rfl, Except.ok.inj hx ▸ h.buff _⟩
  | @next r ts b parsed herror hp hnull heof _ ih =>
    obtain ⟨text, hparse⟩ := Running.read_parsed hp (by simp [hnull])
    obtain ⟨result, run₁, heval, hcases⟩ :=
      (h.buff (getExpressionFromFile r).reader.buff).answer hparse hx
    rw [Running.programLoop]
    simp only [herror, hp, hnull, heof, heval, Bool.false_eq_true, if_false, dite_false]
    rcases hcases with ⟨rfl, hshows⟩ | ⟨h0, run₂, tr₂, hprint, hshows, hx⟩
    · exact ⟨_, rfl, hshows⟩
    · simp only [h0, if_false, hprint]
      exact ih hshows hx
  | @last r parsed herror hp hnull heof =>
    obtain ⟨text, hparse⟩ := Running.read_parsed hp (by simp [hnull])
    obtain ⟨result, run₁, heval, hcases⟩ :=
      (h.buff (getExpressionFromFile r).reader.buff).answer hparse hx
    rw [Running.programLoop]
    simp only [herror, hp, hnull, heof, heval, Bool.false_eq_true, if_false, dite_true]
    rcases hcases with ⟨rfl, hshows⟩ | ⟨h0, run₂, tr₂, hprint, hshows, hx⟩
    · exact ⟨_, rfl, hshows⟩
    · simp only [h0, if_false, hprint]
      exact ⟨_, rfl, Except.ok.inj hx ▸ hshows⟩

/-- `interpret_fd` shows what the expressions typed do. -/
theorem Typed.interpretFd (hl : Typed fuel lines ts) (h : Shows run tr)
    (hx : tr.typed address fuel verbose ts = .ok tr') : ∃ run',
      run.interpretFd address fuel verbose lines = .ok run' ∧ Shows run' tr' := by
  induction hl generalizing run tr with
  | eof hread hp heof =>
    exact ⟨run, Running.interpretFd_end hread hp heof, Except.ok.inj hx ▸ h⟩
  | @next lines read parsed ts hread hp heof _ ih =>
    rw [Transcript.typed] at hx
    cases hnull : parsed.1.isNull with
    | true =>
      simp only [hnull, if_true] at hx
      rw [Running.interpretFd_invalid hread hp heof hnull]
      exact ih (h.log true (logError "interpret_fd" "Invalid expression".toList)) hx
    | false =>
      simp only [hnull, Bool.false_eq_true, if_false] at hx
      obtain ⟨text, hparse⟩ := Running.read_parsed hp (by simp [hnull])
      obtain ⟨⟨v, names⟩, hvalue, hx⟩ := ok_of_bind hx
      obtain ⟨tr₂, hshown, hx⟩ := ok_of_bind hx
      obtain ⟨result, run₁, heval, hreply⟩ := h.evaluate hparse hvalue
      obtain ⟨us, hshowed⟩ := hreply.value
      have hstopped : (result == 0) = v.isNull := Bool.eq_iff_iff.2 (by simp [hshowed.isNull])
      rw [← hstopped] at hshown
      obtain ⟨run₂, hprint, hreply⟩ :=
        (hreply.log (logMessage "interpret_fd" "NULL".toList)).print hshown
      rw [Running.interpretFd_object hread hp heof hnull heval hprint]
      exact ih hreply.collected hx

theorem ListedIn.interpretScript {message : Text} {script : Option Script} {syntaxError : Bool}
    (hl : ListedIn fuel script ts syntaxError) (h : Shows run tr)
    (hx : tr.script address fuel verbose message script syntaxError ts = .ok tr') : ∃ run',
      run.interpretScript address fuel verbose message script = .ok run' ∧ Shows run' tr' := by
  cases script with
  | none => exact ⟨run, rfl, Except.ok.inj hx ▸ h⟩
  | some file => exact (hl file rfl _).program (h.log verbose _) hx

theorem shows_init : Shows (⟨interpreterInit, [], [], []⟩ : Running F) ⟨initialNames, []⟩ :=
  ⟨.init, funext lookupName_init, rfl⟩

/-- A run shows what its expressions mean, in turn, and at its end the names stand for what the
definitions among them say. -/
theorem runLisp_transcript {bootstrap program : Option Script} {runRepl : Bool}
    {read : Expressions F}
    (hbootstrap : ListedIn fuel bootstrap read.bootstrap read.bootstrapError)
    (hprogram : ListedIn fuel program read.program read.programError)
    (htyped : runRepl = true → Typed fuel lines read.typed)
    (hx : transcript address fuel bootstrap program runRepl read verbose = .ok tr) : ∃ run,
      runLisp address fuel bootstrap program runRepl lines verbose =
        .ok (run, interpreterDispose run.interpreter) ∧
      run.output = tr.output ∧ lookupName run.interpreter = tr.names := by
  unfold transcript at hx
  obtain ⟨tr₁, hx₁, hx⟩ := ok_of_bind hx
  obtain ⟨tr₂, hx₂, hx⟩ := ok_of_bind hx
  obtain ⟨tr₃, hx₃, hx⟩ := ok_of_bind hx
  obtain rfl := Except.ok.inj hx
  obtain ⟨run₁, h₁, hshows₁⟩ := hbootstrap.interpretScript (shows_init.log verbose _) hx₁
  obtain ⟨run₂, h₂, hshows₂⟩ := hprogram.interpretScript hshows₁ hx₂
  obtain ⟨run₃, h₃, hshows₃⟩ : ∃ run₃, (if runRepl then
      (run₂.log verbose (logMessage "run_lisp"
        "Running interactive interpreter.".toList)).interpretFd address fuel verbose lines
      else .ok run₂) = .ok run₃ ∧ Shows run₃ tr₃ := by
    cases runRepl with
    | false => exact ⟨run₂, rfl, Except.ok.inj hx₃ ▸ hshows₂⟩
    | true => exact (htyped rfl).interpretFd (hshows₂.log verbose _) hx₃
  have hend := hshows₃.log verbose (logMessage "run_lisp" "Disposing of interpreter.".toList)
  refine ⟨_, ?_, hend.output, hend.names⟩
  dsimp only at h₁
  simp only [runLisp, h₁, h₂, h₃, ok_bind]
  rfl

/-- The expression of a script of one line is evaluated twice. -/
theorem listed_line {line buff : Text} (hc : Counts 0 0 line) (hpieces : pieces line = [line])
    (hp : readExpression fuel (some line) = .ok parsed) (hnull : parsed.1.isNull = false) :
    Listed fuel ⟨line, 0, buff⟩ [parsed.1, parsed.1] false := by
  obtain ⟨r, hafter, hrest, hread⟩ : ∃ r', After ⟨line, 0, buff⟩ [line] r' ∧ pieces r'.file = [] ∧
      getExpressionFromFile ⟨line, 0, buff⟩ = ⟨some [line].flatten, false, false, r'⟩ :=
    (group_singleton hc).read hpieces
  rw [List.flatten_singleton] at hread
  have hend : getExpressionFromFile r = ⟨some line, true, false, r⟩ := by
    have hvalid : isValid line = true := hc.valid
    have hbalanced : isBalanced line = true := hc.isBalanced.2 rfl
    rw [getExpression_end (pieces_eq_nil.1 hrest), hafter.buff, gather]
    simp [hvalid, hbalanced]
  have hlast : Listed fuel r [parsed.1] false :=
    .last (by rw [hend]) (by rwa [hend]) hnull (by rw [hend])
  exact .next (by rw [hread]) (by rwa [hread]) hnull (by rw [hread]) (by rwa [hread])

/-- A script defines a list, and the rest of it is asked for at the prompt. -/
theorem runLisp_transcript_cdr : ∃ run,
    runLisp (F := NoFloat) (fun _ => []) 20 none (some ⟨"p".toList, "(set 'x '(1 2))\n".toList⟩)
      true ["(cdr x)".toList] false = .ok (run, interpreterDispose run.interpreter) ∧
    run.output = [.stdout "(2)\n".toList] := by
  let read : Expressions NoFloat := ⟨[], false, [setList, setList], false,
    [.list (.atom "cdr".toList) (.list (.atom "x".toList) .null)]⟩
  have hread : getExpressionFromPrompt ["(cdr x)".toList] =
      some ⟨some "(cdr x)".toList, false, []⟩ := by decide +kernel
  have hp : readExpression (F := NoFloat) 20 (some "(cdr x)".toList) =
      .ok (.list (.atom "cdr".toList) (.list (.atom "x".toList) .null), 7) := by decide +kernel
  have hscript : readExpression 20 (some "(set 'x '(1 2))\n".toList) = .ok (setList, 15) := by
    decide +kernel
  have htyped : Typed 20 ["(cdr x)".toList] read.typed := .next hread hp rfl (.eof rfl rfl rfl)
  have hx : (transcript (fun _ => []) 20 none (some ⟨"p".toList, "(set 'x '(1 2))\n".toList⟩)
      true read false).map Transcript.output = .ok [.stdout "(2)\n".toList] := by decide +kernel
  cases htr : transcript (fun _ => []) 20 none
      (some ⟨"p".toList, "(set 'x '(1 2))\n".toList⟩) true read false with
  | error e =>
    rw [htr] at hx
    cases hx
  | ok tr =>
    rw [htr] at hx
    have hprogram : ListedIn 20 (some ⟨"p".toList, "(set 'x '(1 2))\n".toList⟩) read.program
        read.programError := by
      rintro file hfile buff
      obtain rfl := Option.some.inj hfile
      exact listed_line ⟨by decide, by decide⟩ (by decide +kernel) hscript rfl
    obtain ⟨run, hrun, houtput, -⟩ := runLisp_transcript (fun _ h => by cases h) hprogram
      (fun _ => htyped) htr
    exact ⟨run, hrun, houtput.trans (Except.ok.inj hx)⟩

end simulation
end Lisp
