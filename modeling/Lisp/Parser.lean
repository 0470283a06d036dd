import Lisp.Numerals

/-! The parser (`parser.c`). A `const_expression` is an offset into one text, because
`parse_list` can step back in front of the string it was given. -/
namespace Lisp
variable {F : Type} [CFloat F]

/-- What stops a call that does not return. -/
inductive Fault where
  | outOfBounds
  | outOfFuel
deriving DecidableEq, Repr

/-- `is_white_space`; `strchr` also finds the terminator of `kWhitespace`. -/
def isWhiteSpace (c : Char) : Bool :=
  c == ' ' || c == '\t' || c == '\n' || c == '\r' || c == Char.ofNat 0

/-- The string at an offset, up to the end of the text. -/
def suffixAt (text : Text) (e : Int) : Except Fault Text :=
  if 0 ≤ e ∧ e ≤ text.length then .ok (text.drop e.toNat) else .error .outOfBounds

/-- `e[0]`, where the terminator reads as the zero character. -/
def charAt (text : Text) (e : Int) : Except Fault Char := do
  let s ← suffixAt text e
  return s.headD (Char.ofNat 0)

def distanceToNextElement (e : Text) : Int :=
  let i := (e.takeWhile isWhiteSpace).length
  if i = e.length then -1 else toInt i

/-- A character that `atom_size` passes over. -/
def isAtomChar (c : Char) : Bool :=
  !(isWhiteSpace c || c == '(' || c == ')')

/-- `atom_size`, whose bound is `strlen` converted to `int`. -/
def atomSize (e : Text) : Nat :=
  ((e.take (toInt e.length).toNat).takeWhile isAtomChar).length

def containsDot (e : Text) (length : Nat) : Bool :=
  (e.take length).any (· == '.')

/-- `parse_atom`: the object and the number of characters read. -/
def parseAtom (e : Text) : Obj F × Nat :=
  let size := atomSize e
  let hasDecimal := containsDot e size
  let contents := e.take size
  let converted := strtol contents
  let isInteger := converted.2 != 0
  let o : Obj F :=
    if isInteger && !hasDecimal then .int (toInt converted.1)
    else if strtofConverts contents then .float (CFloat.strtof contents)
    else .atom contents
  (o, size)

/-- `get_quote_list`. -/
def quoteList (quoted : Obj F) : Obj F :=
  .list (parseAtom "quote".toList).1 quoted

mutual

/-- `parse_expression` at offset `e`: the tree and `*num_parsed_p`. -/
def parseExpression (text : Text) : Nat → Int → Except Fault (Obj F × Nat)
  | 0, _ => .error .outOfFuel
  | fuel + 1, e => do
    let s ← suffixAt text e
    let start := distanceToNextElement s
    if start = -1 then
      return (.null, s.length)
    let exprStart := e + start
    let first ← charAt text exprStart
    if first = ')' then
      return (.null, toSize (toSize start + 1))
    else if first = '\'' then
      let quoted ← parseExpression text fuel (exprStart + 1)
      let exprSize := toSize (quoted.2 + 1)
      return (quoteList (.list quoted.1 .null), toSize (start + exprSize))
    else if first = '(' then
      let elements ← parseList text fuel (exprStart + 1)
      let exprSize := toSize (elements.2 + 1)
      return (if elements.1.isNull then .nil else elements.1, toSize (start + exprSize))
    else
      let rest ← suffixAt text exprStart
      let parsed := parseAtom rest
      return (parsed.1, toSize (start + parsed.2))

/-- `parse_list` at offset `e`, after the opening parenthesis. It has no test for the
end of the text, where `start` is -1. -/
def parseList (text : Text) : Nat → Int → Except Fault (Obj F × Nat)
  | 0, _ => .error .outOfFuel
  | fuel + 1, e => do
    let s ← suffixAt text e
    let start := distanceToNextElement s
    let exprStart := e + start
    let first ← charAt text exprStart
    if first = ')' then
      return (.null, toSize (toSize start + 1))
    let next ← parseExpression text fuel exprStart
    let rest ← parseList text fuel (exprStart + next.2)
    return (.list next.1 rest.1, toSize (start + next.2 + rest.2))

end

/-- `empty_expression`. -/
def emptyExpression (e : Text) : Bool :=
  e.all isWhiteSpace

/-- The loop of `is_balanced` and `is_valid`: the net count after each character. -/
def netStep (net : Int) (c : Char) : Int :=
  let net := if c = '(' then net + 1 else net
  if c = ')' then net - 1 else net

def netFrom (net : Int) (e : Text) : Int :=
  e.foldl netStep net

def isBalanced (e : Text) : Bool :=
  netFrom 0 e == 0

def validFrom : Int → Text → Bool
  | net, [] => 0 ≤ net
  | net, c :: e => if netStep net c < 0 then false else validFrom (netStep net c) e

def isValid (e : Text) : Bool :=
  validFrom 0 e

end Lisp
