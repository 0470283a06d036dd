import Lisp.Objects

/-! `strtol` (base 0, 64-bit `long`) and `strtof` as C99 describes them, as far as
`parse_atom` uses them: which prefix they convert, and to what. -/
namespace Lisp

/-- `isspace` in the C locale. -/
def isSpace (c : Char) : Bool :=
  c == ' ' || ('\t' ≤ c && c ≤ '\r')

def digitValue (c : Char) : Option Nat :=
  if '0' ≤ c && c ≤ '9' then some (c.toNat - '0'.toNat)
  else if 'a' ≤ c && c ≤ 'z' then some (c.toNat - 'a'.toNat + 10)
  else if 'A' ≤ c && c ≤ 'Z' then some (c.toNat - 'A'.toNat + 10)
  else none

def isDigitOf (base : Nat) (c : Char) : Bool :=
  (digitValue c).any (· < base)

/-- The value of a run of digits, most significant first. -/
def digitsValue (base : Nat) (ds : Text) : Nat :=
  ds.foldl (fun v c => v * base + (digitValue c).getD 0) 0

/-- An optional sign: whether it is a minus, and what follows it. -/
def splitSign : Text → Bool × Text
  | '-' :: s => (true, s)
  | '+' :: s => (false, s)
  | s => (false, s)

/-- The base that base 0 selects, and the text after the base prefix. -/
def detectBase : Text → Nat × Text
  | '0' :: x :: d :: s =>
    if (x == 'x' || x == 'X') && isDigitOf 16 d then (16, d :: s) else (8, '0' :: x :: d :: s)
  | '0' :: s => (8, '0' :: s)
  | s => (10, s)

/-- A `long` result saturates at the ends of its range. -/
def clampLong (z : Int) : Int :=
  max (-2 ^ 63) (min z (2 ^ 63 - 1))

/-- `strtol(s, &end, 0)`: the value and `end - s`. No conversion leaves `end = s`. -/
def strtol (s : Text) : Int × Nat :=
  let signed := splitSign (s.dropWhile isSpace)
  let based := detectBase signed.2
  let digits := based.2.takeWhile (isDigitOf based.1)
  if digits.isEmpty then (0, 0)
  else
    let magnitude : Int := digitsValue based.1 digits
    (clampLong (if signed.1 then -magnitude else magnitude),
      s.length - (based.2.drop digits.length).length)

/-- Case-insensitive test for a lower-case word at the start of `s`. -/
def startsWithWord (word s : Text) : Bool :=
  (s.take word.length).map Char.toLower == word

/-- Whether `strtof(s, &end)` converts anything: after spaces and a sign there is a
digit, a point before a digit, `inf` or `nan`. -/
def strtofConverts (s : Text) : Bool :=
  match (splitSign (s.dropWhile isSpace)).2 with
  | '.' :: d :: _ => d.isDigit
  | c :: body =>
    c.isDigit || startsWithWord "inf".toList (c :: body) || startsWithWord "nan".toList (c :: body)
  | [] => false

end Lisp
