import Lisp.Parser

/-! The expression grammar `e ::= token | '(' e* ')' | '\'' e`, its layouts as text, and
the object each expression denotes. -/
namespace Lisp
variable {F : Type} [CFloat F]

inductive SExpr where
  | token (name : Text)
  | paren (elements : List SExpr)
  | quote (e : SExpr)

/-- A non-empty run of atom characters that does not begin with a quote character. -/
def IsToken (name : Text) : Prop :=
  name ≠ [] ∧ name.head? ≠ some '\'' ∧ ∀ c ∈ name, isAtomChar c = true

def AllWhite (ws : Text) : Prop :=
  ∀ c ∈ ws, c = ' ' ∨ c = '\t' ∨ c = '\n' ∨ c = '\r'

namespace SExpr

def endsInToken : SExpr → Bool
  | token _ => true
  | paren _ => false
  | quote e => e.endsInToken

mutual

/-- The tree an expression denotes; its leaves are what `parse_atom` makes of them. -/
def toObj : SExpr → Obj F
  | token name => (parseAtom name).1
  | paren [] => .nil
  | paren (e :: es) => .list e.toObj (elementsToObj es)
  | quote e => .list (.atom "quote".toList) (.list e.toObj .null)

def elementsToObj : List SExpr → Obj F
  | [] => .null
  | e :: es => .list e.toObj (elementsToObj es)

end

end SExpr

/-- A text that ends a token standing before it. -/
def Delimited (s : Text) : Prop :=
  ∀ c, s.head? = some c → isAtomChar c = false

theorem allWhite_nil : AllWhite [] := by simp [AllWhite]

theorem delimited_nil : Delimited [] := by simp [Delimited]

mutual

/-- `Layout e t`: the text `t` is `e`, with any whitespace before and between elements. -/
inductive Layout : SExpr → Text → Prop
  | token {ws name : Text} : AllWhite ws → IsToken name → Layout (.token name) (ws ++ name)
  | paren {ws t : Text} {es : List SExpr} : AllWhite ws → ElementsLayout es t →
      Layout (.paren es) (ws ++ '(' :: t)
  | quote {ws t : Text} {e : SExpr} : AllWhite ws → Layout e t →
      Layout (.quote e) (ws ++ '\'' :: t)

/-- The elements of a list and its closing parenthesis. Text that would merge with a
token before it has to be separated from it. -/
inductive ElementsLayout : List SExpr → Text → Prop
  | nil {ws : Text} : AllWhite ws → ElementsLayout [] (ws ++ [')'])
  | cons {t u : Text} {e : SExpr} {es : List SExpr} : Layout e t → ElementsLayout es u →
      (e.endsInToken = true → Delimited u) → ElementsLayout (e :: es) (t ++ u)

end

theorem Layout.length_pos {e : SExpr} {t : Text} (h : Layout e t) : 0 < t.length := by
  cases h with
  | token _ hn =>
    have := List.length_pos_iff.mpr hn.1
    simp
    omega
  | paren _ _ => simp
  | quote _ _ => simp

theorem ElementsLayout.length_pos {es : List SExpr} {t : Text} (h : ElementsLayout es t) :
    0 < t.length := by
  cases h with
  | nil _ => simp
  | cons h _ _ =>
    have := h.length_pos
    simp
    omega

end Lisp
