import Lisp.Printing
import Lisp.GlobalEnvironment

/-! Lists by their elements: a list ends with `NULL` or with an empty list, and neither the list
primitives nor the printer tell the two apart. -/
namespace Lisp
variable {F : Type} {a d t : Obj F}

section values

namespace Obj

/-- The elements of a list, up to `NULL` or a cell whose fields are both `NULL`. -/
def elements : Obj F → List (Obj F)
  | .list a d => if a.isNull && d.isNull then [] else a :: d.elements
  | _ => []

/-- What a quoted expression may be, or a list that is built from such values. -/
inductive Proper : Obj F → Prop where
  | atom (name : Text) : Proper (.atom name)
  | int (value : Int) : Proper (.int value)
  | float (value : F) : Proper (.float value)
  | nil : Proper .nil
  | last {a : Obj F} (ha : a.Proper) : Proper (.list a .null)
  | cons {a d : Obj F} (ha : a.Proper) (hd : d.Proper) (hlist : d.isList = true) :
      Proper (.list a d)

theorem Proper.ne_null (ht : t.Proper) : t ≠ .null := by
  rintro rfl
  cases ht

theorem Proper.ok (ht : t.Proper) : t.Ok := by
  induction ht with
  | atom name => trivial
  | int value => trivial
  | float value => trivial
  | nil => exact ok_nil
  | last _ iha => exact ⟨iha, trivial, trivial⟩
  | @cons a d _ hd hlist iha ihd =>
    refine ⟨iha, ihd, ?_⟩
    cases d with
    | list x y => trivial
    | _ => cases hlist

theorem elements_cons (ha : a ≠ .null) : (Obj.list a d).elements = a :: d.elements := by
  cases a <;> first | exact absurd rfl ha | rfl

/-- The cases of a list value. -/
theorem Proper.list_cases (ht : t.Proper) (hlist : t.isList = true) :
    t = .nil ∨ ∃ a d, t = .list a d ∧ a.Proper ∧ (d = .null ∨ d.Proper ∧ d.isList = true) := by
  cases ht with
  | atom name => cases hlist
  | int value => cases hlist
  | float value => cases hlist
  | nil => exact Or.inl rfl
  | last ha => exact Or.inr ⟨_, _, rfl, ha, Or.inl rfl⟩
  | cons ha hd hl => exact Or.inr ⟨_, _, rfl, ha, Or.inr ⟨hd, hl⟩⟩

/-- A list is empty if and only if it is a cell with two `NULL` fields. -/
theorem Proper.elements_isEmpty (ht : t.Proper) (hlist : t.isList = true) :
    t.elements.isEmpty = t.isNil := by
  rcases ht.list_cases hlist with rfl | ⟨a, d, rfl, ha, -⟩
  · rfl
  · rw [elements_cons ha.ne_null]
    cases ha <;> rfl

end Obj

variable [CFloat F]

theorem proper_parseAtom (e : Text) : (parseAtom e : Obj F × Nat).1.Proper := by
  rcases parseAtom_cases (F := F) e with ⟨z, hz⟩ | ⟨x, hx⟩ | ⟨n, hn⟩
  · rw [hz]
    exact .int z
  · rw [hx]
    exact .float x
  · rw [hn]
    exact .atom n

mutual

theorem SExpr.proper : (e : SExpr) → (e.toObj : Obj F).Proper
  | .token name => by
    rw [SExpr.toObj]
    exact proper_parseAtom name
  | .paren [] => by
    rw [SExpr.toObj]
    exact .nil
  | .paren (e :: es) => by
    rw [SExpr.toObj]
    rcases SExpr.proper_elements es with hnull | ⟨hes, hlist⟩
    · rw [hnull]
      exact .last e.proper
    · exact .cons e.proper hes hlist
  | .quote e => by
    rw [SExpr.toObj]
    exact .cons (.atom _) (.last e.proper) rfl

theorem SExpr.proper_elements : (es : List SExpr) → (SExpr.elementsToObj es : Obj F) = .null ∨
    (SExpr.elementsToObj es : Obj F).Proper ∧ (SExpr.elementsToObj es : Obj F).isList = true
  | [] => by
    rw [SExpr.elementsToObj]
    exact Or.inl rfl
  | e :: es => by
    rw [SExpr.elementsToObj]
    right
    rcases SExpr.proper_elements es with hnull | ⟨hes, hlist⟩
    · rw [hnull]
      exact ⟨.last e.proper, rfl⟩
    · exact ⟨.cons e.proper hes hlist, rfl⟩

end

end values

section operations
variable {u v : Obj F}

namespace Obj

/-- The value of `car` for the value of its argument. -/
def carValue (v : Obj F) : Obj F :=
  if !v.isList then .null else if v.isNil then .nil else v.ith 0

/-- `CDR` of a list. -/
def cdrList : Obj F → Obj F
  | .list _ b => b
  | _ => .null

/-- The value of `cdr` for the value of its argument. -/
def cdrValue (v : Obj F) : Obj F :=
  if !v.isList then .null else if v.isNil then .nil
  else if v.cdrList.isNull then .nil else v.cdrList

/-- The value of `cons` for the values of its arguments. -/
def consValue (u v : Obj F) : Obj F :=
  if u.isNull then .null else if !v.isList then .null else .list u v

theorem isNil_cons (ha : a ≠ .null) : (Obj.list a d).isNil = false := by
  cases a <;> first | exact absurd rfl ha | rfl

theorem ne_null_of_isList (hlist : t.isList = true) : t ≠ .null := by
  rintro rfl
  cases hlist

theorem elements_consValue (hu : u ≠ .null) (hv : v.isList = true) :
    (u.consValue v).isList = true ∧ (u.consValue v).elements = u :: v.elements := by
  have hcons : u.consValue v = .list u v := by simp [consValue, isNull_iff, hu, hv]
  rw [hcons]
  exact ⟨rfl, elements_cons hu⟩

theorem carValue_cons (ha : a ≠ .null) : (Obj.list a d).carValue = a := by
  simp [carValue, isNil_cons ha, isList, ith]

theorem Proper.carValue_eq (hv : v.Proper) (hlist : v.isList = true) :
    v.carValue = v.elements.headD .nil := by
  rcases hv.list_cases hlist with rfl | ⟨a, d, rfl, ha, -⟩
  · rfl
  · rw [carValue_cons ha.ne_null, elements_cons ha.ne_null, List.headD_cons]

/-- `cdr` gives the empty list for the end of a list, whichever it is. -/
theorem cdrValue_cons (ha : a ≠ .null) :
    (Obj.list a d).cdrValue = if d.isNull then .nil else d := by
  simp only [cdrValue, isNil_cons ha, isList, Bool.not_true, Bool.false_eq_true, if_false]
  rfl

theorem Proper.elements_cdrValue (hv : v.Proper) (hlist : v.isList = true) :
    v.cdrValue.isList = true ∧ v.cdrValue.elements = v.elements.tail := by
  rcases hv.list_cases hlist with rfl | ⟨a, d, rfl, ha, rfl | ⟨hd, hl⟩⟩
  · exact ⟨rfl, rfl⟩
  · rw [cdrValue_cons ha.ne_null, isNull, if_pos rfl, elements_cons ha.ne_null]
    exact ⟨rfl, rfl⟩
  · rw [cdrValue_cons ha.ne_null, if_neg (mt isNull_iff.1 hd.ne_null), elements_cons ha.ne_null]
    exact ⟨hl, rfl⟩

theorem proper_consValue (hu : u = .null ∨ u.Proper) (hv : v = .null ∨ v.Proper) :
    u.consValue v = .null ∨ (u.consValue v).Proper := by
  rcases hu with rfl | hu
  · exact Or.inl rfl
  cases hlist : v.isList with
  | false => simp [consValue, hlist]
  | true =>
    have hv := hv.resolve_left (ne_null_of_isList hlist)
    have hcons : u.consValue v = .list u v := by simp [consValue, isNull_iff, hu.ne_null, hlist]
    rw [hcons]
    exact Or.inr (.cons hu hv hlist)

theorem proper_carValue (hv : v = .null ∨ v.Proper) :
    v.carValue = .null ∨ v.carValue.Proper := by
  cases hlist : v.isList with
  | false => simp [carValue, hlist]
  | true =>
    rcases (hv.resolve_left (ne_null_of_isList hlist)).list_cases hlist with
      rfl | ⟨a, d, rfl, ha, -⟩
    · exact Or.inr .nil
    · rw [carValue_cons ha.ne_null]
      exact Or.inr ha

theorem proper_cdrValue (hv : v = .null ∨ v.Proper) :
    v.cdrValue = .null ∨ v.cdrValue.Proper := by
  cases hlist : v.isList with
  | false => simp [cdrValue, hlist]
  | true =>
    rcases (hv.resolve_left (ne_null_of_isList hlist)).list_cases hlist with
      rfl | ⟨a, d, rfl, ha, rfl | ⟨hd, -⟩⟩
    · exact Or.inr .nil
    · rw [cdrValue_cons ha.ne_null, isNull, if_pos rfl]
      exact Or.inr .nil
    · rw [cdrValue_cons ha.ne_null, if_neg (mt isNull_iff.1 hd.ne_null)]
      exact Or.inr hd

end Obj

end operations

section printing
variable [CFloat F] {address : Primitive → Text} {texts : List Text}

/-- The texts with a space between each two; of no texts there is none. -/
def joined (texts : List Text) : Option Text :=
  if texts = [] then none else some ([' '].intercalate texts)

/-- The text of a list whose elements have these texts. -/
def printedList (texts : List Text) : Text :=
  if texts = [] then "nil".toList else '(' :: [' '].intercalate texts ++ [')']

theorem joined_cons (text : Text) :
    joined (text :: texts) = some (text ++ restText (joined texts)) := by
  cases texts with
  | nil => simp [joined, restText]
  | cons u us => simp [joined, restText, List.intercalate]

theorem unparse_list : unparse address (.list a d) =
    (unparseList address (.list a d)).map fun text =>
      some (text.elim "nil".toList fun text => '(' :: text ++ [')']) := by
  rw [unparse, unparseList]
  cases h : unparseCell (unparse address a) (unparseList address d) with
  | error e => rfl
  | ok text => cases text <;> rfl

/-- What is printed for each element, and for all of them. -/
def PrintsElements (address : Primitive → Text) (t : Obj F) (texts : List Text) : Prop :=
  List.Forall₂ (fun x text => unparse address x = .ok (some text)) t.elements texts ∧
    unparseList address t = .ok (joined texts)

theorem PrintsElements.printed (h : PrintsElements address t texts) (hlist : t.isList = true) :
    unparse address t = .ok (some (printedList texts)) := by
  cases t with
  | list a d =>
    rw [unparse_list, h.2]
    cases texts <;> rfl
  | _ => cases hlist

theorem PrintsElements.cons {text : Text} (ha : a ≠ .null)
    (hcar : unparse address a = .ok (some text)) (hd : PrintsElements address d texts) :
    PrintsElements address (.list a d) (text :: texts) := by
  constructor
  · rw [Obj.elements_cons ha]
    exact .cons hcar hd.1
  · rw [unparseList, hcar, hd.2, unparseCell_ok, joined_cons]

/-- Each value is printed, and a list as its elements are. -/
theorem Obj.Proper.printed (ht : t.Proper) : (∃ text, unparse address t = .ok (some text)) ∧
    (t.isList = true → ∃ texts, PrintsElements address t texts) := by
  induction ht with
  | atom name => exact ⟨⟨name, rfl⟩, fun h => by cases h⟩
  | int value => exact ⟨⟨_, rfl⟩, fun h => by cases h⟩
  | float value => exact ⟨⟨_, rfl⟩, fun h => by cases h⟩
  | nil =>
    have hnil : PrintsElements address (.nil : Obj F) [] := ⟨.nil, rfl⟩
    exact ⟨⟨_, hnil.printed rfl⟩, fun _ => ⟨[], hnil⟩⟩
  | last ha iha =>
    obtain ⟨⟨text, htext⟩, -⟩ := iha
    have hlast := PrintsElements.cons ha.ne_null htext (show PrintsElements address .null [] from
      ⟨.nil, rfl⟩)
    exact ⟨⟨_, hlast.printed rfl⟩, fun _ => ⟨_, hlast⟩⟩
  | cons ha hd hlist iha ihd =>
    obtain ⟨⟨text, htext⟩, -⟩ := iha
    obtain ⟨texts, htexts⟩ := ihd.2 hlist
    have hcons := PrintsElements.cons ha.ne_null htext htexts
    exact ⟨⟨_, hcons.printed rfl⟩, fun _ => ⟨_, hcons⟩⟩

end printing
end Lisp
