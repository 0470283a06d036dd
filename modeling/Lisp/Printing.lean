import Lisp.ParserComplete
import Mathlib.Tactic.IntervalCases
import Mathlib.Data.List.TakeWhile

/-! The printer (`unparse` in `parser.c`), and what the parser makes of a printed object. -/
namespace Lisp
variable {F : Type} [CFloat F]

section source

/-- `sprintf` with `%d`. -/
def printInt (n : Int) : Text :=
  if n < 0 then '-' :: Nat.toDigits 10 n.natAbs else Nat.toDigits 10 n.natAbs

/-- `list_length` of a list that ends with `NULL` and has fewer than `2 ^ 31` cells. -/
def Obj.listLength : Obj F → Nat
  | .null => 0
  | .list _ cdr => cdr.listLength + 1
  | _ => 1

/-- The text of a list cell in `unparse_list`, from those of its car and its cdr. -/
def unparseCell (car cdr : Except Fault (Option Text)) : Except Fault (Option Text) := do
  let carExpr ← car
  match carExpr with
  | none => return none
  | some carExpr =>
    let cdrExpr ← cdr
    match cdrExpr with
    | none => return some carExpr
    | some cdrExpr => return some (carExpr ++ ' ' :: cdrExpr)

/-- The text of a closure, in a buffer of 256 characters. A `NULL` is printed as `(null)`. -/
def unparseClosure (para : Option Text) (numCapt : Nat) : Except Fault (Option Text) :=
  let text := "<closure:".toList ++ para.getD "(null)".toList ++ ", ".toList ++
    Nat.toDigits 10 numCapt ++ " vars captured>".toList
  if text.length < 256 then .ok (some text) else .error .outOfBounds

mutual

/-- `unparse`, where `address` is the text of the pointer to a primitive. -/
def unparse (address : Primitive → Text) : Obj F → Except Fault (Option Text)
  | .null => .ok none
  | .atom name => .ok (some name)
  | .int value => .ok (some (printInt value))
  | .float value => .ok (some (CFloat.print value))
  | .primitive f => .ok (some ("\x1B[35m".toList ++ address f ++ "\x1B[0m".toList))
  | .closure parameters _ captured _ => do
    let para ← unparse address parameters
    unparseClosure para captured.listLength
  | .list car cdr => do
    let listExpr ← unparseCell (unparse address car) (unparseList address cdr)
    match listExpr with
    | none => return some "nil".toList
    | some listExpr => return some ('(' :: listExpr ++ [')'])

/-- `unparse_list`, which reads the car of what it is given. -/
def unparseList (address : Primitive → Text) : Obj F → Except Fault (Option Text)
  | .null => .ok none
  | .list car cdr => unparseCell (unparse address car) (unparseList address cdr)
  | _ => .error .outOfBounds

end

end source

section numbers

theorem isDigit_of_mem {n : Nat} {c : Char} (h : c ∈ Nat.toDigits 10 n) : c.isDigit = true :=
  Nat.isDigit_of_mem_toDigits (by decide) (by decide) h

/-- What the parser asks about a digit. -/
theorem digit_facts {c : Char} (h : c.isDigit = true) : isAtomChar c = true ∧
    isDigitOf 10 c = true ∧ digitValue c = some (c.toNat - '0'.toNat) ∧ isSpace c = false ∧
      c ≠ '\'' ∧ c ≠ '.' ∧ c ≠ '-' ∧ c ≠ '+' := by
  have hall : ∀ k : Fin 10, isAtomChar (Char.ofNat (48 + k)) = true ∧
      isDigitOf 10 (Char.ofNat (48 + k)) = true ∧
      digitValue (Char.ofNat (48 + k)) = some ((Char.ofNat (48 + k)).toNat - '0'.toNat) ∧
      isSpace (Char.ofNat (48 + k)) = false ∧ Char.ofNat (48 + k) ≠ '\'' ∧
      Char.ofNat (48 + k) ≠ '.' ∧ Char.ofNat (48 + k) ≠ '-' ∧ Char.ofNat (48 + k) ≠ '+' := by
    decide
  obtain ⟨hlow, hup⟩ : 48 ≤ c.toNat ∧ c.toNat ≤ 57 := Char.isDigit_iff_toNat.1 h
  have hc : c = Char.ofNat (48 + (⟨c.toNat - 48, by omega⟩ : Fin 10)) := by
    show c = Char.ofNat (48 + (c.toNat - 48))
    rw [Nat.add_sub_of_le hlow, Char.ofNat_toNat]
  rw [hc]
  exact hall _

/-- The first digit of a positive number is not zero. -/
theorem toDigits_head {n : Nat} (h : 0 < n) : ∃ c s, Nat.toDigits 10 n = c :: s ∧ c ≠ '0' := by
  induction n using Nat.strongRecOn with
  | ind n ih =>
    by_cases hn : n < 10
    · refine ⟨n.digitChar, [], Nat.toDigits_of_lt_base hn, ?_⟩
      interval_cases n <;> decide
    · obtain ⟨c, s, hs, hc⟩ := ih (n / 10) (by omega) (by omega)
      exact ⟨c, s ++ [(n % 10).digitChar],
        by rw [Nat.toDigits_of_base_le (by decide) (by omega), hs]; rfl, hc⟩

theorem digitsValue_toDigits (n : Nat) : digitsValue 10 (Nat.toDigits 10 n) = n := by
  have hfold : ∀ (ds : Text) (v : Nat), (∀ c ∈ ds, c.isDigit = true) →
      ds.foldl (fun v c => v * 10 + (digitValue c).getD 0) v = Nat.ofDigitChars 10 ds v := by
    intro ds
    induction ds with
    | nil => simp
    | cons c ds ih =>
      intro v hds
      have hc := (digit_facts (hds c List.mem_cons_self)).2.2.1
      rw [List.foldl_cons, ih _ fun d hd => hds d (List.mem_cons_of_mem c hd), hc,
        Nat.ofDigitChars_cons, Nat.mul_comm]
      rfl
  rw [digitsValue, hfold _ _ fun c hc => isDigit_of_mem hc, Nat.ofDigitChars_ten_toDigits]

/-- The base that is detected for a printed number reads all its digits. -/
theorem detectBase_toDigits (n : Nat) : ∃ base, detectBase (Nat.toDigits 10 n) =
    (base, Nat.toDigits 10 n) ∧ (Nat.toDigits 10 n).takeWhile (isDigitOf base) = Nat.toDigits 10 n ∧
      digitsValue base (Nat.toDigits 10 n) = n := by
  rcases Nat.eq_zero_or_pos n with rfl | hn
  · exact ⟨8, by decide, by decide, by decide⟩
  · obtain ⟨c, s, hs, hc⟩ := toDigits_head hn
    refine ⟨10, ?_, ?_, digitsValue_toDigits n⟩
    · rw [hs]
      unfold detectBase
      split
      · rename_i heq
        exact absurd (List.cons.inj heq).1 hc
      · rename_i heq
        exact absurd (List.cons.inj heq).1 hc
      · rfl
    · have hall : ∀ d ∈ Nat.toDigits 10 n, isDigitOf 10 d = true :=
        fun d hd => (digit_facts (isDigit_of_mem hd)).2.1
      exact List.takeWhile_eq_self_iff.2 hall

/-- The sign and the digits of what is printed. -/
theorem splitSign_printInt (z : Int) : splitSign ((printInt z).dropWhile isSpace) =
    (decide (z < 0), Nat.toDigits 10 z.natAbs) := by
  unfold printInt
  by_cases hz : z < 0
  · rw [if_pos hz, List.dropWhile_cons_of_neg (by decide), splitSign, decide_eq_true hz]
  · rw [if_neg hz, decide_eq_false hz]
    have hne := Nat.toDigits_ne_nil (n := z.natAbs) (b := 10)
    cases hds : Nat.toDigits 10 z.natAbs with
    | nil => exact absurd hds hne
    | cons c s =>
      have hc : c ∈ Nat.toDigits 10 z.natAbs := by simp [hds]
      obtain ⟨-, -, -, hspace, -, -, hminus, hplus⟩ := digit_facts (isDigit_of_mem hc)
      rw [List.dropWhile_cons_of_neg (by simp [hspace])]
      unfold splitSign
      split
      · rename_i heq
        exact absurd (List.cons.inj heq).1 hminus
      · rename_i heq
        exact absurd (List.cons.inj heq).1 hplus
      · rfl

/-- `strtol` reads back what is printed. -/
theorem strtol_printInt {z : Int} (hl : -2 ^ 31 ≤ z) (hu : z < 2 ^ 31) :
    strtol (printInt z) = (z, (printInt z).length) := by
  obtain ⟨base, hbase, htake, hvalue⟩ := detectBase_toDigits z.natAbs
  have hne : (Nat.toDigits 10 z.natAbs).isEmpty = false := by
    simp [Nat.toDigits_ne_nil]
  unfold strtol
  rw [splitSign_printInt]
  simp only [hbase, htake, hne, Bool.false_eq_true, if_false, hvalue, List.drop_length,
    List.length_nil, Nat.sub_zero, clampLong, decide_eq_true_eq]
  rw [Prod.mk.injEq]
  constructor
  · split_ifs <;> omega
  · trivial

theorem mem_printInt {z : Int} {c : Char} (h : c ∈ printInt z) :
    isAtomChar c = true ∧ c ≠ '.' ∧ c ≠ '\'' := by
  have hdigit : ∀ c ∈ Nat.toDigits 10 z.natAbs, isAtomChar c = true ∧ c ≠ '.' ∧ c ≠ '\'' := by
    intro c hc
    obtain ⟨h1, -, -, -, h2, h3, -⟩ := digit_facts (isDigit_of_mem hc)
    exact ⟨h1, h3, h2⟩
  unfold printInt at h
  split_ifs at h
  · rcases List.mem_cons.1 h with rfl | h
    · decide
    · exact hdigit c h
  · exact hdigit c h

theorem isToken_printInt (z : Int) : IsToken (printInt z) := by
  refine ⟨?_, ?_, fun c hc => (mem_printInt hc).1⟩
  · unfold printInt
    split_ifs
    · exact List.cons_ne_nil _ _
    · exact Nat.toDigits_ne_nil
  · intro hq
    exact (mem_printInt (List.mem_of_mem_head? hq)).2.2 rfl

/-- The parser makes the number of what is printed. -/
theorem parseAtom_printInt {z : Int} (hl : -2 ^ 31 ≤ z) (hu : z < 2 ^ 31)
    (hlen : (printInt z).length < 2 ^ 31) : (parseAtom (printInt z) : Obj F × Nat).1 = .int z := by
  have hsize : atomSize (printInt z) = (printInt z).length := by
    simpa using atomSize_token (isToken_printInt z) delimited_nil (by simpa using hlen)
  have hdot : containsDot (printInt z) (printInt z).length = false := by
    rw [containsDot, List.take_length, List.any_eq_false]
    intro c hc
    simpa using (mem_printInt hc).2.1
  have hpos : (printInt z).length ≠ 0 := by
    have := (isToken_printInt z).1
    simpa using this
  simp only [parseAtom, hsize, hdot, List.take_length, strtol_printInt hl hu, bne_iff_ne, ne_eq,
    hpos, not_false_eq_true, Bool.not_false, Bool.and_true, if_true, toInt_eq_self hl hu]

end numbers

section objects

mutual

/-- Integers, atoms that `parse_atom` reads as atoms, and proper lists of such objects. -/
inductive Printable : Obj F → Prop where
  | int {z : Int} (hl : -2 ^ 31 ≤ z) (hu : z < 2 ^ 31) : Printable (.int z)
  | atom {name : Text} (hn : IsToken name) (hp : (parseAtom name : Obj F × Nat).1 = .atom name) :
    Printable (.atom name)
  | list {o : Obj F} (h : ProperList o) : Printable o

/-- A list that ends with `NULL` or with the empty list. -/
inductive ProperList : Obj F → Prop where
  | nil : ProperList .nil
  | last {car : Obj F} (h : Printable car) : ProperList (.list car .null)
  | cons {car cdr : Obj F} (h : Printable car) (hs : ProperList cdr) : ProperList (.list car cdr)

end

mutual

/-- The object with each empty list replaced by the atom `nil`, and lists ended with `NULL`. -/
def Obj.normal : Obj F → Obj F
  | .list .null .null => .atom "nil".toList
  | .list car cdr => .list car.normal cdr.normalRest
  | o => o

def Obj.normalRest : Obj F → Obj F
  | .list .null .null => .null
  | .list car cdr => .list car.normal cdr.normalRest
  | o => o

end

mutual

/-- The expression that is printed for an object. -/
def Obj.toSExpr : Obj F → SExpr
  | .int z => .token (printInt z)
  | .atom name => .token name
  | .list .null .null => .token "nil".toList
  | .list car cdr => .paren (car.toSExpr :: cdr.toElements)
  | _ => .token []

def Obj.toElements : Obj F → List SExpr
  | .list .null .null => []
  | .list car cdr => car.toSExpr :: cdr.toElements
  | _ => []

end

/-- Text after an element: nothing more, or a space and the other elements. -/
def restText : Option Text → Text
  | none => []
  | some text => ' ' :: text

variable {address : Primitive → Text} {o car cdr : Obj F} {text : Text}

/-- A layout may begin with one more space. -/
theorem Layout.space {e : SExpr} (h : Layout e text) : Layout e (' ' :: text) := by
  have hspace : ∀ ws, AllWhite ws → AllWhite (' ' :: ws) := by
    intro ws hws c hc
    rcases List.mem_cons.1 hc with rfl | hc
    · exact Or.inl rfl
    · exact hws c hc
  cases h with
  | @token ws _ hws hn => exact Layout.token (hspace ws hws) hn
  | @paren ws _ _ hws he => exact Layout.paren (hspace ws hws) he
  | @quote ws _ _ hws he => exact Layout.quote (hspace ws hws) he

/-- What is printed for an object that is not `NULL`. -/
theorem Printable.ne_null (h : Printable o) : o ≠ .null := by
  rintro rfl
  cases h with
  | list h => cases h

/-- What is printed for a printable object: a layout of its expression, which denotes the normal
object. -/
structure Prints (address : Primitive → Text) (o : Obj F) (text : Text) : Prop where
  unparse : unparse address o = .ok (some text)
  normal : Lisp.unparse address o.normal = .ok (some text)
  layout : Layout o.toSExpr text
  denotes : text.length < 2 ^ 31 → (o.toSExpr.toObj : Obj F) = o.normal

/-- What `unparse_list` prints for the rest of a list, and the closing parenthesis. -/
structure PrintsRest (address : Primitive → Text) (o : Obj F) (text : Option Text) : Prop where
  unparse : unparseList address o = .ok text
  normal : unparseList address o.normalRest = .ok text
  layout : ElementsLayout o.toElements (restText text ++ [')'])
  delimited : Delimited (restText text ++ [')'])
  denotes : (restText text).length < 2 ^ 31 →
    (SExpr.elementsToObj o.toElements : Obj F) = o.normalRest

theorem prints_int {z : Int} (hl : -2 ^ 31 ≤ z) (hu : z < 2 ^ 31) :
    Prints address (.int z : Obj F) (printInt z) := by
  constructor
  case unparse => rfl
  case normal => rfl
  case layout =>
    have h := Layout.token allWhite_nil (isToken_printInt z)
    simpa [Obj.toSExpr] using h
  case denotes => exact fun hlen => parseAtom_printInt hl hu hlen

theorem prints_atom {name : Text} (hn : IsToken name)
    (hp : (parseAtom name : Obj F × Nat).1 = .atom name) :
    Prints address (.atom name : Obj F) name := by
  constructor
  case unparse => rfl
  case normal => rfl
  case layout =>
    have h := Layout.token allWhite_nil hn
    simpa [Obj.toSExpr] using h
  case denotes => exact fun _ => hp

theorem printsRest_nil : PrintsRest address (.nil : Obj F) none := by
  constructor
  case unparse => rfl
  case normal => rfl
  case layout => exact ElementsLayout.nil allWhite_nil
  case delimited => simp [Delimited, restText, isAtomChar]
  case denotes => exact fun _ => rfl

theorem printsRest_null : PrintsRest address (.null : Obj F) none := by
  constructor
  case unparse => rfl
  case normal => rfl
  case layout => exact ElementsLayout.nil allWhite_nil
  case delimited => simp [Delimited, restText, isAtomChar]
  case denotes => exact fun _ => rfl

theorem parseAtom_nil : (parseAtom "nil".toList : Obj F × Nat).1 = .atom "nil".toList :=
  parseAtom_word (by decide) (by decide) (by decide)

theorem isToken_nil : IsToken "nil".toList := by
  refine ⟨by decide, by decide, ?_⟩
  exact List.all_eq_true.1 (show "nil".toList.all isAtomChar = true by decide)

theorem prints_nil : Prints address (.nil : Obj F) "nil".toList := by
  have h : Prints address (.atom _ : Obj F) _ := prints_atom isToken_nil parseAtom_nil
  constructor
  case unparse => rfl
  case normal => rfl
  case layout => exact h.layout
  case denotes => exact h.denotes

section cells
variable (hcar : car ≠ .null)
include hcar
omit [CFloat F]

/-- A cell with a car is not the empty list. -/
theorem normal_list : (Obj.list car cdr).normal = .list car.normal cdr.normalRest := by
  cases car <;> first | exact absurd rfl hcar | rfl

theorem normalRest_list : (Obj.list car cdr).normalRest = .list car.normal cdr.normalRest := by
  cases car <;> first | exact absurd rfl hcar | rfl

theorem toSExpr_list : (Obj.list car cdr).toSExpr = .paren (car.toSExpr :: cdr.toElements) := by
  cases car <;> first | exact absurd rfl hcar | rfl

theorem toElements_list : (Obj.list car cdr).toElements = car.toSExpr :: cdr.toElements := by
  cases car <;> first | exact absurd rfl hcar | rfl

end cells

theorem unparseCell_ok (text : Text) (rest : Option Text) :
    unparseCell (.ok (some text)) (.ok rest) = .ok (some (text ++ restText rest)) := by
  cases rest with
  | none => simp [unparseCell, restText, Bind.bind, Except.bind, pure, Except.pure]
  | some rest => simp [unparseCell, restText, Bind.bind, Except.bind, pure, Except.pure]

/-- The elements of a list: the first one, and the rest behind a space. -/
theorem printsRest_cons {rest : Option Text} (hcar : car ≠ .null) (h : Prints address car text)
    (hs : PrintsRest address cdr rest) :
    PrintsRest address (.list car cdr) (some (text ++ restText rest)) := by
  constructor
  case unparse => rw [unparseList, h.unparse, hs.unparse, unparseCell_ok]
  case normal =>
    rw [normalRest_list hcar, unparseList, h.normal, hs.normal, unparseCell_ok]
  case layout =>
    rw [toElements_list hcar]
    simpa [restText] using ElementsLayout.cons h.layout.space hs.layout fun _ => hs.delimited
  case delimited => simp [Delimited, restText, isAtomChar, isWhiteSpace]
  case denotes =>
    intro hlen
    have hsum : (' ' :: (text ++ restText rest)).length < 2 ^ 31 := hlen
    simp only [List.length_cons, List.length_append] at hsum
    rw [toElements_list hcar, normalRest_list hcar, SExpr.elementsToObj, h.denotes (by omega),
      hs.denotes (by omega)]

theorem prints_list {rest : Option Text} (hcar : car ≠ .null) (h : Prints address car text)
    (hs : PrintsRest address cdr rest) :
    Prints address (.list car cdr) ('(' :: (text ++ restText rest) ++ [')']) := by
  constructor
  case unparse =>
    rw [unparse, h.unparse, hs.unparse, unparseCell_ok]
    rfl
  case normal =>
    rw [normal_list hcar, unparse, h.normal, hs.normal, unparseCell_ok]
    rfl
  case layout =>
    rw [toSExpr_list hcar]
    have helements := ElementsLayout.cons h.layout hs.layout fun _ => hs.delimited
    simpa using Layout.paren allWhite_nil helements
  case denotes =>
    intro hlen
    simp only [List.length_cons, List.length_append] at hlen
    rw [toSExpr_list hcar, normal_list hcar, SExpr.toObj, h.denotes (by omega),
      hs.denotes (by omega)]

mutual

theorem Printable.prints {o : Obj F} : Printable o → ∃ text, Prints address o text
  | .int hl hu => ⟨_, prints_int hl hu⟩
  | .atom hn hp => ⟨_, prints_atom hn hp⟩
  | .list .nil => ⟨_, prints_nil⟩
  | .list (.last h) => by
    obtain ⟨text, ht⟩ := h.prints
    exact ⟨_, prints_list h.ne_null ht printsRest_null⟩
  | .list (.cons h hs) => by
    obtain ⟨text, ht⟩ := h.prints
    obtain ⟨rest, hr⟩ := hs.printsRest
    exact ⟨_, prints_list h.ne_null ht hr⟩

theorem ProperList.printsRest {o : Obj F} : ProperList o → ∃ text, PrintsRest address o text
  | .nil => ⟨_, printsRest_nil⟩
  | .last h => by
    obtain ⟨text, ht⟩ := h.prints
    exact ⟨_, printsRest_cons h.ne_null ht printsRest_null⟩
  | .cons h hs => by
    obtain ⟨text, ht⟩ := h.prints
    obtain ⟨rest, hr⟩ := hs.printsRest
    exact ⟨_, printsRest_cons h.ne_null ht hr⟩

end

/-- A printed object is read back in its normal form, up to the end of the text, and printed the
same, if the text is shorter than `2 ^ 31`. -/
theorem print_read (address : Primitive → Text) {o : Obj F} (h : Printable o) :
    ∃ text, unparse address o = .ok (some text) ∧ (text.length < 2 ^ 31 →
      (∀ fuel, text.length ≤ fuel →
        parseExpression text fuel 0 = .ok (o.normal, text.length)) ∧
      unparse address o.normal = .ok (some text)) := by
  obtain ⟨text, ht⟩ : ∃ text, Prints address o text := h.prints
  refine ⟨text, ht.unparse, fun hlen => ⟨fun fuel hf => ?_, ht.normal⟩⟩
  have hparse : parseExpression (text ++ []) fuel 0 =
      .ok ((o.toSExpr.toObj : Obj F), text.length) :=
    parseExpression_complete ht.layout (fun _ => delimited_nil) (by simpa using hlen) hf
  rw [List.append_nil, ht.denotes hlen] at hparse
  exact hparse

theorem print_read_list : ∃ text, unparse (fun _ => []) (.list (.int (-2)) .nil : Obj NoFloat) =
    .ok (some text) ∧ (text.length < 2 ^ 31 →
      (∀ fuel, text.length ≤ fuel →
        parseExpression text fuel 0 = .ok ((.list (.int (-2)) .null : Obj NoFloat), text.length)) ∧
      unparse (fun _ => []) (.list (.int (-2)) .null : Obj NoFloat) = .ok (some text)) :=
  print_read (fun _ => []) (.list (.cons (.int (by decide) (by decide)) .nil))

section long

/-- The list of `n` atoms `a`. -/
def manyAtoms : Nat → Obj NoFloat
  | 0 => .null
  | n + 1 => .list (.atom ['a']) (manyAtoms n)

def manyText : Nat → Option Text
  | 0 => none
  | n + 1 => some (['a'] ++ restText (manyText n))

theorem isToken_a : IsToken ['a'] := by simp [IsToken, isAtomChar, isWhiteSpace]

theorem parseAtom_a : (parseAtom ['a'] : Obj NoFloat × Nat).1 = .atom ['a'] := by
  have hi : (strtol ['a']).2 = 0 := by decide
  have hf : strtofConverts ['a'] = false := by decide
  have ha : ['a'].take (atomSize ['a']) = ['a'] := by decide
  simp only [parseAtom, ha, hi, hf, bne_self_eq_false, Bool.false_and]
  rfl

theorem printsRest_many (n : Nat) : PrintsRest address (manyAtoms n) (manyText n) := by
  induction n with
  | zero => exact printsRest_null
  | succ n ih => exact printsRest_cons (by simp) (prints_atom isToken_a parseAtom_a) ih

theorem length_manyText (n : Nat) : (restText (manyText n)).length = 2 * n := by
  induction n with
  | zero => rfl
  | succ n ih =>
    simp only [manyText, restText, List.length_cons, List.length_append, List.length_nil] at ih ⊢
    omega

theorem properList_many (n : Nat) : ProperList (manyAtoms (n + 1)) := by
  induction n with
  | zero => exact .last (.atom isToken_a parseAtom_a)
  | succ n ih => exact .cons (.atom isToken_a parseAtom_a) ih

/-- A token in front of `2 ^ 31` characters is read as an empty one, again and again. -/
theorem parseList_stuck {s : Text} (hs : ('a' :: s).length = 2 ^ 31) (fuel : Nat)
    (r : Obj NoFloat × Nat) : parseList ('(' :: 'a' :: s) fuel 1 ≠ .ok r := by
  obtain ⟨h1, h2, h3, h4⟩ := call_start ['('] s 'a' allWhite_nil.blank (by decide) (by simp)
  simp only [List.cons_append, List.nil_append, List.length_cons, List.length_nil, Nat.cast_one,
    Nat.cast_zero, add_zero, zero_add] at h1 h2 h3 h4
  have hsize : atomSize ('a' :: s) = 0 := by
    apply atomSize_of_overflow
    rw [hs]
    decide
  have hsum : toSize 0 = 0 := by decide
  have hne : (0 : Int) ≠ -1 := by decide
  induction fuel generalizing r with
  | zero => simp [parseList]
  | succ fuel ih =>
    intro h
    cases fuel with
    | zero =>
      simp only [parseList, parseExpression, h1, h2, h4, add_zero, Bind.bind, Except.bind,
        Char.reduceEq, reduceIte] at h
      cases h
    | succ fuel =>
      rw [parseList] at h
      simp only [parseExpression, parseAtom, h1, h2, h4, hsize, hsum, hne, add_zero, Bind.bind,
        Except.bind, pure, Except.pure, Char.reduceEq, reduceIte, Nat.cast_zero] at h
      cases hrest : (parseList ('(' :: 'a' :: s) (fuel + 1) 1 :
          Except Fault (Obj NoFloat × Nat)) with
      | error _ => simp [hrest] at h
      | ok r' => exact ih r' hrest

/-- A list of `2 ^ 30` atoms is printed, and its text is not read back. -/
theorem print_read_long : ∃ o : Obj NoFloat, Printable o ∧ ∃ text,
    unparse (fun _ => []) o = .ok (some text) ∧
      ∀ fuel, parseExpression text fuel 0 ≠ .ok (o.normal, text.length) := by
  obtain ⟨n, hn⟩ : ∃ n, n + 1 = 2 ^ 30 := ⟨2 ^ 30 - 1, by norm_num⟩
  have hprints : Prints (fun _ => []) (manyAtoms (n + 1)) _ :=
    prints_list (by simp) (prints_atom isToken_a parseAtom_a) (printsRest_many n)
  refine ⟨manyAtoms (n + 1), .list (properList_many n), _, hprints.unparse, fun fuel h => ?_⟩
  have hlen : ('a' :: (restText (manyText n) ++ [')'])).length = 2 ^ 31 := by
    simp only [List.length_cons, List.length_append, length_manyText, List.length_nil]
    omega
  obtain ⟨h1, h2, h3, h4⟩ := call_start [] ('a' :: (restText (manyText n) ++ [')'])) '('
    allWhite_nil.blank (by decide) (by simp)
  simp only [List.nil_append, List.length_nil, Nat.cast_zero, add_zero] at h1 h2 h3 h4
  have hne : (0 : Int) ≠ -1 := by decide
  cases fuel with
  | zero => simp [parseExpression] at h
  | succ fuel =>
    simp only [List.cons_append, List.nil_append, parseExpression, h1, h2, h4, hne, add_zero,
      zero_add, Bind.bind, Except.bind, Char.reduceEq, reduceIte] at h
    cases hlist : (parseList ('(' :: 'a' :: (restText (manyText n) ++ [')'])) fuel 1 :
        Except Fault (Obj NoFloat × Nat)) with
    | error _ => simp [hlist] at h
    | ok r => exact parseList_stuck hlen fuel r hlist

end long

end objects

end Lisp
