import Lisp.Evaluator
import Lisp.Reading
import Mathlib.Algebra.Order.Archimedean.Basic
import Mathlib.Data.Rat.Floor
import Mathlib.Tactic.Linarith

/-! What the arithmetic primitives compute (`math-lib.c`). -/
namespace Lisp
open ExceptState
variable {F : Type} {args first second fuel : Nat} {op : Primitive} {a b : Int}

theorem isNumber_ne_zero {h : Heap F} {o : Nat} (ho : isNumber h o = true) : o ≠ 0 := by
  rintro rfl
  simp [isNumber, isFloat, isInt, cellAt_zero] at ho

variable [CFloat F] {ev : Nat → Eval F Nat} {s u : Interpreter F}

section operands

/-- The arguments evaluate to two numbers, `first` and `second`; `u` is the state after both
evaluations. -/
structure Operands (ev : Nat → Eval F Nat) (args : Nat) (s : Interpreter F) (first second : Nat)
    (u : Interpreter F) : Prop where
  nargs : listLength s.heap args = 2
  run : ∃ mid, exec (holding [args] (ev (ith s.heap args 0))) s = (.ok first, mid) ∧
    isNumber mid.heap first = true ∧
    exec (holding [first] (ev (ith mid.heap args 1))) mid = (.ok second, u)
  number : isNumber u.heap second = true

/-- With two numbers, an operator comes to its operation. -/
theorem exec_applyArithmetic (h : Operands ev args s first second u)
    (intOp : Int → Int → Option Int) (floatOp : F → F → Eval F F) :
    exec (Primitives.applyArithmetic ev args intOp floatOp) s =
      exec (if isFloat u.heap first || isFloat u.heap second then do
          let value ← floatOp (getFloat u.heap first) (getFloat u.heap second)
          allocate (.int (CFloat.toInt value))
        else do
          let value ← orUndefined (intOp (getInt u.heap first) (getInt u.heap second))
          allocate (.int value)) u := by
  obtain ⟨mid, hfirst, hnum, hsecond⟩ := h.run
  have h1 := isNumber_ne_zero hnum
  have h2 := isNumber_ne_zero h.number
  unfold Primitives.applyArithmetic
  simp only [exec_get_bind, h.nargs, ne_eq, not_true, if_false]
  rw [exec_bind_ok hfirst]
  simp only [exec_get_bind, if_neg h1, hnum, Bool.not_true, Bool.false_eq_true, if_false]
  rw [exec_bind_ok hsecond]
  simp only [exec_get_bind, if_neg h2, h.number, Bool.not_true, Bool.false_eq_true, if_false]

end operands

section integers

/-- The arithmetic primitives. -/
def operators : List Primitive := [.add, .sub, .mul, .divide, .mod]

/-- The operation on ints that an operator is defined with. -/
def intOp : Primitive → Int → Int → Option Int
  | .add => addInts
  | .sub => subInts
  | .mul => mulInts
  | .divide => divideInts
  | .mod => modInts
  | _ => fun _ _ => none

/-- The operation on floats that an operator is defined with. -/
def floatOp (fuel : Nat) : Primitive → F → F → Eval F F
  | .add => fun x y => return CFloat.add x y
  | .sub => fun x y => return CFloat.sub x y
  | .mul => fun x y => return CFloat.mul x y
  | .divide => fun x y => return CFloat.div x y
  | .mod => modFloats fuel
  | _ => fun x _ => return x

theorem run_operator (hop : op ∈ operators) (ev : Nat → Eval F Nat) (fuel args : Nat) :
    op.run ev fuel args = Primitives.applyArithmetic ev args (intOp op) (floatOp fuel op) := by
  simp only [operators, List.mem_cons, List.not_mem_nil, or_false] at hop
  rcases hop with rfl | rfl | rfl | rfl | rfl <;> rfl

/-- The exact result: quotients are truncated towards zero, and a remainder has the sign of the
dividend. -/
def exactResult : Primitive → Int → Int → Int
  | .add => fun a b => a + b
  | .sub => fun a b => a - b
  | .mul => fun a b => a * b
  | .divide => Int.tdiv
  | .mod => Int.tmod
  | _ => fun a _ => a

/-- The operation is defined: there is no division by zero, and the result, or the quotient that
belongs to a remainder, is an `int`. -/
def Defined (op : Primitive) (a b : Int) : Prop :=
  if op = .divide ∨ op = .mod then b ≠ 0 ∧ ¬(a = -2 ^ 31 ∧ b = -1) else InInt (exactResult op a b)

/-- A quotient of ints is an `int`, with one exception. -/
theorem inInt_tdiv (ha : InInt a) (hb : b ≠ 0) : InInt (a.tdiv b) ↔ ¬(a = -2 ^ 31 ∧ b = -1) := by
  obtain ⟨hl, hu⟩ := ha
  constructor
  · rintro ⟨-, hlt⟩ ⟨rfl, rfl⟩
    exact absurd hlt (by decide)
  · intro hne
    have habs : (a.tdiv b).natAbs = a.natAbs / b.natAbs := Int.natAbs_tdiv a b
    by_cases hone : b.natAbs = 1
    · have hb' : b = 1 ∨ b = -1 := by omega
      rcases hb' with rfl | rfl
      · rw [Int.tdiv_one]
        exact ⟨hl, hu⟩
      · rw [Int.tdiv_neg, Int.tdiv_one]
        constructor <;> omega
    · have hhalf : a.natAbs / b.natAbs ≤ a.natAbs / 2 :=
        Nat.div_le_div_left (by omega) (by decide)
      constructor <;> omega

theorem checkedInt_eq (z : Int) : checkedInt z = if InInt z then some z else none := rfl

/-- What the operation on ints returns. -/
theorem intOp_eq (hop : op ∈ operators) (ha : InInt a) :
    (Defined op a b ∧ intOp op a b = some (exactResult op a b)) ∨
      ¬Defined op a b ∧ intOp op a b = none := by
  simp only [operators, List.mem_cons, List.not_mem_nil, or_false] at hop
  have hchecked : ∀ z, InInt z ∧ checkedInt z = some z ∨ ¬InInt z ∧ checkedInt z = none := by
    intro z
    rw [checkedInt_eq]
    by_cases hz : InInt z
    · exact Or.inl ⟨hz, if_pos hz⟩
    · exact Or.inr ⟨hz, if_neg hz⟩
  rcases hop with rfl | rfl | rfl | rfl | rfl
  · exact hchecked (a + b)
  · exact hchecked (a - b)
  · exact hchecked (a * b)
  · by_cases hb : b = 0
    · exact Or.inr ⟨fun h => h.1 hb, if_pos hb⟩
    · rcases hchecked (a.tdiv b) with ⟨hz, h⟩ | ⟨hz, h⟩
      · exact Or.inl ⟨⟨hb, (inInt_tdiv ha hb).1 hz⟩, (if_neg hb).trans h⟩
      · exact Or.inr ⟨fun hd => hz ((inInt_tdiv ha hb).2 hd.2), (if_neg hb).trans h⟩
  · by_cases hb : b = 0
    · exact Or.inr ⟨fun h => h.1 hb, if_pos hb⟩
    · have hmod : intOp .mod a b = (checkedInt (a.tdiv b)).map fun _ => a.tmod b := if_neg hb
      rcases hchecked (a.tdiv b) with ⟨hz, h⟩ | ⟨hz, h⟩
      · exact Or.inl ⟨⟨hb, (inInt_tdiv ha hb).1 hz⟩, by rw [hmod, h]; rfl⟩
      · exact Or.inr ⟨fun hd => hz ((inInt_tdiv ha hb).2 hd.2), by rw [hmod, h]; rfl⟩

/-- With two ints, an operator returns the exact result if it is defined; otherwise the behaviour
of the program is not. -/
theorem run_ints (fuel : Nat) (hop : op ∈ operators) (h : Operands ev args s first second u)
    (hfirst : cellAt u.heap first = some (.int a)) (hsecond : cellAt u.heap second = some (.int b))
    (ha : InInt a) :
    (Defined op a b ∧ ∃ o v, exec (op.run ev fuel args) s = (.ok o, v) ∧
        cellAt v.heap o = some (.int (exactResult op a b))) ∨
      ¬Defined op a b ∧ exec (op.run ev fuel args) s = (.error .undefined, u) := by
  have hfloat : ¬(isFloat u.heap first || isFloat u.heap second) = true := by
    simp [isFloat, hfirst, hsecond]
  have hints : getInt u.heap first = a ∧ getInt u.heap second = b := by
    simp [getInt, hfirst, hsecond]
  rw [run_operator hop, exec_applyArithmetic h, if_neg hfloat, hints.1, hints.2]
  rcases intOp_eq (b := b) hop ha with ⟨hdef, hresult⟩ | ⟨hundef, hresult⟩
  · refine Or.inl ⟨hdef, u.heap.length + 1, _, by rw [hresult]; rfl, ?_⟩
    exact cellAt_alloc _ _
  · exact Or.inr ⟨hundef, by rw [hresult]; rfl⟩

/-- Arithmetic on two ints returns the exact result, or `NULL`, if and only if it is defined. -/
theorem operator_exact_iff (hop : op ∈ operators) (h : Operands ev args s first second u)
    (hfirst : cellAt u.heap first = some (.int a)) (hsecond : cellAt u.heap second = some (.int b))
    (ha : InInt a) :
    (∃ o v, exec (op.run ev fuel args) s = (.ok o, v) ∧
      (o = 0 ∨ cellAt v.heap o = some (.int (exactResult op a b)))) ↔ Defined op a b := by
  rcases run_ints fuel hop h hfirst hsecond ha with
    ⟨hdef, o, v, hrun, hcell⟩ | ⟨hundef, hrun⟩
  · exact iff_of_true ⟨o, v, hrun, Or.inr hcell⟩ hdef
  · refine iff_of_false ?_ hundef
    rintro ⟨o, v, hrun', -⟩
    rw [hrun] at hrun'
    cases hrun'

/-- A state with an argument list of two numbers. -/
def withNumbers (x y : Cell NoFloat) : Interpreter NoFloat :=
  { heap := [⟨x, false, false⟩, ⟨y, false, false⟩, ⟨.list 2 0, false, false⟩,
      ⟨.list 1 3, false, false⟩]
    env := 0
    allocated := []
    trace := ⟨[], [], [], [], 0, 0⟩ }

theorem operands_ints (a b : Int) : Operands (eval 1) 4 (withNumbers (.int a) (.int b)) 1 2
    (withNumbers (.int a) (.int b)) :=
  ⟨rfl, ⟨withNumbers (.int a) (.int b), rfl, rfl, rfl⟩, rfl⟩

theorem operator_exact_iff_divide :
    (∃ o v, exec (Primitive.divide.run (eval 1) 0 4) (withNumbers (.int (-7)) (.int 2)) =
        (.ok o, v) ∧ (o = 0 ∨ cellAt v.heap o = some (.int (exactResult .divide (-7) 2)))) ↔
      Defined .divide (-7) 2 :=
  operator_exact_iff (by decide) (operands_ints (-7) 2) rfl rfl (by decide)

/-- A division by zero is not guarded. -/
theorem operator_exact_zero : ¬∀ (op : Primitive) (ev : Nat → Eval NoFloat Nat)
    (s u : Interpreter NoFloat) (fuel args first second : Nat) (a b : Int), op ∈ operators →
    Operands ev args s first second u → cellAt u.heap first = some (.int a) →
    cellAt u.heap second = some (.int b) → InInt a → InInt b →
    ∃ o v, exec (op.run ev fuel args) s = (.ok o, v) ∧
      (o = 0 ∨ cellAt v.heap o = some (.int (exactResult op a b))) := by
  intro h
  obtain ⟨o, v, hrun, -⟩ := h .divide _ _ _ 0 _ _ _ 1 0 (by decide) (operands_ints 1 0) rfl rfl
    (by decide) (by decide)
  rcases run_ints 0 (by decide : Primitive.divide ∈ operators) (operands_ints 1 0) rfl rfl
    (by decide) with ⟨hdef, -⟩ | ⟨-, hundef⟩
  · exact hdef.1 rfl
  · rw [hundef] at hrun
    cases hrun

end integers

section promotion

/-- With a float operand, the result is computed in floats and stored as an int. -/
theorem run_floats (hop : op ∈ operators) (h : Operands ev args s first second u)
    (hfloat : (isFloat u.heap first || isFloat u.heap second) = true) {o : Nat}
    {v : Interpreter F} (hrun : exec (op.run ev fuel args) s = (.ok o, v)) :
    ∃ value w, exec (floatOp fuel op (getFloat u.heap first) (getFloat u.heap second)) u =
        (.ok value, w) ∧ cellAt v.heap o = some (.int (CFloat.toInt value)) := by
  rw [run_operator hop, exec_applyArithmetic h, if_pos hfloat, exec_bind] at hrun
  rcases hvalue : exec (floatOp fuel op (getFloat u.heap first) (getFloat u.heap second)) u with
    ⟨e | value, w⟩
  · rw [hvalue] at hrun
    cases hrun
  · rw [hvalue] at hrun
    obtain ⟨hresult, rfl⟩ := Prod.mk.inj hrun
    obtain rfl := Except.ok.inj hresult
    exact ⟨value, w, rfl, cellAt_alloc _ _⟩

/-- No operation with a float operand has a float as its result. -/
theorem operator_never_float (hop : op ∈ operators) (h : Operands ev args s first second u)
    (hfloat : (isFloat u.heap first || isFloat u.heap second) = true) :
    ¬∃ o v value, exec (op.run ev fuel args) s = (.ok o, v) ∧
      cellAt v.heap o = some (.float value) := by
  rintro ⟨o, v, value, hrun, hcell⟩
  obtain ⟨value', w, -, hint⟩ := run_floats hop h hfloat hrun
  rw [hint] at hcell
  cases hcell

theorem operands_mixed (a : Int) : Operands (eval 1) 4 (withNumbers (.float ()) (.int a)) 1 2
    (withNumbers (.float ()) (.int a)) :=
  ⟨rfl, ⟨withNumbers (.float ()) (.int a), rfl, rfl, rfl⟩, rfl⟩

theorem operator_never_float_add :
    ¬∃ o v value, exec (Primitive.add.run (eval 1) 0 4) (withNumbers (.float ()) (.int 1)) =
      (.ok o, v) ∧ cellAt v.heap o = some (.float value) :=
  operator_never_float (by decide) (operands_mixed 1) rfl

/-- A sum of a float and an int is an int. -/
theorem operator_float_sum : ¬∀ (op : Primitive) (ev : Nat → Eval NoFloat Nat)
    (s u : Interpreter NoFloat) (fuel args first second : Nat), op ∈ operators →
    Operands ev args s first second u →
    (isFloat u.heap first || isFloat u.heap second) = true →
    ∃ o v value w, exec (floatOp fuel op (getFloat u.heap first) (getFloat u.heap second)) u =
        (.ok value, w) ∧ exec (op.run ev fuel args) s = (.ok o, v) ∧
      cellAt v.heap o = some (.float value) := by
  intro h
  obtain ⟨o, v, value, w, -, hrun, hcell⟩ := h .add _ _ _ 0 _ _ _ (by decide) (operands_mixed 1) rfl
  obtain ⟨value', w', -, hint⟩ := run_floats (by decide) (operands_mixed 1) rfl hrun
  rw [hint] at hcell
  cases hcell

end promotion

section remainders

/-- Exact arithmetic in the place of `float`. Texts are not converted. -/
instance : CFloat ℚ where
  strtof _ := 0
  print _ := []
  ofInt := Int.cast
  toInt x := x.num.tdiv x.den
  neg x := -x
  add x y := x + y
  sub x y := x - y
  mul x y := x * y
  div x y := x / y
  eq x y := decide (x = y)
  lt x y := decide (x < y)
  le x y := decide (x ≤ y)

variable {x y r : ℚ} {t v : Interpreter ℚ}

theorem absFloat_eq (x : ℚ) : absFloat x = |x| := by
  by_cases hx : 0 < x
  · rw [abs_of_pos hx]
    exact if_pos (decide_eq_true hx)
  · rw [abs_of_nonpos (not_lt.1 hx)]
    exact if_neg fun h => hx (of_decide_eq_true h)

theorem exec_modFloatsFrom (fuel : Nat) (x y : ℚ) (t : Interpreter ℚ) :
    exec (modFloatsFrom (fuel + 1) x y) t =
      if y ≤ x then exec (modFloatsFrom fuel (x - y) y) t else (.ok x, t) := by
  by_cases h : y ≤ x
  · have hle : CFloat.le y x = true := decide_eq_true h
    simp only [modFloatsFrom, hle, if_true, if_pos h]
    rfl
  · have hle : ¬CFloat.le y x = true := fun hd => h (of_decide_eq_true hd)
    simp only [modFloatsFrom, if_neg hle, if_neg h]
    rfl

/-- What the loop leaves is what is left of a number of subtractions. -/
theorem modFloatsFrom_result (hx : 0 ≤ x)
    (h : exec (modFloatsFrom fuel x y) t = (.ok r, v)) :
    (∃ k : ℕ, r = x - k * y) ∧ 0 ≤ r ∧ r < y ∧ v = t := by
  induction fuel generalizing x with
  | zero => cases h
  | succ fuel ih =>
    rw [exec_modFloatsFrom] at h
    split_ifs at h with hle
    · obtain ⟨⟨k, hk⟩, h0, hlt, hv⟩ := ih (sub_nonneg.2 hle) h
      refine ⟨⟨k + 1, ?_⟩, h0, hlt, hv⟩
      rw [hk]
      push_cast
      ring
    · obtain ⟨hr, rfl⟩ := Prod.mk.inj h
      obtain rfl := Except.ok.inj hr
      exact ⟨⟨0, by simp⟩, hx, not_le.1 hle, rfl⟩

theorem modFloatsFrom_ends (y : ℚ) (k : ℕ) (h : x < (k + 1) * y) (t : Interpreter ℚ) :
    ∃ r, exec (modFloatsFrom (k + 1) x y) t = (.ok r, t) := by
  induction k generalizing x with
  | zero =>
    refine ⟨x, ?_⟩
    rw [exec_modFloatsFrom, if_neg]
    simpa using h
  | succ k ih =>
    rw [exec_modFloatsFrom]
    split_ifs with hle
    · apply ih
      push_cast at h
      linarith
    · exact ⟨x, rfl⟩

/-- The loop of `mod_floats` ends if and only if the divisor is not zero. -/
theorem modFloats_ends_iff (x y : ℚ) (t : Interpreter ℚ) :
    (∃ fuel r, exec (modFloats fuel x y) t = (.ok r, t)) ↔ y ≠ 0 := by
  simp only [modFloats, absFloat_eq]
  constructor
  · rintro ⟨fuel, r, h⟩ rfl
    obtain ⟨-, h0, hlt, -⟩ := modFloatsFrom_result (abs_nonneg x) h
    rw [abs_zero] at hlt
    exact absurd h0 (not_le.2 hlt)
  · intro hy
    have hpos : 0 < |y| := abs_pos.2 hy
    obtain ⟨k, hk⟩ := exists_nat_gt (|x| / |y|)
    rw [div_lt_iff₀ hpos] at hk
    refine ⟨k + 1, modFloatsFrom_ends |y| k ?_ t⟩
    linarith

/-- On integers the result is the remainder of the absolute values. -/
theorem modFloats_ints {r : ℚ} (h : exec (modFloats fuel (a : ℚ) b) t = (.ok r, v)) :
    r = (|a| % |b| : Int) := by
  simp only [modFloats, absFloat_eq] at h
  obtain ⟨⟨k, hk⟩, h0, hlt, -⟩ := modFloatsFrom_result (abs_nonneg _) h
  have hcast : r = ((|a| - k * |b| : Int) : ℚ) := by
    rw [hk]
    push_cast
    rfl
  rw [hcast] at h0 hlt ⊢
  have h0' : 0 ≤ |a| - k * |b| := by exact_mod_cast h0
  have hlt' : |a| - k * |b| < |b| := by exact_mod_cast hlt
  have hmod : |a| % |b| = |a| - k * |b| := by
    rw [← Int.emod_eq_of_lt h0' hlt', mul_comm, Int.sub_mul_emod_self_left]
  rw [hmod]

/-- The remainder of the absolute values has the sign of the dividend only if that is not
negative, or if there is no remainder. -/
theorem abs_emod_abs_iff (a b : Int) : |a| % |b| = a.tmod b ↔ 0 ≤ a ∨ b ∣ a := by
  rcases le_or_gt 0 a with ha | ha
  · rw [abs_of_nonneg ha, Int.emod_abs, Int.tmod_eq_emod_of_nonneg ha]
    exact iff_of_true rfl (Or.inl ha)
  · have hneg : a.tmod b = -(|a| % |b|) := by
      rw [abs_of_neg ha, Int.emod_abs, ← Int.tmod_eq_emod_of_nonneg (by omega), Int.neg_tmod,
        neg_neg]
    have hnot : ¬0 ≤ a := not_le.2 ha
    rw [hneg, or_iff_right hnot, ← abs_dvd_abs, Int.dvd_iff_emod_eq_zero]
    omega

/-- The two remainders agree on ints if and only if the dividend is not negative or a multiple of
the divisor, but for the one quotient that is not an int; and the loop ends if and only if the
divisor is not zero. -/
theorem modFloats_agree_iff (t : Interpreter ℚ) :
    (∀ a b : Int, InInt a → b ≠ 0 →
      ((∃ (fuel : Nat) (r : Int), exec (modFloats fuel (a : ℚ) b) t = (.ok (r : ℚ), t) ∧
          modInts a b = some r) ↔ (0 ≤ a ∨ b ∣ a) ∧ ¬(a = -2 ^ 31 ∧ b = -1))) ∧
    ∀ x y : ℚ, (∃ fuel r, exec (modFloats fuel x y) t = (.ok r, t)) ↔ y ≠ 0 := by
  refine ⟨?_, fun x y => modFloats_ends_iff x y t⟩
  intro a b ha hb
  rw [← abs_emod_abs_iff]
  have hints := intOp_eq (b := b) (by decide : Primitive.mod ∈ operators) ha
  constructor
  · rintro ⟨fuel, r, hrun, hmod⟩
    have hr : r = |a| % |b| := by exact_mod_cast modFloats_ints hrun
    rcases hints with ⟨hdef, hresult⟩ | ⟨-, hresult⟩
    · refine ⟨?_, hdef.2⟩
      rw [← hr]
      exact Option.some.inj (hmod.symm.trans hresult)
    · exact absurd (hmod.symm.trans hresult) (by simp)
  · rintro ⟨hsame, hmin⟩
    obtain ⟨fuel, r, hrun⟩ := (modFloats_ends_iff (a : ℚ) b t).2 (Int.cast_ne_zero.2 hb)
    rcases hints with ⟨-, hresult⟩ | ⟨hundef, -⟩
    · refine ⟨fuel, |a| % |b|, ?_, ?_⟩
      · rw [hrun, modFloats_ints hrun]
      · rw [hsame]
        exact hresult
    · exact absurd ⟨hb, hmin⟩ hundef

/-- A state without objects. -/
def noObjects : Interpreter ℚ := ⟨[], 0, [], ⟨[], [], [], [], 0, 0⟩⟩

theorem modFloats_agree_iff_seven :
    (∃ (fuel : Nat) (r : Int),
      exec (modFloats fuel ((7 : Int) : ℚ) (2 : Int)) noObjects = (.ok (r : ℚ), noObjects) ∧
        modInts 7 2 = some r) ↔
      (0 ≤ (7 : Int) ∨ (2 : Int) ∣ 7) ∧ ¬((7 : Int) = -2 ^ 31 ∧ (2 : Int) = -1) :=
  (modFloats_agree_iff noObjects).1 7 2 (by decide) (by decide)

/-- The remainder of `-7` by `2` is `-1` on ints and `1` on floats. -/
theorem modFloats_differs : ¬((∀ a b : Int, InInt a → b ≠ 0 → ∃ (fuel : Nat) (r : Int),
      exec (modFloats fuel (a : ℚ) b) noObjects = (.ok (r : ℚ), noObjects) ∧
        modInts a b = some r) ∧
    ∀ x y : ℚ, ∃ fuel r, exec (modFloats fuel x y) noObjects = (.ok r, noObjects)) := by
  rintro ⟨h, -⟩
  obtain ⟨fuel, r, hrun, hmod⟩ := h (-7) 2 (by decide) (by decide)
  have hr : r = |(-7 : Int)| % |2| := by exact_mod_cast modFloats_ints hrun
  have hints : modInts (-7) 2 = some (-1) := by decide
  obtain rfl := Option.some.inj (hmod.symm.trans hints)
  exact absurd hr (by decide)

end remainders
end Lisp
