import Lisp.Printing

/-! Which tokens `parse_atom` reads as what they are. -/
namespace Lisp
variable {F : Type} {tok p q s body ds : Text} {neg : Bool} {c x : Char} {m base : Nat} {z v : Int}

section literals

/-- A text with an optional sign, and whether that is a minus. -/
inductive Signed : Text → Bool → Text → Prop where
  | plain (body : Text) : Signed body false body
  | plus (body : Text) : Signed ('+' :: body) false body
  | minus (body : Text) : Signed ('-' :: body) true body

def AllDigits (base : Nat) (ds : Text) : Prop := ∀ c ∈ ds, isDigitOf base c = true

/-- Decimal, octal and hexadecimal digits with the number that they denote. -/
inductive Magnitude : Text → Nat → Prop where
  | decimal {c : Char} {ds : Text} (hc : c ≠ '0') (hds : AllDigits 10 (c :: ds)) :
      Magnitude (c :: ds) (digitsValue 10 (c :: ds))
  | octal {ds : Text} (hds : AllDigits 8 ds) : Magnitude ('0' :: ds) (digitsValue 8 ds)
  | hexadecimal {x : Char} {ds : Text} (hx : x = 'x' ∨ x = 'X') (hne : ds ≠ [])
      (hds : AllDigits 16 ds) : Magnitude ('0' :: x :: ds) (digitsValue 16 ds)

/-- An integer literal and its value. -/
def IntegerLiteral (tok : Text) (z : Int) : Prop :=
  ∃ neg body m, Signed tok neg body ∧ Magnitude body m ∧ z = if neg then -(m : Int) else m

/-- What stands before the digits of a floating literal, the base of the digits, and the letters
of the exponent. -/
inductive Radix : Text → Nat → List Char → Prop where
  | decimal : Radix [] 10 ['e', 'E']
  | hexadecimal {x : Char} (hx : x = 'x' ∨ x = 'X') : Radix ['0', x] 16 ['p', 'P']

/-- An exponent with its letter. -/
def Exponent (letters : List Char) (exp : Text) : Prop :=
  ∃ letter neg digits ds, letter ∈ letters ∧ exp = letter :: digits ∧ Signed digits neg ds ∧
    ds ≠ [] ∧ AllDigits 10 ds

/-- Digits with a point or an exponent. -/
inductive UnsignedFloat : Text → Prop where
  | point {radix whole frac exp : Text} {base : Nat} {letters : List Char}
      (hradix : Radix radix base letters) (hwhole : AllDigits base whole)
      (hfrac : AllDigits base frac) (hne : whole ≠ [] ∨ frac ≠ [])
      (hexp : exp = [] ∨ Exponent letters exp) :
      UnsignedFloat (radix ++ whole ++ '.' :: frac ++ exp)
  | exponent {radix whole exp : Text} {base : Nat} {letters : List Char}
      (hradix : Radix radix base letters) (hwhole : AllDigits base whole) (hne : whole ≠ [])
      (hexp : Exponent letters exp) : UnsignedFloat (radix ++ whole ++ exp)

def FloatingLiteral (tok : Text) : Prop := ∃ neg body, Signed tok neg body ∧ UnsignedFloat body

/-- The object says what the token is: the value of an integer literal, that it is a floating
literal, or its name. -/
def Lossless (tok : Text) : Obj F → Prop
  | .int v => IntegerLiteral tok v
  | .float _ => FloatingLiteral tok
  | .atom name => name = tok
  | _ => False

/-- A text that begins with a digit, or with a point before a digit. -/
def Numeric (body : Text) : Prop :=
  (∃ c s, body = c :: s ∧ c.isDigit = true) ∨ ∃ c s, body = '.' :: c :: s ∧ c.isDigit = true

theorem isDigit_of_isDigitOf (h : isDigitOf 10 c = true) : c.isDigit = true := by
  unfold isDigitOf digitValue at h
  split_ifs at h with h1 h2 h3
  · simp only [Bool.and_eq_true, decide_eq_true_eq] at h1
    simp only [Char.isDigit, Bool.and_eq_true, decide_eq_true_eq]
    exact h1
  · simp only [Option.any_some, decide_eq_true_eq] at h
    omega
  · simp only [Option.any_some, decide_eq_true_eq] at h
    omega
  · cases h

theorem isDigitOf_ten : isDigitOf 10 c = c.isDigit := by
  rw [Bool.eq_iff_iff]
  exact ⟨isDigit_of_isDigitOf, fun h => (digit_facts h).2.1⟩

theorem Magnitude.digit (h : Magnitude body m) : ∃ c s, body = c :: s ∧ c.isDigit = true := by
  cases h with
  | decimal _ hds => exact ⟨_, _, rfl, isDigitOf_ten ▸ hds _ List.mem_cons_self⟩
  | octal _ => exact ⟨'0', _, rfl, rfl⟩
  | hexadecimal _ _ _ => exact ⟨'0', _, rfl, rfl⟩

/-- The digits after the radix of a decimal literal, or the radix of a hexadecimal one. -/
theorem Radix.digit {radix whole : Text} {letters : List Char} (hradix : Radix radix base letters)
    (hwhole : AllDigits base whole) (hne : radix ++ whole ≠ []) :
    ∃ c s, radix ++ whole = c :: s ∧ c.isDigit = true := by
  cases hradix with
  | decimal =>
    cases whole with
    | nil => exact absurd rfl hne
    | cons c ds => exact ⟨c, ds, rfl, isDigitOf_ten ▸ hwhole c List.mem_cons_self⟩
  | hexadecimal _ => exact ⟨'0', _, rfl, rfl⟩

theorem UnsignedFloat.numeric (h : UnsignedFloat body) : Numeric body := by
  cases h with
  | @point radix whole frac exp base letters hradix hwhole hfrac hne hexp =>
    by_cases hstart : radix ++ whole = []
    · right
      obtain ⟨hr, hw⟩ := List.append_eq_nil_iff.1 hstart
      subst hr hw
      cases hradix
      cases frac with
      | nil => simp at hne
      | cons c ds => exact ⟨c, ds ++ exp, rfl, isDigitOf_ten ▸ hfrac c List.mem_cons_self⟩
    · obtain ⟨c, s, hs, hc⟩ := hradix.digit hwhole hstart
      exact Or.inl ⟨c, s ++ '.' :: frac ++ exp, by rw [hs]; simp, hc⟩
  | @exponent radix whole exp base letters hradix hwhole hne hexp =>
    have hstart : radix ++ whole ≠ [] := by simp [hne]
    obtain ⟨c, s, hs, hc⟩ := hradix.digit hwhole hstart
    exact Or.inl ⟨c, s ++ exp, by rw [hs]; rfl, hc⟩

end literals

section prefixes

/-- The value of the digits at the start of a text, in the base that is detected. -/
def prefixValue (s : Text) : Nat :=
  digitsValue (detectBase s).1 ((detectBase s).2.takeWhile (isDigitOf (detectBase s).1))

theorem digitsValue_append (base : Nat) (ds es : Text) :
    digitsValue base (ds ++ es) = digitsValue base ds * base ^ es.length + digitsValue base es := by
  have hfold : ∀ (es : Text) (v : Nat),
      es.foldl (fun v c => v * base + (digitValue c).getD 0) v =
        v * base ^ es.length + digitsValue base es := by
    intro es
    induction es with
    | nil => simp [digitsValue]
    | cons c es ih =>
      intro v
      have hvalue : digitsValue base (c :: es) =
          es.foldl (fun v c => v * base + (digitValue c).getD 0)
            (0 * base + (digitValue c).getD 0) := rfl
      rw [hvalue, List.foldl_cons, ih, ih, List.length_cons]
      ring
  rw [digitsValue, List.foldl_append, hfold]
  rfl

theorem digitsValue_zero (base : Nat) (ds : Text) :
    digitsValue base ('0' :: ds) = digitsValue base ds := by
  simp [digitsValue, digitValue]

/-- A part of the digits denotes half of the number at most. -/
theorem digitsValue_prefix (ds : Text) {es : Text} (hbase : 2 ≤ base) (hne : es ≠ []) :
    2 * digitsValue base ds ≤ digitsValue base (ds ++ es) := by
  rw [digitsValue_append]
  have hpow : base ≤ base ^ es.length :=
    Nat.le_self_pow (Nat.pos_iff_ne_zero.1 (List.length_pos_iff.2 hne)) base
  have hmul : digitsValue base ds * 2 ≤ digitsValue base ds * base ^ es.length :=
    Nat.mul_le_mul_left _ (by omega)
  omega

theorem takeWhile_digits (h : AllDigits base ds) : ds.takeWhile (isDigitOf base) = ds :=
  List.takeWhile_eq_self_iff.2 h

theorem AllDigits.of_append (h : AllDigits base (p ++ q)) : AllDigits base p :=
  fun c hc => h c (List.mem_append_left q hc)

theorem detectBase_decimal (hc : c ≠ '0') (ds : Text) : detectBase (c :: ds) = (10, c :: ds) := by
  unfold detectBase
  split
  · next heq => exact absurd (List.cons.inj heq).1 hc
  · next heq => exact absurd (List.cons.inj heq).1 hc
  · rfl

theorem detectBase_octal (hds : AllDigits 8 ds) : detectBase ('0' :: ds) = (8, '0' :: ds) := by
  unfold detectBase
  split
  · next x d s heq =>
    obtain rfl := (List.cons.inj heq).2
    have hx := hds x List.mem_cons_self
    have hne : ¬((x == 'x' || x == 'X') && isDigitOf 16 d) = true := by
      intro h
      simp only [Bool.and_eq_true, Bool.or_eq_true, beq_iff_eq] at h
      obtain ⟨rfl | rfl, -⟩ := h
      · exact absurd hx (by decide)
      · exact absurd hx (by decide)
    rw [if_neg hne]
  · next heq =>
    obtain rfl := (List.cons.inj heq).2
    rfl
  · next h1 h2 => exact absurd rfl (h2 ds)

theorem detectBase_hexadecimal (hx : x = 'x' ∨ x = 'X') (hc : isDigitOf 16 c = true) (ds : Text) :
    detectBase ('0' :: x :: c :: ds) = (16, c :: ds) := by
  have hif : ((x == 'x' || x == 'X') && isDigitOf 16 c) = true := by
    rcases hx with rfl | rfl
    · simpa using hc
    · simpa using hc
  rw [detectBase, if_pos hif]

/-- The start of the digits of a number denotes the number, or half of it at most. -/
theorem Magnitude.prefixValue (h : Magnitude body m) (hbody : body = p ++ q) (hp : p ≠ []) :
    (q = [] ∧ prefixValue p = m) ∨ q ≠ [] ∧ 2 * prefixValue p ≤ m := by
  cases p with
  | nil => exact absurd rfl hp
  | cons d p =>
    cases h with
    | @decimal c ds hc hds =>
      obtain ⟨rfl, rfl⟩ := List.cons.inj (hbody.trans List.cons_append)
      have hvalue : Lisp.prefixValue (c :: p) = digitsValue 10 (c :: p) := by
        rw [Lisp.prefixValue, detectBase_decimal hc,
          takeWhile_digits (AllDigits.of_append (p := c :: p) hds)]
      rw [hvalue]
      by_cases hq : q = []
      · exact Or.inl ⟨hq, by rw [hq, List.append_nil]⟩
      · exact Or.inr ⟨hq, digitsValue_prefix (c :: p) (by decide) hq⟩
    | @octal ds hds =>
      obtain ⟨rfl, rfl⟩ := List.cons.inj (hbody.trans List.cons_append)
      have hall : AllDigits 8 ('0' :: p) := by
        intro c hc
        rcases List.mem_cons.1 hc with rfl | hc
        · decide
        · exact hds.of_append c hc
      have hvalue : Lisp.prefixValue ('0' :: p) = digitsValue 8 p := by
        rw [Lisp.prefixValue, detectBase_octal hds.of_append, takeWhile_digits hall,
          digitsValue_zero]
      rw [hvalue]
      by_cases hq : q = []
      · exact Or.inl ⟨hq, by rw [hq, List.append_nil]⟩
      · exact Or.inr ⟨hq, digitsValue_prefix p (by decide) hq⟩
    | @hexadecimal x ds hx hne hds =>
      obtain ⟨rfl, hrest⟩ := List.cons.inj (hbody.trans List.cons_append)
      rcases p with _ | ⟨y, _ | ⟨c, p⟩⟩
      · have hq : q ≠ [] := by
          rintro rfl
          cases hrest
        exact Or.inr ⟨hq, Nat.zero_le _⟩
      · obtain ⟨rfl, rfl⟩ := List.cons.inj (hrest.trans List.cons_append)
        have hvalue : Lisp.prefixValue ['0', x] = 0 := by
          rcases hx with rfl | rfl
          · decide
          · decide
        exact Or.inr ⟨hne, by rw [hvalue]; exact Nat.zero_le _⟩
      · obtain ⟨rfl, rfl⟩ := List.cons.inj (hrest.trans List.cons_append)
        have hall : AllDigits 16 (c :: p) := AllDigits.of_append hds
        have hvalue : Lisp.prefixValue ('0' :: x :: c :: p) = digitsValue 16 (c :: p) := by
          rw [Lisp.prefixValue, detectBase_hexadecimal hx (hall c List.mem_cons_self),
            takeWhile_digits hall]
        rw [hvalue]
        by_cases hq : q = []
        · exact Or.inl ⟨hq, by rw [hq, List.append_nil]⟩
        · exact Or.inr ⟨hq, digitsValue_prefix (c :: p) (by decide) hq⟩

/-- What follows the spaces and the sign. -/
def unsigned (s : Text) : Bool × Text := splitSign (s.dropWhile isSpace)

theorem strtol_fst (s : Text) : (strtol s).1 = clampLong (if (unsigned s).1
    then -(prefixValue (unsigned s).2 : Int) else prefixValue (unsigned s).2) := by
  by_cases hds : ((detectBase (unsigned s).2).2.takeWhile
      (isDigitOf (detectBase (unsigned s).2).1)).isEmpty = true
  · have hzero : prefixValue (unsigned s).2 = 0 := by
      rw [prefixValue, List.isEmpty_iff.1 hds]
      rfl
    have hnone : strtol s = (0, 0) := if_pos hds
    rw [hnone, hzero]
    split_ifs <;> rfl
  · have hsome : (strtol s).1 = clampLong (if (unsigned s).1 then
        -(prefixValue (unsigned s).2 : Int) else prefixValue (unsigned s).2) := by
      have h := congrArg Prod.fst (if_neg hds : strtol s = _)
      exact h
    exact hsome

theorem detectBase_zero (s : Text) : detectBase ('0' :: s) = (8, '0' :: s) ∨
    ∃ x c ds, s = x :: c :: ds ∧ isDigitOf 16 c = true ∧ detectBase ('0' :: s) = (16, c :: ds) := by
  rcases s with _ | ⟨x, _ | ⟨c, ds⟩⟩
  · exact Or.inl rfl
  · exact Or.inl rfl
  · by_cases h : ((x == 'x' || x == 'X') && isDigitOf 16 c) = true
    · exact Or.inr ⟨x, c, ds, rfl, (Bool.and_eq_true_iff.1 h).2, if_pos h⟩
    · exact Or.inl (if_neg h)

/-- The digits that are read, and what they are read from. -/
theorem detectBase_digits (t : Text) : (detectBase t).2.length ≤ t.length ∧
    ((detectBase t).2.takeWhile (isDigitOf (detectBase t).1) ≠ [] ↔
      ∃ c s, t = c :: s ∧ c.isDigit = true) := by
  cases t with
  | nil => simp [detectBase]
  | cons c s =>
    by_cases hc : c = '0'
    · subst hc
      refine ⟨?_, iff_of_true ?_ ⟨'0', s, rfl, rfl⟩⟩
      · rcases detectBase_zero s with h | ⟨x, c, ds, rfl, -, h⟩
        · rw [h]
        · rw [h]
          simp only [List.length_cons]
          omega
      · rcases detectBase_zero s with h | ⟨x, c, ds, -, hd, h⟩
        · rw [h, List.takeWhile_cons_of_pos (rfl : isDigitOf 8 '0' = true)]
          exact List.cons_ne_nil _ _
        · rw [h, List.takeWhile_cons_of_pos hd]
          exact List.cons_ne_nil _ _
    · rw [detectBase_decimal hc]
      refine ⟨Nat.le_refl _, ?_⟩
      cases hd : c.isDigit with
      | true => simp [isDigitOf_ten, hd]
      | false => simp [isDigitOf_ten, hd]

theorem splitSign_length (s : Text) : (splitSign s).2.length ≤ s.length := by
  unfold splitSign
  split
  · exact Nat.le_succ _
  · exact Nat.le_succ _
  · exact Nat.le_refl _

/-- `strtol` converts a text that has a digit after the spaces and the sign. -/
theorem strtol_converts (s : Text) :
    (strtol s).2 ≠ 0 ↔ ∃ c ds, (unsigned s).2 = c :: ds ∧ c.isDigit = true := by
  obtain ⟨hlen, hdigits⟩ := detectBase_digits (unsigned s).2
  rw [← hdigits]
  have hle : (detectBase (unsigned s).2).2.length ≤ s.length :=
    hlen.trans ((splitSign_length _).trans (List.dropWhile_suffix _).length_le)
  generalize hds : (detectBase (unsigned s).2).2.takeWhile
    (isDigitOf (detectBase (unsigned s).2).1) = ds
  have htake : ds.length ≤ (detectBase (unsigned s).2).2.length := by
    rw [← hds]
    exact (List.takeWhile_prefix _).length_le
  by_cases hnil : ds.isEmpty = true
  · have hnone : strtol s = (0, 0) := if_pos (hds ▸ hnil)
    rw [hnone, List.isEmpty_iff.1 hnil]
    exact iff_of_false (fun h => h rfl) fun h => h rfl
  · have hne : ds ≠ [] := fun h => hnil (List.isEmpty_iff.2 h)
    have hsome :
        (strtol s).2 = s.length - ((detectBase (unsigned s).2).2.drop ds.length).length := by
      have h := congrArg Prod.snd (if_neg (hds ▸ hnil) : strtol s = _)
      rw [← hds]
      exact h
    have hpos := List.length_pos_iff.2 hne
    refine iff_of_true ?_ hne
    rw [hsome, List.length_drop]
    omega

/-- A text with a digit there begins like a number for `strtof`, too. -/
theorem strtofConverts_digit {s : Text} (h : ∃ c ds, (unsigned s).2 = c :: ds ∧ c.isDigit = true) :
    strtofConverts s = true := by
  obtain ⟨c, ds, hs, hc⟩ := h
  have hne : c ≠ '.' := (digit_facts hc).2.2.2.2.2.1
  unfold strtofConverts
  unfold unsigned at hs
  rw [hs]
  split
  · next heq => exact absurd (List.cons.inj heq).1 hne
  · next heq =>
    obtain ⟨rfl, -⟩ := List.cons.inj heq
    simp [hc]
  · next heq => cases heq

theorem Numeric.head (h : Numeric body) :
    ∃ c s, body = c :: s ∧ isSpace c = false ∧ c ≠ '-' ∧ c ≠ '+' := by
  rcases h with ⟨c, s, rfl, hc⟩ | ⟨c, s, rfl, -⟩
  · obtain ⟨-, -, -, hspace, -, -, hminus, hplus⟩ := digit_facts hc
    exact ⟨c, s, rfl, hspace, hminus, hplus⟩
  · exact ⟨'.', c :: s, rfl, by decide, by decide, by decide⟩

theorem unsigned_plain (hspace : isSpace c = false) (hminus : c ≠ '-') (hplus : c ≠ '+')
    (s : Text) : unsigned (c :: s) = (false, c :: s) := by
  rw [unsigned, List.dropWhile_cons_of_neg (by simp [hspace])]
  unfold splitSign
  split
  · next heq => exact absurd (List.cons.inj heq).1 hminus
  · next heq => exact absurd (List.cons.inj heq).1 hplus
  · rfl

/-- What is read of a literal that has a digit in it. -/
theorem unsigned_prefix (hs : Signed tok neg body) (hbody : Numeric body) (htok : tok = p ++ q)
    (hdigit : ∃ c ∈ p, c.isDigit = true) :
    ∃ p', unsigned p = (neg, p') ∧ body = p' ++ q ∧ (∃ c ∈ p', c.isDigit = true) ∧
      ∀ c ∈ p', c ∈ p := by
  obtain ⟨d, hd, hdig⟩ := hdigit
  cases p with
  | nil => cases hd
  | cons c p =>
    have hrest : c.isDigit = false → ∃ d ∈ p, d.isDigit = true := by
      intro hc
      rcases List.mem_cons.1 hd with rfl | hd
      · rw [hc] at hdig
        cases hdig
      · exact ⟨d, hd, hdig⟩
    cases hs with
    | plain _ =>
      obtain ⟨c', s, hcs, hspace, hminus, hplus⟩ := hbody.head
      obtain ⟨rfl, -⟩ := List.cons.inj (hcs.symm.trans htok)
      exact ⟨_, unsigned_plain hspace hminus hplus p, htok, ⟨d, hd, hdig⟩, fun _ h => h⟩
    | plus _ =>
      obtain ⟨rfl, hbody'⟩ := List.cons.inj htok
      exact ⟨p, rfl, hbody', hrest rfl, fun _ h => List.mem_cons_of_mem _ h⟩
    | minus _ =>
      obtain ⟨rfl, hbody'⟩ := List.cons.inj htok
      exact ⟨p, rfl, hbody', hrest rfl, fun _ h => List.mem_cons_of_mem _ h⟩

/-- Without a digit, nothing of a literal is converted. -/
theorem strtofConverts_prefix (hs : Signed tok neg body) (hbody : Numeric body)
    (htok : tok = p ++ q) (h : strtofConverts p = true) : ∃ c ∈ p, c.isDigit = true := by
  have hstart : ∀ {r : Text}, body = r ++ q → r = [] ∨ r = ['.'] ∨ ∃ c ∈ r, c.isDigit = true := by
    intro r hr
    rcases r with _ | ⟨c, r⟩
    · exact Or.inl rfl
    · right
      rcases hbody with ⟨d, s, hds, hd⟩ | ⟨d, s, hds, hd⟩
      · obtain ⟨rfl, -⟩ := List.cons.inj (hds.symm.trans hr)
        exact Or.inr ⟨d, List.mem_cons_self, hd⟩
      · obtain ⟨rfl, hs⟩ := List.cons.inj (hds.symm.trans hr)
        rcases r with _ | ⟨c, r⟩
        · exact Or.inl rfl
        · obtain ⟨rfl, -⟩ := List.cons.inj hs
          exact Or.inr ⟨d, by simp, hd⟩
  cases hs with
  | plain _ =>
    rcases hstart htok with rfl | rfl | hdigit
    · cases h
    · cases h
    · exact hdigit
  | plus _ =>
    rcases p with _ | ⟨c, p⟩
    · cases h
    · obtain ⟨rfl, hr⟩ := List.cons.inj htok
      rcases hstart hr with rfl | rfl | ⟨d, hd, hdig⟩
      · exact absurd h (by decide)
      · exact absurd h (by decide)
      · exact ⟨d, List.mem_cons_of_mem _ hd, hdig⟩
  | minus _ =>
    rcases p with _ | ⟨c, p⟩
    · cases h
    · obtain ⟨rfl, hr⟩ := List.cons.inj htok
      rcases hstart hr with rfl | rfl | ⟨d, hd, hdig⟩
      · exact absurd h (by decide)
      · exact absurd h (by decide)
      · exact ⟨d, List.mem_cons_of_mem _ hd, hdig⟩

end prefixes

section tokens
variable {rest : Text} [CFloat F]

/-- What `parse_atom` reads. -/
def readPart (e : Text) : Text := e.take (atomSize e)

/-- The conversion of the length may cut a token off. -/
theorem readPart_token (hn : IsToken tok) (hr : Delimited rest) :
    readPart (tok ++ rest) = tok.take (toInt (tok ++ rest).length).toNat := by
  unfold readPart atomSize
  generalize (toInt (tok ++ rest).length).toNat = n
  have htake : ((tok ++ rest).take n).takeWhile isAtomChar = tok.take n := by
    rw [List.take_append]
    by_cases hle : n ≤ tok.length
    · have hzero : n - tok.length = 0 := by omega
      rw [hzero, List.take_zero, List.append_nil]
      exact List.takeWhile_eq_self_iff.2 fun c hc => hn.2.2 c (List.mem_of_mem_take hc)
    · rw [List.take_of_length_le (by omega)]
      apply takeWhile_token hn
      intro c hc
      apply hr
      cases rest with
      | nil => simp at hc
      | cons d rest =>
        obtain ⟨k, hk⟩ : ∃ k, n - tok.length = k + 1 := ⟨n - tok.length - 1, by omega⟩
        rw [hk] at hc
        exact hc
  rw [htake, List.length_take, List.take_append_of_le_length (Nat.min_le_right _ _)]
  simp

/-- What `parse_atom` makes of what it reads, and why. -/
theorem parseAtom_spec (e : Text) :
    (((strtol (readPart e)).2 ≠ 0 ∧ '.' ∉ readPart e) ∧
      (parseAtom e : Obj F × Nat).1 = .int (toInt (strtol (readPart e)).1)) ∨
    ((¬((strtol (readPart e)).2 ≠ 0 ∧ '.' ∉ readPart e) ∧ strtofConverts (readPart e) = true) ∧
      (parseAtom e : Obj F × Nat).1 = .float (CFloat.strtof (readPart e))) ∨
    strtofConverts (readPart e) = false ∧ (parseAtom e : Obj F × Nat).1 = .atom (readPart e) := by
  have hdot : containsDot e (atomSize e) = true ↔ '.' ∈ readPart e := by
    simp [containsDot, readPart]
  have hint : ((strtol (e.take (atomSize e))).2 != 0 && !containsDot e (atomSize e)) = true ↔
      (strtol (readPart e)).2 ≠ 0 ∧ '.' ∉ readPart e := by
    rw [Bool.and_eq_true, bne_iff_ne, Bool.not_eq_true', ← Bool.not_eq_true, hdot, readPart]
  by_cases hi : (strtol (readPart e)).2 ≠ 0 ∧ '.' ∉ readPart e
  · refine Or.inl ⟨hi, ?_⟩
    simp only [parseAtom]
    rw [if_pos (hint.2 hi), readPart]
  · have hni : ¬((strtol (e.take (atomSize e))).2 != 0 && !containsDot e (atomSize e)) = true :=
      fun h => hi (hint.1 h)
    cases hf : strtofConverts (readPart e) with
    | true =>
      refine Or.inr (Or.inl ⟨⟨hi, rfl⟩, ?_⟩)
      rw [readPart] at hf
      simp only [parseAtom]
      rw [if_neg hni, if_pos hf, readPart]
    | false =>
      refine Or.inr (Or.inr ⟨rfl, ?_⟩)
      rw [readPart] at hf
      simp only [parseAtom]
      rw [if_neg hni, if_neg (by simp [hf]), readPart]

/-- The part `p` that is read of a token suffices to read it as what it is. -/
def ReadsWhole (tok p : Text) : Prop :=
  (∃ z, IntegerLiteral tok z ∧ InInt z ∧ (p = tok ∨ z = 0 ∧ ∃ c ∈ p, c.isDigit = true)) ∨
  (FloatingLiteral tok ∧ '.' ∈ p ∧ ∃ c ∈ p, c.isDigit = true) ∨
  p = tok ∧ strtofConverts tok = false

theorem ne_point (h : isDigitOf base c = true) : c ≠ '.' := by
  rintro rfl
  cases h

theorem Magnitude.no_point (h : Magnitude body m) : '.' ∉ body := by
  intro hmem
  cases h with
  | decimal _ hds => exact ne_point (hds _ hmem) rfl
  | octal hds =>
    rcases List.mem_cons.1 hmem with h | hmem
    · cases h
    · exact ne_point (hds _ hmem) rfl
  | hexadecimal hx _ hds =>
    rcases List.mem_cons.1 hmem with h | hmem
    · cases h
    · rcases List.mem_cons.1 hmem with rfl | hmem
      · rcases hx with h | h
        · cases h
        · cases h
      · exact ne_point (hds _ hmem) rfl

theorem Magnitude.numeric (h : Magnitude body m) : Numeric body := Or.inl h.digit

/-- What `strtol` makes of the part of an integer literal that is read. -/
theorem strtol_truncated (hs : Signed tok neg body) (hm : Magnitude body m) (htok : tok = p ++ q)
    (hdigit : ∃ c ∈ p, c.isDigit = true) :
    ((strtol p).2 ≠ 0 ∧ '.' ∉ p) ∧ ∃ n : Nat,
      (strtol p).1 = clampLong (if neg then -(n : Int) else n) ∧
        ((q = [] ∧ n = m) ∨ q ≠ [] ∧ 2 * n ≤ m) := by
  obtain ⟨p', hunsigned, hbody, ⟨d, hd, -⟩, -⟩ := unsigned_prefix hs hm.numeric htok hdigit
  have hne : p' ≠ [] := List.ne_nil_of_mem hd
  obtain ⟨c, s, hcs, hc⟩ := hm.digit
  refine ⟨⟨?_, ?_⟩, Lisp.prefixValue p', ?_, hm.prefixValue hbody hne⟩
  · rw [strtol_converts, hunsigned]
    rcases p' with _ | ⟨c', p'⟩
    · exact absurd rfl hne
    · obtain ⟨rfl, -⟩ := List.cons.inj (hcs.symm.trans hbody)
      exact ⟨c, p', rfl, hc⟩
  · intro hmem
    have htokmem : '.' ∈ tok := htok ▸ List.mem_append_left q hmem
    cases hs with
    | plain _ => exact hm.no_point htokmem
    | plus _ => exact hm.no_point ((List.mem_cons.1 htokmem).resolve_left (by decide))
    | minus _ => exact hm.no_point ((List.mem_cons.1 htokmem).resolve_left (by decide))
  · rw [strtol_fst, hunsigned]

theorem clampLong_of_inInt (hz : InInt z) : clampLong z = z := by
  obtain ⟨hl, hu⟩ := hz
  unfold clampLong
  omega

theorem digit_of_converts (h : ∃ c ds, (unsigned s).2 = c :: ds ∧ c.isDigit = true) :
    ∃ c ∈ s, c.isDigit = true := by
  obtain ⟨c, ds, hs, hc⟩ := h
  have hsub : ∀ t : Text, (splitSign t).2 ⊆ t := by
    intro t
    unfold splitSign
    split
    · exact List.subset_cons_self _ _
    · exact List.subset_cons_self _ _
    · exact fun _ h => h
  refine ⟨c, (List.dropWhile_suffix isSpace).subset (hsub _ ?_), hc⟩
  rw [unsigned] at hs
  rw [hs]
  exact List.mem_cons_self

/-- The number that is read from an integer literal. -/
theorem strtol_literal (htok : tok = p ++ q) (hdigit : ∃ c ∈ p, c.isDigit = true)
    (h : IntegerLiteral tok z) (hfits : InInt z)
    (hwhole : p = tok ∨ z = 0 ∧ ∃ c ∈ p, c.isDigit = true) : toInt (strtol p).1 = z := by
  obtain ⟨neg, body, m, hs, hm, hz⟩ := h
  obtain ⟨-, n, hn, hnm⟩ := strtol_truncated hs hm htok hdigit
  have heq : (n : Int) = m := by
    rcases hwhole with rfl | ⟨rfl, -⟩
    · rcases hnm with ⟨-, rfl⟩ | ⟨hq, -⟩
      · rfl
      · exact absurd (List.self_eq_append_right.1 htok) hq
    · split_ifs at hz <;> omega
  rw [hn, heq, ← hz, clampLong_of_inInt hfits, toInt_eq_self hfits.1 hfits.2]

/-- A number that is read from a token is the right one if and only if it fits, and nothing of it
is cut off that counts. -/
theorem lossless_int (htok : tok = p ++ q) (hconv : (strtol p).2 ≠ 0) :
    IntegerLiteral tok (toInt (strtol p).1) ↔
      ∃ z, IntegerLiteral tok z ∧ InInt z ∧ (p = tok ∨ z = 0 ∧ ∃ c ∈ p, c.isDigit = true) := by
  have hdigit := digit_of_converts ((strtol_converts p).1 hconv)
  constructor
  · intro h
    refine ⟨_, h, inInt_toInt _, ?_⟩
    obtain ⟨neg, body, m, hs, hm, hz⟩ := h
    obtain ⟨-, n, hn, ⟨rfl, -⟩ | ⟨hq, hle⟩⟩ := strtol_truncated hs hm htok hdigit
    · exact Or.inl (by rw [htok, List.append_nil])
    · right
      refine ⟨?_, hdigit⟩
      have hbound := inInt_toInt (strtol p).1
      rw [hz] at hbound
      have hfits : InInt (if neg then -(n : Int) else n) := by
        unfold InInt at hbound ⊢
        split_ifs at hbound ⊢ <;> omega
      have hexact : toInt (strtol p).1 = if neg then -(n : Int) else n := by
        rw [hn, clampLong_of_inInt hfits, toInt_eq_self hfits.1 hfits.2]
      rw [hexact] at hz ⊢
      split_ifs at hz ⊢ <;> omega
  · rintro ⟨z, h, hfits, hwhole⟩
    rwa [strtol_literal htok hdigit h hfits hwhole]

/-- An integer literal is converted, and has no point. -/
theorem literal_converts (htok : tok = p ++ q) (h : IntegerLiteral tok z)
    (hwhole : p = tok ∨ z = 0 ∧ ∃ c ∈ p, c.isDigit = true) :
    (strtol p).2 ≠ 0 ∧ '.' ∉ p := by
  obtain ⟨neg, body, m, hs, hm, -⟩ := h
  have hdigit : ∃ c ∈ p, c.isDigit = true := by
    rcases hwhole with rfl | ⟨-, hdigit⟩
    · obtain ⟨c, s, rfl, hc⟩ := hm.digit
      cases hs with
      | plain _ => exact ⟨c, List.mem_cons_self, hc⟩
      | plus _ => exact ⟨c, by simp, hc⟩
      | minus _ => exact ⟨c, by simp, hc⟩
    · exact hdigit
  exact (strtol_truncated hs hm htok hdigit).1

/-- A text that is read as a float is a floating literal if and only if the point and a digit of
it are read. -/
theorem lossless_float (htok : tok = p ++ q) :
    ((¬((strtol p).2 ≠ 0 ∧ '.' ∉ p) ∧ strtofConverts p = true) ∧ FloatingLiteral tok) ↔
      FloatingLiteral tok ∧ '.' ∈ p ∧ ∃ c ∈ p, c.isDigit = true := by
  constructor
  · rintro ⟨⟨hint, hfloat⟩, hlit⟩
    obtain ⟨neg, body, hs, hbody⟩ := id hlit
    have hdigit := strtofConverts_prefix hs hbody.numeric htok hfloat
    refine ⟨hlit, ?_, hdigit⟩
    by_contra hpoint
    apply hint
    refine ⟨?_, hpoint⟩
    obtain ⟨p', hunsigned, hsplit, ⟨d, hd, -⟩, hsub⟩ :=
      unsigned_prefix hs hbody.numeric htok hdigit
    rw [strtol_converts, hunsigned]
    cases p' with
    | nil => cases hd
    | cons c' p' =>
      rcases hbody.numeric with ⟨c, s, hcs, hc⟩ | ⟨c, s, hcs, -⟩
      · obtain ⟨rfl, -⟩ := List.cons.inj (hcs.symm.trans hsplit)
        exact ⟨c, p', rfl, hc⟩
      · obtain ⟨rfl, -⟩ := List.cons.inj (hcs.symm.trans hsplit)
        exact absurd (hsub '.' List.mem_cons_self) hpoint
  · rintro ⟨hlit, hpoint, hdigit⟩
    obtain ⟨neg, body, hs, hbody⟩ := id hlit
    refine ⟨⟨fun h => h.2 hpoint, ?_⟩, hlit⟩
    obtain ⟨p', hunsigned, hsplit, ⟨d, hd, hdig⟩, -⟩ :=
      unsigned_prefix hs hbody.numeric htok hdigit
    cases p' with
    | nil => cases hd
    | cons c' p' =>
      rcases hbody.numeric with ⟨c, s, hcs, hc⟩ | ⟨c, s, hcs, hc⟩
      · obtain ⟨rfl, -⟩ := List.cons.inj (hcs.symm.trans hsplit)
        exact strtofConverts_digit ⟨c, p', by rw [hunsigned], hc⟩
      · obtain ⟨rfl, hrest⟩ := List.cons.inj (hcs.symm.trans hsplit)
        cases p' with
        | nil =>
          rw [List.mem_singleton.1 hd] at hdig
          cases hdig
        | cons c'' p'' =>
          obtain ⟨rfl, -⟩ := List.cons.inj hrest
          unfold unsigned at hunsigned
          unfold strtofConverts
          rw [hunsigned]
          exact hc

/-- An integer literal that fits an `int` is read as its value. -/
theorem parseAtom_literal (hn : IsToken tok) (h : IntegerLiteral tok z) (hfits : InInt z)
    (hlen : tok.length < 2 ^ 31) : (parseAtom tok : Obj F × Nat).1 = .int z := by
  have htok : tok = tok ++ [] := (List.append_nil tok).symm
  have hread : readPart tok = tok := by
    have hpart := readPart_token hn delimited_nil
    rw [List.append_nil, toInt_natCast hlen, Int.toNat_natCast, List.take_length] at hpart
    exact hpart
  obtain ⟨hconv, hpoint⟩ := literal_converts htok h (Or.inl rfl)
  have hstart := (strtol_converts tok).1 hconv
  have hspec := parseAtom_spec (F := F) tok
  rw [hread] at hspec
  rcases hspec with ⟨-, ho⟩ | ⟨⟨hint, -⟩, -⟩ | ⟨hfloat, -⟩
  · rw [ho, strtol_literal htok (digit_of_converts hstart) h hfits (Or.inl rfl)]
  · exact absurd ⟨hconv, hpoint⟩ hint
  · rw [strtofConverts_digit hstart] at hfloat
    cases hfloat

/-- `parse_atom` reads a token as what it is if and only if it is an integer literal that fits an
`int`, or a floating literal with a point, or does not begin like a number, and enough of it is
read. -/
theorem parseAtom_lossless_iff (hn : IsToken tok) (hr : Delimited rest) :
    Lossless tok (parseAtom (tok ++ rest) : Obj F × Nat).1 ↔
      ReadsWhole tok (tok.take (toInt (tok ++ rest).length).toNat) := by
  have hread := readPart_token hn hr
  have hspec := parseAtom_spec (F := F) (tok ++ rest)
  rw [hread] at hspec
  generalize hp : tok.take (toInt (tok ++ rest).length).toNat = p at hspec
  obtain ⟨q, htok⟩ : ∃ q, tok = p ++ q := ⟨_, (hp ▸ List.take_append_drop _ tok).symm⟩
  have hintlit := lossless_int htok
  have hfloatlit := lossless_float htok
  have hconverts : (strtol p).2 ≠ 0 → strtofConverts p = true :=
    fun h => strtofConverts_digit ((strtol_converts p).1 h)
  unfold ReadsWhole
  rcases hspec with ⟨⟨hconv, hpoint⟩, ho⟩ | ⟨hfloat, ho⟩ | ⟨hnone, ho⟩
  · rw [ho, Lossless, hintlit hconv]
    constructor
    · exact Or.inl
    · rintro (h | ⟨-, h, -⟩ | ⟨rfl, h⟩)
      · exact h
      · exact absurd h hpoint
      · rw [hconverts hconv] at h
        cases h
  · rw [ho, Lossless]
    constructor
    · exact fun h => Or.inr (Or.inl (hfloatlit.1 ⟨hfloat, h⟩))
    · rintro (⟨z, h, -, hwhole⟩ | h | ⟨rfl, h⟩)
      · exact absurd (literal_converts htok h hwhole) hfloat.1
      · exact h.1
      · rw [hfloat.2] at h
        cases h
  · rw [ho, Lossless]
    constructor
    · rintro rfl
      exact Or.inr (Or.inr ⟨rfl, hnone⟩)
    · rintro (⟨z, h, -, hwhole⟩ | h | ⟨h, -⟩)
      · rw [hconverts (literal_converts htok h hwhole).1] at hnone
        cases hnone
      · rw [(hfloatlit.2 h).1.2] at hnone
        cases hnone
      · exact h

theorem isToken_pair {a b : Char} (ha : a ≠ '\'') (h : isAtomChar a = true ∧ isAtomChar b = true) :
    IsToken [a, b] := by
  refine ⟨List.cons_ne_nil _ _, fun h => ha (Option.some.inj h), ?_⟩
  intro c hc
  rcases List.mem_cons.1 hc with rfl | hc
  · exact h.1
  · rw [List.mem_singleton.1 hc]
    exact h.2

theorem parseAtom_lossless_iff_name :
    Lossless ['x', '1'] (parseAtom (['x', '1'] ++ []) : Obj NoFloat × Nat).1 ↔
      ReadsWhole ['x', '1'] (['x', '1'].take (toInt (['x', '1'] ++ []).length).toNat) :=
  parseAtom_lossless_iff (isToken_pair (by decide) (by decide)) delimited_nil

/-- A name that begins with a digit becomes a number. -/
theorem parseAtom_name_lost : ¬∀ (tok rest : Text), IsToken tok → Delimited rest →
    Lossless tok (parseAtom (tok ++ rest) : Obj NoFloat × Nat).1 := by
  intro h
  have hlossless := h ['1', '+'] [] (isToken_pair (by decide) (by decide)) delimited_nil
  have hread : (parseAtom (['1', '+'] ++ []) : Obj NoFloat × Nat).1 = .int 1 := by decide
  rw [hread] at hlossless
  obtain ⟨neg, body, m, hs, hm, -⟩ := hlossless
  cases hs with
  | plain _ =>
    cases hm with
    | decimal _ hds => exact absurd (hds '+' (by simp)) (by decide)

end tokens
end Lisp
