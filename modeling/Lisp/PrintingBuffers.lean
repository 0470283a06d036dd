import Lisp.Prompting
import Lisp.Printing

/-! The buffers that the printer fills. A write past the end of a buffer ends the printing, and so
does reading the car of what is not a list, which the printer does for the rest of a list. -/
namespace Lisp
open CString
variable {F : Type} [CFloat F]

namespace Buffers

section source

inductive PrintFault where
  | overflow
  | badRead
deriving DecidableEq, Repr

abbrev Printed := Except PrintFault (Option Text)

/-- The string that a buffer holds after some writes. -/
def contents : Option Buffer → Printed
  | none => .error .overflow
  | some buffer => .ok (some buffer.text)

/-- `BUFFSIZE`. -/
def buffSize : Nat := 128

/-- `KMAG`. -/
def kmag : Text := "\x1B[35m".toList

/-- `RESET`. -/
def reset : Text := "\x1B[0m".toList

/-- `unparse_atom`; what `sprintf` prints is copied. -/
def unparseAtom : Obj F → Printed
  | .atom name => contents ((Buffer.malloc (name.length + 1)).strcpy 0 name)
  | .int value => contents ((Buffer.malloc buffSize).strcpy 0 (printInt value))
  | .float value => contents ((Buffer.malloc buffSize).strcpy 0 (CFloat.print value))
  | _ => .ok none

/-- `unparse_primitive`, for pointers of 8 bytes. -/
def unparsePrimitive (address : Text) : Printed :=
  contents ((Buffer.malloc (kmag.length + 2 + 8 * 8 / 4 + reset.length + 1)).strcpy 0
    (kmag ++ address ++ reset))

/-- What `sprintf` prints for a closure. A `NULL` is printed as `(null)`. -/
def closureText (para : Option Text) (numCapt : Nat) : Text :=
  "<closure:".toList ++ para.getD "(null)".toList ++ ", ".toList ++ Nat.toDigits 10 numCapt ++
    " vars captured>".toList

/-- `unparse_closure`, whose buffer is copied by `strdup`. -/
def unparseClosure (para : Option Text) (numCapt : Nat) : Printed :=
  contents do
    let buf ← (Buffer.malloc 256).strcpy 0 (closureText para numCapt)
    (Buffer.malloc (buf.text.length + 1)).strcpy 0 buf.text

/-- `unparse_list` for a list cell, from what is printed for its car and its cdr. -/
def unparseCell (car cdr : Printed) : Printed := do
  let carExpr ← car
  match carExpr with
  | none => return none
  | some carExpr =>
    let cdrExp ← cdr
    let carSize := carExpr.length
    match cdrExp with
    | none => contents ((Buffer.malloc (2 + carSize)).strcpy 0 carExpr)
    | some cdrExp =>
      let cdrSize := cdrExp.length
      contents do
        let e ← (Buffer.malloc (carSize + 1 + cdrSize + 1)).strcpy 0 carExpr
        let e ← e.strcpy carSize [' ']
        e.strcpy (carSize + 1) cdrExp

/-- The parentheses that `unparse` puts around the elements of a list. -/
def parenthesize (listExpr : Option Text) : Printed :=
  match listExpr with
  | none => .ok (some "nil".toList)
  | some listExpr =>
    contents do
      let e ← (Buffer.malloc (1 + listExpr.length + 2)).memcpy 0 ['(']
      let e ← e.strcpy 1 listExpr
      e.strcpy (1 + listExpr.length) [')']

mutual

/-- `unparse`, where `address` is the text of the pointer to a primitive. -/
def unparse (address : Primitive → Text) : Obj F → Printed
  | .null => .ok none
  | .atom name => unparseAtom (.atom name : Obj F)
  | .int value => unparseAtom (.int value : Obj F)
  | .float value => unparseAtom (.float value)
  | .primitive f => unparsePrimitive (address f)
  | .closure parameters _ captured _ => do
    let para ← unparse address parameters
    unparseClosure para captured.listLength
  | .list car cdr => do
    let listExpr ← unparseCell (unparse address car) (unparseList address cdr)
    parenthesize listExpr

/-- `unparse_list`, which reads the car of what it is given. -/
def unparseList (address : Primitive → Text) : Obj F → Printed
  | .null => .ok none
  | .list car cdr => unparseCell (unparse address car) (unparseList address cdr)
  | _ => .error .badRead

end

end source

section lengths
variable (address : Primitive → Text)

/-- The length of the text of a closure, from that of its parameters. -/
def closureLength (para : Option Nat) (numCapt : Nat) : Nat :=
  9 + para.getD 6 + 2 + (Nat.toDigits 10 numCapt).length + 15

mutual

/-- The length of what is printed for an object. -/
def textLength : Obj F → Option Nat
  | .null => none
  | .atom name => some name.length
  | .int value => some (printInt value).length
  | .float value => some (CFloat.print value).length
  | .primitive f => some (kmag.length + (address f).length + reset.length)
  | .closure parameters _ captured _ =>
    some (closureLength (textLength parameters) captured.listLength)
  | .list car cdr => some ((textLength car).elim 3 fun n => n + restLength cdr + 2)

/-- The length of what is printed for the rest of a list, with the space before it. -/
def restLength : Obj F → Nat
  | .list car cdr => (textLength car).elim 0 fun n => n + restLength cdr + 1
  | _ => 0

end

mutual

/-- Where a list goes on behind an element, it is a list. -/
def Readable : Obj F → Prop
  | .closure parameters _ _ _ => Readable parameters
  | .list car cdr => Readable car ∧ (car ≠ .null → RestReadable cdr)
  | _ => True

def RestReadable : Obj F → Prop
  | .null => True
  | .list car cdr => Readable car ∧ (car ≠ .null → RestReadable cdr)
  | _ => False

end

mutual

/-- The text of each closure that is printed is shorter than 256 characters. -/
def ClosuresFit : Obj F → Prop
  | .closure parameters _ captured _ => ClosuresFit parameters ∧
    (Readable parameters → closureLength (textLength address parameters) captured.listLength < 256)
  | .list car cdr => ClosuresFit car ∧ (Readable car → car ≠ .null → RestFits cdr)
  | _ => True

def RestFits : Obj F → Prop
  | .list car cdr => ClosuresFit car ∧ (Readable car → car ≠ .null → RestFits cdr)
  | _ => True

end

/-- The `int`s in an object are in the range of their type. -/
def IntsInRange : Obj F → Prop
  | .int value => InInt value
  | .closure parameters procedure captured _ =>
    IntsInRange parameters ∧ IntsInRange procedure ∧ IntsInRange captured
  | .list car cdr => IntsInRange car ∧ IntsInRange cdr
  | _ => True

end lengths

section writes
variable {size : Nat} {text : Text} {para rest : Option Text} {numCapt : Nat} {value : Int}

theorem contents_strcpy (hsize : text.length < size) :
    contents ((Buffer.malloc size).strcpy 0 text) = .ok (some text) := by
  obtain ⟨b, hb, -, htext⟩ := @Buffer.strcpy_start (.malloc size) text hsize
  rw [hb, contents, htext]

theorem unparseClosure_eq : unparseClosure para numCapt =
    if (closureText para numCapt).length < 256 then .ok (some (closureText para numCapt))
    else .error .overflow := by
  by_cases hfits : (closureText para numCapt).length < 256
  · obtain ⟨b, hb, -, htext⟩ := @Buffer.strcpy_start (.malloc 256) _ hfits
    obtain ⟨b', hb', -, htext'⟩ := @Buffer.strcpy_start (.malloc (b.text.length + 1)) b.text
      (Nat.lt_succ_self _)
    rw [if_pos hfits, unparseClosure, hb, Option.bind_eq_bind, Option.bind_some, hb', contents,
      htext', htext]
  · have hnone : (Buffer.malloc 256).strcpy 0 (closureText para numCapt) = none :=
      Buffer.strcpy_none.2 (by simp only [Buffer.malloc]; omega)
    rw [if_neg hfits, unparseClosure, hnone]
    rfl

theorem length_closureText : (closureText para numCapt).length =
    closureLength (para.map List.length) numCapt := by
  have hpara : (para.getD "(null)".toList).length = (para.map List.length).getD 6 := by
    cases para with
    | none => simp
    | some para => rfl
  have hbegin : "<closure:".toList.length = 9 := by simp
  have hcomma : ", ".toList.length = 2 := by simp
  have hend : " vars captured>".toList.length = 15 := by simp
  unfold closureText closureLength
  rw [List.length_append, List.length_append, List.length_append, List.length_append, hpara,
    hbegin, hcomma, hend]

theorem unparse_closure {address : Primitive → Text} {parameters procedure captured : Obj F}
    {nargs : Int} (hpara : unparse address parameters = .ok para) :
    unparse address (.closure parameters procedure captured nargs) =
      unparseClosure para captured.listLength := by
  rw [unparse, hpara]
  rfl

/-- The buffer of a list cell is as long as its two texts, the space and the terminator. -/
theorem unparseCell_ok (text : Text) (rest : Option Text) :
    unparseCell (.ok (some text)) (.ok rest) = .ok (some (text ++ restText rest)) := by
  cases rest with
  | none =>
    rw [restText, List.append_nil]
    exact contents_strcpy (by omega)
  | some rest =>
    obtain ⟨b₁, hb₁, hsize₁, htext₁⟩ := @Buffer.strcpy_start
      (.malloc (text.length + 1 + rest.length + 1)) text (by simp only [Buffer.malloc]; omega)
    obtain ⟨b₂, hb₂, hsize₂, htext₂⟩ := @Buffer.strcpy_end b₁ text.length [' '] (by rw [htext₁])
      (by rw [hsize₁, List.length_singleton]; simp only [Buffer.malloc]; omega)
    obtain ⟨b₃, hb₃, -, htext₃⟩ := @Buffer.strcpy_end b₂ (text.length + 1) rest
      (by rw [htext₂, htext₁, List.length_append, List.length_singleton])
      (by rw [hsize₂, hsize₁]; simp only [Buffer.malloc]; omega)
    have htext : b₃.text = text ++ ' ' :: rest := by
      rw [htext₃, htext₂, htext₁, List.append_assoc]
      rfl
    simp only [unparseCell, Except.bind, Bind.bind, Option.bind, hb₁, hb₂, hb₃, contents, htext]
    rfl

/-- The buffer of a list is as long as its elements, the parentheses and the terminator. -/
theorem parenthesize_ok (text : Text) :
    parenthesize (some text) = .ok (some ('(' :: text ++ [')'])) := by
  obtain ⟨b₁, hb₁, hsize₁, htext₁⟩ := @Buffer.memcpy_end (.malloc (1 + text.length + 2)) 0 ['(']
    rfl (by simp only [Buffer.malloc, List.length_singleton]; omega)
  have hopen : b₁.text = ['('] := htext₁
  have hsize : b₁.size = 1 + text.length + 2 := hsize₁
  obtain ⟨b₂, hb₂, hsize₂, htext₂⟩ := @Buffer.strcpy_end b₁ 1 text (by rw [hopen]; rfl) (by omega)
  obtain ⟨b₃, hb₃, -, htext₃⟩ := @Buffer.strcpy_end b₂ (1 + text.length) [')']
    (by rw [htext₂, hopen, List.length_append]; rfl) (by rw [List.length_singleton]; omega)
  have htext : b₃.text = '(' :: text ++ [')'] := by
    rw [htext₃, htext₂, hopen]
    rfl
  simp only [parenthesize, Bind.bind, Option.bind, hb₁, hb₂, hb₃, contents, htext]

/-- An `int` has at most 10 digits and a sign. -/
theorem length_printInt (hvalue : InInt value) : (printInt value).length < buffSize := by
  have hdigits : (Nat.toDigits 10 value.natAbs).length ≤ 10 := by
    rw [Nat.length_toDigits_le_iff (by decide) (by decide)]
    have := hvalue.1
    have := hvalue.2
    omega
  have hbuff : buffSize = 128 := rfl
  unfold printInt
  split
  · rw [List.length_cons]
    omega
  · omega

end writes

section outcomes
variable {address : Primitive → Text} {o car cdr parameters captured : Obj F}
  {r : Printed} {readable fits : Prop} {P : Option Text → Prop}

/-- How printing ends: a text of the expected length, unless the text of a closure is too long for
its buffer or, with no such closure before it, something is read as a list that is none. -/
structure Outcome (r : Printed) (readable fits : Prop) (P : Option Text → Prop) : Prop where
  ok : fits → readable → ∃ text, r = .ok text ∧ P text
  badRead : fits → ¬readable → r = .error .badRead
  overflow : ¬fits → r = .error .overflow

theorem Outcome.fits_iff (h : Outcome r readable fits P) : r ≠ .error .overflow ↔ fits := by
  constructor
  · intro hr
    by_contra hf
    exact hr (h.overflow hf)
  · intro hf
    by_cases hread : readable
    · obtain ⟨text, hr, -⟩ := h.ok hf hread
      simp [hr]
    · simp [h.badRead hf hread]

theorem outcome_text {text : Option Text} (hP : P text) : Outcome (.ok text) True True P :=
  ⟨fun _ _ => ⟨text, rfl, hP⟩, fun _ h => absurd trivial h, fun h => absurd trivial h⟩

theorem textLength_eq_none : textLength address o = none ↔ o = .null := by
  cases o <;> simp [textLength]

theorem outcome_cell
    (hcar : Outcome (unparse address car) (Readable car) (ClosuresFit address car)
      fun text => text.map List.length = textLength address car)
    (hcdr : Outcome (unparseList address cdr) (RestReadable cdr) (RestFits address cdr)
      fun text => (restText text).length = restLength address cdr) :
    Outcome (unparseCell (unparse address car) (unparseList address cdr))
      (Readable car ∧ (car ≠ .null → RestReadable cdr))
      (ClosuresFit address car ∧ (Readable car → car ≠ .null → RestFits address cdr))
      fun text => text.map List.length =
        (textLength address car).map fun n => n + restLength address cdr := by
  by_cases hfits : ClosuresFit address car
  · by_cases hread : Readable car
    · obtain ⟨text, ht, hlen⟩ := hcar.ok hfits hread
      rw [ht]
      cases text with
      | none =>
        have hnull : car = .null := textLength_eq_none.1 hlen.symm
        refine ⟨fun _ _ => ⟨none, rfl, by rw [← hlen]; rfl⟩, fun _ h => ?_, fun h => ?_⟩
        · exact absurd ⟨hread, fun hne => absurd hnull hne⟩ h
        · exact absurd ⟨hfits, fun _ hne => absurd hnull hne⟩ h
      | some text =>
        have hne : car ≠ .null := fun hnull => by
          rw [textLength_eq_none.2 hnull] at hlen
          cases hlen
        refine ⟨fun hf hr => ?_, fun hf hr => ?_, fun hf => ?_⟩
        · obtain ⟨rest, hrest, hlen'⟩ := hcdr.ok (hf.2 hread hne) (hr.2 hne)
          rw [hrest, unparseCell_ok]
          refine ⟨_, rfl, ?_⟩
          rw [← hlen]
          simp only [Option.map_some, List.length_append, hlen']
        · rw [hcdr.badRead (hf.2 hread hne) fun h => hr ⟨hread, fun _ => h⟩]
          rfl
        · rw [hcdr.overflow fun h => hf ⟨hfits, fun _ _ => h⟩]
          rfl
    · rw [hcar.badRead hfits hread]
      exact ⟨fun _ h => absurd h.1 hread, fun _ _ => rfl,
        fun h => absurd ⟨hfits, fun h _ => absurd h hread⟩ h⟩
  · rw [hcar.overflow hfits]
    exact ⟨fun h => absurd h.1 hfits, fun h => absurd h.1 hfits, fun _ => rfl⟩

theorem outcome_list
    (h : Outcome (unparseCell (unparse address car) (unparseList address cdr)) readable fits
      fun text => text.map List.length =
        (textLength address car).map fun n => n + restLength address cdr) :
    Outcome (unparse address (.list car cdr)) readable fits
      fun text => text.map List.length = textLength address (.list car cdr) := by
  refine ⟨fun hf hr => ?_, fun hf hr => ?_, fun hf => ?_⟩
  · obtain ⟨text, ht, hlen⟩ := h.ok hf hr
    rw [unparse, ht, textLength]
    cases text with
    | none =>
      rw [Option.map_none, eq_comm, Option.map_eq_none_iff] at hlen
      rw [hlen]
      exact ⟨_, rfl, rfl⟩
    | some text =>
      obtain ⟨n, hn, hlen⟩ := Option.map_eq_some_iff.1 hlen.symm
      refine ⟨_, parenthesize_ok text, ?_⟩
      rw [Option.map_some, hn, Option.elim_some, hlen, List.length_append]
      rfl
  · rw [unparse, h.badRead hf hr]
    rfl
  · rw [unparse, h.overflow hf]
    rfl

theorem outcome_rest
    (h : Outcome (unparseCell (unparse address car) (unparseList address cdr)) readable fits
      fun text => text.map List.length =
        (textLength address car).map fun n => n + restLength address cdr) :
    Outcome (unparseList address (.list car cdr)) readable fits
      fun text => (restText text).length = restLength address (.list car cdr) := by
  refine ⟨fun hf hr => ?_, h.badRead, h.overflow⟩
  obtain ⟨text, ht, hlen⟩ := h.ok hf hr
  refine ⟨text, ht, ?_⟩
  rw [restLength]
  cases text with
  | none =>
    rw [Option.map_none, eq_comm, Option.map_eq_none_iff] at hlen
    rw [hlen]
    rfl
  | some text =>
    obtain ⟨n, hn, hlen⟩ := Option.map_eq_some_iff.1 hlen.symm
    rw [hn, Option.elim_some, hlen]
    rfl

theorem outcome_closure {procedure : Obj F} {nargs : Int}
    (h : Outcome (unparse address parameters) (Readable parameters) (ClosuresFit address parameters)
      fun text => text.map List.length = textLength address parameters) :
    Outcome (unparse address (.closure parameters procedure captured nargs)) (Readable parameters)
      (ClosuresFit address (.closure parameters procedure captured nargs)) fun text =>
        text.map List.length =
          textLength address (.closure parameters procedure captured nargs) := by
  rw [ClosuresFit, textLength]
  by_cases hfits : ClosuresFit address parameters
  · by_cases hread : Readable parameters
    · obtain ⟨para, hpara, hlen⟩ := h.ok hfits hread
      have hlength := @length_closureText para captured.listLength
      rw [hlen] at hlength
      rw [unparse_closure hpara, unparseClosure_eq, hlength]
      refine ⟨fun hf _ => ?_, fun _ hr => absurd hread hr, fun hf => ?_⟩
      · rw [if_pos (hf.2 hread)]
        exact ⟨_, rfl, congrArg some hlength⟩
      · exact if_neg fun hlt => hf ⟨hfits, fun _ => hlt⟩
    · rw [unparse, h.badRead hfits hread]
      exact ⟨fun _ hr => absurd hr hread, fun _ _ => rfl,
        fun hf => absurd ⟨hfits, fun hr => absurd hr hread⟩ hf⟩
  · rw [unparse, h.overflow hfits]
    exact ⟨fun hf => absurd hf.1 hfits, fun hf => absurd hf.1 hfits, fun _ => rfl⟩

mutual

theorem outcome_unparse (haddress : ∀ f, (address f).length ≤ 18)
    (hprint : ∀ x : F, (CFloat.print x).length < buffSize) :
    (o : Obj F) → IntsInRange o → Outcome (unparse address o) (Readable o) (ClosuresFit address o)
      fun text => text.map List.length = textLength address o
  | .null, _ => outcome_text rfl
  | .atom name, _ => by
    rw [unparse, unparseAtom, contents_strcpy (Nat.lt_succ_self _)]
    exact outcome_text rfl
  | .int value, hvalue => by
    rw [unparse, unparseAtom, contents_strcpy (length_printInt hvalue)]
    exact outcome_text rfl
  | .float value, _ => by
    rw [unparse, unparseAtom, contents_strcpy (hprint value)]
    exact outcome_text rfl
  | .primitive f, _ => by
    have hlen : (kmag ++ address f ++ reset).length =
        kmag.length + (address f).length + reset.length := by
      rw [List.length_append, List.length_append]
    have := haddress f
    rw [unparse, unparsePrimitive, contents_strcpy (by omega)]
    exact outcome_text (congrArg some hlen)
  | .closure parameters _ _ _, hints =>
    outcome_closure (outcome_unparse haddress hprint parameters hints.1)
  | .list car cdr, hints =>
    outcome_list (outcome_cell (outcome_unparse haddress hprint car hints.1)
      (outcome_unparseList haddress hprint cdr hints.2))

theorem outcome_unparseList (haddress : ∀ f, (address f).length ≤ 18)
    (hprint : ∀ x : F, (CFloat.print x).length < buffSize) :
    (o : Obj F) → IntsInRange o → Outcome (unparseList address o) (RestReadable o)
      (RestFits address o) fun text => (restText text).length = restLength address o
  | .null, _ => outcome_text rfl
  | .list car cdr, hints =>
    outcome_rest (outcome_cell (outcome_unparse haddress hprint car hints.1)
      (outcome_unparseList haddress hprint cdr hints.2))
  | .atom _, _ | .int _, _ | .float _, _ | .primitive _, _ | .closure .., _ =>
    ⟨fun _ h => h.elim, fun _ _ => rfl, fun h => absurd trivial h⟩

end

end outcomes

section refinement
variable {address : Primitive → Text} {car cdr : Printed} {para : Option Text} {numCapt : Nat}
  {q : Except Fault (Option Text)}

/-- A result without the difference between the faults. -/
def plain (r : Printed) : Except Fault (Option Text) :=
  r.mapError fun _ => .outOfBounds

theorem plain_unparseCell :
    plain (unparseCell car cdr) = Lisp.unparseCell (plain car) (plain cdr) := by
  rcases car with e | _ | text
  · rfl
  · rfl
  · rcases cdr with e | rest
    · rfl
    · rw [unparseCell_ok]
      exact (Lisp.unparseCell_ok text rest).symm

theorem plain_unparseClosure :
    plain (unparseClosure para numCapt) = Lisp.unparseClosure para numCapt := by
  rw [unparseClosure_eq]
  by_cases hfits : (closureText para numCapt).length < 256
  · rw [if_pos hfits]
    exact (if_pos hfits).symm
  · rw [if_neg hfits]
    exact (if_neg hfits).symm

theorem plain_list (hcell : plain (unparseCell car cdr) = q) :
    plain (do let listExpr ← unparseCell car cdr; parenthesize listExpr) = (do
      let listExpr ← q
      match listExpr with
      | none => return some "nil".toList
      | some listExpr => return some ('(' :: listExpr ++ [')'])) := by
  subst hcell
  rcases unparseCell car cdr with e | _ | text
  · rfl
  · rfl
  · change plain (parenthesize (some text)) = _
    rw [parenthesize_ok]
    rfl

mutual

/-- Within its buffers the printer prints the text of the model without buffers. -/
theorem unparse_refines (haddress : ∀ f, (address f).length ≤ 18)
    (hprint : ∀ x : F, (CFloat.print x).length < buffSize) : (o : Obj F) → IntsInRange o →
      plain (unparse address o) = Lisp.unparse address o
  | .null, _ => rfl
  | .atom name, _ => by
    rw [unparse, unparseAtom, contents_strcpy (Nat.lt_succ_self _)]
    rfl
  | .int value, hvalue => by
    rw [unparse, unparseAtom, contents_strcpy (length_printInt hvalue)]
    rfl
  | .float value, _ => by
    rw [unparse, unparseAtom, contents_strcpy (hprint value)]
    rfl
  | .primitive f, _ => by
    have := haddress f
    rw [unparse, unparsePrimitive, contents_strcpy (by
      rw [List.length_append, List.length_append]
      omega)]
    rfl
  | .closure parameters procedure captured nargs, hints => by
    have h := unparse_refines haddress hprint parameters hints.1
    rw [unparse, Lisp.unparse, ← h]
    cases unparse address parameters with
    | error e => rfl
    | ok para => exact plain_unparseClosure
  | .list car cdr, hints => by
    have hcar := unparse_refines haddress hprint car hints.1
    have hcdr := unparseList_refines haddress hprint cdr hints.2
    rw [unparse, Lisp.unparse, ← hcar, ← hcdr]
    exact plain_list plain_unparseCell

theorem unparseList_refines (haddress : ∀ f, (address f).length ≤ 18)
    (hprint : ∀ x : F, (CFloat.print x).length < buffSize) : (o : Obj F) → IntsInRange o →
      plain (unparseList address o) = Lisp.unparseList address o
  | .null, _ => rfl
  | .list car cdr, hints => by
    have hcar := unparse_refines haddress hprint car hints.1
    have hcdr := unparseList_refines haddress hprint cdr hints.2
    rw [unparseList, Lisp.unparseList, ← hcar, ← hcdr]
    exact plain_unparseCell
  | .atom _, _ | .int _, _ | .float _, _ | .primitive _, _ | .closure .., _ => rfl

end

end refinement

/-- The printer writes within its buffers if and only if the text of each closure that it prints is
shorter than 256 characters; and the prompt for an unfinished text fits in its buffer if and only
if at most 509 parentheses are open. -/
theorem buffers_iff (address : Primitive → Text) (haddress : ∀ f, (address f).length ≤ 18)
    (hprint : ∀ x : F, (CFloat.print x).length < buffSize) :
    (∀ o : Obj F, IntsInRange o →
      (unparse address o ≠ .error .overflow ↔ ClosuresFit address o)) ∧
    ∀ expr, Unfinished expr → ((∃ buff, reprompt expr = some buff) ↔ getNetBalance expr ≤ 509) := by
  constructor
  · intro o hints
    exact (outcome_unparse haddress hprint o hints).fits_iff
  · intro expr _
    rw [reprompt_fits]
    omega

/-- The list of `-7` and the closure `(lambda (x y) (+ x z))`, which has captured `z` and `-5`. -/
def closureXY : Obj NoFloat :=
  .list (.int (-7)) (.list (.closure (.list (.atom ['x']) (.list (.atom ['y']) .null))
    (.list (.atom ['+']) (.list (.atom ['x']) (.list (.atom ['z']) .null)))
    (.list (.list (.atom ['z']) (.list (.int (-5)) .null)) .nil) 2) .null)

theorem buffers_iff_closure :
    unparse (fun _ => "0x401136".toList) closureXY ≠ .error .overflow ∧
      ∃ buff, reprompt "(a (b".toList = some buff := by
  have hprint : ∀ x : NoFloat, (CFloat.print x).length < buffSize := fun _ =>
    (by decide : "0".toList.length < buffSize)
  have hints : IntsInRange closureXY := by
    simp only [closureXY, Obj.nil, IntsInRange, and_true, true_and]
    decide
  have hlen : closureLength (some 5) 2 < 256 := by decide
  have hfits : ClosuresFit (fun _ => "0x401136".toList) closureXY :=
    ⟨trivial, fun _ _ => ⟨⟨⟨trivial, fun _ _ => ⟨trivial, fun _ _ => trivial⟩⟩, fun _ => hlen⟩,
      fun _ _ => trivial⟩⟩
  have h := buffers_iff (fun _ => "0x401136".toList) (fun _ => by decide) hprint
  exact ⟨(h.1 _ hints).2 hfits, (h.2 _ ⟨by decide, by decide⟩).2 (by decide)⟩

theorem unparse_parameter {address : Primitive → Text} {name : Text} :
    unparse address (.list (.atom name) .null : Obj F) = .ok (some ('(' :: name ++ [')'])) := by
  rw [unparse, unparse, unparseAtom, contents_strcpy (Nat.lt_succ_self _), unparseList,
    unparseCell_ok, restText, List.append_nil]
  exact parenthesize_ok name

/-- A closure with a parameter of 240 characters, and 510 open parentheses. -/
theorem buffers_overflow :
    unparse (fun _ => []) (.closure (.list (.atom (List.replicate 240 'x')) .null) (.int 1) .nil 1 :
      Obj NoFloat) = .error .overflow ∧
    Unfinished (List.replicate 510 '(') ∧ reprompt (List.replicate 510 '(') = none := by
  obtain ⟨hunfinished, hnet⟩ := unfinished_opens (by decide : 0 < 510)
  refine ⟨?_, hunfinished, reprompt_none ?_⟩
  · have hlong : ¬closureLength (some 242) 1 < 256 := by decide
    have hpara : (some ('(' :: List.replicate 240 'x' ++ [')'])).map List.length = some 242 := by
      rw [Option.map_some, List.length_append, List.length_cons, List.length_replicate]
      rfl
    have hcaptured : (Obj.nil : Obj NoFloat).listLength = 1 := rfl
    rw [unparse_closure unparse_parameter, unparseClosure_eq, length_closureText, hpara, hcaptured,
      if_neg hlong]
  · rw [hnet, Int.toNat_natCast]
    decide

end Buffers

end Lisp
