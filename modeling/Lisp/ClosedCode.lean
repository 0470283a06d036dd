import Lisp.TreeEvaluation

/-! Closed code: its value does not depend on the scope in which it is evaluated. -/
namespace Lisp
variable {F : Type} {N M : Text → Prop} {t u v a d p b k : Obj F} {ρ σ : Scope F} {fuel : Nat}
  {n : Text}

section closed

namespace Obj

/-- Every atom is a truth name or satisfies `N`, and what else there is, is closed. -/
def Code : (Text → Prop) → Obj F → Prop
  | N, .atom n => isTruthName n = true ∨ N n
  | N, .list a d => a.Code N ∧ d.Code N
  | _, .primitive f => f ≠ .set ∧ f ≠ .env ∧ f ≠ .eq
  | _, .closure p b k _ => k.Code (fun _ => True) ∧
    b.Code fun n => some n ∈ p.paramNames.getD [] ∨ some n ∈ k.bindings.map Prod.fst
  | _, _ => True

/-- A number, an atom, a list of closed values, a primitive other than `set`, `env` and `eq`, or a
closure of closed values whose body has no atoms but truth names, parameters and captured names. -/
def Closed (t : Obj F) : Prop := t.Code fun _ => True

theorem Code.imp (ht : t.Code N) (h : ∀ n, N n → isTruthName n = true ∨ M n) : t.Code M := by
  induction t with
  | atom n =>
    rcases ht with ht | ht
    · exact Or.inl ht
    · exact h n ht
  | list a d iha ihd => exact ⟨iha ht.1, ihd ht.2⟩
  | _ => exact ht

theorem Code.closed (ht : t.Code N) : t.Closed := ht.imp fun _ _ => Or.inr trivial

/-- The names that matter are those that occur. -/
theorem Code.occurs (ht : t.Code N)
    (h : ∀ n, t.Occurs n → N n → isTruthName n = true ∨ M n) : t.Code M := by
  induction t with
  | atom n =>
    rcases ht with ht | ht
    · exact Or.inl ht
    · exact h n rfl ht
  | list a d iha ihd =>
    exact ⟨iha ht.1 fun n hn => h n (Or.inl hn), ihd ht.2 fun n hn => h n (Or.inr hn)⟩
  | _ => exact ht

end Obj

/-- A closed value that is as the interpreter makes it. -/
def Good (v : Obj F) : Prop := v.Closed ∧ v.Ok

/-- Closed code that is as the interpreter makes it. -/
def GoodCode (N : Text → Prop) (t : Obj F) : Prop := t.Code N ∧ t.Ok

theorem GoodCode.good (h : GoodCode N t) : Good t := ⟨h.1.closed, h.2⟩

theorem good_null : Good (.null : Obj F) := ⟨trivial, trivial⟩

theorem good_nil : Good (.nil : Obj F) := ⟨⟨trivial, trivial⟩, trivial, trivial, trivial⟩

theorem good_ofBool (c : Bool) : Good (Obj.ofBool c : Obj F) := by
  cases c with
  | true => exact ⟨Or.inr trivial, trivial⟩
  | false => exact good_nil

theorem GoodCode.list (h : GoodCode N (.list a d)) : GoodCode N a ∧ GoodCode N d :=
  ⟨⟨h.1.1, h.2.1⟩, h.1.2, h.2.2.1⟩

theorem GoodCode.ith (h : GoodCode N t) (i : Nat) : GoodCode N (t.ith i) := by
  induction i generalizing t with
  | zero =>
    cases t with
    | list a d => exact h.list.1
    | _ => exact ⟨trivial, trivial⟩
  | succ i ih =>
    cases t with
    | list a d => exact ih h.list.2
    | _ => exact ⟨trivial, trivial⟩

theorem Good.carValue (h : Good v) : Good v.carValue := by
  unfold Obj.carValue
  cases v.isList with
  | false => exact good_null
  | true =>
    cases v.isNil with
    | true => exact good_nil
    | false => exact GoodCode.ith h 0

theorem Good.cdrValue (h : Good v) : Good v.cdrValue := by
  cases v with
  | list a d =>
    obtain ⟨-, hd⟩ := GoodCode.list h
    by_cases hnil : (Obj.list a d).isNil = true
    · simpa [Obj.cdrValue, Obj.isList, hnil] using good_nil
    by_cases hnull : d.isNull = true
    · simpa [Obj.cdrValue, Obj.isList, Obj.cdrList, hnil, hnull] using good_nil
    · simpa [Obj.cdrValue, Obj.isList, Obj.cdrList, hnil, hnull] using hd.good
  | _ => exact good_null

theorem Good.consValue (hu : Good u) (hv : Good v) : Good (u.consValue v) := by
  unfold Obj.consValue
  cases u.isNull with
  | true => exact good_null
  | false =>
    cases v with
    | list a d => exact ⟨⟨hu.1, hv.1⟩, hu.2, hv.2, trivial⟩
    | _ => exact good_null

end closed

section scopes

theorem Obj.Code.occurs_name (ht : t.Code N) (hn : t.Occurs n) : isTruthName n = true ∨ N n := by
  induction t with
  | atom m =>
    obtain rfl := hn
    exact ht
  | list a d iha ihd =>
    rcases hn with hn | hn
    · exact iha ht.1 hn
    · exact ihd ht.2 hn
  | _ => cases hn

/-- The scopes give the names in `N` the same closed values; a truth name has none. -/
structure Supports (N : Text → Prop) (ρ σ : Scope F) : Prop where
  named : ∀ n, N n → isTruthName n = false → ∃ v, ρ.find n = some v ∧ σ.find n = some v ∧ Good v
  truth : ∀ n, isTruthName n = true → ρ.find n = none ∧ σ.find n = none

theorem Supports.find_eq (hs : Supports N ρ σ) (hn : isTruthName n = true ∨ N n) :
    ρ.find n = σ.find n := by
  cases ht : isTruthName n with
  | true =>
    obtain ⟨hρ, hσ⟩ := hs.truth n ht
    rw [hρ, hσ]
  | false =>
    obtain ⟨v, hρ, hσ, -⟩ := hs.named n (hn.resolve_left (by simp [ht])) ht
    rw [hρ, hσ]

theorem Supports.good (hs : Supports N ρ σ) (hn : isTruthName n = true ∨ N n)
    (hv : ρ.find n = some v) : Good v ∧ isTruthName n = false := by
  cases ht : isTruthName n with
  | true =>
    rw [(hs.truth n ht).1] at hv
    cases hv
  | false =>
    obtain ⟨w, hρ, -, hw⟩ := hs.named n (hn.resolve_left (by simp [ht])) ht
    obtain rfl := Option.some.inj (hρ.symm.trans hv)
    exact ⟨hw, rfl⟩

theorem Scope.find_append_of_mem {l : Scope F} (hn : some n ∈ l.map Prod.fst) :
    ∃ v, (some n, v) ∈ l ∧ ∀ ρ : Scope F, Scope.find (l ++ ρ) n = some v := by
  induction l with
  | nil => cases hn
  | cons b l ih =>
    obtain ⟨m, v⟩ := b
    by_cases hm : m = some n
    · subst hm
      refine ⟨v, List.mem_cons_self, fun ρ => ?_⟩
      simp [Scope.find]
    · rcases List.mem_cons.1 hn with heq | hn
      · exact absurd heq.symm hm
      · obtain ⟨w, hw, hfind⟩ := ih hn
        refine ⟨w, List.mem_cons_of_mem _ hw, fun ρ => ?_⟩
        simpa [Scope.find, hm] using hfind ρ

theorem Scope.find_append_of_not_mem {l : Scope F} (hn : some n ∉ l.map Prod.fst) :
    Scope.find (l ++ ρ) n = Scope.find ρ n := by
  induction l with
  | nil => rfl
  | cons b l ih =>
    rw [List.map_cons, List.mem_cons, not_or] at hn
    have hb : (b.1 == some n) = false := by simpa using Ne.symm hn.1
    simpa [Scope.find, hb] using ih hn.2

/-- A list of bindings as `associate` and `capture_variables` make them, of closed values. -/
def GoodScope (l : Scope F) : Prop :=
  ∀ b ∈ l, Good b.2 ∧ ∀ n, b.1 = some n → isTruthName n = false

theorem GoodScope.append {l l' : Scope F} (h : GoodScope l) (h' : GoodScope l') :
    GoodScope (l ++ l') := by
  intro b hb
  rcases List.mem_append.1 hb with hb | hb
  · exact h b hb
  · exact h' b hb

/-- In front of any scopes, closed bindings support their names. -/
theorem GoodScope.supports {l : Scope F} (h : GoodScope l) (hs : Supports M ρ σ)
    (hN : ∀ n, N n → some n ∈ l.map Prod.fst) : Supports N (l ++ ρ) (l ++ σ) := by
  constructor
  · intro n hn _
    obtain ⟨v, hv, hfind⟩ := Scope.find_append_of_mem (hN n hn)
    exact ⟨v, hfind ρ, hfind σ, (h _ hv).1⟩
  · intro n hn
    have hout : some n ∉ l.map Prod.fst := by
      intro hin
      obtain ⟨v, hv, -⟩ := Scope.find_append_of_mem hin
      rw [(h _ hv).2 n rfl] at hn
      cases hn
    rw [Scope.find_append_of_not_mem hout, Scope.find_append_of_not_mem hout]
    exact hs.truth n hn

end scopes

section lists
variable {l : Scope F}

theorem bindings_bindTree (l : Scope F) : (Obj.bindTree l).bindings = l := by
  induction l with
  | nil => rfl
  | cons b l ih =>
    obtain ⟨m, v⟩ := b
    cases m <;> simp [Obj.bindTree, Obj.ofKey, Obj.bindings, ih]

theorem GoodScope.bindTree (h : GoodScope l) :
    Good (Obj.bindTree l) ∧ (Obj.bindTree l).EnvTree (l.map Prod.fst) := by
  induction l with
  | nil => exact ⟨good_null, .nil⟩
  | cons b l ih =>
    obtain ⟨m, v⟩ := b
    obtain ⟨⟨hv, hok⟩, hname⟩ := h _ List.mem_cons_self
    obtain ⟨⟨hl, hokl⟩, htree⟩ := ih fun b hb => h b (List.mem_cons_of_mem _ hb)
    have hkey : (Obj.ofKey m : Obj F).IsKey m := by
      cases m with
      | none => rfl
      | some n => exact ⟨rfl, hname n rfl⟩
    have hgood : Good (Obj.ofKey m : Obj F) := by
      cases m with
      | none => exact good_null
      | some n => exact ⟨Or.inr trivial, trivial⟩
    refine ⟨⟨⟨⟨hgood.1, hv, trivial⟩, hl⟩, ⟨hgood.2, ⟨hok, trivial, trivial⟩, trivial⟩, hokl, ?_⟩,
      .cons hkey htree⟩
    exact htree.isTail

theorem ofBindings_eq (binds : List (Text × Obj F)) :
    Obj.ofBindings binds = Obj.bindTree (binds.map fun b => (some b.1, b.2)) := by
  induction binds with
  | nil => rfl
  | cons b binds ih => simp [Obj.ofBindings, Obj.bindTree, Obj.ofKey, ih]

theorem Obj.EnvTree.eq_bindTree {names : List (Option Text)} (hk : k.EnvTree names) :
    k = Obj.bindTree k.bindings := by
  induction hk with
  | nil => rfl
  | @cons key value next name names hkey _ ih =>
    cases name with
    | none =>
      obtain rfl := hkey
      simpa only [Obj.bindings, Obj.bindTree, Obj.ofKey, Obj.list.injEq, true_and] using ih
    | some n =>
      obtain ⟨rfl, -⟩ := hkey
      simpa only [Obj.bindings, Obj.bindTree, Obj.ofKey, Obj.list.injEq, true_and] using ih

/-- The captured list of a closed closure. -/
theorem Good.goodScope {names : List (Option Text)} (h : Good k) (hk : k.EnvTree names) :
    GoodScope k.bindings ∧ k.bindings.map Prod.fst = names := by
  induction hk with
  | nil => exact ⟨by simp [GoodScope, Obj.bindings], rfl⟩
  | @cons key value next name names hkey _ ih =>
    obtain ⟨hpair, hnext⟩ := GoodCode.list h
    obtain ⟨-, hslot⟩ := hpair.list
    obtain ⟨hrest, hnames⟩ := ih hnext.good
    have hcons : (Obj.list (.list key (.list value .null)) next).bindings =
        (name, value) :: next.bindings := by
      cases name with
      | none =>
        obtain rfl := hkey
        rfl
      | some n =>
        obtain ⟨rfl, -⟩ := hkey
        rfl
    rw [hcons]
    refine ⟨?_, by rw [List.map_cons, hnames]⟩
    intro b hb
    rcases List.mem_cons.1 hb with rfl | hb
    · refine ⟨hslot.list.1.good, ?_⟩
      rintro n rfl
      exact hkey.2
    · exact hrest b hb

end lists

section lambdas
variable {names : List (Option Text)} {binds : List (Text × Obj F)}
  {find find' : Text → Option (Obj F)}

theorem capture_congr (h : ∀ n, t.Occurs n → find n = find' n) :
    Obj.capture names find binds t = Obj.capture names find' binds t := by
  induction t generalizing binds with
  | atom n => simp only [Obj.capture, h n rfl]
  | list a d iha ihd =>
    simp only [Obj.capture]
    rw [iha fun n hn => h n (Or.inl hn), ihd fun n hn => h n (Or.inr hn)]
  | _ => rfl

/-- What closed code captures. -/
theorem Supports.capture (names : List (Option Text)) (hs : Supports N ρ σ) (ht : t.Code N) :
    Obj.capture names ρ.find [] t = Obj.capture names σ.find [] t ∧
      GoodScope ((Obj.capture names ρ.find [] t).map fun b => (some b.1, b.2)) ∧
      ∀ n, t.Occurs n → N n → isTruthName n = true ∨
        (some n ∈ names ∨ n ∈ (Obj.capture names ρ.find [] t).map Prod.fst) := by
  refine ⟨capture_congr fun n hn => hs.find_eq (ht.occurs_name hn), ?_, ?_⟩
  · intro b hb
    obtain ⟨c, hc, rfl⟩ := List.mem_map.1 hb
    obtain ⟨n, v⟩ := c
    have hv : ρ.find n = some v := (Obj.capture_value hc).resolve_left (by simp)
    have hmem := Obj.mem_capture.1 (List.mem_map_of_mem (f := Prod.fst) hc)
    obtain ⟨hocc, -, -⟩ := hmem.resolve_left (by simp)
    obtain ⟨hgood, htruth⟩ := hs.good (ht.occurs_name hocc) hv
    refine ⟨hgood, ?_⟩
    rintro _ ⟨⟩
    exact htruth
  · intro n hocc hN
    cases htruth : isTruthName n with
    | true => exact Or.inl rfl
    | false =>
      right
      by_cases hn : some n ∈ names
      · exact Or.inl hn
      · obtain ⟨v, hv, -⟩ := hs.named n hN htruth
        exact Or.inr (Obj.mem_capture.2 (Or.inr ⟨hocc, hn, by simp [hv]⟩))

/-- `lambda` in closed code makes a closed closure, the same one in both scopes. -/
theorem Supports.lambda (hs : Supports N ρ σ) (ha : GoodCode N a) :
    Obj.lambda ρ.find a = Obj.lambda σ.find a ∧ Good (Obj.lambda ρ.find a) := by
  unfold Obj.lambda
  by_cases hfew : a.length < 1
  · simpa only [hfew, if_true, true_and] using good_null
  by_cases hmany : 2 < a.length
  · simpa only [hfew, hmany, if_true, if_false, true_and] using good_null
  cases hlist : (a.ith 0).isList with
  | false =>
    simpa only [hfew, hmany, Bool.not_false, if_true, if_false, true_and] using good_null
  | true =>
    simp only [hfew, hmany, Bool.not_true, Bool.false_eq_true, if_false]
    cases hnames : (a.ith 0).paramNames with
    | none => exact ⟨rfl, good_null⟩
    | some names =>
      cases hnull : (a.ith 1).isNull with
      | true => simpa only [if_true, true_and] using good_null
      | false =>
        obtain ⟨heq, hscope, hoccurs⟩ := hs.capture names (ha.ith 1).1
        obtain ⟨⟨hclosed, hok⟩, htree⟩ := hscope.bindTree
        simp only [Bool.false_eq_true, if_false, ← heq, true_and]
        rw [ofBindings_eq]
        refine ⟨⟨hclosed, ?_⟩, (ha.ith 0).2, (ha.ith 1).2, hok,
          ⟨names, paramTree_iff.2 hnames, rfl⟩, _, htree⟩
        refine (ha.ith 1).1.occurs fun n hn hN => ?_
        rw [hnames, bindings_bindTree]
        simpa using hoccurs n hn hN

end lambdas

section agreement
variable {α β : Type} {P : α → Prop} {Q : β → Prop} {x y : Except Halt α}

/-- Two evaluations end in the same way, a value satisfies `P`. -/
def Agree (P : α → Prop) (x y : Except Halt α) : Prop := x = y ∧ ∀ v, x = .ok v → P v

theorem Agree.ok {v : α} (h : P v) : Agree P (.ok v) (.ok v) := by
  refine ⟨rfl, ?_⟩
  rintro _ ⟨⟩
  exact h

theorem Agree.error (e : Halt) : Agree P (.error e) (.error e) := by
  refine ⟨rfl, ?_⟩
  rintro _ ⟨⟩

theorem Agree.bind {f g : α → Except Halt β} (h : Agree P x y)
    (hf : ∀ v, P v → Agree Q (f v) (g v)) : Agree Q (x >>= f) (y >>= g) := by
  obtain ⟨rfl, hP⟩ := h
  cases x with
  | error e => exact .error e
  | ok v => exact hf v (hP v rfl)

theorem Agree.ite {c : Prop} [Decidable c] {x' y' : Except Halt α} (h : c → Agree P x y)
    (h' : ¬c → Agree P x' y') : Agree P (if c then x else x') (if c then y else y') := by
  by_cases hc : c
  · rw [if_pos hc, if_pos hc]
    exact h hc
  · rw [if_neg hc, if_neg hc]
    exact h' hc

theorem Agree.refl {P : α → Prop} {x : Except Halt α} (h : ∀ v, x = .ok v → P v) : Agree P x x :=
  ⟨rfl, h⟩

end agreement

section primitives
variable {ev ev' : Obj F → Except Halt (Obj F)} {args : Obj F}

theorem agree_atom (hev : ∀ t, GoodCode N t → Agree Good (ev t) (ev' t)) (ha : GoodCode N args) :
    Agree Good (atomTree ev args) (atomTree ev' args) := by
  apply Agree.ite
  · intro _
    exact .ok good_null
  · intro _
    apply Agree.bind (hev _ (ha.ith 0))
    intro v _
    exact .ok (good_ofBool _)

theorem agree_car (hev : ∀ t, GoodCode N t → Agree Good (ev t) (ev' t)) (ha : GoodCode N args) :
    Agree Good (carTree ev args) (carTree ev' args) := by
  apply Agree.ite
  · intro _
    exact .ok good_null
  · intro _
    apply Agree.bind (hev _ (ha.ith 0))
    intro v hv
    exact .ok hv.carValue

theorem agree_cdr (hev : ∀ t, GoodCode N t → Agree Good (ev t) (ev' t)) (ha : GoodCode N args) :
    Agree Good (cdrTree ev args) (cdrTree ev' args) := by
  apply Agree.ite
  · intro _
    exact .ok good_null
  · intro _
    apply Agree.bind (hev _ (ha.ith 0))
    intro v hv
    exact .ok hv.cdrValue

theorem agree_cons (hev : ∀ t, GoodCode N t → Agree Good (ev t) (ev' t)) (ha : GoodCode N args) :
    Agree Good (consTree ev args) (consTree ev' args) := by
  apply Agree.ite
  · intro _
    exact .ok good_null
  · intro _
    apply Agree.ite
    · intro _
      exact .ok good_null
    · intro _
      apply Agree.bind (hev _ (ha.ith 0))
      intro u hu
      apply Agree.ite
      · intro _
        exact .ok good_null
      · intro _
        apply Agree.bind (hev _ (ha.ith 1))
        intro v hv
        exact .ok (hu.consValue hv)

theorem agree_cond (hev : ∀ t, GoodCode N t → Agree Good (ev t) (ev' t)) (ha : GoodCode N args) :
    Agree Good (condTree ev fuel args) (condTree ev' fuel args) := by
  induction fuel generalizing args with
  | zero => exact .error _
  | succ fuel ih =>
    cases args with
    | null => exact .ok good_nil
    | list pair rest =>
      obtain ⟨hpair, hrest⟩ := ha.list
      have hnull : Agree Good (.ok .null : Except Halt (Obj F)) (.ok .null) := .ok good_null
      refine .ite (fun _ => hnull) fun _ => .ite (fun _ => hnull) fun _ => .ite (fun _ => hnull)
        fun _ => .bind (hev _ (hpair.ith 0)) fun p _ => .ite (fun _ => hnull) fun _ => ?_
      apply Agree.ite
      · intro _
        exact .ite (fun _ => hnull) fun _ => hev _ (hpair.ith 1)
      · intro _
        exact ih hrest
    | _ => exact .ok good_null

theorem agree_numbers {op : Obj F → Obj F → Except Halt (Obj F)}
    (hop : ∀ u v w, op u v = .ok w → Good w)
    (hev : ∀ t, GoodCode N t → Agree Good (ev t) (ev' t)) (ha : GoodCode N args) :
    Agree Good (numbersTree ev args op) (numbersTree ev' args op) := by
  have hnull : Agree Good (.ok .null : Except Halt (Obj F)) (.ok .null) := .ok good_null
  refine .ite (fun _ => hnull) fun _ => .bind (hev _ (ha.ith 0)) fun u _ =>
    .ite (fun _ => hnull) fun _ => .bind (hev _ (ha.ith 1)) fun v _ => .ite (fun _ => hnull)
      fun _ => ?_
  apply Agree.refl
  exact hop u v

variable [CFloat F]

theorem good_compareTree {intOp : Int → Int → Bool} {floatOp : F → F → Bool}
    (h : compareTree intOp floatOp u v = .ok t) : Good t := by
  unfold compareTree at h
  split at h <;> cases h <;> exact good_ofBool _

theorem good_arithmeticTree {f : Primitive} (h : arithmeticTree fuel f u v = .ok t) : Good t := by
  unfold arithmeticTree at h
  split at h
  · split at h <;> cases h
    exact ⟨trivial, trivial⟩
  · cases hz : floatTree fuel f u.toFloat v.toFloat with
    | error e =>
      rw [hz] at h
      cases h
    | ok z =>
      rw [hz] at h
      cases h
      exact ⟨trivial, trivial⟩

/-- A primitive that is closed does the same in both scopes. -/
theorem agree_primitive {f : Primitive} (hf : f ≠ .set ∧ f ≠ .env ∧ f ≠ .eq)
    (hs : Supports N ρ σ) (hev : ∀ t, GoodCode N t → Agree Good (ev t) (ev' t))
    (ha : GoodCode N args) :
    Agree Good (primitiveTree ev args ρ.find fuel f) (primitiveTree ev' args σ.find fuel f) := by
  have hcompare : ∀ (intOp : Int → Int → Bool) (floatOp : F → F → Bool),
      Agree Good (numbersTree ev args (compareTree intOp floatOp))
        (numbersTree ev' args (compareTree intOp floatOp)) := by
    intro intOp floatOp
    exact agree_numbers (fun _ _ _ h => good_compareTree h) hev ha
  have harith : ∀ g : Primitive, Agree Good (numbersTree ev args (arithmeticTree fuel g))
      (numbersTree ev' args (arithmeticTree fuel g)) := by
    intro g
    exact agree_numbers (fun _ _ _ h => good_arithmeticTree h) hev ha
  cases f with
  | quote =>
    apply Agree.ok
    unfold quoteTree
    by_cases hlen : args.length ≠ 1
    · rw [if_pos hlen]
      exact good_null
    · rw [if_neg hlen]
      exact (ha.ith 0).good
  | atom => exact agree_atom hev ha
  | car => exact agree_car hev ha
  | cdr => exact agree_cdr hev ha
  | cons => exact agree_cons hev ha
  | cond => exact agree_cond hev ha
  | lambda =>
    obtain ⟨heq, hgood⟩ := hs.lambda ha
    simp only [primitiveTree, ← heq]
    exact .ok hgood
  | equal => exact hcompare _ _
  | gt => exact hcompare _ _
  | gte => exact hcompare _ _
  | lt => exact hcompare _ _
  | lte => exact hcompare _ _
  | add => exact harith .add
  | sub => exact harith .sub
  | mul => exact harith .mul
  | divide => exact harith .divide
  | mod => exact harith .mod
  | set => exact absurd rfl hf.1
  | env => exact absurd rfl hf.2.1
  | eq => exact absurd rfl hf.2.2
  | «defmacro» => exact .ok good_null

end primitives

section evaluation
variable {ev ev' : Obj F → Except Halt (Obj F)} {args : Obj F} {names ns : List (Option Text)}

theorem Obj.ParamTree.ok (hp : p.ParamTree names) : p.Ok := by
  induction hp with
  | nil => trivial
  | @cons key next name names hkey hnext ih =>
    refine ⟨?_, ih, ?_⟩
    · cases name with
      | none =>
        obtain rfl := hkey
        trivial
      | some n =>
        obtain ⟨rfl, -⟩ := hkey
        trivial
    · cases hnext <;> trivial

theorem isTruthName_paramNames (hp : p.paramNames = some names) :
    ∀ n, some n ∈ names → isTruthName n = false := by
  have htree := paramTree_iff.2 hp
  clear hp
  intro n hn
  induction htree with
  | nil => cases hn
  | @cons key next name names hkey _ ih =>
    rcases List.mem_cons.1 hn with rfl | hn
    · exact hkey.2
    · exact ih hn

theorem length_cells (hok : t.Ok) (htail : t.IsTail) : t.cells.length = t.length := by
  induction t with
  | null => rfl
  | list a d _ ihd => rw [Obj.cells, Obj.length, List.length_cons, ihd hok.2.1 hok.2.2]
  | _ => exact htail.elim

theorem GoodCode.cells (ht : GoodCode N t) : ∀ e ∈ t.cells, GoodCode N e := by
  induction t with
  | list a d _ ihd =>
    intro e he
    rcases List.mem_cons.1 he with rfl | he
    · exact ht.list.1
    · exact ihd ht.list.2 e he
  | _ => simp [Obj.cells]

/-- The bindings of the arguments: the first names, with closed values. -/
theorem agree_associate {xs ys : List (Except Halt (Obj F))} (fuel : Nat)
    (hxs : List.Forall₂ (Agree Good) xs ys) (hns : ∀ n, some n ∈ ns → isTruthName n = false) :
    Agree (fun l : Scope F => l.map Prod.fst = ns.take xs.length ∧ GoodScope l)
      (associateTree fuel ns xs) (associateTree fuel ns ys) := by
  induction fuel generalizing ns xs ys with
  | zero => exact .error _
  | succ fuel ih =>
    cases ns with
    | nil =>
      cases hxs <;>
      · apply Agree.ok
        simp [GoodScope]
    | cons name ns =>
      cases hxs with
      | nil =>
        apply Agree.ok
        simp [GoodScope]
      | cons hx hxs =>
        apply Agree.bind hx
        intro v hv
        apply Agree.bind (ih hxs fun n hn => hns n (List.mem_cons_of_mem _ hn))
        rintro l ⟨hnames, hl⟩
        apply Agree.ok
        refine ⟨by simp [hnames], ?_⟩
        intro b hb
        rcases List.mem_cons.1 hb with rfl | hb
        · refine ⟨hv, ?_⟩
          rintro n rfl
          exact hns n List.mem_cons_self
        · exact hl b hb

/-- The bindings of arguments that are closed code. -/
theorem agree_bindTrees (fuel : Nat) (hev : ∀ t, GoodCode N t → Agree Good (ev t) (ev' t))
    (ha : GoodCode N args) (htail : args.IsTail) (hp : p.paramNames = some names) :
    Agree (fun l : Scope F => l.map Prod.fst = names.take args.length ∧ GoodScope l)
      (bindTrees ev fuel p args) (bindTrees ev' fuel p args) := by
  have hxs : List.Forall₂ (Agree Good) (args.cells.map ev) (args.cells.map ev') := by
    rw [List.forall₂_map_left_iff, List.forall₂_map_right_iff, List.forall₂_same]
    intro e he
    exact hev e (ha.cells e he)
  have hbinds := agree_associate fuel hxs (isTruthName_paramNames hp)
  rw [List.length_map, length_cells ha.2 htail] at hbinds
  unfold bindTrees
  rw [hp]
  exact hbinds

/-- With all the arguments, each name of the parameter list is bound. -/
theorem mem_take_paramCountOf {m : Nat} (hm : (m : Int) = paramCountOf names)
    (hn : some n ∈ names) : some n ∈ names.take m := by
  unfold paramCountOf at hm
  split at hm
  · next h =>
    subst h
    simp at hn
  · rw [List.take_of_length_le (by omega)]
    exact hn

/-- Once the arguments are bound, so are the names of the body. -/
theorem Good.body {m : Nat} {n : Int} {l : Scope F} (hu : Good (.closure p b k n))
    (hp : p.paramNames = some names) (hm : (m : Int) = n) (hl : l.map Prod.fst = names.take m)
    (hgood : GoodScope l) (hs : Supports M ρ σ) :
    Supports (fun n => some n ∈ names ∨ some n ∈ k.bindings.map Prod.fst)
      (k.bindings ++ l ++ ρ) (k.bindings ++ l ++ σ) ∧
    GoodCode (fun n => some n ∈ names ∨ some n ∈ k.bindings.map Prod.fst) b := by
  obtain ⟨⟨hk, hb⟩, -, hokb, hokk, ⟨names', hnames, rfl⟩, capNames, htree⟩ := hu
  obtain rfl := Option.some.inj (hp.symm.trans (paramTree_iff.1 hnames))
  have hgk : Good k := ⟨hk, hokk⟩
  obtain ⟨hcap, -⟩ := hgk.goodScope htree
  rw [hp] at hb
  refine ⟨(hcap.append hgood).supports hs ?_, hb, hokb⟩
  intro n hn
  rw [List.map_append, List.mem_append, hl]
  exact hn.symm.imp_right (mem_take_paramCountOf hm)

/-- A closed closure that has got closed values for some of its parameters. -/
theorem Good.partial_closure {n : Int} {l : Scope F} {m : Nat} (hu : Good (.closure p b k n))
    (hp : p.paramNames = some names) (hl : l.map Prod.fst = names.take m) (hgood : GoodScope l) :
    Good (.closure (p.drop m) b (Obj.bindTree (l ++ k.bindings)) (p.drop m).paramCount) := by
  obtain ⟨⟨hk, hb⟩, -, hokb, hokk, ⟨names', hnames, rfl⟩, capNames, htree⟩ := hu
  obtain rfl := Option.some.inj (hp.symm.trans (paramTree_iff.1 hnames))
  have hgk : Good k := ⟨hk, hokk⟩
  obtain ⟨hcap, -⟩ := hgk.goodScope htree
  obtain ⟨⟨hclosed, hok⟩, htree'⟩ := (hgood.append hcap).bindTree
  have hdrop := hnames.drop m
  refine ⟨⟨hclosed, hb.imp fun n hn => Or.inr ?_⟩, hdrop.ok, hokb, hok,
    ⟨_, hdrop, ParamTree_names hdrop⟩, _, htree'⟩
  rw [paramTree_iff.1 hdrop, bindings_bindTree, List.map_append, List.mem_append, hl]
  rw [hp] at hn
  rcases hn with hn | hn
  · rw [Option.getD_some, ← List.take_append_drop m names, List.mem_append] at hn
    rcases hn with hn | hn
    · exact Or.inr (Or.inl hn)
    · exact Or.inl hn
  · exact Or.inr (Or.inr hn)

variable [CFloat F] {eval eval' : Scope F → Obj F → Except Halt (Obj F)} {oper : Obj F}

/-- An application of a closed value to arguments that are closed code. -/
theorem agree_apply (hs : Supports N ρ σ)
    (hev : ∀ (N : Text → Prop) (ρ σ : Scope F) t, Supports N ρ σ → GoodCode N t →
      Agree Good (eval ρ t) (eval σ t))
    (hoper : Good oper) (ha : GoodCode N args) (htail : args.IsTail) :
    Agree Good (applyTree eval fuel ρ oper args) (applyTree eval fuel σ oper args) := by
  cases oper with
  | primitive f => exact agree_primitive hoper.1 hs (hev N ρ σ · hs) ha
  | closure p b k n =>
    obtain ⟨-, -, -, -, ⟨names, hnames, -⟩, -⟩ := id hoper
    have hp := paramTree_iff.1 hnames
    apply Agree.ite
    · intro _
      exact .ok good_null
    · intro hmany
      apply Agree.bind (agree_bindTrees fuel (hev N ρ σ · hs) ha htail hp)
      rintro l ⟨hl, hgood⟩
      apply Agree.ite
      · intro _
        exact .ok (hoper.partial_closure hp hl hgood)
      · intro hfew
        obtain ⟨hs', hb⟩ := hoper.body hp (by omega) hl hgood hs
        exact hev _ _ _ _ hs' hb
  | _ => exact .ok good_null

/-- Closed code has the same value in two scopes that support its names. -/
theorem agree_eval (fuel : Nat) (hs : Supports N ρ σ) (ht : GoodCode N t) :
    Agree Good (evalTree fuel ρ t) (evalTree fuel σ t) := by
  induction fuel generalizing N ρ σ t with
  | zero => exact .error _
  | succ fuel ih =>
    cases t with
    | atom n =>
      simp only [evalTree]
      cases htruth : isTruthName n with
      | true => exact .ok ht.good
      | false =>
        obtain ⟨v, hρ, hσ, hv⟩ := hs.named n (ht.1.resolve_left (by simp [htruth])) htruth
        rw [hρ, hσ]
        exact .ok hv
    | list a d =>
      obtain ⟨ha, hd⟩ := ht.list
      apply Agree.ite
      · intro _
        exact .ok ht.good
      · intro _
        apply Agree.bind (ih hs ha)
        intro oper hoper
        exact agree_apply hs (fun N ρ σ t hs ht => ih hs ht) hoper hd ht.2.2.2
    | null => exact .ok good_null
    | _ => exact .ok ht.good

end evaluation
end Lisp
