import Lisp.Library.Computation
import Mathlib.Data.List.Basic

/-! Computations whose state is a log that they only add to. A specification says how one ends,
whatever is in the log before, and what holds of its value and of the entries that it adds. -/
namespace ExceptState
variable {ε ω α β : Type} {m : ExceptT ε (StateM (List ω)) α} {x : Except ε α}
  {f : α → ExceptT ε (StateM (List ω)) β} {g : α → Except ε β} {Q Q' : α → List ω → Prop}
  {R : β → List ω → Prop} {a : α} {e : ε}

/-- `m` ends as `x` says, and adds entries that satisfy `Q` with its value. -/
def Appends (m : ExceptT ε (StateM (List ω)) α) (x : Except ε α) (Q : α → List ω → Prop) : Prop :=
  ∀ log, ∃ entries, exec m log = (x, log ++ entries) ∧ ∀ a, x = .ok a → Q a entries

theorem Appends.value (h : Q a []) :
    Appends (pure a : ExceptT ε (StateM (List ω)) α) (.ok a) Q := by
  intro log
  refine ⟨[], by simp, fun b hb => ?_⟩
  obtain rfl := Except.ok.inj hb
  exact h

theorem Appends.halt : Appends (throw e : ExceptT ε (StateM (List ω)) α) (.error e) Q := by
  intro log
  refine ⟨[], by simp, fun b hb => ?_⟩
  cases hb

theorem Appends.entry {w : ω} {Q : PUnit → List ω → Prop} (h : Q ⟨⟩ [w]) :
    Appends (modify (· ++ [w]) : ExceptT ε (StateM (List ω)) PUnit) (.ok ⟨⟩) Q := by
  intro log
  exact ⟨[w], by simp, fun _ _ => h⟩

theorem Appends.mono (h : Appends m x Q) (hQ : ∀ a l, x = .ok a → Q a l → Q' a l) :
    Appends m x Q' := by
  intro log
  obtain ⟨l, hexec, hl⟩ := h log
  exact ⟨l, hexec, fun a ha => hQ a l ha (hl a ha)⟩

/-- The rule for a sequence: the second part adds to the entries of the first. -/
theorem Appends.bind (hm : Appends m x Q)
    (hf : ∀ a l, x = .ok a → Q a l → Appends (f a) (g a) fun b l' => R b (l ++ l')) :
    Appends (m >>= f) (x >>= g) R := by
  intro log
  obtain ⟨l, hexec, hl⟩ := hm log
  cases x with
  | error e =>
    refine ⟨l, ?_, fun b hb => ?_⟩
    · rw [exec_bind, hexec]
      rfl
    · cases hb
  | ok a =>
    obtain ⟨l', hexec', hl'⟩ := hf a l rfl (hl a rfl) (log ++ l)
    refine ⟨l ++ l', ?_, hl'⟩
    rw [exec_bind_ok hexec, hexec', List.append_assoc]
    rfl

/-- The rule for a first part that returns a value. -/
theorem Appends.next {y : Except ε β} (hm : Appends m (.ok a) Q)
    (hf : ∀ l, Q a l → Appends (f a) y fun b l' => R b (l ++ l')) : Appends (m >>= f) y R := by
  refine hm.bind (g := fun _ => y) fun b l hb hl => ?_
  obtain rfl := Except.ok.inj hb
  exact hf l hl

/-- What the computation does from an empty log. -/
theorem Appends.exec_nil {l : List ω} (h : Appends m x Q) (hexec : exec m [] = (.ok a, l)) :
    x = .ok a ∧ Q a l := by
  obtain ⟨l', hexec', hl'⟩ := h []
  obtain ⟨rfl, rfl⟩ := Prod.mk.inj (hexec'.symm.trans hexec)
  exact ⟨rfl, hl' a rfl⟩

end ExceptState
