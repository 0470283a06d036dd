import Mathlib.Logic.Basic
import Mathlib.Tactic.Cases

/-! Computations over a state that may stop with an error: an error keeps the state that
was reached. Weakest preconditions with one postcondition for each way to end. -/
namespace ExceptState
variable {σ ε α β : Type}

/-- The outcome of a computation and the state it ends in. -/
def exec (x : ExceptT ε (StateM σ) α) (s : σ) : Except ε α × σ := x.run.run s

@[simp] theorem exec_pure (a : α) (s : σ) :
    exec (pure a : ExceptT ε (StateM σ) α) s = (.ok a, s) := rfl

@[simp] theorem exec_throw (e : ε) (s : σ) :
    exec (throw e : ExceptT ε (StateM σ) α) s = (.error e, s) := rfl

@[simp] theorem exec_get (s : σ) : exec (get : ExceptT ε (StateM σ) σ) s = (.ok s, s) := rfl

@[simp] theorem exec_modify (f : σ → σ) (s : σ) :
    exec (modify f : ExceptT ε (StateM σ) PUnit) s = (.ok ⟨⟩, f s) := rfl

theorem exec_bind (x : ExceptT ε (StateM σ) α) (f : α → ExceptT ε (StateM σ) β) (s : σ) :
    exec (x >>= f) s =
      match exec x s with
      | (.ok a, t) => exec (f a) t
      | (.error e, t) => (.error e, t) := by
  simp only [exec, ExceptT.run_bind, StateT.run_bind]
  generalize StateT.run (ExceptT.run x) s = r
  obtain ⟨r, t⟩ := r
  cases r <;> rfl

theorem exec_bind_ok {x : ExceptT ε (StateM σ) α} {f : α → ExceptT ε (StateM σ) β}
    {s t : σ} {a : α} (h : exec x s = (.ok a, t)) : exec (x >>= f) s = exec (f a) t := by
  rw [exec_bind, h]

@[simp] theorem exec_get_bind (f : σ → ExceptT ε (StateM σ) β) (s : σ) :
    exec (get >>= f) s = exec (f s) s := rfl

@[simp] theorem exec_modify_bind (g : σ → σ) (f : PUnit → ExceptT ε (StateM σ) β) (s : σ) :
    exec (modify g >>= f) s = exec (f ⟨⟩) (g s) := rfl

@[simp] theorem exec_ite (c : Prop) [Decidable c] (x y : ExceptT ε (StateM σ) α) (s : σ) :
    exec (if c then x else y) s = if c then exec x s else exec y s := by
  split <;> rfl

theorem exec_eq {x : ExceptT ε (StateM σ) α} {s : σ} {r : Except ε α} (h : (exec x s).1 = r) :
    exec x s = (r, (exec x s).2) := by
  rw [← h]

/-- `x` ends in a state that satisfies `Q` with its result, or, on an error, `E`. -/
def wp (x : ExceptT ε (StateM σ) α) (Q : α → σ → Prop) (E : ε → σ → Prop) (s : σ) : Prop :=
  match exec x s with
  | (.ok a, t) => Q a t
  | (.error e, t) => E e t

section rules
variable {x : ExceptT ε (StateM σ) α} {f : α → ExceptT ε (StateM σ) β}
  {Q Q' : α → σ → Prop} {R : β → σ → Prop} {E E' : ε → σ → Prop} {s t : σ} {a : α} {e : ε}

theorem wp_ok (h : exec x s = (.ok a, t)) : wp x Q E s ↔ Q a t := by
  rw [wp, h]

theorem wp_error (h : exec x s = (.error e, t)) : wp x Q E s ↔ E e t := by
  rw [wp, h]

theorem wp_congr {y : ExceptT ε (StateM σ) α} (h : exec x s = exec y t) :
    wp x Q E s ↔ wp y Q E t := by
  rw [wp, h, wp]

theorem wp.of_ok (hx : wp x Q E s) (h : exec x s = (.ok a, t)) : Q a t := (wp_ok h).1 hx

theorem wp_mono (hx : wp x Q E s) (hQ : ∀ a t, Q a t → Q' a t) (hE : ∀ e t, E e t → E' e t) :
    wp x Q' E' s := by
  unfold wp at hx ⊢
  split at hx
  · exact hQ _ _ hx
  · exact hE _ _ hx

@[simp] theorem wp_pure : wp (pure a : ExceptT ε (StateM σ) α) Q E s ↔ Q a s := Iff.rfl

@[simp] theorem wp_throw : wp (throw e : ExceptT ε (StateM σ) α) Q E s ↔ E e s := Iff.rfl

@[simp] theorem wp_get_bind {f : σ → ExceptT ε (StateM σ) β} :
    wp (get >>= f) R E s ↔ wp (f s) R E s := Iff.rfl

@[simp] theorem wp_modify_bind {g : σ → σ} {f : PUnit → ExceptT ε (StateM σ) β} :
    wp (modify g >>= f) R E s ↔ wp (f ⟨⟩) R E (g s) := Iff.rfl

theorem wp_bind : wp (x >>= f) R E s ↔ wp x (fun a t => wp (f a) R E t) E s := by
  unfold wp
  rw [exec_bind]
  rcases exec x s with ⟨a | e, t⟩ <;> rfl

/-- The rule for a sequence: a specification of the first part, then one of the rest from
every state the first part can end in. -/
theorem wp_seq (hx : wp x Q E' s) (hf : ∀ a t, Q a t → wp (f a) R E t)
    (hE : ∀ e t, E' e t → E e t) : wp (x >>= f) R E s :=
  wp_bind.2 (wp_mono hx hf hE)

theorem wp_ite {c : Prop} [Decidable c] {y : ExceptT ε (StateM σ) α}
    (ht : c → wp x Q E s) (hf : ¬c → wp y Q E s) : wp (if c then x else y) Q E s := by
  split
  · exact ht ‹_›
  · exact hf ‹_›

end rules
end ExceptState
