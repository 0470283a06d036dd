import Mathlib.Logic.Basic

/-! Depth-first marking of a graph. A traversal that stops at marked vertices marks those
that can be reached through unmarked ones, whatever the marks were before. -/
namespace Traversal
variable {V : Type} {edge : V → V → Prop} {m m' m'' : V → Prop} {a x y : V} {roots roots' : List V}

/-- `x` can be reached from `a` on a path without marks, the ends included. -/
inductive Clear (edge : V → V → Prop) (m : V → Prop) (a : V) : V → Prop where
  | refl (ha : ¬m a) : Clear edge m a a
  | step {x y : V} (hx : Clear edge m a x) (he : edge x y) (hy : ¬m y) : Clear edge m a y

/-- The marks `m'` are what a traversal from `roots` makes of the marks `m`. -/
structure Visits (edge : V → V → Prop) (m m' : V → Prop) (roots : List V) : Prop where
  grows : ∀ x, m x → m' x
  sound : ∀ x, m' x → m x ∨ ∃ a ∈ roots, Clear edge m a x
  roots : ∀ a ∈ roots, m' a
  closed : ∀ x y, m' x → ¬m x → edge x y → m' y

theorem Clear.mono (hc : Clear edge m' a x) (hm : ∀ x, m x → m' x) : Clear edge m a x := by
  induction hc with
  | refl ha => exact .refl fun h => ha (hm _ h)
  | step _ he hy ih => exact .step ih he fun h => hy (hm _ h)

theorem Clear.unmarked (hc : Clear edge m a x) : ¬m x := by
  cases hc with
  | refl ha => exact ha
  | step _ _ hy => exact hy

/-- An edge in front of a path. -/
theorem Clear.cons (ha : ¬m a) (he : edge a x) (hc : Clear edge m x y) : Clear edge m a y := by
  induction hc with
  | refl hx => exact .step (.refl ha) he hx
  | step _ he' hy ih => exact .step ih he' hy

namespace Visits

/-- What a traversal marks: exactly the vertices at the end of unmarked paths. -/
theorem iff (hv : Visits edge m m' roots) :
    m' x ↔ m x ∨ ∃ a ∈ roots, Clear edge m a x := by
  constructor
  · exact hv.sound x
  · rintro (hx | ⟨a, ha, hc⟩)
    · exact hv.grows x hx
    · induction hc with
      | refl => exact hv.roots a ha
      | step hc he _ ih => exact hv.closed _ _ ih hc.unmarked he

theorem nil : Visits edge m m [] where
  grows _ h := h
  sound _ h := Or.inl h
  roots _ h := absurd h List.not_mem_nil
  closed _ _ h hn _ := absurd h hn

/-- A traversal stops at a mark. -/
theorem marked (ha : m a) : Visits edge m m [a] where
  grows _ h := h
  sound _ h := Or.inl h
  roots _ hb := List.mem_singleton.1 hb ▸ ha
  closed _ _ h hn _ := absurd h hn

/-- One traversal after another. -/
theorem append (h1 : Visits edge m m' roots) (h2 : Visits edge m' m'' roots') :
    Visits edge m m'' (roots ++ roots') := by
  constructor
  case grows => exact fun x hx => h2.grows x (h1.grows x hx)
  case sound =>
    intro x hx
    rcases h2.sound x hx with hx | ⟨b, hb, hc⟩
    · rcases h1.sound x hx with hx | ⟨a, ha, hc⟩
      · exact Or.inl hx
      · exact Or.inr ⟨a, List.mem_append_left _ ha, hc⟩
    · exact Or.inr ⟨b, List.mem_append_right _ hb, hc.mono h1.grows⟩
  case roots =>
    intro a ha
    rcases List.mem_append.1 ha with ha | ha
    · exact h2.grows a (h1.roots a ha)
    · exact h2.roots a ha
  case closed =>
    intro x y hx hn he
    by_cases hx' : m' x
    · exact h2.grows y (h1.closed x y hx' hn he)
    · exact h2.closed x y hx hx' he

/-- A vertex is marked, then the vertices that it points to are visited. -/
theorem vertex (ha : ¬m a) (hroots : ∀ y, edge a y ↔ y ∈ roots)
    (hv : Visits edge (fun x => m x ∨ x = a) m' roots) : Visits edge m m' [a] := by
  constructor
  case grows => exact fun x hx => hv.grows x (Or.inl hx)
  case sound =>
    intro x hx
    refine (hv.sound x hx).elim (fun h => h.imp_right ?_) fun ⟨b, hb, hc⟩ => Or.inr ?_
    · rintro rfl
      exact ⟨x, List.mem_singleton_self x, .refl ha⟩
    · exact ⟨a, List.mem_singleton_self a,
        .cons ha ((hroots b).2 hb) (hc.mono fun _ h => Or.inl h)⟩
  case roots =>
    intro b hb
    obtain rfl := List.mem_singleton.1 hb
    exact hv.grows b (Or.inr rfl)
  case closed =>
    intro x y hx hn he
    by_cases hxa : x = a
    · subst hxa
      exact hv.roots y ((hroots y).1 he)
    · exact hv.closed x y hx (not_or.2 ⟨hn, hxa⟩) he

end Visits
end Traversal
