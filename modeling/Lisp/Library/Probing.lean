import Mathlib.Data.List.Basic
import Mathlib.Logic.Function.Basic

/-! Tables with open addressing and linear probing. The slots are the numbers below `c`, in a
cycle; an entry is searched from its home slot on, up to a free slot. -/
namespace Probing
variable {c a b h s x y hole : Nat}

/-- The slot that is probed after `i` others. -/
def slot (c home i : Nat) : Nat := (home + i) % c

/-- The number of steps from one slot on to another. -/
def steps (c a b : Nat) : Nat := if a ≤ b then b - a else b + c - a

/-- The number of steps from one slot on until another is reached, at least one. -/
def gap (c a b : Nat) : Nat := if a < b then b - a else b + c - a

/-- The slot `x` is probed before `s` in a search from `home`. -/
def OnWay (c home s x : Nat) : Prop := steps c home x < steps c home s

/-- The slot `x` is passed on the way from `a` on before `b` is reached. -/
def Between (c a x b : Nat) : Prop := a ≠ x ∧ steps c a x < gap c a b

instance : Decidable (OnWay c h s x) := inferInstanceAs (Decidable (_ < _))

instance : Decidable (Between c a x b) := inferInstanceAs (Decidable (_ ∧ _))

theorem slot_lt (hc : 0 < c) (a i : Nat) : slot c a i < c := Nat.mod_lt _ hc

theorem steps_lt (ha : a < c) (hb : b < c) : steps c a b < c := by
  unfold steps
  split <;> omega

theorem slot_eq {i : Nat} (ha : a < c) (hi : i < c) :
    slot c a i = if a + i < c then a + i else a + i - c := by
  unfold slot
  split
  next h => exact Nat.mod_eq_of_lt h
  next h => rw [Nat.mod_eq_sub_mod (by omega), Nat.mod_eq_of_lt (by omega)]

theorem steps_slot {i : Nat} (ha : a < c) (hi : i < c) : steps c a (slot c a i) = i := by
  rw [slot_eq ha hi]
  unfold steps
  split_ifs <;> omega

theorem slot_steps (ha : a < c) (hb : b < c) : slot c a (steps c a b) = b := by
  rw [slot_eq ha (steps_lt ha hb)]
  unfold steps
  split_ifs <;> omega

theorem slot_succ (c a i : Nat) : (slot c a i + 1) % c = slot c a (i + 1) := Nat.mod_add_mod ..

theorem slot_self (ha : a < c) : slot c a c = a := by
  rw [slot, Nat.add_mod_right, Nat.mod_eq_of_lt ha]

theorem steps_self (c a : Nat) : steps c a a = 0 := by simp [steps]

/-- Two slots at the same number of steps are one. -/
theorem steps_inj (ha : a < c) (hx : x < c) (hy : y < c) (h : steps c a x = steps c a y) :
    x = y := by
  rw [← slot_steps ha hx, h, slot_steps ha hy]

theorem gap_self (c a : Nat) : gap c a a = c := by simp [gap]

theorem gap_eq_steps (h : a ≠ b) : gap c a b = steps c a b := by
  unfold gap steps
  split_ifs <;> omega

theorem gap_le (hb : b < c) : gap c a b ≤ c := by
  unfold gap
  split_ifs <;> omega

/-- A slot before one that is passed is passed. -/
theorem OnWay.trans (hs : OnWay c h s x) (hx : OnWay c h x y) : OnWay c h s y :=
  Nat.lt_trans hx hs

/-- A walk that goes on from a slot between two others stays between them, behind it. -/
theorem Between.trans (ha : a < c) (hs : s < c) (hx : x < c) (hb : b < c)
    (h1 : Between c a s b) (h2 : Between c s x b) : Between c a x b ∧ x ≠ s := by
  obtain ⟨h3, h4⟩ := h1
  obtain ⟨h5, h6⟩ := h2
  unfold Between
  unfold steps gap at *
  constructor
  · constructor
    · rintro rfl
      split_ifs at * <;> omega
    · split_ifs at * <;> omega
  · exact fun h => h5 h.symm

theorem Between.gap_lt (ha : a < c) (hb : b < c) (h : Between c a s b) :
    gap c s b < gap c a b := by
  obtain ⟨h1, h2⟩ := h
  unfold steps gap at *
  split_ifs at * <;> omega

/-- A search from `h` that stops at `x` has passed the slots on the way. -/
theorem mem_pre_iff {pre post : List Nat} (hh : h < c) (hy : y < c)
    (hl : (List.range c).map (slot c h) = pre ++ x :: post) : y ∈ pre ↔ OnWay c h x y := by
  have hlen : pre.length < c := by
    have := congrArg List.length hl
    simp at this
    omega
  have hx : slot c h pre.length = x := by
    have := congrArg (fun l => l[pre.length]?) hl
    simpa [hlen] using this
  have hpre : pre = (List.range pre.length).map (slot c h) := by
    have := congrArg (List.take pre.length) hl
    simpa [← List.map_take, List.take_range, Nat.min_eq_left (Nat.le_of_lt hlen)] using this.symm
  have hsteps : steps c h x = pre.length := by rw [← hx, steps_slot hh hlen]
  rw [OnWay, hsteps, hpre, List.mem_map, List.length_map, List.length_range]
  constructor
  · rintro ⟨i, hi, rfl⟩
    rw [List.mem_range] at hi
    rwa [steps_slot hh (by omega)]
  · intro hlt
    exact ⟨steps c h y, List.mem_range.2 hlt, slot_steps hh hy⟩

theorem mem_slots (hh : h < c) : x ∈ (List.range c).map (slot c h) ↔ x < c := by
  rw [List.mem_map]
  constructor
  · rintro ⟨i, -, rfl⟩
    exact slot_lt (by omega) _ _
  · intro hx
    exact ⟨steps c h x, List.mem_range.2 (steps_lt hh hx), slot_steps hh hx⟩

section tables
variable {full full' : Nat → Prop} {home home' : Nat → Nat}

/-- No slot is free on the way from its home slot to an entry, except `hole`. -/
def UnbrokenBut (c : Nat) (full : Nat → Prop) (home : Nat → Nat) (hole : Nat) : Prop :=
  ∀ s < c, full s → home s < c ∧ ∀ x < c, OnWay c (home s) s x → full x ∨ x = hole

/-- No slot is free on the way from its home slot to an entry. -/
def Unbroken (c : Nat) (full : Nat → Prop) (home : Nat → Nat) : Prop :=
  ∀ s < c, full s → home s < c ∧ ∀ x < c, OnWay c (home s) s x → full x

theorem Unbroken.empty (h : ∀ s < c, ¬full s) : Unbroken c full home :=
  fun s hs hf => absurd hf (h s hs)

/-- The table after an entry was stored in a slot that is the first free one for it. -/
theorem Unbroken.fill (h : Unbroken c full home) (hfull : ∀ x < c, full' x ↔ full x ∨ x = s)
    (hhome : ∀ x, x ≠ s → home' x = home x) (hs : home' s < c)
    (hway : ∀ x < c, OnWay c (home' s) s x → full x) : Unbroken c full' home' := by
  intro y hy hfy
  by_cases hys : y = s
  · subst hys
    exact ⟨hs, fun x hx hon => (hfull x hx).2 (Or.inl (hway x hx hon))⟩
  · rw [hhome y hys]
    obtain ⟨hlt, hall⟩ := h y hy (((hfull y hy).1 hfy).resolve_right hys)
    exact ⟨hlt, fun x hx hon => (hfull x hx).2 (Or.inl (hall x hx hon))⟩

/-- The table after an entry was taken out. -/
theorem Unbroken.take (h : Unbroken c full home)
    (hfull : ∀ x < c, full' x ↔ full x ∧ x ≠ hole) : UnbrokenBut c full' home hole := by
  intro y hy hfy
  obtain ⟨hlt, hall⟩ := h y hy ((hfull y hy).1 hfy).1
  refine ⟨hlt, fun x hx hon => ?_⟩
  by_cases hxh : x = hole
  · exact Or.inr hxh
  · exact Or.inl ((hfull x hx).2 ⟨hall x hx hon, hxh⟩)

/-- The table after an entry was moved into the hole, which is on the way to it. -/
theorem UnbrokenBut.move (h : UnbrokenBut c full home hole) (hs : s < c) (hfs : full s)
    (hon : OnWay c (home s) s hole) (hfull : ∀ x < c, full' x ↔ (full x ∨ x = hole) ∧ x ≠ s)
    (hhome : ∀ x, x ≠ hole → home' x = home x) (hmoved : home' hole = home s) :
    UnbrokenBut c full' home' s := by
  have hfill : ∀ x < c, full x ∨ x = hole → full' x ∨ x = s := by
    intro x hx hor
    by_cases hxs : x = s
    · exact Or.inr hxs
    · exact Or.inl ((hfull x hx).2 ⟨hor, hxs⟩)
  intro y hy hfy
  by_cases hyh : y = hole
  · subst hyh
    obtain ⟨hlt, hall⟩ := h s hs hfs
    rw [hmoved]
    exact ⟨hlt, fun x hx hxy => hfill x hx (hall x hx (hon.trans hxy))⟩
  · obtain ⟨hlt, hall⟩ := h y hy (((hfull y hy).1 hfy).1.resolve_right hyh)
    rw [hhome y hyh]
    exact ⟨hlt, fun x hx hxy => hfill x hx (hall x hx hxy)⟩

/-- The hole is on no entry's way. -/
theorem UnbrokenBut.close (h : UnbrokenBut c full home hole)
    (hclear : ∀ s < c, full s → ¬OnWay c (home s) s hole) : Unbroken c full home := by
  intro y hy hfy
  obtain ⟨hlt, hall⟩ := h y hy hfy
  refine ⟨hlt, fun x hx hon => ?_⟩
  rcases hall x hx hon with hf | rfl
  · exact hf
  · exact absurd hon (hclear y hy hfy)

end tables
end Probing
