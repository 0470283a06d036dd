import Lisp.Copying

/-! What the deep comparison of `list.c` decides. -/
namespace Lisp
variable {F : Type} {h h' : Heap F} {x y a b as bs fuel : Nat} {c k : Cell F} {t u tx ty : Obj F}
  {cs ds : List Nat}

/-- The objects that `compare_recursive` compares as pointers. -/
def Cell.byAddress : Cell F → Bool
  | .atom _ => false
  | .list _ _ => false
  | _ => true

/-- Two trees agree, and their ints, floats, primitives and closures are the same objects. -/
inductive Shares (h : Heap F) : Nat → Nat → Prop where
  | null : Shares h 0 0
  | atom {x y : Nat} {name : Text} (hx : cellAt h x = some (.atom name))
      (hy : cellAt h y = some (.atom name)) : Shares h x y
  | object {x : Nat} {c : Cell F} (hx : cellAt h x = some c) (hc : c.byAddress = true) :
      Shares h x x
  | list {x y a b as bs : Nat} (hx : cellAt h x = some (.list a as))
      (hy : cellAt h y = some (.list b bs)) (ha : Shares h a b) (hd : Shares h as bs) :
      Shares h x y

/-- Before any difference, from the left, an object of the first tree faces `NULL` in the
second. -/
inductive MeetsNull (h : Heap F) : Nat → Nat → Prop where
  | here {x : Nat} (hx : x ≠ 0) : MeetsNull h x 0
  | car {x y a b as bs : Nat} (hx : cellAt h x = some (.list a as))
      (hy : cellAt h y = some (.list b bs)) (ha : MeetsNull h a b) : MeetsNull h x y
  | cdr {x y a b as bs : Nat} (hx : cellAt h x = some (.list a as))
      (hy : cellAt h y = some (.list b bs)) (ha : Shares h a b) (hd : MeetsNull h as bs) :
      MeetsNull h x y

/-- The object consists of atoms and lists. -/
def Obj.Symbolic : Obj F → Prop
  | .null => True
  | .atom _ => True
  | .list a d => a.Symbolic ∧ d.Symbolic
  | _ => False

section agreement

theorem Shares.of_list (hs : Shares h x y) (hx : cellAt h x = some (.list a as))
    (hy : cellAt h y = some (.list b bs)) : Shares h a b ∧ Shares h as bs := by
  cases hs with
  | null => simp [cellAt_zero] at hx
  | atom hx' _ => simp [hx] at hx'
  | object hx' hc =>
    obtain rfl := Option.some.inj (hx.symm.trans hx')
    cases hc
  | list hx' hy' ha hd =>
    obtain ⟨rfl, rfl⟩ := Cell.list.inj (Option.some.inj (hx.symm.trans hx'))
    obtain ⟨rfl, rfl⟩ := Cell.list.inj (Option.some.inj (hy.symm.trans hy'))
    exact ⟨ha, hd⟩

theorem Shares.eq (hs : Shares h x y) (hx : Reads h x tx cs) (hy : Reads h y ty ds) : tx = ty := by
  induction hs generalizing tx ty cs ds with
  | null => exact (hx.unique hy).1
  | atom hx' hy' =>
    obtain ⟨rfl, -⟩ := hx.of_leaf hx' rfl
    obtain ⟨rfl, -⟩ := hy.of_leaf hy' rfl
    rfl
  | object _ _ => exact (hx.unique hy).1
  | list hx' hy' _ _ iha ihd =>
    obtain ⟨ta, td, _, _, rfl, -, hta, htd⟩ := hx.of_list hx'
    obtain ⟨ua, ud, _, _, rfl, -, hua, hud⟩ := hy.of_list hy'
    rw [iha hta hua, ihd htd hud]

theorem MeetsNull.not_shares (hm : MeetsNull h x y) : ¬Shares h x y := by
  induction hm with
  | here hx =>
    intro hs
    cases hs with
    | null => exact hx rfl
    | atom _ hy => simp [cellAt_zero] at hy
    | object hy _ => simp [cellAt_zero] at hy
    | list _ hy _ _ => simp [cellAt_zero] at hy
  | car hx hy _ ih => exact fun hs => ih (hs.of_list hx hy).1
  | cdr hx hy _ _ ih => exact fun hs => ih (hs.of_list hx hy).2

theorem MeetsNull.of_list (hm : MeetsNull h x y) (hx : cellAt h x = some (.list a as))
    (hy : cellAt h y = some (.list b bs)) :
    MeetsNull h a b ∨ Shares h a b ∧ MeetsNull h as bs := by
  cases hm with
  | here _ => simp [cellAt_zero] at hy
  | car hx' hy' ha =>
    obtain ⟨rfl, rfl⟩ := Cell.list.inj (Option.some.inj (hx.symm.trans hx'))
    obtain ⟨rfl, rfl⟩ := Cell.list.inj (Option.some.inj (hy.symm.trans hy'))
    exact Or.inl ha
  | cdr hx' hy' ha hd =>
    obtain ⟨rfl, rfl⟩ := Cell.list.inj (Option.some.inj (hx.symm.trans hx'))
    obtain ⟨rfl, rfl⟩ := Cell.list.inj (Option.some.inj (hy.symm.trans hy'))
    exact Or.inr ⟨ha, hd⟩

theorem Shares.of_cells (hs : Shares h x y) (hx : cellAt h x = some c) (hy : cellAt h y = some k) :
    (∃ name, c = .atom name ∧ k = .atom name) ∨ (c.byAddress = true ∧ x = y) ∨
      ∃ a as b bs, c = .list a as ∧ k = .list b bs := by
  cases hs with
  | null => simp [cellAt_zero] at hx
  | atom hx' hy' =>
    obtain rfl := Option.some.inj (hx.symm.trans hx')
    obtain rfl := Option.some.inj (hy.symm.trans hy')
    exact Or.inl ⟨_, rfl, rfl⟩
  | object hx' hc =>
    obtain rfl := Option.some.inj (hx.symm.trans hx')
    exact Or.inr (Or.inl ⟨hc, rfl⟩)
  | list hx' hy' _ _ =>
    obtain rfl := Option.some.inj (hx.symm.trans hx')
    obtain rfl := Option.some.inj (hy.symm.trans hy')
    exact Or.inr (Or.inr ⟨_, _, _, _, rfl, rfl⟩)

/-- The three ways in which a comparison ends. -/
def Compared (h : Heap F) (fuel x y : Nat) : Prop :=
  Shares h x y ∧ compareRecursive h fuel x y = some true ∨
    MeetsNull h x y ∧ compareRecursive h fuel x y = none ∨
    ¬Shares h x y ∧ ¬MeetsNull h x y ∧ compareRecursive h fuel x y = some false

/-- Objects that are not both lists are compared at once. -/
theorem compared_cells (hx : cellAt h x = some c) (hy : cellAt h y = some k)
    (hlists : ¬∃ a as b bs, c = .list a as ∧ k = .list b bs) : Compared h (fuel + 1) x y := by
  have hx0 : x ≠ 0 := Nat.pos_iff_ne_zero.1 (cellAt_le hx).1
  have hy0 : y ≠ 0 := Nat.pos_iff_ne_zero.1 (cellAt_le hy).1
  have hmeets : ¬MeetsNull h x y := by
    intro hm
    apply hlists
    cases hm with
    | here _ => exact absurd rfl hy0
    | car hx' hy' _ =>
      exact ⟨_, _, _, _, Option.some.inj (hx.symm.trans hx'), Option.some.inj (hy.symm.trans hy')⟩
    | cdr hx' hy' _ _ =>
      exact ⟨_, _, _, _, Option.some.inj (hx.symm.trans hx'), Option.some.inj (hy.symm.trans hy')⟩
  by_cases hatoms : ∃ n m, c = .atom n ∧ k = .atom m
  · obtain ⟨n, m, rfl, rfl⟩ := hatoms
    by_cases hnm : n = m
    · subst hnm
      exact Or.inl ⟨.atom hx hy, by simp [compareRecursive, hx0, hx, hy]⟩
    · refine Or.inr (Or.inr ⟨fun hs => ?_, hmeets, by simp [compareRecursive, hx0, hx, hy, hnm]⟩)
      rcases hs.of_cells hx hy with ⟨name, h1, h2⟩ | ⟨hc, -⟩ | hl
      · exact hnm ((Cell.atom.inj h1).trans (Cell.atom.inj h2).symm)
      · cases hc
      · exact hlists hl
  · have hrun : compareRecursive h (fuel + 1) x y = some (x == y) := by
      simp only [compareRecursive, if_neg hx0, hx, hy]
      split
      · simp_all
      · exact absurd ⟨_, _, Option.some.inj ‹_›, Option.some.inj ‹_›⟩ hatoms
      · exact absurd ⟨_, _, _, _, Option.some.inj ‹_›, Option.some.inj ‹_›⟩ hlists
      · rfl
    by_cases hxy : x = y
    · subst hxy
      obtain rfl := Option.some.inj (hx.symm.trans hy)
      refine Or.inl ⟨.object hx ?_, by rw [hrun, beq_self_eq_true]⟩
      cases c with
      | atom name => exact absurd ⟨_, _, rfl, rfl⟩ hatoms
      | list a as => exact absurd ⟨_, _, _, _, rfl, rfl⟩ hlists
      | primitive f => rfl
      | closure p q r n => rfl
      | int value => rfl
      | float value => rfl
    · refine Or.inr (Or.inr ⟨fun hs => ?_, hmeets, by rw [hrun, beq_false_of_ne hxy]⟩)
      rcases hs.of_cells hx hy with ⟨name, h1, h2⟩ | ⟨-, rfl⟩ | hl
      · exact hatoms ⟨name, name, h1, h2⟩
      · exact hxy rfl
      · exact hlists hl

theorem compared_list (hx : cellAt h x = some (.list a as)) (hy : cellAt h y = some (.list b bs))
    (hcar : Compared h fuel a b) (hcdr : Compared h fuel as bs) : Compared h (fuel + 1) x y := by
  have hx0 : x ≠ 0 := Nat.pos_iff_ne_zero.1 (cellAt_le hx).1
  have hrun : compareRecursive h (fuel + 1) x y = (compareRecursive h fuel a b).bind fun same =>
      if same then compareRecursive h fuel as bs else some false := by
    simp only [compareRecursive, if_neg hx0, hx, hy]
    rfl
  rcases hcar with ⟨hs, hr⟩ | ⟨hm, hr⟩ | ⟨hs, hm, hr⟩
  · rw [hr, Option.bind_some, if_pos rfl] at hrun
    rcases hcdr with ⟨hs', hr'⟩ | ⟨hm', hr'⟩ | ⟨hs', hm', hr'⟩
    · exact Or.inl ⟨.list hx hy hs hs', hrun.trans hr'⟩
    · exact Or.inr (Or.inl ⟨.cdr hx hy hs hm', hrun.trans hr'⟩)
    · refine Or.inr (Or.inr ⟨fun h => hs' (h.of_list hx hy).2, fun h => ?_, hrun.trans hr'⟩)
      rcases h.of_list hx hy with hm | ⟨-, hm⟩
      · exact hm.not_shares hs
      · exact hm' hm
  · exact Or.inr (Or.inl ⟨.car hx hy hm, by rw [hrun, hr]; rfl⟩)
  · refine Or.inr (Or.inr ⟨fun h => hs (h.of_list hx hy).1, fun h => ?_, by rw [hrun, hr]; rfl⟩)
    rcases h.of_list hx hy with hm' | ⟨hs', -⟩
    · exact hm hm'
    · exact hs hs'

theorem compared_null (h : Heap F) (fuel y : Nat) : Compared h (fuel + 1) 0 y := by
  by_cases hy : y = 0
  · subst hy
    exact Or.inl ⟨.null, rfl⟩
  · refine Or.inr (Or.inr ⟨fun hs => ?_, fun hm => ?_, by simp [compareRecursive, hy]⟩)
    · cases hs with
      | null => exact hy rfl
      | atom hx _ => simp [cellAt_zero] at hx
      | object hx _ => simp [cellAt_zero] at hx
      | list hx _ _ _ => simp [cellAt_zero] at hx
    · cases hm with
      | here hx => exact hx rfl
      | car hx _ _ => simp [cellAt_zero] at hx
      | cdr hx _ _ _ => simp [cellAt_zero] at hx

theorem compared_null_right (hx : cellAt h x = some c) : Compared h (fuel + 1) x 0 := by
  have hx0 : x ≠ 0 := Nat.pos_iff_ne_zero.1 (cellAt_le hx).1
  exact Or.inr (Or.inl ⟨.here hx0, by simp [compareRecursive, hx0, hx, cellAt_zero]⟩)

theorem Reads.null_or_cell (hr : Reads h a t cs) : a = 0 ∨ ∃ c, cellAt h a = some c := by
  cases hr with
  | null => exact Or.inl rfl
  | leaf ha _ => exact Or.inr ⟨_, ha⟩
  | list ha _ _ => exact Or.inr ⟨_, ha⟩
  | closure ha _ _ _ => exact Or.inr ⟨_, ha⟩

/-- A comparison of finite objects comes to one of its ends. -/
theorem Reads.compared (hx : Reads h x tx cs) (hy : Reads h y ty ds) (hf : tx.depth < fuel) :
    Compared h fuel x y := by
  induction hx generalizing y ty ds fuel with
  | null =>
    obtain ⟨fuel, rfl⟩ : ∃ n, fuel = n + 1 := ⟨fuel - 1, by omega⟩
    exact compared_null h fuel y
  | leaf ha ht =>
    obtain ⟨fuel, rfl⟩ : ∃ n, fuel = n + 1 := ⟨fuel - 1, by omega⟩
    rcases hy.null_or_cell with rfl | ⟨k, hk⟩
    · exact compared_null_right ha
    · apply compared_cells ha hk
      rintro ⟨a, as, b, bs, rfl, -⟩
      exact leaf?_list ht rfl
  | @list x a as ta td ca cd ha _ _ iha ihd =>
    obtain ⟨fuel, rfl⟩ : ∃ n, fuel = n + 1 := ⟨fuel - 1, by omega⟩
    simp only [Obj.depth] at hf
    rcases hy.null_or_cell with rfl | ⟨k, hk⟩
    · exact compared_null_right ha
    · by_cases hlist : ∃ b bs, k = .list b bs
      · obtain ⟨b, bs, rfl⟩ := hlist
        obtain ⟨ub, ud, cb, cbs, -, -, hub, hud⟩ := hy.of_list hk
        exact compared_list ha hk (iha hub (by omega)) (ihd hud (by omega))
      · apply compared_cells ha hk
        rintro ⟨-, -, b, bs, -, hl⟩
        exact hlist ⟨b, bs, hl⟩
  | closure ha _ _ _ =>
    obtain ⟨fuel, rfl⟩ : ∃ n, fuel = n + 1 := ⟨fuel - 1, by omega⟩
    rcases hy.null_or_cell with rfl | ⟨k, hk⟩
    · exact compared_null_right ha
    · apply compared_cells ha hk
      rintro ⟨a, as, b, bs, hl, -⟩
      cases hl

end agreement

section copies

/-- Trees of atoms and lists agree if they are equal. -/
theorem Obj.Symbolic.shares (ht : t.Symbolic) (hx : Reads h x t cs) (hy : Reads h y t ds) :
    Shares h x y := by
  induction t generalizing x y cs ds with
  | null =>
    obtain rfl := hx.null_iff.2 rfl
    obtain rfl := hy.null_iff.2 rfl
    exact .null
  | atom name => exact .atom (hx.leaf_inv rfl) (hy.leaf_inv rfl)
  | list ta td iha ihd =>
    obtain ⟨a, as, _, _, hxc, -, hxa, hxd⟩ := hx.list_inv
    obtain ⟨b, bs, _, _, hyc, -, hyb, hyd⟩ := hy.list_inv
    exact .list hxc hyc (iha ht.1 hxa hyb) (ihd ht.2 hxd hyd)
  | primitive f => exact ht.elim
  | closure p b c n => exact ht.elim
  | int value => exact ht.elim
  | float value => exact ht.elim

theorem Reads.mem_self (hr : Reads h a t cs) (ha : cellAt h a = some c) : a ∈ cs := by
  cases hr with
  | null => simp [cellAt_zero] at ha
  | leaf _ _ => exact List.mem_singleton_self a
  | list _ _ _ => simp
  | closure _ _ _ _ => simp

/-- Objects that agree and have no object in common are made of atoms and lists. -/
theorem Shares.symbolic (hs : Shares h x y) (hx : Reads h x tx cs) (hy : Reads h y ty ds)
    (hdisj : ∀ b ∈ cs, b ∉ ds) : tx.Symbolic := by
  induction hs generalizing tx ty cs ds with
  | null =>
    obtain rfl := hx.null_iff.1 rfl
    trivial
  | atom hx' _ =>
    obtain ⟨rfl, -⟩ := hx.of_leaf hx' rfl
    trivial
  | object hc _ =>
    have hmem := hx.mem_self hc
    rw [(hx.unique hy).2] at hdisj hmem
    exact absurd hmem (hdisj _ hmem)
  | list hx' hy' _ _ iha ihd =>
    obtain ⟨ta, td, ca, cd, rfl, rfl, hta, htd⟩ := hx.of_list hx'
    obtain ⟨ua, ud, da, dd, rfl, rfl, hua, hud⟩ := hy.of_list hy'
    constructor
    · exact iha hta hua fun b hb hb' => hdisj b (by simp [hb]) (by simp [hb'])
    · exact ihd htd hud fun b hb hb' => hdisj b (by simp [hb]) (by simp [hb'])

theorem Obj.Symbolic.copied (ht : t.Symbolic) : t.copied = t := by
  induction t with
  | list ta td iha ihd => rw [Obj.copied, iha ht.1, ihd ht.2]
  | closure p b c n => exact ht.elim
  | _ => rfl

/-- An object compares as equal with its copy if and only if it consists of atoms and lists. -/
theorem compare_copy (hx : Reads h x tx cs) (hf : tx.depth < fuel) :
    compareRecursive (copyRecursive h x).2 fuel x (copyRecursive h x).1 = some true ↔
      tx.Symbolic := by
  have hcopy := hx.copyRecursive
  have hx' := hx.mono hcopy.heap
  have hcompared := hx'.compared hcopy.reads hf
  constructor
  · intro hrun
    rcases hcompared with ⟨hs, -⟩ | ⟨-, hr⟩ | ⟨-, -, hr⟩
    · apply hs.symbolic hx' hcopy.reads
      intro b hb hb'
      have h1 := (hx.valid.2 b hb).2
      have h2 := (List.mem_range'_1.1 hb').1
      omega
    · rw [hrun] at hr
      cases hr
    · rw [hrun] at hr
      cases hr
  · intro ht
    have hreads := hcopy.reads
    rw [ht.copied] at hreads
    have hs := ht.shares hx' hreads
    rcases hcompared with ⟨-, hr⟩ | ⟨hm, -⟩ | ⟨hn, -⟩
    · exact hr
    · exact absurd hs hm.not_shares
    · exact absurd hs hn

end copies

/-- The comparison returns without a look at `NULL` and tells whether the trees are equal, if and
only if no object of the first one faces `NULL` before they differ, and equal trees share what is
compared as a pointer. It finds a copy equal if and only if the object has no such parts. -/
theorem compareRecursive_iff (hx : Reads h x tx cs) (hy : Reads h y ty ds) (hf : h.length < fuel) :
    ((∃ same, compareRecursive h fuel x y = some same ∧ (same = true ↔ tx = ty)) ↔
      ¬MeetsNull h x y ∧ (tx = ty → Shares h x y)) ∧
    (compareRecursive (copyRecursive h x).2 fuel x (copyRecursive h x).1 = some true ↔
      tx.Symbolic) := by
  have hdepth : tx.depth < fuel := Nat.lt_of_le_of_lt hx.depth_le hf
  refine ⟨?_, compare_copy hx hdepth⟩
  rcases hx.compared hy hdepth with ⟨hs, hr⟩ | ⟨hm, hr⟩ | ⟨hs, hm, hr⟩
  · have hmeets : ¬MeetsNull h x y := fun hm => hm.not_shares hs
    have heq := hs.eq hx hy
    simp only [hr, Option.some.injEq, exists_eq_left', heq, hs, hmeets, not_false_iff,
      implies_true, and_self]
  · simp only [hr, hm, reduceCtorEq, false_and, exists_false, not_true]
  · simp [hr, hs, hm]

/-- A list of an atom, twice, and an int. -/
def twoLists : Heap NoFloat :=
  [⟨.atom "a".toList, false, false⟩, ⟨.list 1 0, false, false⟩, ⟨.atom "a".toList, false, false⟩,
    ⟨.list 3 0, false, false⟩, ⟨.int 1, false, false⟩]

theorem reads_first : Reads twoLists 2 (.list (.atom "a".toList) .null) [1, 2] :=
  .list rfl (.leaf (c := .atom "a".toList) rfl rfl) .null

theorem compareRecursive_iff_list :
    ((∃ same, compareRecursive twoLists 6 2 4 = some same ∧ (same = true ↔
        Obj.list (F := NoFloat) (.atom "a".toList) .null = .list (.atom "a".toList) .null)) ↔
      ¬MeetsNull twoLists 2 4 ∧
        (Obj.list (F := NoFloat) (.atom "a".toList) .null = .list (.atom "a".toList) .null →
          Shares twoLists 2 4)) ∧
    (compareRecursive (copyRecursive twoLists 2).2 6 2 (copyRecursive twoLists 2).1 = some true ↔
      (Obj.list (F := NoFloat) (.atom "a".toList) .null).Symbolic) :=
  compareRecursive_iff reads_first (.list rfl (.leaf (c := .atom "a".toList) rfl rfl) .null)
    (by decide)

/-- An atom against `NULL`. -/
theorem compareRecursive_null : ¬∀ (h : Heap NoFloat) (x y : Nat) (tx ty : Obj NoFloat)
    (cs ds : List Nat), Reads h x tx cs → Reads h y ty ds → ∃ fuel same,
      compareRecursive h fuel x y = some same ∧ (same = true ↔ tx = ty) := by
  intro h
  obtain ⟨fuel, same, hrun, -⟩ := h twoLists 1 0 _ _ _ _
    (.leaf (c := .atom "a".toList) rfl rfl) .null
  cases fuel with
  | zero => cases hrun
  | succ fuel => cases hrun

end Lisp
