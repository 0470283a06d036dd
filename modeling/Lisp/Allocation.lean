import Lisp.Configurations

/-! How the operations of the interpreter keep its memory well formed: new objects, marks,
overwritten slots and linked lists. -/
namespace Lisp
variable {F : Type} {h h' h'' h₀ : Heap F} {S S' : Nat → Prop}
  {a b e e₂ m n slot v w x y z fuel : Nat} {k : Cell F} {t : Obj F} {cs : List Nat}
  {r : Nat × Heap F} {bs bs₂ : List Binding}
  {names : List (Option Text)} {s s' : Interpreter F} {top : List Binding}
  {below : List (List Binding)} {pending : List Nat}

namespace Cell

def parts : Cell F → List Nat
  | .list x y => [x, y]
  | .closure p b c _ => [p, b, c]
  | _ => []

end Cell

section parts

theorem HeapOk.part_le (hh : HeapOk h S) (ha : cellAt h a = some k) :
    ∀ x ∈ k.parts, x ≤ h.length := by
  obtain ⟨t, cs, hr⟩ := hh.readable a (cellAt_le ha).2
  cases k with
  | list x y =>
    obtain ⟨_, _, _, _, -, -, hx, hy⟩ := hr.of_list ha
    simpa [Cell.parts] using ⟨hx.valid.1, hy.valid.1⟩
  | closure p b c n =>
    obtain ⟨_, _, _, _, _, _, -, -, hp, hb, hc⟩ := hr.of_closure ha
    simpa [Cell.parts] using ⟨hp.valid.1, hb.valid.1, hc.valid.1⟩
  | _ => simp [Cell.parts]

theorem HeapOk.car_le (hh : HeapOk h S) (a : Nat) : car h a ≤ h.length := by
  unfold Lisp.car
  split
  · exact hh.part_le ‹_› _ (by simp [Cell.parts])
  · exact Nat.zero_le _

theorem HeapOk.cdr_le (hh : HeapOk h S) (a : Nat) : cdr h a ≤ h.length := by
  unfold Lisp.cdr
  split
  · exact hh.part_le ‹_› _ (by simp [Cell.parts])
  · exact Nat.zero_le _

theorem HeapOk.ith_le (hh : HeapOk h S) (a i : Nat) : ith h a i ≤ h.length := by
  induction i generalizing a with
  | zero =>
    unfold ith
    split
    · exact hh.car_le a
    · exact Nat.zero_le _
  | succ i ih =>
    unfold ith
    split
    · exact ih _
    · exact Nat.zero_le _

end parts

section newObjects

theorem HeapOk.alloc (hh : HeapOk h S) (hk : ∀ x ∈ k.parts, x ≤ h.length)
    (hc : CellOk h S k) : HeapOk (alloc h k).2 S := by
  have hext := extends_alloc h k
  refine ⟨fun a ha => ?_, fun a c hac => ?_⟩
  · rw [length_alloc] at ha
    obtain ha | rfl := Nat.le_succ_iff.1 ha
    · obtain ⟨t, cs, hr⟩ := hh.readable a ha
      exact ⟨t, cs, hr.mono hext⟩
    · have hcell := cellAt_alloc h k
      cases k with
      | list x y =>
        obtain ⟨tx, cx, hx⟩ := hh.readable x (hk x (by simp [Cell.parts]))
        obtain ⟨ty, cy, hy⟩ := hh.readable y (hk y (by simp [Cell.parts]))
        exact ⟨_, _, .list hcell (hx.mono hext) (hy.mono hext)⟩
      | closure p b c n =>
        obtain ⟨tp, cp, hp⟩ := hh.readable p (hk p (by simp [Cell.parts]))
        obtain ⟨tb, cb, hb⟩ := hh.readable b (hk b (by simp [Cell.parts]))
        obtain ⟨tc, cc, hc⟩ := hh.readable c (hk c (by simp [Cell.parts]))
        exact ⟨_, _, .closure hcell (hp.mono hext) (hb.mono hext) (hc.mono hext)⟩
      | _ => exact ⟨_, _, .leaf hcell rfl⟩
  · have hle := (cellAt_le hac).2
    rw [length_alloc] at hle
    obtain ha | rfl := Nat.le_succ_iff.1 hle
    · rw [hext.cell ha] at hac
      exact (hh.cells a c hac).evolves hext.evolves
    · rw [cellAt_alloc] at hac
      obtain rfl := Option.some.inj hac
      exact hc.evolves hext.evolves

theorem HeapOk.built (hh : HeapOk h S) (hr : Built h t r) (ht : t.Ok)
    (hS : ∀ a, S a → a ≤ h.length) : HeapOk r.2 S := by
  obtain ⟨hext, hread, -⟩ := hr
  have hnew : ∀ a, h.length < a → a ≤ r.2.length →
      a ∈ List.range' (h.length + 1) (r.2.length - h.length) := by
    intro a hl hu
    rw [List.mem_range'_1]
    omega
  refine ⟨fun a ha => ?_, fun a c hac => ?_⟩
  · rcases Nat.lt_or_ge h.length a with hlt | hle
    · obtain ⟨u, ds, hu, -, -⟩ := hread.part (hnew a hlt ha)
      exact ⟨u, ds, hu⟩
    · obtain ⟨t, cs, hr⟩ := hh.readable a hle
      exact ⟨t, cs, hr.mono hext⟩
  · rcases Nat.lt_or_ge h.length a with hlt | hle
    rotate_left
    · rw [hext.cell hle] at hac
      exact (hh.cells a c hac).evolves hext.evolves
    · refine ht.cells hread (List.nodup_range') (fun x hx hs => ?_) a
        (hnew a hlt (cellAt_le hac).2) c hac
      rw [List.mem_range'_1] at hx
      have := hS x hs
      omega

theorem SameCells.evolves (hh : SameCells h h') : Evolves S h h' :=
  ⟨Nat.le_of_eq hh.1.symm, fun a _ => Or.inl (hh.2 a)⟩

theorem HeapOk.sameCells (hh : HeapOk h S) (hs : SameCells h h') : HeapOk h' S := by
  refine ⟨fun a ha => ?_, fun a c hac => ?_⟩
  · obtain ⟨t, cs, hr⟩ := hh.readable a (hs.1 ▸ ha)
    exact ⟨t, cs, hr.sameCells hs⟩
  · rw [hs.2] at hac
    exact (hh.cells a c hac).evolves hs.evolves

theorem HeapOk.weaken (hh : HeapOk h S) (hS : ∀ a ≤ h.length, S' a → S a) : HeapOk h S' :=
  ⟨hh.readable, fun a c hac => (hh.cells a c hac).weaken hS⟩

/-- Changes of flags of new objects. -/
theorem Extends.foldl_update {l : List Nat} {f : Object F → Object F} (hh : Extends h h')
    (hl : ∀ a ∈ l, h.length < a) : Extends h (l.foldl (fun h a => update h a f) h') := by
  induction l generalizing h' with
  | nil => exact hh
  | cons b l ih =>
    refine ih ⟨?_, fun a ha => ?_⟩ fun a ha => hl a (by simp [ha])
    · rw [length_update]
      exact hh.1
    · have hne : b ≠ a := by
        have := hl b (by simp)
        omega
      rw [objectAt_update_of_ne f hne, hh.2 a ha]

end newObjects

section update

/-- A tree in which one object is replaced stays a tree if the new object is one; only the
objects of the new one are added. -/
theorem Reads.replace {u : Obj F} {ds : List Nat} (hr : Reads h a t cs)
    (hne : ∀ b, b ≠ z → cellAt h' b = cellAt h b) (hz : Reads h' z u ds) :
    ∃ u' ds', Reads h' a u' ds' ∧ ∀ b ∈ ds', b ∈ cs ∨ z ∈ cs ∧ b ∈ ds := by
  induction hr with
  | null => exact ⟨_, _, .null, by simp⟩
  | @leaf a _ _ ha ht =>
    by_cases haz : a = z
    · exact ⟨_, _, haz ▸ hz, fun b hb => Or.inr ⟨by simp [haz], hb⟩⟩
    · exact ⟨_, _, .leaf ((hne a haz).trans ha) ht, fun b hb => Or.inl hb⟩
  | @list a _ _ _ _ _ _ ha _ _ ihx ihy =>
    by_cases haz : a = z
    · exact ⟨_, _, haz ▸ hz, fun b hb => Or.inr ⟨by simp [haz], hb⟩⟩
    · obtain ⟨_, _, hx, hsx⟩ := ihx
      obtain ⟨_, _, hy, hsy⟩ := ihy
      refine ⟨_, _, .list ((hne a haz).trans ha) hx hy, fun b hb => ?_⟩
      grind
  | @closure a _ _ _ _ _ _ _ _ _ _ ha _ _ _ ihp ihb ihc =>
    by_cases haz : a = z
    · exact ⟨_, _, haz ▸ hz, fun b hb => Or.inr ⟨by simp [haz], hb⟩⟩
    · obtain ⟨_, _, hp, hsp⟩ := ihp
      obtain ⟨_, _, hb, hsb⟩ := ihb
      obtain ⟨_, _, hc, hsc⟩ := ihc
      refine ⟨_, _, .closure ((hne a haz).trans ha) hp hb hc, fun b hb => ?_⟩
      grind

/-- A value that does not contain the slot can be stored in it. -/
theorem HeapOk.overwritten (hh : HeapOk h S) (hS : S slot)
    (hs : cellAt h slot = some (.list x 0)) (hv : Reads h v t cs) (hvs : slot ∉ cs) :
    HeapOk (overwritten h slot v) S := by
  have hne : ∀ b, b ≠ slot → cellAt (Lisp.overwritten h slot v) b = cellAt h b :=
    fun b hb => cellAt_overwritten_of_ne (Ne.symm hb)
  have hv' : Reads (Lisp.overwritten h slot v) v t cs :=
    hv.congr fun b hb => hne b fun he => hvs (he ▸ hb)
  refine ⟨fun a ha => ?_, fun a c hac => ?_⟩
  · rw [length_overwritten] at ha
    obtain ⟨u, ds, hr⟩ := hh.readable a ha
    obtain ⟨_, _, hr', -⟩ := hr.replace hne (.list (cellAt_overwritten hs) hv' .null)
    exact ⟨_, _, hr'⟩
  · by_cases has : a = slot
    · subst has
      rw [cellAt_overwritten hs] at hac
      obtain rfl := Option.some.inj hac
      exact Or.inl rfl
    · rw [hne a has] at hac
      exact (hh.cells a c hac).evolves (evolves_overwritten hS hs)

end update

section join

/-- `z` is the last cell of the list at `e`. -/
inductive LastCell (h : Heap F) : Nat → Nat → Prop where
  | here {e x : Nat} (he : cellAt h e = some (.list x 0)) : LastCell h e e
  | next {e x y z : Nat} (he : cellAt h e = some (.list x y)) (hy : y ≠ 0)
      (hz : LastCell h y z) : LastCell h e z

theorem EnvList.lastCell (he : EnvList h S e bs) (h0 : e ≠ 0) :
    ∃ z, LastCell h e z ∧ ¬S z := by
  induction he with
  | nil => exact absurd rfl h0
  | @cons e next pair key value b bs he _ _ _ hse _ _ ih =>
    by_cases hn : next = 0
    · subst hn
      exact ⟨e, .here he, hse⟩
    · obtain ⟨z, hz, hs⟩ := ih hn
      exact ⟨z, .next he hn hz, hs⟩

theorem LastCell.cell (hz : LastCell h e z) : ∃ x, cellAt h z = some (.list x 0) := by
  induction hz with
  | here he => exact ⟨_, he⟩
  | next _ _ _ ih => exact ih

theorem LastCell.mem (hz : LastCell h e z) (hr : Reads h e t cs) : z ∈ cs := by
  induction hz generalizing t cs with
  | here he =>
    obtain ⟨_, _, _, _, -, rfl, -, -⟩ := hr.of_list he
    simp
  | next he _ _ ih =>
    obtain ⟨_, _, _, _, -, rfl, -, hy⟩ := hr.of_list he
    simp [ih hy]

theorem LastCell.of_extends (hz : LastCell h' e z) (hext : Extends h h') (hh : HeapOk h S)
    (he : e ≤ h.length) : LastCell h e z := by
  induction hz with
  | here hc => exact .here ((hext.cell he).symm.trans hc)
  | next hc hy _ ih =>
    have hc' := (hext.cell he).symm.trans hc
    exact .next hc' hy (ih (hh.part_le hc' _ (by simp [Cell.parts])))

/-- The heap after the last cell `z` of a list is linked to `e₂`. -/
def linked (h : Heap F) (z e₂ : Nat) : Heap F :=
  update h z fun o => { o with cell := .list (car h z) e₂ }

theorem length_linked : (linked h z e₂).length = h.length := length_update _

theorem cellAt_linked_of_ne (hne : a ≠ z) : cellAt (linked h z e₂) a = cellAt h a :=
  cellAt_update_of_ne _ (Ne.symm hne)

theorem cellAt_linked (hz : cellAt h z = some (.list x y)) :
    cellAt (linked h z e₂) z = some (.list x e₂) := by
  obtain ⟨o, ho, -⟩ := Option.map_eq_some_iff.1 hz
  rw [linked, cellAt_update_self, ho, car_eq hz]
  rfl

theorem Extends.linked (hh : Extends h h') (hz : h.length < z) : Extends h (linked h' z e₂) := by
  refine ⟨?_, fun a ha => ?_⟩
  · rw [length_linked]
    exact hh.1
  · have hne : z ≠ a := by omega
    rw [Lisp.linked, objectAt_update_of_ne _ hne, hh.2 a ha]

theorem joinFrom_eq (hz : LastCell h e z) (hr : Reads h e t cs) (hf : t.depth ≤ fuel) :
    joinFrom h fuel e e₂ = linked h z e₂ := by
  induction hz generalizing fuel t cs with
  | here he =>
    obtain ⟨_, _, _, _, rfl, -, -, -⟩ := hr.of_list he
    obtain _ | fuel := fuel
    · simp [Obj.depth] at hf
    simp [joinFrom, cdr_eq he, linked]
  | @next e x y z he hy _ ih =>
    obtain ⟨tx, ty, _, _, rfl, -, -, hr⟩ := hr.of_list he
    obtain _ | fuel := fuel
    · simp [Obj.depth] at hf
    simp only [Obj.depth] at hf
    simp [joinFrom, cdr_eq he, hy, ih hr (show ty.depth ≤ fuel by omega)]

theorem joinLists_eq (hz : LastCell h e z) (hr : Reads h e t cs) (h₂ : e₂ ≠ 0) :
    joinLists h e e₂ = (e, linked h z e₂) := by
  have he : e ≠ 0 := by
    cases hz with
    | here he => exact Nat.pos_iff_ne_zero.1 (cellAt_le he).1
    | next he => exact Nat.pos_iff_ne_zero.1 (cellAt_le he).1
  simp [joinLists, he, h₂, joinFrom_eq hz hr hr.depth_le]

/-- The bindings of two lists that are linked, when the slots of the first are in `S`. -/
theorem EnvList.linked (he : EnvList h S e bs) (hz : LastCell h e z) (hS : ∀ b ∈ bs, S b.slot)
    (hzs : ¬S z) (h₂ : EnvList (linked h z e₂) S e₂ bs₂) :
    EnvList (linked h z e₂) S e (bs ++ bs₂) := by
  obtain ⟨w, hzc⟩ := hz.cell
  induction he with
  | nil =>
    cases hz with
    | here he => simp [cellAt_zero] at he
    | next he => simp [cellAt_zero] at he
  | @cons e next pair key value b bs he hpair hslot hkey hse hsp hnext ih =>
    have hslot0 : b.slot ≠ 0 := Nat.pos_iff_ne_zero.1 (cellAt_le hslot).1
    have hpz : pair ≠ z := by
      rintro rfl
      simp_all
    have hslotz : b.slot ≠ z := by
      rintro rfl
      exact hzs (hS b (by simp))
    have hpair' : cellAt (Lisp.linked h z e₂) pair = some (.list key b.slot) :=
      (cellAt_linked_of_ne hpz).trans hpair
    have hslot' : cellAt (Lisp.linked h z e₂) b.slot = some (.list value 0) :=
      (cellAt_linked_of_ne hslotz).trans hslot
    have hkey' : KeyName (Lisp.linked h z e₂) key b.name := by
      cases hb : b.name with
      | none => simpa [KeyName, hb] using hkey
      | some n =>
        rw [hb] at hkey
        have hkz : key ≠ z := by
          rintro rfl
          simp [hkey.1] at hzc
        exact ⟨(cellAt_linked_of_ne hkz).trans hkey.1, hkey.2⟩
    cases hz with
    | here he' =>
      obtain ⟨rfl, rfl⟩ := Cell.list.inj (Option.some.inj (he.symm.trans he'))
      cases hnext with
      | nil => exact .cons (cellAt_linked he) hpair' hslot' hkey' hse hsp h₂
      | cons he => simp [cellAt_zero] at he
    | next he' hy hz =>
      obtain ⟨rfl, rfl⟩ := Cell.list.inj (Option.some.inj (he.symm.trans he'))
      have hez : e ≠ z := by
        rintro rfl
        rw [he] at hzc
        simp_all
      refine .cons ((cellAt_linked_of_ne hez).trans he) hpair' hslot' hkey' hse hsp ?_
      exact ih hz (fun b hb => hS b (by simp [hb])) 

theorem list_linked (hz : cellAt h z = some (.list x 0))
    (ha : ∃ u v, cellAt h a = some (.list u v)) :
    ∃ u v, cellAt (linked h z e₂) a = some (.list u v) := by
  obtain ⟨u, v, ha⟩ := ha
  by_cases haz : a = z
  · subst haz
    exact ⟨x, e₂, cellAt_linked hz⟩
  · exact ⟨u, v, (cellAt_linked_of_ne haz).trans ha⟩

theorem HeapOk.linked {t₂ : Obj F} {c₂ : List Nat} (hh : HeapOk h S)
    (hz : cellAt h z = some (.list x 0)) (h₂ : Reads h e₂ t₂ c₂) (hz₂ : z ∉ c₂)
    (hlist : ∃ u v, cellAt h e₂ = some (.list u v))
    (hc : ∀ a c, a ≠ z → cellAt h a = some c → CellOk (linked h z e₂) S c) :
    HeapOk (linked h z e₂) S := by
  have hne : ∀ b, b ≠ z → cellAt (Lisp.linked h z e₂) b = cellAt h b :=
    fun b hb => cellAt_linked_of_ne hb
  refine ⟨fun a ha => ?_, fun a c hac => ?_⟩
  · rw [length_linked] at ha
    obtain ⟨u, ds, hu⟩ := hh.readable z (cellAt_le hz).2
    obtain ⟨tx, ty, cx, cy, rfl, -, hx, -⟩ := hu.of_list hz
    have hzx := hx.not_mem_car hz ⟨_, _, hu⟩
    have hx' := hx.congr fun b hb => hne b fun he => hzx (he ▸ hb)
    have h₂' := h₂.congr fun b hb => hne b fun he => hz₂ (he ▸ hb)
    obtain ⟨v, es, hr⟩ := hh.readable a ha
    obtain ⟨_, _, hr', -⟩ := hr.replace hne (.list (cellAt_linked hz) hx' h₂')
    exact ⟨_, _, hr'⟩
  · by_cases haz : a = z
    · subst haz
      rw [cellAt_linked hz] at hac
      obtain rfl := Option.some.inj hac
      exact Or.inr (list_linked hz hlist)
    · rw [hne a haz] at hac
      exact hc a c haz hac

theorem EnvList.slots_mem (he : EnvList h S e bs) (hr : Reads h e t cs) :
    ∀ a ∈ bs.map Binding.slot, a ∈ cs := by
  induction he generalizing t cs with
  | nil => simp
  | cons he hpair hslot _ _ _ _ ih =>
    obtain ⟨_, _, _, _, -, rfl, hp, hn⟩ := hr.of_list he
    obtain ⟨_, _, _, _, -, rfl, -, hs⟩ := hp.of_list hpair
    obtain ⟨_, _, _, _, -, rfl, -, -⟩ := hs.of_list hslot
    intro a ha
    rcases List.mem_cons.1 ha with rfl | ha
    · simp
    · simp [ih hn a ha]

theorem nodup_entry {ck cv cn : List Nat}
    (hcs : (ck ++ (cv ++ [slot]) ++ [a] ++ cn ++ [e]).Nodup) :
    ck.Nodup ∧ cv.Nodup ∧ cn.Nodup ∧ (∀ x ∈ ck, x ≠ slot ∧ x ∉ cn ∧ x ≠ e) ∧
      (∀ x ∈ cv, x ≠ slot ∧ x ∉ cn ∧ x ≠ e) ∧ slot ∉ cn := by
  obtain ⟨h₁, -, he⟩ := List.nodup_append.1 hcs
  obtain ⟨h₂, hcn, hn⟩ := List.nodup_append.1 h₁
  obtain ⟨h₃, -, -⟩ := List.nodup_append.1 h₂
  obtain ⟨hck, h₄, hk⟩ := List.nodup_append.1 h₃
  obtain ⟨hcv, -, hv⟩ := List.nodup_append.1 h₄
  refine ⟨hck, hcv, hcn, fun x hx => ⟨hk x hx slot (by simp), ?_, he x (by simp [hx]) e (by simp)⟩,
    fun x hx => ⟨hv x hx slot (by simp), ?_, he x (by simp [hx]) e (by simp)⟩, ?_⟩
  · exact fun hxn => hn x (by simp [hx]) x hxn rfl
  · exact fun hxn => hn x (by simp [hx]) x hxn rfl
  · exact fun hsn => hn slot (by simp) slot hsn rfl

/-- The values of an association list without sharing do not see that its last cell is
linked. -/
theorem EnvList.cells_linked (he : EnvList h S e bs) (hok : t.Ok) (hr : Reads h e t cs)
    (hcs : cs.Nodup) (hz : LastCell h e z) (hS : ∀ a ∈ cs, S a → a ∈ bs.map Binding.slot) :
    ∀ b ∈ cs, ∀ c, b ≠ z → cellAt h b = some c → CellOk (Lisp.linked h z e₂) S c := by
  induction he generalizing t cs with
  | nil =>
    cases hz with
    | here he => simp [cellAt_zero] at he
    | next he => simp [cellAt_zero] at he
  | @cons e next pair key value b bs he hpair hslot hkey hse hsp hnext ih =>
    obtain ⟨tp, tn, cp, cn, rfl, rfl, hp, hn⟩ := hr.of_list he
    obtain ⟨tk, ts, ck, cs, rfl, rfl, hk, hs⟩ := hp.of_list hpair
    obtain ⟨tv, tz, cv, cz, rfl, rfl, hv, hnull⟩ := hs.of_list hslot
    obtain ⟨rfl, rfl⟩ := hnull.unique .null
    obtain ⟨⟨hokKey, ⟨hokValue, -⟩, -⟩, hokNext, htail⟩ := hok
    obtain ⟨w, hzc⟩ := hz.cell
    rw [List.append_nil, ← List.append_assoc] at hcs hS ⊢
    obtain ⟨hck, hcv, hcn, hdk, hdv, hds⟩ := nodup_entry (by simpa using hcs)
    have hzmem : z = e ∨ z ∈ cn := by
      cases hz with
      | here _ => exact Or.inl rfl
      | next he' _ hz =>
        obtain ⟨rfl, rfl⟩ := Cell.list.inj (Option.some.inj (he.symm.trans he'))
        exact Or.inr (hz.mem hn)
    have hslots : ∀ a ∈ bs.map Binding.slot, a ∈ cn := hnext.slots_mem hn
    have houtside : ∀ a, a ≠ b.slot → a ∉ cn → a ∉ (b :: bs).map Binding.slot := by
      intro a hab han ha
      rcases List.mem_cons.1 ha with ha | ha
      · exact hab ha
      · exact han (hslots a ha)
    have hSk : ∀ a ∈ ck, ¬S a := fun a ha hs =>
      houtside a (hdk a ha).1 (hdk a ha).2.1 (hS a (by simp [ha]) hs)
    have hSv : ∀ a ∈ cv, ¬S a := fun a ha hs =>
      houtside a (hdv a ha).1 (hdv a ha).2.1 (hS a (by simp [ha]) hs)
    have hSn : ∀ a ∈ cn, S a → a ∈ bs.map Binding.slot := by
      intro a ha hs
      rcases List.mem_cons.1 (hS a (by simp [ha]) hs) with rfl | hb
      · exact absurd ha hds
      · exact hb
    have hne : ∀ a, a ∉ cn → a ≠ e → cellAt (Lisp.linked h z e₂) a = cellAt h a := by
      intro a han hae
      refine cellAt_linked_of_ne ?_
      rintro rfl
      rcases hzmem with h1 | h1
      · exact hae h1
      · exact han h1
    have hk' := hk.congr fun a ha => hne a (hdk a ha).2.1 (hdk a ha).2.2
    have hv' := hv.congr fun a ha => hne a (hdv a ha).2.1 (hdv a ha).2.2
    intro a ha c haz hc
    have hc' : cellAt (Lisp.linked h z e₂) a = some c := (cellAt_linked_of_ne haz).trans hc
    simp only [List.mem_append, List.mem_singleton] at ha
    rcases ha with ((((ha | ha) | rfl) | rfl) | ha) | rfl
    · exact hokKey.cells hk' hck hSk a ha c hc'
    · exact hokValue.cells hv' hcv hSv a ha c hc'
    · obtain rfl := Option.some.inj (hslot.symm.trans hc)
      exact Or.inl rfl
    · obtain rfl := Option.some.inj (hpair.symm.trans hc)
      exact Or.inr (list_linked hzc ⟨_, _, hslot⟩)
    · cases hz with
      | here he' =>
        obtain ⟨-, rfl⟩ := Cell.list.inj (Option.some.inj (he.symm.trans he'))
        obtain ⟨-, rfl⟩ := hn.unique .null
        simp at ha
      | next he' _ hz =>
        obtain ⟨rfl, rfl⟩ := Cell.list.inj (Option.some.inj (he.symm.trans he'))
        exact ih hokNext hn hcn hz hSn a ha c haz hc
    · obtain rfl := Option.some.inj (he.symm.trans hc)
      rcases hn.tail htail with rfl | hlist
      · exact Or.inl rfl
      · exact Or.inr (list_linked hzc hlist)

theorem EnvList.bindingTrees_linked (he : EnvList h S e bs) (hr : Reads h e t cs)
    (hcs : cs.Nodup) (hz : LastCell h e z) (hzs : ¬S z) (hS : ∀ b ∈ bs, S b.slot) :
    bindingTrees (Lisp.linked h z e₂) bs = bindingTrees h bs := by
  induction he generalizing t cs with
  | nil => rfl
  | @cons e next pair key value b bs he hpair hslot hkey hse hsp hnext ih =>
    obtain ⟨tp, tn, cp, cn, rfl, rfl, hp, hn⟩ := hr.of_list he
    obtain ⟨tk, ts, ck, cs, rfl, rfl, hk, hs⟩ := hp.of_list hpair
    obtain ⟨tv, tz, cv, cz, rfl, rfl, hv, hnull⟩ := hs.of_list hslot
    obtain ⟨rfl, rfl⟩ := hnull.unique .null
    obtain ⟨-, -, hcn, -, hdv, -⟩ := nodup_entry (by simpa using hcs)
    have hzmem : z = e ∨ (z ∈ cn ∧ LastCell h next z) := by
      cases hz with
      | here _ => exact Or.inl rfl
      | next he' _ hz =>
        obtain ⟨rfl, rfl⟩ := Cell.list.inj (Option.some.inj (he.symm.trans he'))
        exact Or.inr ⟨hz.mem hn, hz⟩
    have hslotz : b.slot ≠ z := by
      rintro rfl
      exact hzs (hS b (by simp))
    have hslot' : cellAt (Lisp.linked h z e₂) b.slot = some (.list value 0) :=
      (cellAt_linked_of_ne hslotz).trans hslot
    have hv' : Reads (Lisp.linked h z e₂) value tv cv := by
      refine hv.congr fun a ha => cellAt_linked_of_ne ?_
      rintro rfl
      rcases hzmem with hz | ⟨hz, -⟩
      · exact (hdv a ha).2.2 hz
      · exact (hdv a ha).2.1 hz
    have hrest : bindingTrees (Lisp.linked h z e₂) bs = bindingTrees h bs := by
      rcases hzmem with rfl | ⟨-, hz⟩
      · cases hz with
        | here he' =>
          obtain ⟨-, rfl⟩ := Cell.list.inj (Option.some.inj (he.symm.trans he'))
          obtain rfl := hnext.unique (.nil (h := h) (S := S))
          rfl
        | next he' _ hz =>
          obtain ⟨rfl, rfl⟩ := Cell.list.inj (Option.some.inj (he.symm.trans he'))
          exact ih hn hcn hz fun b hb => hS b (by simp [hb])
      · exact ih hn hcn hz fun b hb => hS b (by simp [hb])
    simp only [bindingTrees, List.map_cons, car_eq hslot', hv'.treeOf, car_eq hslot, hv.treeOf]
    exact congrArg _ hrest

theorem sameCells_linked_zero (hz : cellAt h z = some (.list x 0)) :
    SameCells h (Lisp.linked h z 0) := by
  refine ⟨length_linked, fun a => ?_⟩
  by_cases haz : a = z
  · subst haz
    rw [cellAt_linked hz, hz]
  · exact cellAt_linked_of_ne haz

/-- An association list without sharing is sound with its own slots. -/
theorem EnvList.cells (he : EnvList h S e bs) (hok : t.Ok) (hr : Reads h e t cs)
    (hcs : cs.Nodup) (hS : ∀ a ∈ cs, S a → a ∈ bs.map Binding.slot) :
    ∀ b ∈ cs, ∀ c, cellAt h b = some c → CellOk h S c := by
  by_cases h0 : e = 0
  · subst h0
    obtain ⟨-, rfl⟩ := hr.unique .null
    simp
  obtain ⟨z, hz, -⟩ := he.lastCell h0
  obtain ⟨x, hzc⟩ := hz.cell
  have hsame := sameCells_linked_zero hzc
  have hback : SameCells (Lisp.linked h z 0) h := ⟨hsame.1.symm, fun a => (hsame.2 a).symm⟩
  intro b hb c hc
  by_cases hbz : b = z
  · subst hbz
    obtain rfl := Option.some.inj (hzc.symm.trans hc)
    exact Or.inl rfl
  · exact (he.cells_linked hok hr hcs hz hS b hb c hbz hc).evolves hback.evolves

/-- A list of bindings depends on the objects of its tree. -/
theorem EnvList.congr (he : EnvList h S e bs) (hr : Reads h e t cs)
    (hcs : ∀ a ∈ cs, cellAt h' a = cellAt h a) : EnvList h' S e bs := by
  induction he generalizing t cs with
  | nil => exact .nil
  | @cons _ _ _ _ _ b _ he hpair hslot hkey hse hsp _ ih =>
    obtain ⟨_, _, _, _, -, rfl, hp, hn⟩ := hr.of_list he
    obtain ⟨_, _, _, _, -, rfl, hk, hs⟩ := hp.of_list hpair
    obtain ⟨_, _, _, _, -, rfl, -, -⟩ := hs.of_list hslot
    refine .cons ((hcs _ (by simp)).trans he) ((hcs _ (by simp)).trans hpair)
      ((hcs _ (by simp)).trans hslot) ?_ hse hsp (ih hn fun a ha => hcs a (by simp [ha]))
    cases hb : b.name with
    | none => simpa [KeyName, hb] using hkey
    | some n =>
      rw [hb] at hkey
      obtain ⟨-, rfl⟩ := hk.of_leaf hkey.1 rfl
      exact ⟨(hcs _ (by simp)).trans hkey.1, hkey.2⟩

/-- `join_lists` on association lists, the cells of the first of which are new. -/
theorem EnvList.joined (hh : HeapOk h S) (he : EnvList h S e bs) (hb : ∀ b ∈ bs, S b.slot)
    (h₂ : EnvList h S e₂ bs₂) (hext : Extends h₀ h)
    (hnew : ∀ z, LastCell h e z → h₀.length < z)
    (hz₂ : ∀ z t₂ c₂, LastCell h e z → Reads h e₂ t₂ c₂ → z ∉ c₂)
    (hc : ∀ z a c, LastCell h e z → a ≠ z → cellAt h a = some c → CellOk (Lisp.linked h z e₂) S c) :
    EnvList (Lisp.joinLists h e e₂).2 S (Lisp.joinLists h e e₂).1 (bs ++ bs₂) ∧
      HeapOk (Lisp.joinLists h e e₂).2 S ∧ Extends h₀ (Lisp.joinLists h e e₂).2 ∧
      (Lisp.joinLists h e e₂).2.length = h.length := by
  by_cases h0 : e = 0
  · subst h0
    obtain rfl := he.unique (.nil (h := h) (S := S))
    simpa [joinLists] using ⟨h₂, hh, hext⟩
  by_cases h20 : e₂ = 0
  · subst h20
    obtain rfl := h₂.unique (.nil (h := h) (S := S))
    simpa [joinLists, h0] using ⟨he, hh, hext⟩
  obtain ⟨z, hz, hzs⟩ := he.lastCell h0
  obtain ⟨x, hzc⟩ := hz.cell
  obtain ⟨t, cs, hr⟩ := hh.readable e he.le
  obtain ⟨t₂, c₂, hr₂⟩ := hh.readable e₂ h₂.le
  have hnot := hz₂ z t₂ c₂ hz hr₂
  have hlist := h₂.tail.resolve_left h20
  have h₂' : EnvList (Lisp.linked h z e₂) S e₂ bs₂ :=
    h₂.congr hr₂ fun a ha => cellAt_linked_of_ne fun haz => hnot (haz ▸ ha)
  rw [joinLists_eq hz hr h20]
  exact ⟨he.linked hz hb hzs h₂', hh.linked hzc hr₂ hnot hlist fun a c ha => hc z a c hz ha,
    hext.linked (hnew z hz), length_linked⟩

theorem EnvList.bindingTrees_joined (he : EnvList h S e bs) (hr : Reads h e t cs)
    (hcs : cs.Nodup) (hb : ∀ b ∈ bs, S b.slot) :
    bindingTrees (Lisp.joinLists h e e₂).2 bs = bindingTrees h bs := by
  by_cases h0 : e = 0
  · subst h0
    obtain rfl := he.unique (.nil (h := h) (S := S))
    rfl
  by_cases h20 : e₂ = 0
  · simp [Lisp.joinLists, h0, h20]
  obtain ⟨z, hz, hzs⟩ := he.lastCell h0
  rw [joinLists_eq hz hr h20]
  exact he.bindingTrees_linked hr hcs hz hzs hb

end join
end Lisp
