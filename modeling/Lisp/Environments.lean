import Lisp.Copying

/-! Association lists in memory: environments, captured lists and parameter lists. `S` is
the set of slots, the objects that `set` may overwrite; no other object of a list is one. -/
namespace Lisp
variable {F : Type}

/-- A binding: the object that holds its value, and its name. The name is missing for a
parameter that is `NULL`. -/
structure Binding where
  slot : Nat
  name : Option Text
deriving DecidableEq, Repr

def KeyName (h : Heap F) (key : Nat) : Option Text → Prop
  | none => key = 0
  | some name => cellAt h key = some (.atom name) ∧ isTruthName name = false

/-- `e` is a list of pairs of a name and a value, with the bindings `bs`. -/
inductive EnvList (h : Heap F) (S : Nat → Prop) : Nat → List Binding → Prop where
  | nil : EnvList h S 0 []
  | cons {e next pair key value : Nat} {b : Binding} {bs : List Binding}
      (he : cellAt h e = some (.list pair next)) (hpair : cellAt h pair = some (.list key b.slot))
      (hslot : cellAt h b.slot = some (.list value 0)) (hkey : KeyName h key b.name)
      (hse : ¬S e) (hsp : ¬S pair) (hnext : EnvList h S next bs) : EnvList h S e (b :: bs)

/-- `p` is a list of names. -/
inductive ParamList (h : Heap F) (S : Nat → Prop) : Nat → List (Option Text) → Prop where
  | nil : ParamList h S 0 []
  | cons {p next key : Nat} {name : Option Text} {names : List (Option Text)}
      (hp : cellAt h p = some (.list key next)) (hkey : KeyName h key name) (hsp : ¬S p)
      (hnext : ParamList h S next names) : ParamList h S p (name :: names)

/-- The `nargs` of a parameter list: the empty list is one cell without a name. -/
def paramCountOf (names : List (Option Text)) : Int := if names = [none] then 0 else names.length

/-- What holds of each object: the tail of a list is a list, and a closure is as `lambda` and
`closure_partial_application` make it. -/
def CellOk (h : Heap F) (S : Nat → Prop) : Cell F → Prop
  | .list _ y => y = 0 ∨ ∃ u v, cellAt h y = some (.list u v)
  | .closure p _ c n =>
    (∃ names, ParamList h S p names ∧ n = paramCountOf names) ∧ ∃ bs, EnvList h S c bs
  | _ => True

def CellsOk (h : Heap F) (S : Nat → Prop) : Prop :=
  ∀ a c, cellAt h a = some c → CellOk h S c

/-- `h'` has the objects of `h`; only the values of slots may be others. -/
def Evolves (S : Nat → Prop) (h h' : Heap F) : Prop :=
  h.length ≤ h'.length ∧ ∀ a ≤ h.length, cellAt h' a = cellAt h a ∨
    (S a ∧ ∃ v w, cellAt h a = some (.list v 0) ∧ cellAt h' a = some (.list w 0))

namespace Obj

def IsKey (key : Obj F) : Option Text → Prop
  | none => key = .null
  | some name => key = .atom name ∧ isTruthName name = false

inductive ParamTree : Obj F → List (Option Text) → Prop where
  | nil : ParamTree .null []
  | cons {key next : Obj F} {name : Option Text} {names : List (Option Text)}
      (hkey : key.IsKey name) (hnext : ParamTree next names) :
      ParamTree (.list key next) (name :: names)

inductive EnvTree : Obj F → List (Option Text) → Prop where
  | nil : EnvTree .null []
  | cons {key value next : Obj F} {name : Option Text} {names : List (Option Text)}
      (hkey : key.IsKey name) (hnext : EnvTree next names) :
      EnvTree (.list (.list key (.list value .null)) next) (name :: names)

/-- The names and values of an association list. -/
def bindings : Obj F → List (Option Text × Obj F)
  | .list (.list (.atom n) (.list v _)) next => (some n, v) :: next.bindings
  | .list (.list .null (.list v _)) next => (none, v) :: next.bindings
  | _ => []

def IsTail : Obj F → Prop
  | .null => True
  | .list .. => True
  | _ => False

/-- The objects of a tree are as `CellOk` says. -/
def Ok : Obj F → Prop
  | .list a d => a.Ok ∧ d.Ok ∧ d.IsTail
  | .closure p b c n =>
    p.Ok ∧ b.Ok ∧ c.Ok ∧ (∃ names, ParamTree p names ∧ n = paramCountOf names) ∧
      ∃ names, EnvTree c names
  | _ => True

end Obj

variable {h h' h'' : Heap F} {S S' : Nat → Prop} {a b e p key : Nat} {t u : Obj F} {cs : List Nat}
  {bs : List Binding} {name : Option Text} {names : List (Option Text)} {n : Text}

section evolution

theorem Extends.evolves (hh : Extends h h') : Evolves S h h' :=
  ⟨hh.1, fun _ ha => Or.inl (hh.cell ha)⟩

theorem Evolves.trans (h1 : Evolves S h h') (h2 : Evolves S' h' h'')
    (hS : ∀ a ≤ h.length, S' a → S a) : Evolves S h h'' := by
  refine ⟨h1.1.trans h2.1, fun a ha => ?_⟩
  obtain h1a | ⟨hs, v, w, hv, hw⟩ := h1.2 a ha
  · obtain h2a | ⟨hs, v, w, hv, hw⟩ := h2.2 a (ha.trans h1.1)
    · exact Or.inl (h2a.trans h1a)
    · exact Or.inr ⟨hS a ha hs, v, w, h1a ▸ hv, hw⟩
  · obtain h2a | ⟨-, v', w', -, hw'⟩ := h2.2 a (ha.trans h1.1)
    · exact Or.inr ⟨hs, v, w, hv, h2a.trans hw⟩
    · exact Or.inr ⟨hs, v, w', hv, hw'⟩

theorem Evolves.cellAt_of_not {c : Cell F} (hh : Evolves S h h') (hs : ¬S a)
    (ha : cellAt h a = some c) : cellAt h' a = some c := by
  obtain h1 | ⟨h1, -⟩ := hh.2 a (cellAt_le ha).2
  · rw [h1, ha]
  · exact absurd h1 hs

theorem Evolves.atom (hh : Evolves S h h') (ha : cellAt h a = some (.atom n)) :
    cellAt h' a = some (.atom n) := by
  obtain h1 | ⟨-, v, w, hv, -⟩ := hh.2 a (cellAt_le ha).2
  · rw [h1, ha]
  · simp [hv] at ha

theorem Evolves.closure {p q r : Nat} {k : Int} (hh : Evolves S h h')
    (ha : cellAt h a = some (.closure p q r k)) : cellAt h' a = some (.closure p q r k) := by
  obtain h1 | ⟨-, v, w, hv, -⟩ := hh.2 a (cellAt_le ha).2
  · rw [h1, ha]
  · simp [hv] at ha

theorem Evolves.slot {v : Nat} (hh : Evolves S h h') (ha : cellAt h a = some (.list v 0)) :
    ∃ w, cellAt h' a = some (.list w 0) := by
  obtain h1 | ⟨-, v, w, -, hw⟩ := hh.2 a (cellAt_le ha).2
  · exact ⟨v, h1.trans ha⟩
  · exact ⟨w, hw⟩

theorem KeyName.evolves (hk : KeyName h key name) (hh : Evolves S h h') : KeyName h' key name := by
  cases name with
  | none => exact hk
  | some n => exact ⟨hh.atom hk.1, hk.2⟩

theorem KeyName.mono (hk : KeyName h key name) (hh : Extends h h') : KeyName h' key name :=
  hk.evolves (S := fun _ => False) hh.evolves

theorem EnvList.evolves (he : EnvList h S e bs) (hh : Evolves S h h') : EnvList h' S e bs := by
  induction he with
  | nil => exact .nil
  | cons he hpair hslot hkey hse hsp _ ih =>
    obtain ⟨w, hw⟩ := hh.slot hslot
    exact .cons (hh.cellAt_of_not hse he) (hh.cellAt_of_not hsp hpair) hw (hkey.evolves hh) hse hsp
      ih

theorem ParamList.evolves (hp : ParamList h S p names) (hh : Evolves S h h') :
    ParamList h' S p names := by
  induction hp with
  | nil => exact .nil
  | cons hp hkey hsp _ ih => exact .cons (hh.cellAt_of_not hsp hp) (hkey.evolves hh) hsp ih

/-- Slots that do not exist yet change nothing. -/
theorem EnvList.weaken (he : EnvList h S e bs) (hS : ∀ a ≤ h.length, S' a → S a) :
    EnvList h S' e bs := by
  induction he with
  | nil => exact .nil
  | cons he hpair hslot hkey hse hsp _ ih =>
    exact .cons he hpair hslot hkey (fun hs => hse (hS _ (cellAt_le he).2 hs))
      (fun hs => hsp (hS _ (cellAt_le hpair).2 hs)) ih

theorem ParamList.weaken (hp : ParamList h S p names) (hS : ∀ a ≤ h.length, S' a → S a) :
    ParamList h S' p names := by
  induction hp with
  | nil => exact .nil
  | cons hp hkey hsp _ ih => exact .cons hp hkey (fun hs => hsp (hS _ (cellAt_le hp).2 hs)) ih

theorem ParamList.le (hp : ParamList h S p names) : p ≤ h.length := by
  cases hp with
  | nil => exact Nat.zero_le _
  | cons hp => exact (cellAt_le hp).2

theorem EnvList.le (he : EnvList h S e bs) : e ≤ h.length := by
  cases he with
  | nil => exact Nat.zero_le _
  | cons he => exact (cellAt_le he).2

theorem EnvList.tail (he : EnvList h S e bs) :
    e = 0 ∨ ∃ u v, cellAt h e = some (.list u v) := by
  cases he with
  | nil => exact Or.inl rfl
  | cons he => exact Or.inr ⟨_, _, he⟩

theorem Evolves.list_cdr {x y : Nat} (hh : Evolves S h h') (ha : cellAt h a = some (.list x y)) :
    ∃ u, cellAt h' a = some (.list u y) := by
  obtain h1 | ⟨-, v, w, hv, hw⟩ := hh.2 a (cellAt_le ha).2
  · exact ⟨x, h1.trans ha⟩
  · obtain ⟨-, rfl⟩ := Cell.list.inj (Option.some.inj (ha.symm.trans hv))
    exact ⟨w, hw⟩

theorem Evolves.list {x y : Nat} (hh : Evolves S h h') (ha : cellAt h a = some (.list x y)) :
    ∃ u v, cellAt h' a = some (.list u v) := by
  obtain ⟨u, hu⟩ := hh.list_cdr ha
  exact ⟨u, y, hu⟩

theorem CellOk.evolves {c : Cell F} (hc : CellOk h S c) (hh : Evolves S h h') :
    CellOk h' S c := by
  cases c with
  | list x y =>
    obtain rfl | ⟨u, v, hy⟩ := hc
    · exact Or.inl rfl
    · exact Or.inr (hh.list hy)
  | closure p b c n =>
    obtain ⟨⟨names, hp, hn⟩, bs, hbs⟩ := hc
    exact ⟨⟨names, hp.evolves hh, hn⟩, bs, hbs.evolves hh⟩
  | _ => trivial

theorem CellOk.weaken {c : Cell F} (hc : CellOk h S c)
    (hS : ∀ a ≤ h.length, S' a → S a) : CellOk h S' c := by
  cases c with
  | list x y => exact hc
  | closure p b c n =>
    obtain ⟨⟨names, hp, hn⟩, bs, hbs⟩ := hc
    exact ⟨⟨names, hp.weaken hS, hn⟩, bs, hbs.weaken hS⟩
  | _ => trivial

end evolution

section trees

theorem KeyName.tree (hk : KeyName h key name) (hr : Reads h key t cs) : t.IsKey name := by
  cases name with
  | none => exact hr.null_iff.1 hk
  | some n => exact ⟨(hr.of_leaf hk.1 rfl).1, hk.2⟩

theorem Obj.IsKey.keyName (hk : t.IsKey name) (hr : Reads h key t cs) : KeyName h key name := by
  cases name with
  | none => exact hr.null_iff.2 hk
  | some n =>
    obtain ⟨rfl, hn⟩ := hk
    cases hr with
    | @leaf _ c _ ha ht =>
      cases c <;> simp [Cell.leaf?] at ht
      subst ht
      exact ⟨ha, hn⟩

theorem EnvList.tree (he : EnvList h S e bs) (hr : Reads h e t cs) :
    t.EnvTree (bs.map Binding.name) := by
  induction he generalizing t cs with
  | nil =>
    rw [hr.null_iff.1 rfl]
    exact .nil
  | cons he hpair hslot hkey _ _ _ ih =>
    obtain ⟨tp, tn, cp, cn, rfl, -, hp, hn⟩ := hr.of_list he
    obtain ⟨tk, ts, ck, cs, rfl, -, hk, hs⟩ := hp.of_list hpair
    obtain ⟨tv, tz, cv, cz, rfl, -, -, hz⟩ := hs.of_list hslot
    rw [hz.null_iff.1 rfl]
    exact .cons (hkey.tree hk) (ih hn)

/-- The bindings with the trees that their slots hold. -/
def bindingTrees (h : Heap F) (bs : List Binding) : List (Option Text × Obj F) :=
  bs.map fun b => (b.name, treeOf h (car h b.slot))

theorem EnvList.bindings (he : EnvList h S e bs) (hr : Reads h e t cs) :
    t.bindings = bindingTrees h bs := by
  induction he generalizing t cs with
  | nil =>
    rw [hr.null_iff.1 rfl]
    rfl
  | @cons e next pair key value b bs he hpair hslot hkey _ _ _ ih =>
    obtain ⟨tp, tn, cp, cn, rfl, -, hp, hn⟩ := hr.of_list he
    obtain ⟨tk, ts, ck, cs, rfl, -, hk, hs⟩ := hp.of_list hpair
    obtain ⟨tv, tz, cv, cz, rfl, -, hv, -⟩ := hs.of_list hslot
    have htree : treeOf h (car h b.slot) = tv := by rw [car_eq hslot, hv.treeOf]
    have hname := hkey.tree hk
    cases hb : b.name with
    | none =>
      rw [hb] at hname
      obtain rfl := hname
      simp [Obj.bindings, bindingTrees, hb, htree, ih hn]
    | some n =>
      rw [hb] at hname
      obtain ⟨rfl, -⟩ := hname
      simp [Obj.bindings, bindingTrees, hb, htree, ih hn]

theorem ParamList.tree (hp : ParamList h S p names) (hr : Reads h p t cs) : t.ParamTree names := by
  induction hp generalizing t cs with
  | nil =>
    rw [hr.null_iff.1 rfl]
    exact .nil
  | cons hp hkey _ _ ih =>
    obtain ⟨tk, tn, ck, cn, rfl, -, hk, hn⟩ := hr.of_list hp
    exact .cons (hkey.tree hk) (ih hn)

theorem Obj.ParamTree.list (ht : t.ParamTree names) (hr : Reads h p t cs)
    (hS : ∀ a ∈ cs, ¬S a) : ParamList h S p names := by
  induction ht generalizing p cs with
  | nil =>
    rw [hr.null_iff.2 rfl]
    exact .nil
  | cons hkey _ ih =>
    obtain ⟨x, y, ck, cn, ha, rfl, hk, hn⟩ := hr.list_inv
    refine .cons ha (hkey.keyName hk) (hS _ (by simp)) (ih hn fun a ha => ?_)
    exact hS a (by simp [ha])

/-- An association list without sharing, in which only its own slots are in `S`. -/
theorem Obj.EnvTree.list (ht : t.EnvTree names) (hr : Reads h e t cs) (hcs : cs.Nodup) :
    ∃ bs : List Binding, bs.map Binding.name = names ∧ (bs.map Binding.slot).Nodup ∧
      (∀ a ∈ bs.map Binding.slot, a ∈ cs) ∧
      ∀ S : Nat → Prop, (∀ a ∈ cs, S a → a ∈ bs.map Binding.slot) → EnvList h S e bs := by
  induction ht generalizing e cs with
  | nil =>
    rw [hr.null_iff.2 rfl]
    exact ⟨[], rfl, List.nodup_nil, by simp, fun _ _ => .nil⟩
  | @cons key value next name names hkey _ ih =>
    obtain ⟨pair, rest, cp, cn, he, rfl, hp, hn⟩ := hr.list_inv
    obtain ⟨k, slot, ck, cs, hpair, rfl, hk, hs⟩ := hp.list_inv
    obtain ⟨v, z, cv, cz, hslot, rfl, hv, hz⟩ := hs.list_inv
    obtain rfl := hz.null_iff.2 rfl
    obtain ⟨bs, hnames, hnodup, hmem, hlist⟩ := ih hn (by grind)
    refine ⟨⟨slot, name⟩ :: bs, by simp [hnames], ?_, ?_, ?_⟩
    · grind
    · grind
    · intro S hS
      refine .cons he hpair hslot (hkey.keyName hk) ?_ ?_ (hlist S ?_) <;> grind

theorem ParamTree_names (ht : t.ParamTree names) : t.paramCount = paramCountOf names := by
  have hlen : ∀ {t : Obj F} {names : List (Option Text)}, t.ParamTree names →
      t.length = names.length := by
    intro t names ht
    induction ht with
    | nil => rfl
    | cons _ _ ih => simp [Obj.length, ih]
  have hnil : t.isNil = true ↔ names = [none] := by
    cases ht with
    | nil => simp [Obj.isNil]
    | @cons key next name names hkey hnext =>
      cases hnext with
      | nil =>
        cases name with
        | none =>
          obtain rfl := hkey
          simp [Obj.isNil]
        | some n =>
          obtain ⟨rfl, -⟩ := hkey
          simp [Obj.isNil]
      | cons => simp [Obj.isNil]
  simp only [Obj.paramCount, paramCountOf, hlen ht, hnil]

theorem Obj.ParamTree.drop (ht : t.ParamTree names) (i : Nat) :
    (t.drop i).ParamTree (names.drop i) := by
  induction ht generalizing i with
  | nil => simpa [Obj.drop] using ParamTree.nil
  | cons hkey hnext ih =>
    cases i with
    | zero => exact .cons hkey hnext
    | succ i => exact ih i

theorem Obj.Ok.copied (ht : t.Ok) : t.copied = t := by
  induction t with
  | list a d iha ihd =>
    obtain ⟨ha, hd, -⟩ := ht
    rw [Obj.copied, iha ha, ihd hd]
  | closure p b c n ihp ihb ihc =>
    obtain ⟨hp, hb, hc, ⟨names, hnames, hn⟩, -⟩ := ht
    rw [Obj.copied, ihp hp, ihb hb, ihc hc, ParamTree_names hnames, hn]
  | _ => rfl

theorem CellsOk.tree (hc : CellsOk h S) (hr : Reads h a t cs) : t.Ok := by
  induction hr with
  | null => trivial
  | @leaf a c t _ ht => cases c <;> simp [Cell.leaf?] at ht <;> subst ht <;> trivial
  | list ha _ hy ihx ihy =>
    refine ⟨ihx, ihy, ?_⟩
    obtain rfl | ⟨u, v, hc⟩ := hc _ _ ha
    · rw [hy.null_iff.1 rfl]
      trivial
    · obtain ⟨_, _, _, _, rfl, -⟩ := hy.of_list hc
      trivial
  | closure ha hp _ hcap ihp ihb ihc =>
    obtain ⟨⟨names, hnames, hn⟩, bs, hbs⟩ := hc _ _ ha
    exact ⟨ihp, ihb, ihc, ⟨names, hnames.tree hp, hn⟩, _, hbs.tree hcap⟩

theorem Reads.tail (hr : Reads h a t cs) (ht : t.IsTail) :
    a = 0 ∨ ∃ u v, cellAt h a = some (.list u v) := by
  cases hr with
  | null => exact Or.inl rfl
  | @leaf _ c _ _ hl => cases c <;> simp [Cell.leaf?] at hl <;> subst hl <;> exact ht.elim
  | list ha _ _ => exact Or.inr ⟨_, _, ha⟩
  | closure => exact ht.elim

/-- New objects without sharing are sound if their tree is. -/
theorem Obj.Ok.cells (ht : t.Ok) (hr : Reads h a t cs) (hcs : cs.Nodup)
    (hS : ∀ a ∈ cs, ¬S a) : ∀ b ∈ cs, ∀ c, cellAt h b = some c → CellOk h S c := by
  induction hr with
  | null => simp
  | @leaf a c t ha hl =>
    intro b hb k hk
    obtain rfl := List.mem_singleton.1 hb
    obtain rfl := Option.some.inj (ha.symm.trans hk)
    cases c <;> simp [Cell.leaf?] at hl <;> trivial
  | list ha hx hy ihx ihy =>
    obtain ⟨htx, hty, htail⟩ := ht
    intro b hb k hk
    simp only [List.mem_append, List.mem_singleton] at hb
    obtain (hb | hb) | rfl := hb
    · exact ihx htx (by grind) (by grind) b hb k hk
    · exact ihy hty (by grind) (by grind) b hb k hk
    · obtain rfl := Option.some.inj (ha.symm.trans hk)
      exact hy.tail htail
  | closure ha hp hb hc ihp ihb ihc =>
    obtain ⟨htp, htb, htc, ⟨names, hnames, hn⟩, names', henv⟩ := ht
    intro b hb' k hk
    simp only [List.mem_append, List.mem_singleton] at hb'
    obtain ((hb' | hb') | hb') | rfl := hb'
    · exact ihp htp (by grind) (by grind) b hb' k hk
    · exact ihb htb (by grind) (by grind) b hb' k hk
    · exact ihc htc (by grind) (by grind) b hb' k hk
    · obtain rfl := Option.some.inj (ha.symm.trans hk)
      refine ⟨⟨names, hnames.list hp fun a ha => hS a (by simp [ha]), hn⟩, ?_⟩
      obtain ⟨bs, -, -, -, hlist⟩ := henv.list hc (by grind)
      exact ⟨bs, hlist S fun a ha hs => absurd hs (hS a (by simp [ha]))⟩

end trees

section lookup

/-- The slot of the first binding with a name. -/
def slotOf (bs : List Binding) (n : Text) : Option Nat :=
  (bs.find? fun b => b.name == some n).map Binding.slot

/-- The tree that a name is bound to. -/
def lookupTree (h : Heap F) (bs : List Binding) (n : Text) : Option (Obj F) :=
  (slotOf bs n).map fun slot => treeOf h (car h slot)

theorem lookupTree_eq : lookupTree h bs n =
    ((bindingTrees h bs).find? fun b => b.1 == some n).map Prod.snd := by
  simp only [lookupTree, slotOf, bindingTrees, List.find?_map, Option.map_map]
  rfl

theorem EnvList.length_le (he : EnvList h S e bs) (hr : Reads h e t cs) : bs.length ≤ t.depth := by
  induction he generalizing t cs with
  | nil => simp
  | cons he _ _ _ _ _ _ ih =>
    obtain ⟨tp, tn, cp, cn, rfl, -, -, hn⟩ := hr.of_list he
    have := ih hn
    simp only [List.length_cons, Obj.depth]
    omega

theorem EnvList.slot_mem (he : EnvList h S e bs) {b : Binding} (hb : b ∈ bs) :
    ∃ v, cellAt h b.slot = some (.list v 0) := by
  induction he with
  | nil => simp at hb
  | cons _ _ hslot _ _ _ _ ih =>
    obtain rfl | hb := List.mem_cons.1 hb
    · exact ⟨_, hslot⟩
    · exact ih hb

theorem EnvList.unique {bs' : List Binding} (he : EnvList h S e bs) (he' : EnvList h S' e bs') :
    bs = bs' := by
  induction he generalizing bs' with
  | nil =>
    cases he' with
    | nil => rfl
    | cons he => simp [cellAt_zero] at he
  | @cons e next pair key value b bs he hpair hslot hkey _ _ _ ih =>
    cases he' with
    | nil => simp [cellAt_zero] at he
    | @cons _ _ _ _ _ b' bs' he' hpair' hslot' hkey' _ _ hnext' =>
      obtain ⟨rfl, rfl⟩ := Cell.list.inj (Option.some.inj (he.symm.trans he'))
      obtain ⟨rfl, hslots⟩ := Cell.list.inj (Option.some.inj (hpair.symm.trans hpair'))
      have hname : b.name = b'.name := by
        cases hb : b.name <;> cases hb' : b'.name <;> simp_all [KeyName, cellAt_zero]
      obtain ⟨slot, name⟩ := b
      obtain ⟨slot', name'⟩ := b'
      simp only at hslots hname
      rw [ih hnext', hslots, hname]

variable [CFloat F]

theorem pairMatchesKey_eq {pair k slot : Nat} (hpair : cellAt h pair = some (.list k slot))
    (hk : KeyName h k name) (hkey : cellAt h key = some (.atom n)) :
    pairMatchesKey h pair key = (name == some n) := by
  cases name with
  | none =>
    obtain rfl := hk
    simp [pairMatchesKey, ith, isList_eq hpair, car_eq hpair, compare, cellAt_zero, hkey]
  | some m => simp [pairMatchesKey, ith, isList_eq hpair, car_eq hpair, compare, hk.1, hkey]

/-- What `lookup_pair` returns for a name that has a binding. -/
structure Found (h : Heap F) (bs : List Binding) (n : Text) (pair : Nat) (b : Binding) : Prop where
  mem : b ∈ bs
  name : b.name = some n
  slot : slotOf bs n = some b.slot
  pair : ∃ k, cellAt h pair = some (.list k b.slot) ∧ KeyName h k (some n)
  value : ∃ v, cellAt h b.slot = some (.list v 0)

theorem EnvList.lookupPairFrom {fuel : Nat} (he : EnvList h S e bs) (hf : bs.length ≤ fuel)
    (hkey : cellAt h key = some (.atom n)) :
    (lookupPairFrom h fuel key e = 0 ∧ slotOf bs n = none) ∨
      ∃ b, Found h bs n (lookupPairFrom h fuel key e) b := by
  induction he generalizing fuel with
  | nil => cases fuel <;> simp [Lisp.lookupPairFrom, slotOf]
  | @cons e next pair k value b bs he hpair hslot hk _ _ _ ih =>
    obtain _ | fuel := fuel
    · simp at hf
    have hkey0 : key ≠ 0 := Nat.pos_iff_ne_zero.1 (cellAt_le hkey).1
    have he0 : e ≠ 0 := Nat.pos_iff_ne_zero.1 (cellAt_le he).1
    have hatom : isAtom h key = true := by simp [isAtom, hkey]
    simp only [Lisp.lookupPairFrom, hkey0, he0, or_self, if_false, isList_eq he, hatom,
      Bool.not_true, car_eq he, cdr_eq he, pairMatchesKey_eq hpair hk hkey]
    by_cases hb : b.name = some n
    · refine Or.inr ⟨b, by simp, hb, by simp [slotOf, hb], ⟨k, ?_, hb ▸ hk⟩, value, hslot⟩
      simpa [hb] using hpair
    · have hslotOf : slotOf (b :: bs) n = slotOf bs n := by simp [slotOf, hb]
      have hrec : (if (false || false) = true then 0
          else if (b.name == some n) = true then pair else Lisp.lookupPairFrom h fuel key next) =
          Lisp.lookupPairFrom h fuel key next := by simp [hb]
      rw [hslotOf, hrec]
      obtain hnone | ⟨b', hb'⟩ := ih (Nat.le_of_succ_le_succ hf)
      · exact Or.inl hnone
      · exact Or.inr ⟨b', by simp [hb'.mem], hb'.name, hslotOf.trans hb'.slot, hb'.pair, hb'.value⟩

theorem EnvList.lookupPair (he : EnvList h S e bs) (hr : Reads h e t cs)
    (hkey : cellAt h key = some (.atom n)) :
    (lookupPair h key e = 0 ∧ slotOf bs n = none) ∨ ∃ b, Found h bs n (lookupPair h key e) b :=
  he.lookupPairFrom ((he.length_le hr).trans hr.depth_le) hkey

/-- `lookup_entry` finds the slot of the first binding with the name. -/
theorem EnvList.lookupEntry (he : EnvList h S e bs) (hr : Reads h e t cs)
    (hkey : cellAt h key = some (.atom n)) :
    lookupEntry h key e = (slotOf bs n).getD 0 := by
  unfold Lisp.lookupEntry
  obtain ⟨h0, hnone⟩ | ⟨b, hb⟩ := he.lookupPair hr hkey
  · simp [h0, hnone, Lisp.cdr, cellAt_zero]
  · obtain ⟨k, hpair, -⟩ := hb.pair
    simp [hb.slot, cdr_eq hpair]

theorem slotOf_mem {slot : Nat} (hs : slotOf bs n = some slot) :
    ∃ b ∈ bs, b.slot = slot ∧ b.name = some n := by
  obtain ⟨b, hb, rfl⟩ := Option.map_eq_some_iff.1 hs
  exact ⟨b, List.mem_of_find?_eq_some hb, rfl, by simpa using List.find?_some hb⟩

end lookup
end Lisp
