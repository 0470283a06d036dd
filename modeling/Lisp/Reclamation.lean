import Lisp.Garbage

/-! Who frees an object: the collector those that it knows, `set` the values that it replaces, and
`interpreter_dispose` those of the global environment. -/
namespace Lisp
variable {F : Type} {c d e : Config F} {h h' : Heap F} {a b s slot v w x y z : Nat} {t u : Obj F}
  {cs ds l : List Nat}

section freed

def Freed (h : Heap F) (a : Nat) : Prop := ∃ o, objectAt h a = some o ∧ o.freed = true

theorem Freed.le (ha : Freed h a) : 0 < a ∧ a ≤ h.length := by
  obtain ⟨o, ho, -⟩ := ha
  exact cellAt_le (c := o.cell) (by simp [cellAt, ho])

theorem Extends.freed_iff (hext : Extends h h') (ha : a ≤ h.length) : Freed h' a ↔ Freed h a := by
  rw [Freed, hext.2 a ha, Freed]

theorem Extends.freed (hext : Extends h h') (ha : Freed h a) : Freed h' a :=
  (hext.freed_iff ha.le.2).2 ha

theorem NewLive.not_freed (hl : NewLive h h') (ha : h.length < a) : ¬Freed h' a := by
  rintro ⟨o, ho, hf⟩
  rw [hl a o ha ho] at hf
  exact Bool.false_ne_true hf

theorem freed_update {f : Object F → Object F} (hf : ∀ o, (f o).freed = o.freed) :
    Freed (update h b f) a ↔ Freed h a := by
  by_cases hab : b = a
  · subst hab
    simp only [Freed, objectAt_update]
    constructor
    · rintro ⟨o, ho, hfreed⟩
      obtain ⟨o', ho', rfl⟩ := Option.map_eq_some_iff.1 ho
      exact ⟨o', ho', hf o' ▸ hfreed⟩
    · rintro ⟨o, ho, hfreed⟩
      exact ⟨f o, by rw [ho, Option.map_some], (hf o).trans hfreed⟩
  · rw [Freed, objectAt_update_of_ne f hab, Freed]

theorem freed_dispose : Freed (dispose h b) a ↔ Freed h a ∨ a = b ∧ 0 < a ∧ a ≤ h.length := by
  by_cases hab : b = a
  · subst hab
    simp only [Freed, dispose, objectAt_update]
    constructor
    · rintro ⟨o, ho, -⟩
      obtain ⟨o', ho', -⟩ := Option.map_eq_some_iff.1 ho
      have hle := cellAt_le (c := o'.cell) (show cellAt h b = _ by simp [cellAt, ho'])
      exact Or.inr ⟨trivial, hle⟩
    · rintro (⟨o, ho, -⟩ | ⟨-, hpos, hle⟩)
      · exact ⟨_, by rw [ho, Option.map_some], rfl⟩
      · obtain ⟨o, ho⟩ := objectAt_of_le hpos hle
        exact ⟨_, by rw [ho, Option.map_some], rfl⟩
  · rw [Freed, dispose, objectAt_update_of_ne _ hab, Freed]
    exact ⟨Or.inl, fun h => h.resolve_right fun hb => hab hb.1.symm⟩

theorem length_foldl_dispose (l : List Nat) (h : Heap F) :
    (l.foldl dispose h).length = h.length :=
  (sameCells_foldl (fun o => { o with freed := true }) (fun _ => rfl) l h).1

theorem freed_foldl_dispose :
    Freed (l.foldl dispose h) a ↔ Freed h a ∨ a ∈ l ∧ 0 < a ∧ a ≤ h.length := by
  induction l generalizing h with
  | nil => simp
  | cons b l ih =>
    have hlen : (dispose h b).length = h.length := length_update _
    rw [List.foldl_cons, ih, freed_dispose, hlen, List.mem_cons]
    tauto

theorem freed_disposeRecursive : Freed (disposeRecursive h b) a ↔
    Freed h a ∨ a ∈ disposed h b ∧ 0 < a ∧ a ≤ h.length := freed_foldl_dispose

theorem freed_overwritten : Freed (overwritten h slot v) a ↔
    Freed h a ∨ a ∈ disposed h (car h slot) ∧ 0 < a ∧ a ≤ h.length := by
  rw [← freed_disposeRecursive]
  exact freed_update fun _ => rfl

end freed

section exchange

theorem perm_part (p l q : List Nat) (z : Nat) {r : List Nat} :
    (p ++ (l ++ z :: r) ++ q).Perm (l ++ z :: (p ++ r ++ q)) := by
  have hmove : (p ++ (l ++ z :: r)).Perm (l ++ z :: (p ++ r)) := by
    rw [← List.append_assoc]
    refine (List.perm_append_comm.append_right _).trans ?_
    rw [List.append_assoc]
    exact List.perm_middle.append_left l
  simpa using hmove.append_right q

/-- A list cell of a tree without sharing gets a new value: its old value leaves the tree. -/
theorem Reads.exchange {tx tv : Obj F} {cx cv : List Nat} (hr : Reads h a t cs) (hcs : cs.Nodup)
    (hz : z ∈ cs) (hcell : cellAt h z = some (.list x 0)) (hx : Reads h x tx cx)
    (hne : ∀ b, b ≠ z → cellAt h' b = cellAt h b) (hcell' : cellAt h' z = some (.list v 0))
    (hv : Reads h' v tv cv) : ∃ u rest, cs.Perm (cx ++ z :: rest) ∧
      ∃ ds, Reads h' a u ds ∧ ds.Perm (cv ++ z :: rest) := by
  have hkeep : ∀ {b u ds}, Reads h b u ds → z ∉ ds → Reads h' b u ds := by
    intro b u ds hb hzs
    exact hb.congr fun y hy => hne y fun he => hzs (he ▸ hy)
  -- A part of the tree that contains the cell, between parts that do not.
  have hpart : ∀ {b : Nat} {p q cb : List Nat} {u : Obj F} {rest ds : List Nat},
      cb.Perm (cx ++ z :: rest) → Reads h' b u ds → ds.Perm (cv ++ z :: rest) →
      (p ++ cb ++ q).Perm (cx ++ z :: (p ++ rest ++ q)) ∧
        (p ++ ds ++ q).Perm (cv ++ z :: (p ++ rest ++ q)) := by
    intro b p q cb u rest ds hperm _ hperm'
    exact ⟨((hperm.append_left p).append_right q).trans (perm_part p cx q z),
      ((hperm'.append_left p).append_right q).trans (perm_part p cv q z)⟩
  induction hr with
  | null => simp at hz
  | @leaf a k t ha ht =>
    obtain rfl := List.mem_singleton.1 hz
    rw [hcell] at ha
    obtain rfl := Option.some.inj ha
    simp [Cell.leaf?] at ht
  | @list a p q tp tq cp cq ha hp hq ihp ihq =>
    by_cases haz : a = z
    · subst haz
      obtain ⟨rfl, rfl⟩ := Cell.list.inj (Option.some.inj (hcell.symm.trans ha))
      obtain ⟨rfl, rfl⟩ := hp.unique hx
      obtain ⟨rfl, rfl⟩ := hq.unique .null
      exact ⟨_, [], by simp, _, .list hcell' hv .null, by simp⟩
    · have ha' := (hne a haz).trans ha
      rw [List.nodup_append, List.nodup_append] at hcs
      obtain ⟨⟨hnp, hnq, hpq⟩, -, -⟩ := hcs
      simp only [List.mem_append, List.mem_singleton, Ne.symm haz, or_false] at hz
      rcases hz with hz | hz
      · obtain ⟨u, rest, hperm, ds, hds, hperm'⟩ := ihp hnp hz
        obtain ⟨h1, h2⟩ := hpart (p := []) (q := cq ++ [a]) hperm hds hperm'
        have hread := Reads.list ha' hds (hkeep hq fun hm => hpq z hz z hm rfl)
        exact ⟨_, _, by simpa using h1, _, hread, by simpa using h2⟩
      · obtain ⟨u, rest, hperm, ds, hds, hperm'⟩ := ihq hnq hz
        obtain ⟨h1, h2⟩ := hpart (p := cp) (q := [a]) hperm hds hperm'
        have hread := Reads.list ha' (hkeep hp fun hm => hpq z hm z hz rfl) hds
        exact ⟨_, _, h1, _, hread, h2⟩
  | @closure a p q r n tp tq tr cp cq cr ha hp hq hr ihp ihq ihr =>
    have haz : a ≠ z := by
      rintro rfl
      rw [ha] at hcell
      simp at hcell
    have ha' := (hne a haz).trans ha
    rw [List.nodup_append, List.nodup_append, List.nodup_append] at hcs
    obtain ⟨⟨⟨hnp, hnq, hpq⟩, hnr, hpqr⟩, -, -⟩ := hcs
    simp only [List.mem_append, List.mem_singleton, Ne.symm haz, or_false] at hz
    rcases hz with (hz | hz) | hz
    · obtain ⟨u, rest, hperm, ds, hds, hperm'⟩ := ihp hnp hz
      obtain ⟨h1, h2⟩ := hpart (p := []) (q := cq ++ cr ++ [a]) hperm hds hperm'
      have hread := Reads.closure ha' hds (hkeep hq fun hm => hpq z hz z hm rfl)
        (hkeep hr fun hm => hpqr z (List.mem_append_left _ hz) z hm rfl)
      exact ⟨_, _, by simpa using h1, _, hread, by simpa using h2⟩
    · obtain ⟨u, rest, hperm, ds, hds, hperm'⟩ := ihq hnq hz
      obtain ⟨h1, h2⟩ := hpart (p := cp) (q := cr ++ [a]) hperm hds hperm'
      have hread := Reads.closure ha' (hkeep hp fun hm => hpq z hm z hz rfl) hds
        (hkeep hr fun hm => hpqr z (List.mem_append_right _ hz) z hm rfl)
      exact ⟨_, _, by simpa using h1, _, hread, by simpa using h2⟩
    · obtain ⟨u, rest, hperm, ds, hds, hperm'⟩ := ihr hnr hz
      obtain ⟨h1, h2⟩ := hpart (p := cp ++ cq) (q := [a]) hperm hds hperm'
      have hread := Reads.closure ha'
        (hkeep hp fun hm => hpqr z (List.mem_append_left _ hm) z hz rfl)
        (hkeep hq fun hm => hpqr z (List.mem_append_right _ hm) z hz rfl) hds
      exact ⟨_, _, by simpa using h1, _, hread, by simpa using h2⟩

end exchange
section globals

/-- The objects of the global environment. -/
def Config.globals (c : Config F) : List Nat := disposed c.state.heap c.baseEnv

theorem Config.baseList (c : Config F) : EnvList c.state.heap c.slots c.baseEnv c.base := by
  have hlast : ∀ {l : List Nat} {bss : List (List Binding)} {e : Nat} {bs : List Binding},
      List.Forall₂ (EnvList c.state.heap c.slots) (e :: l) (bs :: bss) →
        EnvList c.state.heap c.slots ((e :: l).getLast (by simp))
          ((bs :: bss).getLast (by simp)) := by
    intro l
    induction l with
    | nil =>
      intro bss e bs hall
      obtain ⟨he, hrest⟩ := List.forall₂_cons.1 hall
      obtain rfl := List.forall₂_nil_left_iff.1 hrest
      exact he
    | cons e' l ih =>
      intro bss e bs hall
      obtain ⟨-, hrest⟩ := List.forall₂_cons.1 hall
      obtain ⟨bs', bss', he', hrest', rfl⟩ := List.forall₂_cons_left_iff.1 hrest
      simpa using ih (.cons he' hrest')
  exact hlast (.cons c.wf.env c.wf.saved)

theorem Config.reads_globals (c : Config F) :
    ∃ t, Reads c.state.heap c.baseEnv t c.globals := by
  obtain ⟨t, cs, hr⟩ := c.wf.heap.readable _ c.baseList.le
  refine ⟨t, ?_⟩
  rwa [Config.globals, hr.disposed]

theorem Config.globals_eq (hr : Reads c.state.heap c.baseEnv t cs) : c.globals = cs := hr.disposed

theorem Config.globals_le (c : Config F) (ha : a ∈ c.globals) :
    0 < a ∧ a ≤ c.state.heap.length := by
  obtain ⟨t, hr⟩ := c.reads_globals
  exact hr.valid.2 a ha

theorem Config.base_globals (c : Config F) (hs : s ∈ c.base.map Binding.slot) : s ∈ c.globals := by
  obtain ⟨t, hr⟩ := c.reads_globals
  exact c.baseList.slots_mem hr s hs

theorem Extends.globals (hext : Extends c.state.heap d.state.heap) (hbase : d.baseEnv = c.baseEnv) :
    d.globals = c.globals := by
  obtain ⟨t, hr⟩ := c.reads_globals
  exact Config.globals_eq (hbase ▸ hr.mono hext)

end globals

section tracked

/-- Every value that `set` stored is that of a binding of the global environment. -/
def Contained (c : Config F) : Prop :=
  ∀ s ∈ c.state.trace.stored, s ∈ c.base.map Binding.slot

/-- `set` stored values in the global environment only, or every value that it replaced belonged to
the binding. -/
def Sparing (c : Config F) : Prop :=
  Contained c ∨ ∀ o ∈ c.state.trace.overwrites, o.Owned

/-- The collector knows the object, or it is freed. -/
def Known (s : Interpreter F) (a : Nat) : Prop := a ∈ s.allocated ∨ Freed s.heap a

/-- Each new object is known. -/
def Registers (s t : Interpreter F) : Prop :=
  ∀ a, s.heap.length < a → a ≤ t.heap.length → Known t a

/-- No object of the global environment is freed or shared, and none is part of a value that `set`
stored elsewhere. -/
structure Intact (c : Config F) : Prop where
  nodup : c.globals.Nodup
  live : ∀ a ∈ c.globals, ¬Freed c.state.heap a
  apart : ∀ s ∈ c.state.trace.stored, s ∉ c.base.map Binding.slot →
    ∀ cs, Holds c.state.heap s cs → ∀ a ∈ cs, a ∉ c.globals

def Accounted (c : Config F) (a : Nat) : Prop := Known c.state a ∨ a ∈ c.globals

/-- What a part of a run does: the global environment stays intact, and if `set` stores in it only
then every new object is accounted for, and every old one that was stays so. -/
structure Tracked (c d : Config F) : Prop where
  intact : Sparing d → Intact c → Intact d
  keeps : Contained d → Intact c → ∀ a, Accounted c a → Accounted d a
  new : Contained d → Intact c → ∀ a, c.state.heap.length < a → a ≤ d.state.heap.length →
    Accounted d a

theorem Registers.refl (s : Interpreter F) : Registers s s := by
  intro a hlt hle
  omega

/-- What is known stays known. -/
def Remembers (s t : Interpreter F) : Prop := ∀ a, Known s a → Known t a

theorem Allocates.remembers {s t : Interpreter F} (ha : Allocates s t) : Remembers s t := by
  obtain ⟨regs, hregs, -⟩ := ha.allocated
  rintro a (hm | hf)
  · exact Or.inl (hregs ▸ List.mem_append_left _ hm)
  · exact Or.inr (ha.heap.freed hf)

/-- The steps that store nothing. -/
structure Leaves (c d : Config F) : Prop where
  heap : Extends c.state.heap d.state.heap
  remembers : Remembers c.state d.state
  globals : d.globals = c.globals
  base : d.base = c.base
  stored : d.state.trace.stored = c.state.trace.stored
  overwrites : d.state.trace.overwrites = c.state.trace.overwrites

theorem Action.leaves (ha : Action c d)
    (hstored : d.state.trace.stored = c.state.trace.stored) : Leaves c d := by
  have hne : ∀ {x : Nat} {l : List Nat}, l ≠ x :: l := by
    intro x l h
    have := congrArg List.length h
    simp at this
  have hsame : d.state.heap = c.state.heap → d.state.allocated = c.state.allocated →
      Extends c.state.heap d.state.heap ∧ Remembers c.state d.state := by
    intro heap allocated
    refine ⟨heap ▸ .refl _, fun a hk => ?_⟩
    rwa [Known, heap, allocated]
  have hbaseEnv : d.baseEnv = c.baseEnv → Extends c.state.heap d.state.heap →
      d.globals = c.globals := fun h hext => hext.globals h
  cases ha with
  | record heap env allocated same top below =>
    obtain ⟨hext, hknown⟩ := hsame heap allocated
    have henv : d.baseEnv = c.baseEnv := by simp only [Config.baseEnv, env, same.saved]
    exact ⟨hext, hknown, hbaseEnv henv hext, by simp [Config.base, top, below], hstored,
      same.overwrites⟩
  | allocate allocates env same top below =>
    have henv : d.baseEnv = c.baseEnv := by simp only [Config.baseEnv, env, same.saved]
    exact ⟨allocates.heap, allocates.remembers, hbaseEnv henv allocates.heap,
      by simp [Config.base, top, below], hstored, same.overwrites⟩
  | bind heap slot_new value fresh outside unbound allocated saved stored =>
    exact absurd (hstored.symm.trans stored) hne
  | overwrite copied readable fresh mem heap env allocated saved stored =>
    exact absurd (hstored.symm.trans stored) hne
  | enter allocates frame_new saved stored overwrites top below =>
    have henv : d.baseEnv = c.baseEnv := by simp [Config.baseEnv, saved]
    exact ⟨allocates.heap, allocates.remembers, hbaseEnv henv allocates.heap,
      by simp [Config.base, top, below], hstored, overwrites⟩
  | leave heap allocated saved stored overwrites below =>
    obtain ⟨hext, hknown⟩ := hsame heap allocated
    have henv : d.baseEnv = c.baseEnv := by simp [Config.baseEnv, saved]
    exact ⟨hext, hknown, hbaseEnv henv hext, by simp [Config.base, below], hstored, overwrites⟩

theorem Leaves.refl (c : Config F) : Leaves c c :=
  ⟨.refl _, fun _ h => h, rfl, rfl, rfl, rfl⟩

theorem Leaves.trans (h1 : Leaves c d) (h2 : Leaves d e) : Leaves c e :=
  ⟨h1.heap.trans h2.heap, fun a h => h2.remembers a (h1.remembers a h),
    h2.globals.trans h1.globals, h2.base.trans h1.base, h2.stored.trans h1.stored,
    h2.overwrites.trans h1.overwrites⟩

theorem Action.stored_suffix (ha : Action c d) :
    c.state.trace.stored <:+ d.state.trace.stored := by
  cases ha with
  | record _ _ _ same => exact same.stored ▸ List.suffix_rfl
  | allocate _ _ same => exact same.stored ▸ List.suffix_rfl
  | bind _ _ _ _ _ _ _ _ stored => exact stored ▸ List.suffix_cons _ _
  | overwrite _ _ _ _ _ _ _ _ stored => exact stored ▸ List.suffix_cons _ _
  | enter _ _ _ stored => exact stored ▸ List.suffix_rfl
  | leave _ _ _ stored => exact stored ▸ List.suffix_rfl

theorem Steps.stored_suffix (hs : Steps c d) :
    c.state.trace.stored <:+ d.state.trace.stored := by
  induction hs with
  | refl => exact List.suffix_rfl
  | tail _ ha ih => exact ih.trans ha.stored_suffix

theorem Steps.leaves (hs : Steps c d) (hstored : d.state.trace.stored = c.state.trace.stored) :
    Leaves c d := by
  induction hs with
  | refl => exact .refl c
  | tail hs ha ih =>
    rename_i d e
    have hmid : d.state.trace.stored = c.state.trace.stored := by
      have h1 := hs.stored_suffix
      have h2 := hstored ▸ ha.stored_suffix
      exact (h2.eq_of_length_le h1.length_le)
    exact (ih hmid).trans (ha.leaves (hstored.trans hmid.symm))

theorem Leaves.intact (hl : Leaves c d) (hsep : Separated c) (hi : Intact c) : Intact d := by
  refine ⟨hl.globals ▸ hi.nodup, fun a ha => ?_, fun s hs hb cs hcs a ha => ?_⟩
  · rw [hl.globals] at ha
    rw [hl.heap.freed_iff (c.globals_le ha).2]
    exact hi.live a ha
  · rw [hl.stored] at hs
    rw [hl.base] at hb
    rw [hl.globals]
    obtain ⟨ds, hds, -⟩ := hsep.stored s hs
    obtain rfl := hcs.unique (hds.mono hl.heap)
    exact hi.apart s hs hb _ hds a ha

theorem Leaves.accounted (hl : Leaves c d) (ha : Accounted c a) : Accounted d a := by
  rcases ha with hk | hg
  · exact Or.inl (hl.remembers a hk)
  · exact Or.inr (hl.globals ▸ hg)

theorem Leaves.tracked (hl : Leaves c d) (hsep : Separated c)
    (hnew : Registers c.state d.state) : Tracked c d where
  intact _ := hl.intact hsep
  keeps _ _ _ := hl.accounted
  new _ _ a hlt hle := Or.inl (hnew a hlt hle)

theorem Action.base_old (ha : Action c d) (hs : s ≤ c.state.heap.length)
    (hb : s ∈ d.base.map Binding.slot) : s ∈ c.base.map Binding.slot := by
  have hsame : d.base = c.base → s ∈ c.base.map Binding.slot := fun h => h ▸ hb
  cases ha with
  | record _ _ _ _ top below => exact hsame (by simp [Config.base, top, below])
  | allocate _ _ _ top below => exact hsame (by simp [Config.base, top, below])
  | bind heap slot_new value fresh outside unbound allocated saved stored overwrites top below =>
    cases hbelow : c.below with
    | nil =>
      rw [Config.base_of_nil (below.trans hbelow), top, List.map_cons, List.mem_cons] at hb
      rw [Config.base_of_nil hbelow]
      refine hb.resolve_left ?_
      rintro rfl
      omega
    | cons top' rest => exact hsame (by simp [Config.base, below, hbelow])
  | overwrite _ _ _ _ _ _ _ _ _ _ top below => exact hsame (by simp [Config.base, top, below])
  | enter _ _ _ _ _ top below => exact hsame (by simp [Config.base, top, below])
  | leave _ _ _ _ _ below => exact hsame (by simp [Config.base, below])

theorem Steps.contained (hs : Steps c d) (hsep : Separated c) (hd : Contained d) : Contained c := by
  induction hs with
  | refl => exact hd
  | tail hs ha ih =>
    rename_i d e
    refine ih fun s hm => ha.base_old ?_ (hd s (ha.stored_suffix.subset hm))
    obtain ⟨cs, hh, -⟩ := (hsep.steps hs).stored s hm
    exact hh.le.1

theorem Action.overwrites_suffix (ha : Action c d) :
    c.state.trace.overwrites <:+ d.state.trace.overwrites := by
  rcases ha.overwrites with hlog | ⟨h, s, -, -, hlog⟩
  · exact hlog ▸ List.suffix_rfl
  · exact hlog ▸ List.suffix_cons _ _

theorem Steps.sparing (hs : Steps c d) (hsep : Separated c) (hd : Sparing d) : Sparing c := by
  rcases hd with hd | hd
  · exact Or.inl (hs.contained hsep hd)
  · refine Or.inr ?_
    induction hs with
    | refl => exact hd
    | tail hs ha ih => exact ih fun o ho => hd o (ha.overwrites_suffix.subset ho)

theorem Tracked.refl (c : Config F) : Tracked c c := by
  refine ⟨fun _ h => h, fun _ _ _ h => h, fun _ _ a hlt hle => ?_⟩
  omega

theorem Tracked.trans (h1 : Tracked c d) (h2 : Tracked d e) (hsep : Separated d)
    (hs : Steps d e) : Tracked c e := by
  constructor
  case intact => exact fun he hc => h2.intact he (h1.intact (hs.sparing hsep he) hc)
  case keeps =>
    intro he hc a ha
    have hd := hs.contained hsep he
    exact h2.keeps he (h1.intact (Or.inl hd) hc) a (h1.keeps hd hc a ha)
  case new =>
    intro he hc a hlt hle
    have hd := hs.contained hsep he
    have hi := h1.intact (Or.inl hd) hc
    rcases Nat.lt_or_ge d.state.heap.length a with hda | hda
    · exact h2.new he hi a hda hle
    · exact h2.keeps he hi a (h1.new hd hc a hlt hda)

end tracked

section stores

theorem Config.saved_nil (c : Config F) : c.state.trace.saved = [] ↔ c.below = [] := by
  have hlen := c.wf.saved.length_eq
  rw [← List.length_eq_zero_iff, ← List.length_eq_zero_iff, hlen]

/-- A stored value stays where it is when objects are added. -/
theorem Separated.holds_old (hsep : Separated c) (hext : Extends c.state.heap d.state.heap)
    (hs : s ∈ c.state.trace.stored) (hcs : Holds d.state.heap s cs) :
    Holds c.state.heap s cs ∧ ∀ a ∈ cs, a ≤ c.state.heap.length := by
  obtain ⟨ds, hds, -⟩ := hsep.stored s hs
  obtain rfl := hcs.unique (hds.mono hext)
  exact ⟨hds, hds.le.2⟩

/-- `set` on a name without a binding: the new objects are those of the new binding. -/
structure Bound (c d : Config F) (slot : Nat) : Prop where
  heap : Extends c.state.heap d.state.heap
  live : NewLive c.state.heap d.state.heap
  allocated : d.state.allocated = c.state.allocated
  saved : d.state.trace.saved = c.state.trace.saved
  stored : d.state.trace.stored = slot :: c.state.trace.stored
  below : d.below = c.below
  top : ∃ n, d.top = ⟨slot, n⟩ :: c.top
  objects : ∃ (key pair v : Nat) (t : Obj F) (cv : List Nat) (n : Text),
    cellAt d.state.heap d.state.env = some (.list pair c.state.env) ∧
    cellAt d.state.heap pair = some (.list key slot) ∧
    cellAt d.state.heap key = some (.atom n) ∧ v ≠ 0 ∧
    cellAt d.state.heap slot = some (.list v 0) ∧ Reads d.state.heap v t cv ∧
    cv ++ [slot, key, pair, d.state.env] =
      List.range' (c.state.heap.length + 1) (d.state.heap.length - c.state.heap.length)

theorem Bound.mem {cv : List Nat} {key pair : Nat} (hb : Bound c d slot)
    (hrange : cv ++ [slot, key, pair, d.state.env] =
      List.range' (c.state.heap.length + 1) (d.state.heap.length - c.state.heap.length)) :
    ∀ a, a ∈ cv ++ [slot, key, pair, d.state.env] ↔
      c.state.heap.length < a ∧ a ≤ d.state.heap.length := by
  intro a
  have := hb.heap.1
  rw [hrange, List.mem_range'_1]
  omega

theorem Bound.remembers (hb : Bound c d slot) : Remembers c.state d.state := by
  rintro a (hm | hf)
  · exact Or.inl (hb.allocated ▸ hm)
  · exact Or.inr (hb.heap.freed hf)

/-- In the body of a closure the binding is not one of the global environment. -/
theorem Bound.tracked_nested (hb : Bound c d slot) (hsep : Separated c) (hbelow : c.below ≠ []) :
    Tracked c d := by
  obtain ⟨key, pair, v, t, cv, n, -, -, -, hv, hslot, hread, hrange⟩ := hb.objects
  have hmem := hb.mem hrange
  have hbase : d.base = c.base := by
    obtain ⟨top', rest, hcons⟩ := List.exists_cons_of_ne_nil hbelow
    simp [Config.base, hb.below, hcons]
  have hbaseEnv : d.baseEnv = c.baseEnv := by
    obtain ⟨env, rest, hcons⟩ := List.exists_cons_of_ne_nil (mt c.saved_nil.1 hbelow)
    simp [Config.baseEnv, hb.saved, hcons]
  have hglobals := hb.heap.globals hbaseEnv
  constructor
  case intact =>
    intro _ hi
    refine ⟨hglobals ▸ hi.nodup, fun a ha => ?_, fun s hs hsb cs hcs a ha => ?_⟩
    · rw [hglobals] at ha
      rw [hb.heap.freed_iff (c.globals_le ha).2]
      exact hi.live a ha
    · rw [hb.stored] at hs
      rw [hbase] at hsb
      rw [hglobals]
      rcases List.mem_cons.1 hs with rfl | hs
      · obtain rfl := hcs.unique ⟨v, t, hv, hslot, hread⟩
        intro hg
        have := (hmem a).1 (List.mem_append_left _ ha)
        have := (c.globals_le hg).2
        omega
      · obtain ⟨hold, -⟩ := hsep.holds_old hb.heap hs hcs
        exact hi.apart s hs hsb cs hold a ha
  case keeps =>
    rintro - - a (hk | hg)
    · exact Or.inl (hb.remembers a hk)
    · exact Or.inr (hglobals ▸ hg)
  case new =>
    intro hd
    have hslotb := hd slot (hb.stored ▸ List.mem_cons_self)
    rw [hbase] at hslotb
    have := (c.globals_le (c.base_globals hslotb)).2
    have := (hmem slot).1 (by simp)
    omega

/-- At the top level it is, and all its objects with it. -/
theorem Bound.tracked_top (hb : Bound c d slot) (hsep : Separated c) (hbelow : c.below = []) :
    Tracked c d := by
  obtain ⟨key, pair, v, t, cv, n, henv, hpair, hkey, hv, hslot, hread, hrange⟩ := hb.objects
  have hmem := hb.mem hrange
  have hsaved := c.saved_nil.2 hbelow
  have hbaseEnv : c.baseEnv = c.state.env := Config.baseEnv_of_nil hbelow
  have hbaseEnv' : d.baseEnv = d.state.env := Config.baseEnv_of_nil (hb.below.trans hbelow)
  have hglobals : d.globals = [key] ++ (cv ++ [] ++ [slot]) ++ [pair] ++ c.globals ++
      [d.state.env] := by
    obtain ⟨tc, hc⟩ := c.reads_globals
    rw [hbaseEnv] at hc
    have hnew := Reads.list henv (.list hpair (.leaf hkey rfl) (.list hslot hread .null))
      (hc.mono hb.heap)
    rw [Config.globals, hbaseEnv']
    exact hnew.disposed
  have hperm : d.globals.Perm (c.globals ++ (cv ++ [slot, key, pair, d.state.env])) := by
    rw [hglobals, List.perm_iff_count]
    intro a
    simp only [List.count_append, List.count_cons, List.count_nil]
    omega
  have hcases : ∀ a, a ∈ d.globals ↔
      a ∈ c.globals ∨ c.state.heap.length < a ∧ a ≤ d.state.heap.length := by
    intro a
    rw [hperm.mem_iff, List.mem_append, hmem]
  have hbase : d.base.map Binding.slot = slot :: c.base.map Binding.slot := by
    obtain ⟨n, htop⟩ := hb.top
    rw [Config.base_of_nil (hb.below.trans hbelow), Config.base_of_nil hbelow, htop, List.map_cons]
  constructor
  case intact =>
    intro _ hi
    refine ⟨hperm.nodup_iff.2 (List.nodup_append.2 ⟨hi.nodup, ?_, ?_⟩), fun a ha => ?_,
      fun s hs hsb cs hcs a ha => ?_⟩
    · rw [hrange]
      exact List.nodup_range'
    · rintro a ha b hbm rfl
      have := (c.globals_le ha).2
      have := (hmem a).1 hbm
      omega
    · rcases (hcases a).1 ha with ha | ha
      · rw [hb.heap.freed_iff (c.globals_le ha).2]
        exact hi.live a ha
      · exact hb.live.not_freed ha.1
    · rw [hb.stored] at hs
      rw [hbase, List.mem_cons, not_or] at hsb
      obtain ⟨hold, hle⟩ := hsep.holds_old hb.heap ((List.mem_cons.1 hs).resolve_left hsb.1) hcs
      rw [hcases, not_or]
      have := hle a ha
      exact ⟨hi.apart s ((List.mem_cons.1 hs).resolve_left hsb.1) hsb.2 cs hold a ha, by omega⟩
  case keeps =>
    rintro - - a (hk | hg)
    · exact Or.inl (hb.remembers a hk)
    · exact Or.inr ((hcases a).2 (Or.inl hg))
  case new => exact fun _ _ a hlt hle => Or.inr ((hcases a).2 (Or.inr ⟨hlt, hle⟩))

/-- The slots among the objects of a list of bindings are those of the bindings. -/
theorem EnvList.slot_of_mem {S : Nat → Prop} {bs : List Binding} (he : EnvList h S y bs)
    (hr : Reads h y t cs) (ha : a ∈ cs) (hS : S a) (hcell : cellAt h a = some (.list w 0))
    (hvalues : ∀ b ∈ bs, ∀ u ds, Reads h (car h b.slot) u ds → a ∉ ds) :
    a ∈ bs.map Binding.slot := by
  induction he generalizing t cs with
  | nil =>
    cases hr with
    | null => simp at ha
    | leaf he => simp [cellAt_zero] at he
    | list he => simp [cellAt_zero] at he
    | closure he => simp [cellAt_zero] at he
  | @cons e next pair key value b bs he hpair hslot hkey hse hsp hnext ih =>
    obtain ⟨tp, tn, cp, cn, -, rfl, hp, hn⟩ := hr.of_list he
    obtain ⟨tk, ts, ck, cs, -, rfl, hk, hs⟩ := hp.of_list hpair
    obtain ⟨tv, tz, cv, cz, -, rfl, hv, hz⟩ := hs.of_list hslot
    obtain ⟨-, rfl⟩ := hz.unique .null
    have hval := hvalues b (by simp) tv cv (by rwa [car_eq hslot])
    have hkeys : a ∉ ck := by
      intro hm
      cases hname : b.name with
      | none =>
        rw [hname] at hkey
        obtain rfl : key = 0 := hkey
        obtain ⟨-, rfl⟩ := hk.unique .null
        simp at hm
      | some n =>
        rw [hname] at hkey
        obtain ⟨-, rfl⟩ := hk.of_leaf hkey.1 rfl
        rw [List.mem_singleton.1 hm, hkey.1] at hcell
        simp at hcell
    have hape : a ≠ e ∧ a ≠ pair := ⟨fun h => hse (h ▸ hS), fun h => hsp (h ▸ hS)⟩
    simp only [List.append_nil, List.mem_append, List.mem_singleton, hkeys, hval, hape.1, hape.2,
      false_or, or_false] at ha
    rcases ha with rfl | ha
    · simp
    · exact List.mem_cons_of_mem _ (ih hn ha fun b hb => hvalues b (List.mem_cons_of_mem _ hb))

/-- `set` on a name with a binding: the copy `v` is all that is new, and the old value is freed. -/
structure Replaced (c d : Config F) (h : Heap F) (slot v : Nat) : Prop where
  copied : Extends c.state.heap h
  live : NewLive c.state.heap h
  mem : slot ∈ c.top.map Binding.slot
  heap : d.state.heap = overwritten h slot v
  env : d.state.env = c.state.env
  allocated : d.state.allocated = c.state.allocated
  saved : d.state.trace.saved = c.state.trace.saved
  stored : d.state.trace.stored = slot :: c.state.trace.stored
  overwrites : d.state.trace.overwrites = c.overwriting h slot :: c.state.trace.overwrites
  top : d.top = c.top
  below : d.below = c.below
  value : v ≠ 0 ∧ ∃ t, Reads h v t
    (List.range' (c.state.heap.length + 1) (h.length - c.state.heap.length))

/-- The objects of the old value. -/
theorem Replaced.old (hr : Replaced c d h slot v) : ∃ (x : Nat) (tx : Obj F) (cx : List Nat),
    cellAt c.state.heap slot = some (.list x 0) ∧ Reads c.state.heap x tx cx ∧
    disposed h (car h slot) = cx := by
  obtain ⟨b, hb, rfl⟩ := List.mem_map.1 hr.mem
  obtain ⟨x, hx⟩ := c.wf.env.slot_mem hb
  obtain ⟨tx, cx, hread⟩ := c.wf.heap.readable x
    (c.wf.heap.part_le hx x (by simp [Cell.parts]))
  refine ⟨x, tx, cx, hx, hread, ?_⟩
  rw [car_eq (hr.copied.cellAt hx), (hread.mono hr.copied).disposed]

theorem Replaced.tracked (hr : Replaced c d h slot v) (hsep : Separated c) : Tracked c d := by
  obtain ⟨x, tx, cx, hx, hread, hold⟩ := hr.old
  obtain ⟨hv, tv, hvalue⟩ := hr.value
  have hslot : c.slots slot := Or.inl hr.mem
  have hlen : d.state.heap.length = h.length := by rw [hr.heap, length_overwritten]
  have hbase : d.base = c.base := by simp [Config.base, hr.top, hr.below]
  have hbaseEnv : d.baseEnv = c.baseEnv := by simp [Config.baseEnv, hr.env, hr.saved]
  have hne : ∀ y, y ≠ slot → cellAt d.state.heap y = cellAt h y := fun y hy => by
    rw [hr.heap, cellAt_overwritten_of_ne (Ne.symm hy)]
  have hcell : cellAt d.state.heap slot = some (.list v 0) := by
    rw [hr.heap, cellAt_overwritten (hr.copied.cellAt hx)]
  have hnew : ∀ a, a ∈ List.range' (c.state.heap.length + 1)
      (h.length - c.state.heap.length) ↔ c.state.heap.length < a ∧ a ≤ h.length := by
    intro a
    have := hr.copied.1
    rw [List.mem_range'_1]
    omega
  have hslotle := slots_le c hslot
  have hvalue' : Reads d.state.heap v tv (List.range' (c.state.heap.length + 1)
      (h.length - c.state.heap.length)) := by
    refine hvalue.congr fun a ha => hne a ?_
    have := (hnew a).1 ha
    omega
  have hfreed : ∀ a, Freed d.state.heap a ↔ Freed h a ∨ a ∈ cx := by
    intro a
    rw [hr.heap, freed_overwritten, hold]
    refine or_congr_right ⟨And.left, fun ha => ⟨ha, ?_⟩⟩
    have := hread.valid.2 a ha
    exact ⟨this.1, this.2.trans hr.copied.1⟩
  have hknown : Remembers c.state d.state := by
    rintro a (hm | hf)
    · exact Or.inl (hr.allocated ▸ hm)
    · exact Or.inr ((hfreed a).2 (Or.inl (hr.copied.freed hf)))
  -- The other stored values are as they were.
  have hothers : ∀ s ∈ c.state.trace.stored, s ≠ slot → ∀ cs, Holds d.state.heap s cs →
      Holds c.state.heap s cs ∧ ∀ a ∈ cs, a ≤ c.state.heap.length := by
    intro s hs hss cs hcs
    obtain ⟨ds, hds, -, hds'⟩ := hsep.stored s hs
    have hds'' : Holds d.state.heap s ds := (hds.mono hr.copied).congr (hne s hss) fun a ha =>
      hne a fun he => (hds' a ha).1 (he ▸ hslot)
    obtain rfl := hcs.unique hds''
    exact ⟨hds, hds.le.2⟩
  by_cases hsb : slot ∈ c.base.map Binding.slot
  · have hexchange : Intact c → ∃ rest, c.globals.Perm (cx ++ slot :: rest) ∧
        d.globals.Perm (List.range' (c.state.heap.length + 1)
          (h.length - c.state.heap.length) ++ slot :: rest) := by
      intro hi
      obtain ⟨t, hg⟩ := c.reads_globals
      obtain ⟨u, rest, hperm, ds, hds, hperm'⟩ := (hg.mono hr.copied).exchange hi.nodup
        (c.base_globals hsb) (hr.copied.cellAt hx) (hread.mono hr.copied) hne hcell hvalue'
      rw [← hbaseEnv] at hds
      exact ⟨rest, hperm, Config.globals_eq hds ▸ hperm'⟩
    have hmem : Intact c → ∀ a, a ∈ d.globals ↔ a ∈ c.globals ∧ a ∉ cx ∨
        c.state.heap.length < a ∧ a ≤ h.length := by
      intro hi a
      obtain ⟨rest, hperm, hperm'⟩ := hexchange hi
      have hnodup := hperm.nodup_iff.1 hi.nodup
      rw [hperm'.mem_iff, hperm.mem_iff, List.mem_append, List.mem_append, hnew]
      have hdisj : a ∈ slot :: rest → a ∉ cx := fun h1 h2 =>
        (List.nodup_append.1 hnodup).2.2 a h2 a h1 rfl
      tauto
    constructor
    case intact =>
      intro _ hi
      obtain ⟨rest, hperm, hperm'⟩ := hexchange hi
      refine ⟨hperm'.nodup_iff.2 (List.nodup_append.2 ⟨List.nodup_range', ?_, ?_⟩), ?_, ?_⟩
      · exact (List.nodup_append.1 (hperm.nodup_iff.1 hi.nodup)).2.1
      · rintro a ha b hb rfl
        have hle := (c.globals_le (hperm.mem_iff.2 (List.mem_append_right _ hb))).2
        have := (hnew a).1 ha
        omega
      · intro a ha
        rw [hfreed, not_or]
        rcases (hmem hi a).1 ha with ⟨ha, hax⟩ | ha
        · rw [hr.copied.freed_iff (c.globals_le ha).2]
          exact ⟨hi.live a ha, hax⟩
        · refine ⟨hr.live.not_freed ha.1, fun hax => ?_⟩
          have := (hread.valid.2 a hax).2
          omega
      · intro s hs hsb' cs hcs a ha hag
        rw [hbase] at hsb'
        have hss : s ≠ slot := fun he => hsb' (he ▸ hsb)
        rw [hr.stored] at hs
        obtain ⟨hcs', hle⟩ := hothers s ((List.mem_cons.1 hs).resolve_left hss) hss cs hcs
        rcases (hmem hi a).1 hag with ⟨hac, -⟩ | hac
        · exact hi.apart s ((List.mem_cons.1 hs).resolve_left hss) hsb' cs hcs' a ha hac
        · have := hle a ha
          omega
    case keeps =>
      rintro - hi a (hk | hg)
      · exact Or.inl (hknown a hk)
      · by_cases hax : a ∈ cx
        · exact Or.inl (Or.inr ((hfreed a).2 (Or.inr hax)))
        · exact Or.inr ((hmem hi a).2 (Or.inl ⟨hg, hax⟩))
    case new =>
      intro _ hi a hlt hle
      exact Or.inr ((hmem hi a).2 (Or.inr ⟨hlt, hlen ▸ hle⟩))
  · -- The binding is one of a call in progress, which only `Sparing` allows.
    have hnot : ¬Contained d := fun hd =>
      hsb (hbase ▸ hd slot (hr.stored ▸ List.mem_cons_self))
    have hout : slot ∉ c.globals := by
      intro hg
      obtain ⟨t, hgr⟩ := c.reads_globals
      refine hsb (c.baseList.slot_of_mem hgr hg hslot hx fun b hb u ds hu hm => ?_)
      obtain ⟨es, ⟨w, tw, -, hw, hes⟩, -, hes'⟩ := hsep.stored _ (hsep.base b hb)
      rw [car_eq hw] at hu
      obtain ⟨-, rfl⟩ := hu.unique hes
      exact (hes' slot hm).1 hslot
    have hglobals : d.globals = c.globals := by
      obtain ⟨t, hg⟩ := c.reads_globals
      rw [← hbaseEnv] at hg
      exact Config.globals_eq ((hg.mono hr.copied).congr fun a ha => hne a fun he => hout (he ▸ ha))
    constructor
    case intact =>
      intro hd hi
      have howned : (c.overwriting h slot).Owned :=
        hd.resolve_left hnot _ (hr.overwrites ▸ List.mem_cons_self)
      have hapart : ∀ a ∈ c.globals, a ∉ cx := by
        intro a ha hax
        rcases howned with hnull | ⟨hstored, -⟩
        · have hcar : car h slot = x := car_eq (hr.copied.cellAt hx)
          obtain rfl : x = 0 := hcar.symm.trans hnull
          obtain ⟨-, rfl⟩ := hread.unique .null
          simp at hax
        · obtain ⟨es, ⟨w, tw, hw0, hw, hes⟩, -⟩ := hsep.stored _ hstored
          obtain ⟨rfl, -⟩ := Cell.list.inj (Option.some.inj (hx.symm.trans hw))
          exact hi.apart slot hstored hsb cx ⟨x, tx, hw0, hx, hread⟩ a hax ha
      refine ⟨hglobals ▸ hi.nodup, fun a ha => ?_, fun s hs hsb' cs hcs a ha => ?_⟩
      · rw [hglobals] at ha
        rw [hfreed, hr.copied.freed_iff (c.globals_le ha).2, not_or]
        exact ⟨hi.live a ha, hapart a ha⟩
      · rw [hglobals]
        rw [hbase] at hsb'
        rw [hr.stored] at hs
        by_cases hss : s = slot
        · subst hss
          obtain rfl := hcs.unique ⟨v, tv, hv, hcell, hvalue'⟩
          intro hg
          have := (c.globals_le hg).2
          have := (hnew a).1 ha
          omega
        · have hs' := (List.mem_cons.1 hs).resolve_left hss
          exact hi.apart s hs' hsb' cs (hothers s hs' hss cs hcs).1 a ha
    case keeps => exact fun hd => absurd hd hnot
    case new => exact fun hd => absurd hd hnot

end stores
end Lisp
