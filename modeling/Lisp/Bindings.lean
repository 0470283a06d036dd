import Lisp.Configurations

/-! What holds of the bindings that `set` makes, in every configuration that the machine
reaches: the global environment is a finite map, and the values are separate from each other,
from the slots and from what the collector knows. -/
namespace Lisp
variable {F : Type} {c d e : Config F} {h h' : Heap F} {a b s v w x : Nat} {t : Obj F}
  {cs ds : List Nat} {n : Text}

section base

/-- The global environment binds different names to values. -/
structure BaseOk (c : Config F) : Prop where
  named : ∀ b ∈ c.base, ∃ n, b.name = some n
  distinct : (c.base.map Binding.name).Nodup
  values : ∀ b ∈ c.base, ∃ v, v ≠ 0 ∧ cellAt c.state.heap b.slot = some (.list v 0)

theorem Config.base_of_nil (hb : c.below = []) : c.base = c.top := by
  simp [Config.base, hb]

/-- A step leaves the global environment as it is, or adds a new name to it. -/
theorem Action.base (ha : Action c d) : d.base = c.base ∨
    ∃ slot v name, c.below = [] ∧ d.base = ⟨slot, some name⟩ :: c.base ∧
      slotOf c.base name = none ∧ cellAt d.state.heap slot = some (.list v 0) ∧ v ≠ 0 ∧
      slot ∈ d.state.trace.stored := by
  cases ha with
  | record _ _ _ _ top below _ => exact Or.inl (by simp [Config.base, top, below])
  | allocate _ _ _ top below _ => exact Or.inl (by simp [Config.base, top, below])
  | @bind slot v name _ _ value fresh _ unbound _ _ stored _ top below _ =>
    cases hb : c.below with
    | nil =>
      refine Or.inr ⟨slot, v, name, rfl, ?_, ?_, value, fresh.1, stored ▸ List.mem_cons_self⟩
      · rw [Config.base_of_nil (below.trans hb), Config.base_of_nil hb, top]
      · rw [Config.base_of_nil hb, unbound]
    | cons top' rest => exact Or.inl (by simp [Config.base, below, hb])
  | overwrite _ _ _ _ _ _ _ _ _ _ top below _ => exact Or.inl (by simp [Config.base, top, below])
  | enter _ _ _ _ _ top below _ => exact Or.inl (by simp [Config.base, top, below])
  | leave _ _ _ _ _ below _ => exact Or.inl (by simp [Config.base, below])

/-- A slot with a value keeps one. -/
theorem Action.value (ha : Action c d) (hs : cellAt c.state.heap s = some (.list v 0))
    (hv : v ≠ 0) : ∃ w, w ≠ 0 ∧ cellAt d.state.heap s = some (.list w 0) := by
  cases ha with
  | record heap => exact ⟨v, hv, heap ▸ hs⟩
  | allocate allocates => exact ⟨v, hv, allocates.heap.cellAt hs⟩
  | bind heap => exact ⟨v, hv, heap.cellAt hs⟩
  | @overwrite h slot w copied _ fresh mem heap =>
    rw [heap]
    by_cases hne : slot = s
    · subst hne
      exact ⟨w, fresh.1, cellAt_overwritten (copied.cellAt hs)⟩
    · exact ⟨v, hv, (cellAt_overwritten_of_ne hne).trans (copied.cellAt hs)⟩
  | enter allocates => exact ⟨v, hv, allocates.heap.cellAt hs⟩
  | leave heap => exact ⟨v, hv, heap ▸ hs⟩

theorem BaseOk.step (hc : BaseOk c) (ha : Action c d) : BaseOk d := by
  have hvalues : ∀ b ∈ c.base, ∃ v, v ≠ 0 ∧ cellAt d.state.heap b.slot = some (.list v 0) := by
    intro b hb
    obtain ⟨v, hv, hs⟩ := hc.values b hb
    exact ha.value hs hv
  rcases ha.base with hbase | ⟨slot, v, name, -, hbase, hunbound, hvalue, hv, -⟩
  · exact ⟨hbase ▸ hc.named, hbase ▸ hc.distinct, hbase ▸ hvalues⟩
  · constructor
    case named =>
      intro b hb
      rw [hbase] at hb
      rcases List.mem_cons.1 hb with rfl | hb
      · exact ⟨name, rfl⟩
      · exact hc.named b hb
    case distinct =>
      rw [hbase, List.map_cons, List.nodup_cons]
      refine ⟨fun hmem => ?_, hc.distinct⟩
      obtain ⟨b, hb, hname⟩ := List.mem_map.1 hmem
      rw [slotOf, Option.map_eq_none_iff, List.find?_eq_none] at hunbound
      exact hunbound b hb (by simpa using hname)
    case values =>
      intro b hb
      rw [hbase] at hb
      rcases List.mem_cons.1 hb with rfl | hb
      · exact ⟨v, hv, hvalue⟩
      · exact hvalues b hb

theorem BaseOk.steps (hc : BaseOk c) (hs : Steps c d) : BaseOk d := by
  induction hs with
  | refl => exact hc
  | tail _ ha ih => exact ih.step ha

/-- Bindings of the global environment are only added. -/
theorem Steps.base_suffix (hs : Steps c d) : c.base <:+ d.base := by
  induction hs with
  | refl => exact List.suffix_rfl
  | tail _ ha ih =>
    rcases ha.base with hbase | ⟨_, _, _, -, hbase, -⟩
    · exact hbase ▸ ih
    · exact hbase ▸ ih.trans (List.suffix_cons _ _)

end base

section separated

/-- `cs` are the objects of the value in the slot `s`. -/
def Holds (h : Heap F) (s : Nat) (cs : List Nat) : Prop :=
  ∃ v t, v ≠ 0 ∧ cellAt h s = some (.list v 0) ∧ Reads h v t cs

theorem Holds.unique (h1 : Holds h s cs) (h2 : Holds h s ds) : cs = ds := by
  obtain ⟨v, t, -, hv, hr⟩ := h1
  obtain ⟨w, u, -, hw, hu⟩ := h2
  obtain ⟨rfl, -⟩ := Cell.list.inj (Option.some.inj (hv.symm.trans hw))
  exact (hr.unique hu).2

theorem Holds.congr (hh : Holds h s cs) (hs : cellAt h' s = cellAt h s)
    (hcs : ∀ a ∈ cs, cellAt h' a = cellAt h a) : Holds h' s cs := by
  obtain ⟨v, t, hv, hcell, hr⟩ := hh
  exact ⟨v, t, hv, hs.trans hcell, hr.congr hcs⟩

theorem Holds.le (hh : Holds h s cs) : s ≤ h.length ∧ ∀ a ∈ cs, a ≤ h.length := by
  obtain ⟨v, t, -, hcell, hr⟩ := hh
  exact ⟨(cellAt_le hcell).2, fun a ha => (hr.valid.2 a ha).2⟩

theorem Holds.mono (hh : Holds h s cs) (hext : Extends h h') : Holds h' s cs :=
  hh.congr (hext.cell hh.le.1) fun a ha => hext.cell (hh.le.2 a ha)

/-- Each slot owns the value that `set` or `init_env` stored in it. -/
structure Separated (c : Config F) : Prop where
  base : ∀ b ∈ c.base, b.slot ∈ c.state.trace.stored
  stored : ∀ s ∈ c.state.trace.stored, ∃ cs, Holds c.state.heap s cs ∧ cs.Nodup ∧
    ∀ a ∈ cs, ¬c.slots a ∧ a ∉ c.state.trace.stored ∧ a ∉ c.state.allocated
  disjoint : ∀ s ∈ c.state.trace.stored, ∀ s' ∈ c.state.trace.stored, s ≠ s' →
    ∀ cs cs', Holds c.state.heap s cs → Holds c.state.heap s' cs' → ∀ a ∈ cs, a ∉ cs'
  allocated : ∀ a ∈ c.state.allocated, a ≤ c.state.heap.length

/-- The value of a slot is the one it was. -/
def Kept (c d : Config F) (s : Nat) : Prop :=
  s ∈ c.state.trace.stored ∧ ∃ cs, Holds c.state.heap s cs ∧ Holds d.state.heap s cs

/-- The value of a slot consists of new objects. -/
def Renewed (c d : Config F) (s : Nat) : Prop :=
  ∃ cs, Holds d.state.heap s cs ∧ cs.Nodup ∧
    ∀ a ∈ cs, c.state.heap.length < a ∧ ¬d.slots a ∧ a ∉ d.state.trace.stored

/-- No value is written. -/
structure Keeps (c d : Config F) : Prop where
  stored : d.state.trace.stored = c.state.trace.stored
  kept : ∀ s ∈ c.state.trace.stored, Kept c d s
  allocated : ∀ a ∈ d.state.allocated,
    a ∈ c.state.allocated ∨ c.state.heap.length < a ∧ a ≤ d.state.heap.length

/-- One value is written, that of the slot `x`. -/
structure Writes (c d : Config F) (x : Nat) : Prop where
  stored : ∀ s ∈ d.state.trace.stored, s ≠ x → Kept c d s
  kept : ∀ s ∈ c.state.trace.stored, s ∈ d.state.trace.stored
  renewed : Renewed c d x
  old : c.slots x ∨ c.state.heap.length < x
  allocated : d.state.allocated = c.state.allocated

theorem Separated.kept_of_extends (hc : Separated c) (hext : Extends c.state.heap d.state.heap)
    (hs : s ∈ c.state.trace.stored) : Kept c d s := by
  obtain ⟨cs, hholds, -, -⟩ := hc.stored s hs
  exact ⟨hs, cs, hholds, hholds.mono hext⟩

theorem Action.writes (ha : Action c d) (hc : Separated c) :
    Keeps c d ∨ ∃ x, Writes c d x := by
  have hsame : d.state.heap = c.state.heap → ∀ s ∈ c.state.trace.stored, Kept c d s := by
    intro heap s hs
    exact hc.kept_of_extends (heap ▸ .refl _) hs
  cases ha with
  | record heap env allocated same =>
    exact Or.inl ⟨same.stored, hsame heap, fun a ha => Or.inl (allocated ▸ ha)⟩
  | allocate allocates env same =>
    obtain ⟨regs, hregs, -, hfresh⟩ := allocates.allocated
    refine Or.inl ⟨same.stored, fun s hs => hc.kept_of_extends allocates.heap hs, fun a ha => ?_⟩
    rcases List.mem_append.1 (hregs ▸ ha) with ha | ha
    · exact Or.inl ha
    · exact Or.inr (hfresh a ha)
  | @bind slot v name heap slot_new value fresh outside unbound allocated saved stored overwrites
      top below pending =>
    obtain ⟨hv, -, t, cs, hr, hnodup, hfresh⟩ := fresh
    refine Or.inr ⟨slot, ?_, ?_, ⟨cs, ⟨v, t, hv, value, hr⟩, hnodup, ?_⟩, Or.inr slot_new,
      allocated⟩
    · intro s hs hne
      rw [stored] at hs
      exact hc.kept_of_extends heap ((List.mem_cons.1 hs).resolve_left hne)
    · intro s hs
      rw [stored]
      exact List.mem_cons_of_mem _ hs
    · intro a ha
      have hlt := hfresh a ha
      have hne : a ≠ slot := fun h => outside t cs hr (h ▸ ha)
      refine ⟨hlt, fun hs => ?_, fun hm => ?_⟩
      · rcases hs with hs | hs
        · rw [top] at hs
          have := slots_le c (Or.inl ((List.mem_cons.1 hs).resolve_left hne))
          omega
        · have := slots_le c (Or.inr (pending ▸ hs))
          omega
      · rw [stored] at hm
        obtain ⟨cs', hholds, -⟩ := hc.stored a ((List.mem_cons.1 hm).resolve_left hne)
        have := hholds.le.1
        omega
  | @overwrite h slot v copied _ fresh mem heap env allocated saved stored overwrites top below
      pending =>
    obtain ⟨hv, -, t, cs, hr, hnodup, hfresh⟩ := fresh
    have hslot : c.slots slot := Or.inl mem
    have hkept : ∀ s ∈ c.state.trace.stored, s ≠ slot → Kept c d s := by
      intro s hs hne
      obtain ⟨ds, hholds, -, hds⟩ := hc.stored s hs
      refine ⟨hs, ds, hholds, ?_⟩
      rw [heap]
      have hmono := hholds.mono copied
      refine hmono.congr (cellAt_overwritten_of_ne (Ne.symm hne)) fun a ha => ?_
      exact cellAt_overwritten_of_ne fun he => (hds a ha).1 (he ▸ hslot)
    obtain ⟨b, hb, rfl⟩ := List.mem_map.1 mem
    obtain ⟨w, hw⟩ := c.wf.env.slot_mem hb
    have hle := slots_le c hslot
    refine Or.inr ⟨b.slot, ?_, fun s hs => stored ▸ List.mem_cons_of_mem _ hs,
      ⟨cs, ⟨v, t, hv, ?_, ?_⟩, hnodup, fun a ha => ?_⟩, Or.inl hslot, allocated⟩
    · intro s hs hne
      rw [stored] at hs
      exact hkept s ((List.mem_cons.1 hs).resolve_left hne) hne
    · rw [heap]
      exact cellAt_overwritten (copied.cellAt hw)
    · rw [heap]
      refine hr.congr fun a ha => cellAt_overwritten_of_ne fun he => ?_
      have := hfresh a ha
      omega
    · have hlt := hfresh a ha
      refine ⟨hlt, fun hs => ?_, fun hm => ?_⟩
      · have hs' : c.slots a := by
          simpa [Config.slots, top, pending] using hs
        have := slots_le c hs'
        omega
      · rw [stored] at hm
        rcases List.mem_cons.1 hm with rfl | hm
        · omega
        · obtain ⟨cs', hholds, -⟩ := hc.stored a hm
          have := hholds.le.1
          omega
  | enter allocates frame_new saved stored =>
    obtain ⟨regs, hregs, -, hfresh⟩ := allocates.allocated
    refine Or.inl ⟨stored, fun s hs => hc.kept_of_extends allocates.heap hs, fun a ha => ?_⟩
    rcases List.mem_append.1 (hregs ▸ ha) with ha | ha
    · exact Or.inl ha
    · exact Or.inr (hfresh a ha)
  | leave heap allocated saved stored =>
    exact Or.inl ⟨stored, hsame heap, fun a ha => Or.inl (allocated ▸ ha)⟩

theorem Kept.apart (hk : Kept c d s) (hc : Separated c) (hs : Steps c d)
    (hstored : ∀ a ≤ c.state.heap.length, a ∈ d.state.trace.stored →
      a ∈ c.state.trace.stored ∨ c.slots a)
    (halloc : ∀ a ≤ c.state.heap.length, a ∈ d.state.allocated → a ∈ c.state.allocated) :
    ∃ cs, Holds c.state.heap s cs ∧ Holds d.state.heap s cs ∧ cs.Nodup ∧
      ∀ a ∈ cs, ¬d.slots a ∧ a ∉ d.state.trace.stored ∧ a ∉ d.state.allocated := by
  obtain ⟨hsm, cs, h1, h2⟩ := hk
  obtain ⟨ds, h3, hnodup, hds⟩ := hc.stored s hsm
  obtain rfl := h1.unique h3
  refine ⟨cs, h1, h2, hnodup, fun a ha => ?_⟩
  obtain ⟨hslots, hm, hall⟩ := hds a ha
  have hle := h1.le.2 a ha
  refine ⟨fun h => hslots (hs.later.slots a hle h), fun h => ?_, fun h => hall (halloc a hle h)⟩
  rcases hstored a hle h with h | h
  · exact hm h
  · exact hslots h

theorem Separated.step (hc : Separated c) (ha : Action c d) : Separated d := by
  have hsteps := Steps.single ha
  have hlen : c.state.heap.length ≤ d.state.heap.length := ha.later.evolves.1
  have hbase : (∀ s ∈ c.state.trace.stored, s ∈ d.state.trace.stored) →
      ∀ b ∈ d.base, b.slot ∈ d.state.trace.stored := by
    intro hmono b hb
    rcases ha.base with h | ⟨slot, v, name, -, h, -, -, -, hstored⟩
    · exact hmono _ (hc.base b (h ▸ hb))
    · rw [h] at hb
      rcases List.mem_cons.1 hb with rfl | hb
      · exact hstored
      · exact hmono _ (hc.base b hb)
  rcases ha.writes hc with ⟨hstored, hkept, halloc⟩ | ⟨x, hstored, hmono, hrenewed, hold, halloc⟩
  · have hapart : ∀ s ∈ d.state.trace.stored, ∃ cs, Holds c.state.heap s cs ∧
        Holds d.state.heap s cs ∧ cs.Nodup ∧
        ∀ a ∈ cs, ¬d.slots a ∧ a ∉ d.state.trace.stored ∧ a ∉ d.state.allocated := by
      intro s hs
      refine (hkept s (hstored ▸ hs)).apart hc hsteps (fun a _ h => Or.inl (hstored ▸ h)) ?_
      intro a hle h
      rcases halloc a h with h | h
      · exact h
      · omega
    constructor
    case base => exact hbase fun s hs => hstored ▸ hs
    case stored =>
      intro s hs
      obtain ⟨cs, -, hholds, hnodup, hcs⟩ := hapart s hs
      exact ⟨cs, hholds, hnodup, hcs⟩
    case disjoint =>
      intro s hs s' hs' hne cs cs' h1 h2
      obtain ⟨ds, hd, hd', -⟩ := hapart s hs
      obtain ⟨ds', he, he', -⟩ := hapart s' hs'
      obtain rfl := h1.unique hd'
      obtain rfl := h2.unique he'
      exact hc.disjoint s (hstored ▸ hs) s' (hstored ▸ hs') hne _ _ hd he
    case allocated =>
      intro a h
      rcases halloc a h with h | h
      · exact (hc.allocated a h).trans hlen
      · exact h.2
  · have hback : ∀ a ≤ c.state.heap.length, a ∈ d.state.trace.stored →
        a ∈ c.state.trace.stored ∨ c.slots a := by
      intro a hle h
      by_cases hax : a = x
      · subst hax
        rcases hold with h | h
        · exact Or.inr h
        · omega
      · exact Or.inl (hstored a h hax).1
    have hapart : ∀ s ∈ d.state.trace.stored, s ≠ x → ∃ cs, Holds c.state.heap s cs ∧
        Holds d.state.heap s cs ∧ cs.Nodup ∧
        ∀ a ∈ cs, ¬d.slots a ∧ a ∉ d.state.trace.stored ∧ a ∉ d.state.allocated := by
      intro s hs hne
      exact (hstored s hs hne).apart hc hsteps hback fun a _ h => halloc ▸ h
    obtain ⟨xs, hxs, hnodup, hfresh⟩ := hrenewed
    constructor
    case base => exact hbase hmono
    case stored =>
      intro s hs
      by_cases hsx : s = x
      · subst hsx
        refine ⟨xs, hxs, hnodup, fun a h => ⟨(hfresh a h).2.1, (hfresh a h).2.2, fun hall => ?_⟩⟩
        have := hc.allocated a (halloc ▸ hall)
        have := (hfresh a h).1
        omega
      · obtain ⟨cs, -, hholds, hnodup, hcs⟩ := hapart s hs hsx
        exact ⟨cs, hholds, hnodup, hcs⟩
    case disjoint =>
      have hfirst : ∀ s ∈ d.state.trace.stored, s ≠ x → ∀ cs, Holds d.state.heap s cs →
          ∀ a ∈ cs, a ∉ xs := by
        intro s hs hne cs h1 a ha hax
        obtain ⟨ds, hd, hd', -⟩ := hapart s hs hne
        obtain rfl := h1.unique hd'
        have := hd.le.2 a ha
        have := (hfresh a hax).1
        omega
      intro s hs s' hs' hne cs cs' h1 h2 a ha ha'
      by_cases hsx : s = x
      · subst hsx
        obtain rfl := h1.unique hxs
        exact hfirst s' hs' (Ne.symm hne) cs' h2 a ha' ha
      · by_cases hsx' : s' = x
        · subst hsx'
          obtain rfl := h2.unique hxs
          exact hfirst s hs hne cs h1 a ha ha'
        · obtain ⟨ds, hd, hd', -⟩ := hapart s hs hsx
          obtain ⟨ds', he, he', -⟩ := hapart s' hs' hsx'
          obtain rfl := h1.unique hd'
          obtain rfl := h2.unique he'
          exact hc.disjoint s (hstored s hs hsx).1 s' (hstored s' hs' hsx').1 hne _ _ hd he a ha ha'
    case allocated =>
      intro a h
      exact (hc.allocated a (halloc ▸ h)).trans hlen

theorem Separated.steps (hc : Separated c) (hs : Steps c d) : Separated d := by
  induction hs with
  | refl => exact hc
  | tail _ ha ih => exact ih.step ha

end separated
end Lisp
