import Lisp.Accounting
import Lisp.ProgramFile

/-! The objects of whole sessions: which of them are freed between two calls of
`interpret_expression`, and what `interpreter_dispose` frees. -/
namespace Lisp
open ExceptState
variable {F : Type} {c d e : Config F} {h : Heap F} {a e₂ x z : Nat} {s t u : Interpreter F}
  {tree tree₂ : Obj F} {cs c₂ : List Nat}

section initial

/-- A list that is linked after another adds its objects to it. -/
theorem Reads.linked (hz : LastCell h a z) (hr : Reads h a tree cs) (hcs : cs.Nodup)
    (h₂ : Reads h e₂ tree₂ c₂) (hz₂ : z ∉ c₂) :
    ∃ u ds, Reads (linked h z e₂) a u ds ∧ ds.Perm (cs ++ c₂) := by
  obtain ⟨w, hzc⟩ := hz.cell
  have hkeep : ∀ {b u ds}, Reads h b u ds → z ∉ ds → Reads (Lisp.linked h z e₂) b u ds :=
    fun hb hzs => hb.congr fun y hy => cellAt_linked_of_ne fun he => hzs (he ▸ hy)
  induction hz generalizing tree cs with
  | @here e x he =>
    obtain ⟨tx, tn, cx, cn, -, rfl, hx, hn⟩ := hr.of_list he
    obtain ⟨-, rfl⟩ := hn.unique .null
    have hex : e ∉ cx := fun hm => (List.nodup_append.1 hcs).2.2 e (by simp [hm]) e (by simp) rfl
    refine ⟨_, _, .list (cellAt_linked he) (hkeep hx hex) (hkeep h₂ hz₂), ?_⟩
    have hmove : (c₂ ++ [e]).Perm ([e] ++ c₂) := List.perm_append_comm
    simpa using hmove.append_left cx
  | @next e x y z he hy hz ih =>
    obtain ⟨tx, tn, cx, cn, -, rfl, hx, hn⟩ := hr.of_list he
    obtain ⟨hxn, -, hne⟩ := List.nodup_append.1 hcs
    obtain ⟨-, hcn, hdisj⟩ := List.nodup_append.1 hxn
    have hzn := hz.mem hn
    have hez : e ≠ z := fun h => hne z (by simp [hzn]) e (by simp) h.symm
    obtain ⟨u, ds, hds, hperm⟩ := ih hn hcn hz₂ hzc hkeep
    have hx' := hkeep hx fun hm => hdisj z hm z hzn rfl
    refine ⟨_, _, .list ((cellAt_linked_of_ne hez).trans he) hx' hds, ?_⟩
    rw [List.append_assoc, List.append_assoc, List.append_assoc]
    refine List.Perm.append_left _ ?_
    exact (hperm.append_right _).trans (by
      rw [List.append_assoc]
      exact List.perm_append_comm.append_left _)

/-- Every object that `init_env` makes is part of the environment, once. -/
theorem initEnv_objects [CFloat F] : ∃ t ds, Reads (initEnv (F := F)).2 (initEnv (F := F)).1 t ds ∧
    ds.Perm (List.range' 1 (initEnv (F := F)).2.length) := by
  obtain ⟨tP, hP, -⟩ := built_createEnvironment (F := F) primitiveLibrary []
  obtain ⟨bsP, vsP, hcP⟩ := created_environment (F := F) primitiveLibrary
    (fun p hp => isTruthName_initLibrary p (List.mem_append_right _ hp)) []
  have hneP : (createEnvironment ([] : Heap F) primitiveLibrary).1 ≠ 0 := by
    simp [primitiveLibrary, createEnvironment, alloc_fst]
  generalize hprim : createEnvironment ([] : Heap F) primitiveLibrary = prim at hP hcP hneP
  obtain ⟨tM, hM, -⟩ := built_createEnvironment (F := F) mathLibrary prim.2
  obtain ⟨bsM, vsM, hcM⟩ := created_environment (F := F) mathLibrary
    (fun p hp => isTruthName_initLibrary p (List.mem_append_left _ hp)) prim.2
  have hneM : (createEnvironment prim.2 mathLibrary).1 ≠ 0 := by
    simp [mathLibrary, createEnvironment, alloc_fst]
  generalize hmath : createEnvironment prim.2 mathLibrary = math at hM hcM hneM
  have hinit : initEnv (F := F) = joinLists math.2 math.1 prim.1 := by
    simp only [initEnv, hprim, hmath]
  have hnil : HeapOk ([] : Heap F) fun _ => False := by
    refine ⟨fun a ha => ?_, fun a c hc => ?_⟩
    · obtain rfl := Nat.le_zero.1 ha
      exact ⟨_, _, .null⟩
    · have : 0 < a ∧ a ≤ 0 := cellAt_le hc
      omega
  obtain ⟨-, hokP, -⟩ := hcP.list (fun _ => False) (fun _ _ _ h => h.elim) hnil
  obtain ⟨henvM, -, hspine⟩ := hcM.list (fun _ => False) (fun _ _ _ h => h.elim) hokP
  obtain ⟨z, hz, -⟩ := henvM.lastCell hneM
  have hlen := hM.heap.1
  obtain ⟨u, ds, hread, hperm⟩ := hM.reads.linked hz List.nodup_range' (hP.reads.mono hM.heap)
    fun hm => by
      have := hspine z hz
      rw [List.mem_range'_1] at hm
      simp only [List.length_nil] at hm
      omega
  rw [hinit, joinLists_eq hz hM.reads hneP]
  refine ⟨u, ds, hread, hperm.trans (List.perm_append_comm.trans (List.Perm.of_eq ?_))⟩
  have hjoin := range'_join (Nat.zero_le prim.2.length) hlen
  simpa only [List.length_nil, Nat.zero_add, Nat.sub_zero, length_linked] using hjoin

end initial

section collection

theorem SameObjects.freed_iff {h' : Heap F} (hs : SameObjects h h') : Freed h' a ↔ Freed h a := by
  constructor
  · rintro ⟨o, ho, hf⟩
    obtain ⟨o', ho', hf'⟩ := hs.freed a o ho
    exact ⟨o', ho', hf'.trans hf⟩
  · rintro ⟨o, ho, hf⟩
    have hle := (Freed.le ⟨o, ho, hf⟩).2
    obtain ⟨o', ho'⟩ := objectAt_of_le (h := h') (Freed.le ⟨o, ho, hf⟩).1 (hs.cells.1 ▸ hle)
    obtain ⟨o'', ho'', hf''⟩ := hs.freed a o' ho'
    obtain rfl := Option.some.inj (ho.symm.trans ho'')
    exact ⟨o', ho', hf''.symm.trans hf⟩

/-- A collection that keeps no entry frees all of them. -/
theorem freed_collectGarbage (hempty : (collectGarbage s).allocated = []) :
    Freed (collectGarbage s).heap a ↔
      Freed s.heap a ∨ a ∈ s.allocated ∧ 0 < a ∧ a ≤ s.heap.length := by
  have hmarked := sameObjects_marked s
  have hfilter : (s.allocated.filter fun o => !isReachable (marked s) o) = s.allocated := by
    refine List.filter_eq_self.2 fun b hb => ?_
    simpa using List.filter_eq_nil_iff.1 hempty b hb
  simp only [collectGarbage, hfilter]
  rw [freed_foldl_dispose, hmarked.freed_iff, hmarked.cells.1]

/-- The objects of a tree are those that can be reached from its root. -/
theorem Reads.reachable_of_mem (hr : Reads h a tree cs) (hx : x ∈ cs) : Reachable h a x := by
  have hhead : ∀ {a b y : Nat} {k : Cell F}, cellAt h a = some k → b ∈ k.parts →
      Reachable h b y → Reachable h a y := by
    intro a b y k hk hb hy
    induction hy with
    | refl => exact .step .refl hk hb
    | step _ hk' hz ih => exact .step ih hk' hz
  induction hr with
  | null => simp at hx
  | leaf => exact List.mem_singleton.1 hx ▸ .refl
  | list ha _ _ ihx ihy =>
    simp only [List.mem_append, List.mem_singleton] at hx
    rcases hx with (hx | hx) | rfl
    · exact hhead ha (by simp [Cell.parts]) (ihx hx)
    · exact hhead ha (by simp [Cell.parts]) (ihy hx)
    · exact .refl
  | closure ha _ _ _ ihp ihb ihc =>
    simp only [List.mem_append, List.mem_singleton] at hx
    rcases hx with ((hx | hx) | hx) | rfl
    · exact hhead ha (by simp [Cell.parts]) (ihp hx)
    · exact hhead ha (by simp [Cell.parts]) (ihb hx)
    · exact hhead ha (by simp [Cell.parts]) (ihc hx)
    · exact .refl

/-- The objects of the global environment are those that the collector can reach. -/
theorem Config.mem_globals (hb : c.below = []) :
    a ∈ c.globals ↔ Reachable c.state.heap c.state.env a ∧ a ≠ 0 := by
  obtain ⟨t, hr⟩ := c.reads_globals
  rw [Config.baseEnv_of_nil hb] at hr
  constructor
  · exact fun ha => ⟨hr.reachable_of_mem ha, Nat.pos_iff_ne_zero.1 (hr.valid.2 a ha).1⟩
  · exact fun ha => hr.reachable_mem ha.1 ha.2

end collection

section aside
variable {l lost : List Nat}

/-- Objects that nothing will free: the collector does not know them, and they are part of neither
the global environment nor a value that `set` stored. -/
structure Aside (l : List Nat) (c : Config F) : Prop where
  valid : ∀ a ∈ l, 0 < a ∧ a ≤ c.state.heap.length
  live : ∀ a ∈ l, ¬Freed c.state.heap a
  unknown : ∀ a ∈ l, a ∉ c.state.allocated
  outside : ∀ a ∈ l, a ∉ c.globals
  apart : ∀ s ∈ c.state.trace.stored, ∀ cs, Holds c.state.heap s cs → ∀ a ∈ cs, a ∉ l

theorem Aside.extends (hl : Aside l c) (hsep : Separated c)
    (heap : Extends c.state.heap d.state.heap)
    (allocated : ∀ a ∈ d.state.allocated, a ∈ c.state.allocated ∨ c.state.heap.length < a)
    (globals : ∀ a ∈ d.globals, a ∈ c.globals ∨ c.state.heap.length < a)
    (stored : ∀ s ∈ d.state.trace.stored, s ∈ c.state.trace.stored ∨
      ∀ cs, Holds d.state.heap s cs → ∀ a ∈ cs, c.state.heap.length < a) : Aside l d := by
  have hold : ∀ {a}, a ∈ l → ¬c.state.heap.length < a := fun ha => Nat.not_lt.2 (hl.valid _ ha).2
  constructor
  case valid => exact fun a ha => ⟨(hl.valid a ha).1, (hl.valid a ha).2.trans heap.1⟩
  case live =>
    intro a ha
    rw [heap.freed_iff (hl.valid a ha).2]
    exact hl.live a ha
  case unknown => exact fun a ha hm => (allocated a hm).elim (hl.unknown a ha) (hold ha)
  case outside => exact fun a ha hm => (globals a hm).elim (hl.outside a ha) (hold ha)
  case apart =>
    intro s hs cs hcs a ha hal
    rcases stored s hs with hs | hnew
    · exact hl.apart s hs cs (hsep.holds_old heap hs hcs).1 a ha hal
    · exact hold hal (hnew cs hcs a ha)

/-- What `set` adds to the global environment is new. -/
theorem Action.bind_globals {key pair slot v : Nat} {n : Text}
    (heap : Extends c.state.heap d.state.heap) (slot_new : c.state.heap.length < slot)
    (value : cellAt d.state.heap slot = some (.list v 0))
    (fresh : FreshValue c.state.heap d.state.heap v)
    (saved : d.state.trace.saved = c.state.trace.saved)
    (henv : cellAt d.state.heap d.state.env = some (.list pair c.state.env))
    (hpair : cellAt d.state.heap pair = some (.list key slot))
    (hkey : cellAt d.state.heap key = some (.atom n)) (henv_new : c.state.heap.length < d.state.env)
    (hpair_new : c.state.heap.length < pair) (hkey_new : c.state.heap.length < key) :
    ∀ a ∈ d.globals, a ∈ c.globals ∨ c.state.heap.length < a := by
  cases hsaved : c.state.trace.saved with
  | cons env rest =>
    have hbase : d.baseEnv = c.baseEnv := by simp [Config.baseEnv, saved, hsaved]
    intro a ha
    exact Or.inl (heap.globals hbase ▸ ha)
  | nil =>
    obtain ⟨t, hr⟩ := c.reads_globals
    obtain ⟨-, -, tv, cv, hv, -, hcv⟩ := fresh
    have hbase : c.baseEnv = c.state.env := by simp [Config.baseEnv, hsaved]
    have hbase' : d.baseEnv = d.state.env := by simp [Config.baseEnv, saved, hsaved]
    have hold := hr.mono heap
    rw [hbase] at hold
    have hread := Reads.list henv (.list hpair (.leaf hkey rfl) (.list value hv .null)) hold
    rw [← hbase'] at hread
    rw [Config.globals_eq hread]
    intro a ha
    simp only [List.append_nil, List.mem_append, List.mem_singleton] at ha
    rcases ha with (((rfl | ha | rfl) | rfl) | ha) | rfl
    · exact Or.inr hkey_new
    · exact Or.inr (hcv a ha)
    · exact Or.inr slot_new
    · exact Or.inr hpair_new
    · exact Or.inl ha
    · exact Or.inr (hbase' ▸ henv_new)

/-- The objects that an overwriting frees are part of a stored value. -/
theorem Separated.freed_stored {slot : Nat} (hsep : Separated c)
    (hext : Extends c.state.heap h) (hstored : d.state.trace.stored = slot :: c.state.trace.stored)
    (hoverwrites : d.state.trace.overwrites = c.overwriting h slot :: c.state.trace.overwrites)
    (hbase : d.base = c.base) (hd : Sparing d) (ha : a ∈ disposed h (car h slot)) :
    slot ∈ c.state.trace.stored ∧ ∃ cs, Holds c.state.heap slot cs ∧ a ∈ cs := by
  have hslot : slot ∈ c.state.trace.stored := by
    rcases hd with hd | hd
    · obtain ⟨b, hb, rfl⟩ := List.mem_map.1 (hd slot (hstored ▸ List.mem_cons_self))
      exact hsep.base b (hbase ▸ hb)
    · rcases hd _ (hoverwrites ▸ List.mem_cons_self) with hnull | ⟨hslot, -⟩
      · have hnil : disposed h (car h slot) = [] :=
          Overwrite.freed_zero (o := c.overwriting h slot) hnull
        simp [hnil] at ha
      · exact hslot
  obtain ⟨cs, hcs, -⟩ := hsep.stored slot hslot
  rw [(hcs.mono hext).freed] at ha
  exact ⟨hslot, cs, hcs, ha⟩

theorem Aside.step (hl : Aside l c) (hsep : Separated c) (ha : Action c d) (hd : Sparing d) :
    Aside l d := by
  have hsame : ∀ {s}, d.state.trace.stored = c.state.trace.stored → s ∈ d.state.trace.stored →
      s ∈ c.state.trace.stored ∨ ∀ cs, Holds d.state.heap s cs → ∀ a ∈ cs,
        c.state.heap.length < a := fun h hs => Or.inl (h ▸ hs)
  have hleaves : d.state.trace.stored = c.state.trace.stored →
      (∀ a ∈ d.state.allocated, a ∈ c.state.allocated ∨ c.state.heap.length < a) → Aside l d := by
    intro hstored hallocated
    have hlv := ha.leaves hstored
    exact hl.extends hsep hlv.heap hallocated (fun a hm => Or.inl (hlv.globals ▸ hm))
      fun s => hsame hstored
  have hallocates : Allocates c.state d.state →
      ∀ a ∈ d.state.allocated, a ∈ c.state.allocated ∨ c.state.heap.length < a := by
    rintro ⟨-, regs, hregs, -, hnew⟩ a hm
    rw [hregs] at hm
    exact (List.mem_append.1 hm).imp_right fun hm => (hnew a hm).1
  cases ha with
  | record heap env allocated same => exact hleaves same.stored fun a hm => Or.inl (allocated ▸ hm)
  | allocate allocates env same => exact hleaves same.stored (hallocates allocates)
  | @bind slot v n heap slot_new value fresh outside unbound allocated saved stored overwrites top
      below pending link =>
    obtain ⟨key, pair, henv, hpair, hkey, henv_new, hpair_new, hkey_new⟩ := link
    refine hl.extends hsep heap (fun a hm => Or.inl (allocated ▸ hm)) (Action.bind_globals heap
      slot_new value fresh saved henv hpair hkey henv_new hpair_new hkey_new) fun s hs => ?_
    rw [stored] at hs
    rcases List.mem_cons.1 hs with rfl | hs
    · obtain ⟨hv0, -, t, cv, hv, -, hnew⟩ := fresh
      refine Or.inr fun cs hcs a ha => hnew a ?_
      obtain rfl := hcs.unique ⟨v, t, hv0, value, hv⟩
      exact ha
    · exact Or.inl hs
  | @overwrite h slot v copied readable fresh mem heap env allocated saved stored overwrites top
      below =>
    have hbase : d.base = c.base := by simp [Config.base, top, below]
    have hbaseEnv : d.baseEnv = c.baseEnv := by simp only [Config.baseEnv, env, saved]
    obtain ⟨hv0, hlive, tv, cv, hv, -, hcv⟩ := fresh
    obtain ⟨b, hb, rfl⟩ := List.mem_map.1 mem
    obtain ⟨y, hy⟩ := c.wf.env.slot_mem hb
    have hslot := slots_le c (Or.inl mem)
    have hne : ∀ z, z ≠ b.slot → cellAt d.state.heap z = cellAt h z := fun z hz => by
      rw [heap, cellAt_overwritten_of_ne (Ne.symm hz)]
    have hcell : cellAt d.state.heap b.slot = some (.list v 0) := by
      rw [heap, cellAt_overwritten (copied.cellAt hy)]
    have hv' : Reads d.state.heap v tv cv := by
      refine hv.congr fun a ha => hne a ?_
      rintro rfl
      have := hcv _ ha
      omega
    constructor
    case valid =>
      intro a ha
      rw [heap, length_overwritten]
      exact ⟨(hl.valid a ha).1, (hl.valid a ha).2.trans copied.1⟩
    case live =>
      intro a ha
      rw [heap, freed_overwritten, copied.freed_iff (hl.valid a ha).2, not_or]
      refine ⟨hl.live a ha, fun hm => ?_⟩
      obtain ⟨hs, cs, hcs, hac⟩ := hsep.freed_stored copied stored overwrites hbase hd hm.1
      exact hl.apart _ hs cs hcs a hac ha
    case unknown => exact allocated ▸ hl.unknown
    case outside =>
      obtain ⟨t, hr⟩ := c.reads_globals
      obtain ⟨t', cs', hr', hcs'⟩ := (hr.mono copied).replace hne (.list hcell hv' .null)
      rw [← hbaseEnv] at hr'
      intro a ha hm
      rw [Config.globals_eq hr'] at hm
      rcases hcs' a hm with hm | ⟨hs, hm⟩
      · exact hl.outside a ha hm
      · simp only [List.append_nil, List.mem_append, List.mem_singleton] at hm
        rcases hm with hm | rfl
        · exact absurd (hcv a hm) (Nat.not_lt.2 (hl.valid a ha).2)
        · exact hl.outside _ ha hs
    case apart =>
      intro s hs cs hcs a ha hal
      rw [stored] at hs
      by_cases hsb : s = b.slot
      · subst hsb
        obtain rfl := hcs.unique ⟨v, tv, hv0, hcell, hv'⟩
        exact absurd (hcv a ha) (Nat.not_lt.2 (hl.valid a hal).2)
      · have hs' := (List.mem_cons.1 hs).resolve_left hsb
        obtain ⟨ds, hds, -, hapart⟩ := hsep.stored s hs'
        have hholds : Holds d.state.heap s ds := (hds.mono copied).congr (hne s hsb) fun a ha =>
          hne a fun he => (hapart a ha).1 (he ▸ Or.inl mem)
        obtain rfl := hcs.unique hholds
        exact hl.apart s hs' _ hds a ha hal
  | enter allocates frame_new saved stored => exact hleaves stored (hallocates allocates)
  | leave heap allocated saved stored => exact hleaves stored fun a hm => Or.inl (allocated ▸ hm)

theorem Aside.steps (hl : Aside l c) (hsep : Separated c) (hs : Steps c d) (hd : Sparing d) :
    Aside l d := by
  induction hs with
  | refl => exact hl
  | tail hs ha ih =>
    rename_i d e
    exact (ih ((Steps.single ha).sparing (hsep.steps hs) hd)).step (hsep.steps hs) ha hd

end aside

section dispose

/-- What `interpreter_dispose` frees: the objects that the collector knows, then those of the
environment. -/
def interpreterDisposed (s : Interpreter F) : List Nat := s.allocated ++ disposed s.heap s.env

/-- `interpreter_dispose`. -/
def interpreterDispose (s : Interpreter F) : Heap F :=
  disposeRecursive (s.allocated.foldl dispose s.heap) s.env

theorem length_interpreterDispose (s : Interpreter F) :
    (interpreterDispose s).length = s.heap.length :=
  (length_foldl_dispose _ _).trans (length_foldl_dispose _ _)

theorem freed_interpreterDispose (hr : Reads s.heap s.env tree cs) :
    Freed (interpreterDispose s) a ↔
      Freed s.heap a ∨ a ∈ interpreterDisposed s ∧ 0 < a ∧ a ≤ s.heap.length := by
  have hsame : SameCells s.heap (s.allocated.foldl dispose s.heap) :=
    sameCells_foldl (fun o => { o with freed := true }) (fun _ => rfl) _ _
  rw [interpreterDispose, freed_disposeRecursive, freed_foldl_dispose, hsame.1.symm,
    (hr.sameCells hsame).disposed, interpreterDisposed, hr.disposed, List.mem_append]
  tauto

end dispose

section managed
variable {lost : List Nat}

/-- A configuration between two expressions. As long as the overwritten bindings owned their values,
no object of the environment and none of `lost` is freed; as long as `set` stores values in the
environment only, every other object is known to the collector or freed. -/
structure Managed (c : Config F) (lost : List Nat) : Prop extends Between c c.state where
  clean : Clean c
  recorded : Recorded c
  intact : Sparing c → Intact c
  aside : Sparing c → Aside lost c
  accounted : Contained c → ∀ a, 0 < a → a ≤ c.state.heap.length → Accounted c a ∨ a ∈ lost

theorem managed_init [CFloat F] : ∃ c : Config F, c.state = interpreterInit ∧ Managed c [] := by
  obtain ⟨c, hc, hrec⟩ := Session.recorded (F := F) .init
  obtain ⟨c', hstate', hi⟩ := initialized (F := F)
  obtain ⟨t, ds, hread, hperm⟩ := initEnv_objects (F := F)
  have hstate := hc.state
  have hempty : c.state.allocated = [] := by rw [hstate]; rfl
  have hglobals : c.globals = ds := by
    refine Config.globals_eq (t := t) ?_
    rw [Config.baseEnv_of_nil hc.below, hstate]
    simpa only [interpreterInit] using hread
  refine ⟨c, hstate, ⟨rfl, hc.below, hc.pending, hc.base, hc.separated⟩,
    clean_of_nil hempty hc.below, hrec, fun _ => ⟨?_, ?_, ?_⟩, fun _ => ?_, fun _ a hpos hle => ?_⟩
  · exact hglobals ▸ hperm.nodup_iff.2 List.nodup_range'
  · rintro a ha ⟨o, ho, hf⟩
    have hlive := hi.live a o (c.globals_le ha).1 (by rw [hstate', ← hstate]; exact ho)
    exact Bool.false_ne_true (hlive.symm.trans hf)
  · intro s hs hsb
    have hslots := c.slotsOf_env (.refl _)
    rw [Config.base_of_nil hc.below, ← hslots, hstate] at hsb
    rw [hstate] at hs
    simp only [interpreterInit] at hs hsb
    exact absurd hs hsb
  · constructor <;> simp
  · refine Or.inl (Or.inr (hglobals ▸ hperm.mem_iff.2 (List.mem_range'_1.2 ⟨hpos, ?_⟩)))
    rw [hstate] at hle
    simp only [interpreterInit] at hle
    omega

theorem Managed.tracked (hc : Managed c lost) (hs : Steps c d) (hbal : Balanced c d)
    (ht : Tracked c d) : Managed d lost := by
  have hsep := hc.separated
  refine ⟨⟨rfl, hbal.below.trans hc.below, hbal.pending.trans hc.pending, hc.base.steps hs,
    hsep.steps hs⟩, hc.clean.steps hs, hc.recorded.steps hsep hs, fun hd => ?_, fun hd => ?_,
    fun hd a hpos hle => ?_⟩
  · exact ht.intact hd (hc.intact (hs.sparing hsep hd))
  · exact (hc.aside (hs.sparing hsep hd)).steps hsep hs hd
  · have hcont := hs.contained hsep hd
    have hi := hc.intact (Or.inl hcont)
    rcases Nat.lt_or_ge c.state.heap.length a with hlt | hge
    · exact Or.inl (ht.new hd hi a hlt hle)
    · exact (hc.accounted hcont a hpos hge).imp_left (ht.keeps hd hi a)

/-- A parsed expression is known to the collector. -/
theorem loaded_registers (s : Interpreter F) (tree : Obj F) : Registers s (loaded s tree) := by
  intro a hlt hle
  refine Or.inl (List.mem_append_right _ ((load_built s.heap tree).mem_disposed hlt ?_))
  exact hle.trans (Nat.le_of_eq sameCells_flagged.1)

/-- The objects of a parsed expression. -/
def parsedObjects (h : Heap F) (tree : Obj F) : List Nat :=
  disposed (load h tree).2 (load h tree).1

theorem mem_parsedObjects :
    a ∈ parsedObjects h tree ↔ h.length < a ∧ a ≤ (load h tree).2.length := by
  have hload := load_built h tree
  have := hload.heap.1
  rw [parsedObjects, hload.reads.disposed, List.mem_range'_1]
  omega

/-- A parsed expression that the collector is not told of. -/
theorem Managed.parsed (hc : Managed c lost) (ht : tree.Ok) : ∃ d : Config F,
    d.state = { c.state with heap := (load c.state.heap tree).2 } ∧
      Managed d (lost ++ parsedObjects c.state.heap tree) := by
  have hload := load_built c.state.heap tree
  have hsep := hc.separated
  obtain ⟨d, hd, ha, hbal, -⟩ := Extended.reached (c := c)
    (s := { c.state with heap := (load c.state.heap tree).2 })
    ⟨⟨hload.heap, [], by simp⟩, c.wf.heap.built hload ht fun a ha => slots_le c ha, rfl, rfl⟩
  have hs := Steps.single ha
  have hl := ha.leaves (by rw [hd])
  refine ⟨d, hd, ⟨rfl, hbal.below.trans hc.below, hbal.pending.trans hc.pending, hc.base.steps hs,
    hsep.steps hs⟩, hc.clean.steps hs, hc.recorded.steps hsep hs, fun hsp => ?_, fun hsp => ?_,
    fun hcont a hpos hle => ?_⟩
  · exact hl.intact hsep (hc.intact (hs.sparing hsep hsp))
  · have hold := (hc.aside (hs.sparing hsep hsp)).step hsep ha hsp
    have hnew : ∀ {a}, a ∈ parsedObjects c.state.heap tree → ¬a ≤ c.state.heap.length :=
      fun ha => Nat.not_le.2 (mem_parsedObjects.1 ha).1
    constructor
    case valid =>
      intro a ha
      refine (List.mem_append.1 ha).elim (hold.valid a) fun ha => ?_
      rw [hd]
      have := mem_parsedObjects.1 ha
      exact ⟨Nat.zero_lt_of_lt this.1, this.2⟩
    case live =>
      intro a ha
      refine (List.mem_append.1 ha).elim (hold.live a) fun ha => ?_
      rw [hd]
      exact hload.live.not_freed (mem_parsedObjects.1 ha).1
    case unknown =>
      intro a ha
      refine (List.mem_append.1 ha).elim (hold.unknown a) fun ha hm => ?_
      rw [hd] at hm
      exact hnew ha (hsep.allocated a hm)
    case outside =>
      intro a ha
      refine (List.mem_append.1 ha).elim (hold.outside a) fun ha hm => ?_
      exact hnew ha (c.globals_le (hl.globals ▸ hm)).2
    case apart =>
      intro s hs cs hcs a hac ha
      refine (List.mem_append.1 ha).elim (hold.apart s hs cs hcs a hac) fun ha => ?_
      exact hnew ha ((hsep.holds_old hl.heap (hl.stored ▸ hs) hcs).2 a hac)
  · rcases Nat.lt_or_ge c.state.heap.length a with hlt | hge
    · rw [hd] at hle
      exact Or.inr (List.mem_append_right _ (mem_parsedObjects.2 ⟨hlt, hle⟩))
    · exact (hc.accounted (hs.contained hsep hcont) a hpos hge).imp hl.accounted
        fun h => List.mem_append_left _ h

/-- A collection frees everything that the collector knows, and nothing else. -/
theorem Managed.collected (hc : Managed c lost) :
    ∃ d : Config F, d.state = collectGarbage c.state ∧ Managed d lost := by
  obtain ⟨d, hd, hcol⟩ := c.collected
  have hapart := hc.clean.apart hc.below
  have hobjects : ∀ a ∈ c.state.allocated, ∃ o, objectAt c.state.heap a = some o :=
    fun a hm => objectAt_of_le (hc.clean.valid a hm).1 (hc.clean.valid a hm).2
  have hempty := (hapart.swept hobjects).allocated
  have hbelow : d.below = [] := hcol.below.trans hc.below
  have hglobals : d.globals = c.globals := by
    obtain ⟨t, hread⟩ := c.reads_globals
    rw [Config.baseEnv_of_nil hc.below, ← hcol.env, ← Config.baseEnv_of_nil hbelow] at hread
    exact Config.globals_eq (hread.sameCells hcol.cells)
  have hfreed : ∀ a, Freed d.state.heap a ↔
      Freed c.state.heap a ∨ a ∈ c.state.allocated ∧ 0 < a ∧ a ≤ c.state.heap.length := by
    intro a
    rw [hd]
    exact freed_collectGarbage hempty
  have hcontained : Contained d → Contained c := fun h s hs =>
    hcol.base ▸ h s (hcol.trace.symm ▸ hs)
  have hsparing : Sparing d → Sparing c := fun h => h.imp hcontained fun h => by
    rwa [hcol.trace] at h
  have hstored : ∀ s ∈ d.state.trace.stored, ∀ cs, Holds d.state.heap s cs →
      s ∈ c.state.trace.stored ∧ Holds c.state.heap s cs := by
    intro s hs cs hcs
    rw [hcol.trace] at hs
    exact ⟨hs, (hcol.holds s cs).1 hcs⟩
  refine ⟨d, hd, ⟨rfl, hbelow, hcol.pending.trans hc.pending, hc.base.collected hcol,
    hc.separated.collected hcol⟩, clean_of_nil (hd ▸ hempty) hbelow,
    hc.recorded.collected hc.separated hcol, fun hsp => ?_, fun hsp => ?_,
    fun hcont a hpos hle => ?_⟩
  · have hi := hc.intact (hsparing hsp)
    refine ⟨hglobals ▸ hi.nodup, fun a ha => ?_, fun s hs hsb cs hcs a ha => ?_⟩
    · rw [hglobals] at ha
      rw [hfreed, not_or]
      refine ⟨hi.live a ha, fun hm => ?_⟩
      exact hapart.unreachable a hm.1 ((Config.mem_globals hc.below).1 ha).1
    · obtain ⟨hs, hcs⟩ := hstored s hs cs hcs
      rw [hcol.base] at hsb
      rw [hglobals]
      exact hi.apart s hs hsb cs hcs a ha
  · have hl := hc.aside (hsparing hsp)
    refine ⟨fun a ha => hcol.cells.1 ▸ hl.valid a ha, fun a ha => ?_, fun a ha hm => ?_,
      hglobals ▸ hl.outside, fun s hs cs hcs => ?_⟩
    · rw [hfreed, not_or]
      exact ⟨hl.live a ha, fun hm => hl.unknown a ha hm.1⟩
    · exact hl.unknown a ha (hcol.allocated a hm)
    · obtain ⟨hs, hcs⟩ := hstored s hs cs hcs
      exact hl.apart s hs cs hcs
  · have hle' : a ≤ c.state.heap.length := hcol.cells.1 ▸ hle
    rcases hc.accounted (hcontained hcont) a hpos hle' with (⟨hm | hf⟩ | hg) | hl
    · exact Or.inl (Or.inl (Or.inr ((hfreed a).2 (Or.inr ⟨hm, hpos, hle'⟩))))
    · exact Or.inl (Or.inl (Or.inr ((hfreed a).2 (Or.inl hf))))
    · exact Or.inl (Or.inr (hglobals ▸ hg))
    · exact Or.inr hl

/-- What `interpreter_dispose` leaves. -/
theorem Managed.dispose (hc : Managed c lost) (hcont : Contained c) :
    (interpreterDisposed c.state).Nodup ∧ (∀ a ∈ c.globals, ¬Freed c.state.heap a) ∧
      ∀ a, 0 < a → a ≤ c.state.heap.length → (Freed (interpreterDispose c.state) a ↔ a ∉ lost) := by
  have hi := hc.intact (Or.inl hcont)
  have hl := hc.aside (Or.inl hcont)
  obtain ⟨t, hr⟩ := c.reads_globals
  rw [Config.baseEnv_of_nil hc.below] at hr
  have hdisposed : interpreterDisposed c.state = c.state.allocated ++ c.globals := by
    rw [interpreterDisposed, hr.disposed]
  refine ⟨?_, hi.live, fun a hpos hle => ?_⟩
  · rw [hdisposed]
    refine List.Nodup.append hc.clean.nodup hi.nodup fun a ha hg => ?_
    exact (hc.clean.apart hc.below).unreachable a ha ((Config.mem_globals hc.below).1 hg).1
  · rw [freed_interpreterDispose hr, hdisposed, List.mem_append]
    refine ⟨?_, fun hlost => ?_⟩
    · rintro (hf | ⟨hm | hg, -⟩) hlost
      · exact hl.live a hlost hf
      · exact hl.unknown a hlost hm
      · exact hl.outside a hlost hg
    · rcases hc.accounted hcont a hpos hle with ((hm | hf) | hg) | hm
      · exact Or.inr ⟨Or.inl hm, hpos, hle⟩
      · exact Or.inl hf
      · exact Or.inr ⟨Or.inr hg, hpos, hle⟩
      · exact absurd hm hlost

end managed

section histories
variable {lost : List Nat} {e fuel r : Nat} {expr text : Text} {parsed : Obj F × Nat}

/-- `set` and `interpreter_init` stored values in bindings of the environment only. -/
theorem contained_iff (hb : c.below = []) :
    Contained c ↔ ∀ x ∈ c.state.trace.stored, x ∈ slotsOf c.state.heap c.state.env := by
  rw [c.slotsOf_env (.refl _), Contained, Config.base_of_nil hb]

variable [CFloat F]

/-- The evaluation of an expression that the collector is not told of, as in `interpret_program`
and in `interpret_fd`. -/
def evalObject (fuel : Nat) (tree : Obj F) : Eval F Nat := do
  let a ← onHeap fun h => load h tree
  eval fuel a

/-- The states of an interpreter between two expressions, and the objects that it read without
telling the collector of them. -/
inductive History : Interpreter F → List Nat → Prop where
  | init : History interpreterInit []
  /-- `interpret_expression`. -/
  | call {s t : Interpreter F} {lost : List Nat} {fuel r : Nat} {expr : Text} (hs : History s lost)
      (hr : exec (evalExpression fuel expr) s = (.ok r, t)) : History t lost
  /-- An expression of `interpret_program` or of `interpret_fd`. -/
  | object {s t : Interpreter F} {lost : List Nat} {fuel r : Nat} {text : Text} {e : Int}
      {parsed : Obj F × Nat} (hs : History s lost) (hp : parseExpression text fuel e = .ok parsed)
      (hr : exec (evalObject fuel parsed.1) s = (.ok r, t)) :
      History (collectGarbage t) (lost ++ parsedObjects s.heap parsed.1)
  /-- An expression at which `interpret_program` stops: it returns before the collection. -/
  | stopped {s t : Interpreter F} {lost : List Nat} {fuel : Nat} {text : Text} {e : Int}
      {parsed : Obj F × Nat} (hs : History s lost) (hp : parseExpression text fuel e = .ok parsed)
      (hr : exec (evalObject fuel parsed.1) s = (.ok 0, t)) :
      History t (lost ++ parsedObjects s.heap parsed.1)

theorem Session.history (hs : Session s) : History s [] := by
  induction hs with
  | init => exact .init
  | call _ hr ih => exact .call ih hr

/-- What `interpret_program` evaluates and collects. -/
theorem History.evaluateObject {e : Int} (hs : History s lost)
    (hp : parseExpression text fuel e = .ok parsed)
    (hr : evaluateObject fuel s parsed.1 = some t) :
    History t (lost ++ parsedObjects s.heap parsed.1) := by
  rcases hx : exec (evalObject fuel parsed.1) s with ⟨_ | r, u⟩
  · have hnone : Lisp.evaluateObject fuel s parsed.1 = none := by
      rw [evalObject] at hx
      simp only [Lisp.evaluateObject, hx]
    rw [hnone] at hr
    cases hr
  · have hsome : Lisp.evaluateObject fuel s parsed.1 =
        if r = 0 then none else some (collectGarbage u) := by
      rw [evalObject] at hx
      simp only [Lisp.evaluateObject, hx]
    rw [hsome] at hr
    split_ifs at hr
    exact Option.some.inj hr ▸ .object hs hp hx

theorem Managed.eval (hc : Managed c lost) (hr : exec (eval fuel a) c.state = (.ok r, t)) :
    ∃ d : Config F, d.state = t ∧ Managed d lost := by
  obtain ⟨d, rfl, hs, hbal, ht⟩ := (tracksAll_eval fuel a c hc.separated).of_ok hr
  exact ⟨d, rfl, hc.tracked hs hbal ht⟩

/-- What an evaluation leaves, before a collection. -/
theorem Managed.evalObject {e : Int} (hc : Managed c lost)
    (hp : parseExpression text fuel e = .ok parsed)
    (hr : exec (evalObject fuel parsed.1) c.state = (.ok r, t)) :
    ∃ d : Config F, d.state = t ∧ Managed d (lost ++ parsedObjects c.state.heap parsed.1) := by
  obtain ⟨d, hd, hmanaged⟩ := hc.parsed ((parsed_ok fuel).1 _ _ hp)
  rw [Lisp.evalObject, exec_onHeap_bind, ← hd] at hr
  exact hmanaged.eval hr

theorem Managed.call (hc : Managed c lost)
    (hr : exec (evalExpression fuel expr) c.state = (.ok r, t)) :
    ∃ d : Config F, d.state = t ∧ Managed d lost := by
  obtain ⟨parsed, hp, hsame⟩ := evalExpression_parsed hr
  by_cases hnull : parsed.1.isNull = true
  · exact ⟨c, (hsame hnull).symm, hc⟩
  obtain ⟨u, hu, rfl⟩ := evalExpression_eq hp (Bool.eq_false_iff.2 hnull) hr
  obtain ⟨d, hd, hs, hbal, -, htd⟩ := (loaded_extended (c := c) ((parsed_ok fuel).1 _ _ hp)).tracked
    hc.separated (loaded_registers c.state parsed.1)
  obtain ⟨e, rfl, he⟩ := (hc.tracked hs hbal htd).eval (hd ▸ hu)
  exact he.collected

theorem History.managed (hs : History s lost) : ∃ c : Config F, c.state = s ∧ Managed c lost := by
  induction hs with
  | init => exact managed_init
  | call _ hr ih =>
    obtain ⟨c, rfl, hc⟩ := ih
    exact hc.call hr
  | object _ hp hr ih =>
    obtain ⟨c, rfl, hc⟩ := ih
    obtain ⟨d, rfl, hd⟩ := hc.evalObject hp hr
    exact hd.collected
  | stopped _ hp hr ih =>
    obtain ⟨c, rfl, hc⟩ := ih
    exact hc.evalObject hp hr

/-- Between two expressions no object that the environment needs is freed, if the bindings that
`set` overwrote owned their values. Then nothing leaks but the expressions that the collector was
not told of, if and only if `set` stored values in the environment only. -/
theorem history_objects (hs : History s lost) (howned : ∀ o ∈ s.trace.overwrites, o.Owned) :
    (∀ a, Reachable s.heap s.env a → ¬Freed s.heap a) ∧
      (∀ a ∈ lost, ¬Freed s.heap a ∧ a ∉ s.allocated ∧ ¬Reachable s.heap s.env a) ∧
      ((∀ a, 0 < a → a ≤ s.heap.length →
          Freed s.heap a ∨ a ∈ s.allocated ∨ Reachable s.heap s.env a ∨ a ∈ lost) ↔
        ∀ x ∈ s.trace.stored, x ∈ slotsOf s.heap s.env) := by
  obtain ⟨c, rfl, hc⟩ := hs.managed
  have hi := hc.intact (Or.inr howned)
  have hl := hc.aside (Or.inr howned)
  have hglobals := fun a => c.mem_globals (a := a) hc.below
  rw [← contained_iff hc.below]
  refine ⟨fun a hreach hf => ?_, fun a ha => ⟨hl.live a ha, hl.unknown a ha, fun hreach => ?_⟩,
    fun hall x hx => ?_, fun hcont a hpos hle => ?_⟩
  · exact hi.live a ((hglobals a).2 ⟨hreach, Nat.pos_iff_ne_zero.1 hf.le.1⟩) hf
  · have h0 := Nat.pos_iff_ne_zero.1 (hl.valid a ha).1
    exact hl.outside a ha ((hglobals a).2 ⟨hreach, h0⟩)
  · -- A value that is stored elsewhere is in none of these places.
    by_contra hxb
    obtain ⟨cs, hholds, -, hcs⟩ := hc.separated.stored x hx
    obtain ⟨v, t, hv0, -, hread⟩ := id hholds
    have hv := hread.self_mem hv0
    have hle := hread.valid.2 v hv
    rcases hall v hle.1 hle.2 with ⟨o, ho, hf⟩ | hm | hreach | hlost
    · exact Bool.false_ne_true ((hc.recorded.live howned x hx cs hholds v hv o ho).symm.trans hf)
    · exact (hcs v hv).2.2 hm
    · exact hi.apart x hx hxb cs hholds v hv ((hglobals v).2 ⟨hreach, hv0⟩)
    · exact hl.apart x hx cs hholds v hv hlost
  · rcases hc.accounted hcont a hpos hle with ((hm | hf) | hg) | hlost
    · exact Or.inr (Or.inl hm)
    · exact Or.inl hf
    · exact Or.inr (Or.inr (Or.inl ((hglobals a).1 hg).1))
    · exact Or.inr (Or.inr (Or.inr hlost))

/-- If `set` stores values in the environment only, then after a collection the objects that are not
freed are those of the environment and the expressions that the collector was not told of.
`interpreter_dispose` frees the former once each, and never the latter. -/
theorem history_lifetimes (hs : History s lost) (hempty : s.allocated = [])
    (hstored : ∀ x ∈ s.trace.stored, x ∈ slotsOf s.heap s.env) :
    (∀ a, 0 < a → a ≤ s.heap.length →
        (Freed s.heap a ↔ ¬Reachable s.heap s.env a ∧ a ∉ lost)) ∧
      (interpreterDisposed s).Nodup ∧ (∀ a ∈ interpreterDisposed s, ¬Freed s.heap a) ∧
      ∀ a, 0 < a → a ≤ s.heap.length → (Freed (interpreterDispose s) a ↔ a ∉ lost) := by
  obtain ⟨c, rfl, hc⟩ := hs.managed
  have hcont := (contained_iff hc.below).2 hstored
  have hl := hc.aside (Or.inl hcont)
  obtain ⟨hnodup, hlive, hdispose⟩ := hc.dispose hcont
  have hglobals := fun a => c.mem_globals (a := a) hc.below
  refine ⟨fun a hpos hle => ?_, hnodup, fun a ha => ?_, hdispose⟩
  · have h0 := Nat.pos_iff_ne_zero.1 hpos
    refine ⟨fun hf => ⟨fun hreach => hlive a ((hglobals a).2 ⟨hreach, h0⟩) hf, fun hlost =>
      hl.live a hlost hf⟩, fun hn => ?_⟩
    rcases hc.accounted hcont a hpos hle with ((hm | hf) | hg) | hlost
    · simp [hempty] at hm
    · exact hf
    · exact absurd ((hglobals a).1 hg).1 hn.1
    · exact absurd hlost hn.2
  · obtain ⟨t, hr⟩ := c.reads_globals
    rw [Config.baseEnv_of_nil hc.below] at hr
    rw [interpreterDisposed, hempty, List.nil_append, hr.disposed] at ha
    exact hlive a ha

/-- The expression `(set 'x '(1 2))`. -/
def setList : Obj NoFloat :=
  .list (.atom "set".toList) (.list (quoteList (.list (.atom ['x']) .null))
    (.list (quoteList (.list (.list (.int 1) (.list (.int 2) .null)) .null)) .null))

/-- A new interpreter once it has evaluated the expression from a file. -/
def setListState : Interpreter NoFloat :=
  collectGarbage (exec (evalObject 10 setList) interpreterInit).2

theorem history_setList : History setListState (List.range' 106 15) := by
  have hp : parseExpression "(set 'x '(1 2))".toList 10 0 = .ok (setList, 15) := by decide +kernel
  have hr : (exec (evalObject 10 setList) interpreterInit).1 = .ok 115 := by decide +kernel
  have hlost : parsedObjects (interpreterInit (F := NoFloat)).heap setList =
      List.range' 106 15 := by decide +kernel
  have h := History.object .init hp (exec_eq hr)
  rwa [List.nil_append, hlost] at h

/-- The expression `(set 'x 5)`. -/
def setFive : Obj NoFloat :=
  .list (.atom "set".toList) (.list (quoteList (.list (.atom ['x']) .null))
    (.list (.int 5) .null))

/-- The interpreter once it has evaluated the second expression too, which redefines `x`. -/
def redefinedState : Interpreter NoFloat :=
  collectGarbage (exec (evalObject 10 setFive) setListState).2

theorem history_redefined :
    History redefinedState (List.range' 106 15 ++ List.range' 129 9) := by
  have hp : parseExpression "(set 'x 5)".toList 10 0 = .ok (setFive, 10) := by decide +kernel
  have hr : (exec (evalObject 10 setFive) setListState).1 = .ok 138 := by decide +kernel
  have hlost : parsedObjects setListState.heap setFive = List.range' 129 9 := by decide +kernel
  have h := History.object history_setList hp (exec_eq hr)
  rwa [hlost] at h

/-- One binding is overwritten, and nothing leaks but the two expressions. -/
theorem history_objects_redefined : redefinedState.trace.overwrites.length = 1 ∧
    (∀ a, Reachable redefinedState.heap redefinedState.env a → ¬Freed redefinedState.heap a) ∧
    (∀ a ∈ List.range' 106 15 ++ List.range' 129 9, ¬Freed redefinedState.heap a) ∧
    ∀ a, 0 < a → a ≤ redefinedState.heap.length → Freed redefinedState.heap a ∨
      a ∈ redefinedState.allocated ∨ Reachable redefinedState.heap redefinedState.env a ∨
        a ∈ List.range' 106 15 ++ List.range' 129 9 := by
  have hstate : redefinedState.trace.overwrites.length = 1 ∧
      (∀ o ∈ redefinedState.trace.overwrites, o.Owned) ∧ ∀ x ∈ redefinedState.trace.stored,
        x ∈ slotsOf redefinedState.heap redefinedState.env := by decide +kernel
  obtain ⟨hone, howned, hstored⟩ := hstate
  obtain ⟨hsafe, hlost, hleak⟩ := history_objects history_redefined howned
  exact ⟨hone, hsafe, fun a ha => (hlost a ha).1, hleak.2 hstored⟩

theorem history_lifetimes_setList : (interpreterDisposed setListState).length = 113 ∧
    ∀ a, 0 < a → a ≤ setListState.heap.length →
      (Freed (interpreterDispose setListState) a ↔ a ∉ List.range' 106 15) := by
  have hempty : setListState.allocated = [] := by decide +kernel
  have hstored : ∀ x ∈ setListState.trace.stored,
      x ∈ slotsOf setListState.heap setListState.env := by decide +kernel
  have h := history_lifetimes history_setList hempty hstored
  exact ⟨by decide +kernel, h.2.2.2⟩

end histories
end Lisp
