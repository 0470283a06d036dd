import Lisp.Environments
import Lisp.Interpreter

/-! The interpreter as a machine over a stack of environments: the binding lists of the
current one and of those that the closure bodies in progress will restore. -/
namespace Lisp
variable {F : Type}

/-- The objects that hold the values of the bindings `top` of the current environment, and
`pending`, those of the arguments that a call in progress has evaluated. -/
def Slots (top : List Binding) (pending : List Nat) (a : Nat) : Prop :=
  a ∈ top.map Binding.slot ∨ a ∈ pending

/-- Every pointer reads as a finite tree, and every object is sound. -/
structure HeapOk (h : Heap F) (S : Nat → Prop) : Prop where
  readable : ∀ a ≤ h.length, ∃ t cs, Reads h a t cs
  cells : CellsOk h S

structure WellFormed (s : Interpreter F) (top : List Binding) (below : List (List Binding))
    (pending : List Nat) : Prop where
  heap : HeapOk s.heap (Slots top pending)
  env : EnvList s.heap (Slots top pending) s.env top
  saved : List.Forall₂ (EnvList s.heap (Slots top pending)) s.trace.saved below
  suffixes : List.IsChain (fun bs bs' => bs' <:+ bs) (top :: below)
  nodup : (top.map Binding.slot ++ pending).Nodup
  pending : ∀ a ∈ pending, ∃ v, cellAt s.heap a = some (.list v 0)

/-- A state of the interpreter with the bindings of its environments. -/
structure Config (F : Type) where
  state : Interpreter F
  top : List Binding
  below : List (List Binding)
  pending : List Nat
  wf : WellFormed state top below pending

namespace Config

/-- The objects that evaluation may still overwrite. -/
def slots (c : Config F) : Nat → Prop := Slots c.top c.pending

/-- The bindings of the global environment. -/
def base (c : Config F) : List Binding := (c.top :: c.below).getLast (by simp)

end Config

/-- Objects are added, and the collector learns about some of them. -/
structure Allocates (s s' : Interpreter F) : Prop where
  heap : Extends s.heap s'.heap
  allocated : ∃ regs, s'.allocated = s.allocated ++ regs ∧ regs.Nodup ∧
    ∀ a ∈ regs, s.heap.length < a ∧ a ≤ s'.heap.length

/-- The parts of the trace that the machine describes. -/
structure SameTrace (s s' : Interpreter F) : Prop where
  saved : s'.trace.saved = s.trace.saved
  stored : s'.trace.stored = s.trace.stored
  overwrites : s'.trace.overwrites = s.trace.overwrites

/-- `v` is a tree of live objects that are not in `h`, without sharing. -/
def FreshValue (h h' : Heap F) (v : Nat) : Prop :=
  v ≠ 0 ∧ NewLive h h' ∧ ∃ t cs, Reads h' v t cs ∧ cs.Nodup ∧ ∀ a ∈ cs, h.length < a

/-- What `set` does to a binding: the old value is disposed of, and `v` stored. -/
def overwritten (h : Heap F) (slot v : Nat) : Heap F :=
  update (disposeRecursive h (car h slot)) slot fun o => { o with cell := .list v (cdr h slot) }

/-- The steps of the machine. -/
inductive Action : Config F → Config F → Prop where
  /-- The trace records what is in use or what failed. -/
  | record {c d : Config F} (heap : d.state.heap = c.state.heap) (env : d.state.env = c.state.env)
      (allocated : d.state.allocated = c.state.allocated) (same : SameTrace c.state d.state)
      (top : d.top = c.top) (below : d.below = c.below) (pending : d.pending = c.pending) :
      Action c d
  | allocate {c d : Config F} (allocates : Allocates c.state d.state)
      (env : d.state.env = c.state.env) (same : SameTrace c.state d.state) (top : d.top = c.top)
      (below : d.below = c.below)
      (pending : ∀ a ∈ d.pending, a ∈ c.pending ∨ c.state.heap.length < a) : Action c d
  /-- `set` on a name without a binding. -/
  | bind {c d : Config F} {slot v : Nat} {name : Text} (heap : Extends c.state.heap d.state.heap)
      (slot_new : c.state.heap.length < slot)
      (value : cellAt d.state.heap slot = some (.list v 0))
      (fresh : FreshValue c.state.heap d.state.heap v)
      (outside : ∀ t cs, Reads d.state.heap v t cs → slot ∉ cs)
      (unbound : slotOf c.top name = none)
      (allocated : d.state.allocated = c.state.allocated)
      (saved : d.state.trace.saved = c.state.trace.saved)
      (stored : d.state.trace.stored = slot :: c.state.trace.stored)
      (overwrites : d.state.trace.overwrites = c.state.trace.overwrites)
      (top : d.top = ⟨slot, some name⟩ :: c.top) (below : d.below = c.below)
      (pending : d.pending = c.pending)
      (link : ∃ key pair, cellAt d.state.heap d.state.env = some (.list pair c.state.env) ∧
        cellAt d.state.heap pair = some (.list key slot) ∧
        cellAt d.state.heap key = some (.atom name) ∧ c.state.heap.length < d.state.env ∧
        c.state.heap.length < pair ∧ c.state.heap.length < key) : Action c d
  /-- `set` on a name with a binding, once the new value is copied to `h`. -/
  | overwrite {c d : Config F} {h : Heap F} {slot v : Nat} (copied : Extends c.state.heap h)
      (readable : ∀ a ≤ h.length, ∃ t cs, Reads h a t cs)
      (fresh : FreshValue c.state.heap h v) (mem : slot ∈ c.top.map Binding.slot)
      (heap : d.state.heap = overwritten h slot v) (env : d.state.env = c.state.env)
      (allocated : d.state.allocated = c.state.allocated)
      (saved : d.state.trace.saved = c.state.trace.saved)
      (stored : d.state.trace.stored = slot :: c.state.trace.stored)
      (overwrites : d.state.trace.overwrites =
        ⟨h, c.state.env, c.state.trace.saved, c.state.allocated, slot, c.state.trace.held,
          c.state.trace.stored⟩ :: c.state.trace.overwrites)
      (top : d.top = c.top) (below : d.below = c.below) (pending : d.pending = c.pending) :
      Action c d
  /-- The body of a closure starts. -/
  | enter {c d : Config F} {frame : List Binding} (allocates : Allocates c.state d.state)
      (frame_new : ∀ b ∈ frame, b.slot ∈ c.pending ∨ c.state.heap.length < b.slot)
      (saved : d.state.trace.saved = c.state.env :: c.state.trace.saved)
      (stored : d.state.trace.stored = c.state.trace.stored)
      (overwrites : d.state.trace.overwrites = c.state.trace.overwrites)
      (top : d.top = frame ++ c.top) (below : d.below = c.top :: c.below)
      (pending : ∀ a ∈ d.pending, a ∈ c.pending) : Action c d
  /-- The body of a closure ends. -/
  | leave {c d : Config F} (heap : d.state.heap = c.state.heap)
      (allocated : d.state.allocated = c.state.allocated)
      (saved : c.state.trace.saved = d.state.env :: d.state.trace.saved)
      (stored : d.state.trace.stored = c.state.trace.stored)
      (overwrites : d.state.trace.overwrites = c.state.trace.overwrites)
      (below : c.below = d.top :: d.below) (pending : d.pending = c.pending) : Action c d

/-- Runs of the machine. -/
inductive Steps : Config F → Config F → Prop where
  | refl (c : Config F) : Steps c c
  | tail {c d e : Config F} (h : Steps c d) (a : Action d e) : Steps c e

/-- What holds of any later configuration: objects that are no slots are as they were, and
no old object has become a slot. -/
structure Later (c d : Config F) : Prop where
  evolves : Evolves c.slots c.state.heap d.state.heap
  slots : ∀ a ≤ c.state.heap.length, d.slots a → c.slots a

variable {c d e : Config F} {h h' : Heap F} {a b slot v x y z : Nat} {t : Obj F} {cs : List Nat}

theorem Steps.single (ha : Action c d) : Steps c d := .tail (.refl c) ha

theorem Steps.trans (h1 : Steps c d) (h2 : Steps d e) : Steps c e := by
  induction h2 with
  | refl => exact h1
  | tail _ ha ih => exact .tail ih ha

theorem slots_le (c : Config F) (ha : c.slots a) : a ≤ c.state.heap.length := by
  obtain ha | ha := ha
  · obtain ⟨b, hb, rfl⟩ := List.mem_map.1 ha
    obtain ⟨v, hv⟩ := c.wf.env.slot_mem hb
    exact (cellAt_le hv).2
  · obtain ⟨v, hv⟩ := c.wf.pending a ha
    exact (cellAt_le hv).2

theorem Later.refl (c : Config F) : Later c c :=
  ⟨(Extends.refl _).evolves, fun _ _ h => h⟩

theorem Later.trans (h1 : Later c d) (h2 : Later d e) : Later c e :=
  ⟨h1.evolves.trans h2.evolves h1.slots,
    fun a ha hs => h1.slots a ha (h2.slots a (ha.trans h1.evolves.1) hs)⟩

theorem Later.paramList {p : Nat} {names : List (Option Text)} (hl : Later c d)
    (hp : ParamList c.state.heap c.slots p names) : ParamList d.state.heap d.slots p names := by
  induction hp with
  | nil => exact .nil
  | cons hp hkey hsp _ ih =>
    exact .cons (hl.evolves.cellAt_of_not hsp hp) (hkey.evolves hl.evolves)
      (fun hs => hsp (hl.slots _ (cellAt_le hp).2 hs)) ih

theorem Later.envList {bs : List Binding} (hl : Later c d)
    (he : EnvList c.state.heap c.slots a bs) : EnvList d.state.heap d.slots a bs := by
  induction he with
  | nil => exact .nil
  | cons he hpair hslot hkey hse hsp _ ih =>
    obtain ⟨w, hw⟩ := hl.evolves.slot hslot
    exact .cons (hl.evolves.cellAt_of_not hse he) (hl.evolves.cellAt_of_not hsp hpair) hw
      (hkey.evolves hl.evolves) (fun hs => hse (hl.slots _ (cellAt_le he).2 hs))
      (fun hs => hsp (hl.slots _ (cellAt_le hpair).2 hs)) ih

/-- A tree without slots stays as it is. -/
theorem Later.reads (hl : Later c d) (hr : Reads c.state.heap a t cs)
    (hcs : ∀ b ∈ cs, ¬c.slots b) : Reads d.state.heap a t cs ∧ ∀ b ∈ cs, ¬d.slots b := by
  have hle : ∀ b ∈ cs, b ≤ c.state.heap.length := fun b hb => (hr.valid.2 b hb).2
  refine ⟨hr.congr fun b hb => ?_, fun b hb hs => hcs b hb (hl.slots b (hle b hb) hs)⟩
  rcases hl.evolves.2 b (hle b hb) with hsame | ⟨hs, -⟩
  · exact hsame
  · exact absurd hs (hcs b hb)

section overwrite

theorem sameCells_disposeRecursive (h : Heap F) (a : Nat) : SameCells h (disposeRecursive h a) :=
  sameCells_foldl (fun o => { o with freed := true }) (fun _ => rfl) _ h

theorem length_overwritten : (overwritten h slot v).length = h.length := by
  rw [overwritten, length_update, (sameCells_disposeRecursive h _).1]

theorem cellAt_overwritten_of_ne (hne : slot ≠ a) :
    cellAt (overwritten h slot v) a = cellAt h a := by
  rw [overwritten, cellAt_update_of_ne _ hne, (sameCells_disposeRecursive h _).2]

theorem cellAt_overwritten (hs : cellAt h slot = some (.list x 0)) :
    cellAt (overwritten h slot v) slot = some (.list v 0) := by
  have hsame := (sameCells_disposeRecursive h (car h slot)).2 slot
  rw [hs, cellAt, Option.map_eq_some_iff] at hsame
  obtain ⟨o, ho, -⟩ := hsame
  rw [overwritten, cellAt_update_self, ho, cdr_eq hs]
  rfl

theorem evolves_overwritten {S : Nat → Prop} (hS : S slot) (hs : cellAt h slot = some (.list x 0)) :
    Evolves S h (overwritten h slot v) := by
  refine ⟨Nat.le_of_eq length_overwritten.symm, fun a _ => ?_⟩
  by_cases hne : slot = a
  · subst hne
    exact Or.inr ⟨hS, x, v, hs, cellAt_overwritten hs⟩
  · exact Or.inl (cellAt_overwritten_of_ne hne)

end overwrite

theorem Action.later (ha : Action c d) : Later c d := by
  cases ha with
  | record heap env allocated same top below pending =>
    refine ⟨?_, fun a _ hs => by simpa [Config.slots, top, pending] using hs⟩
    rw [heap]
    exact (Extends.refl _).evolves
  | allocate allocates env same top below pending =>
    refine ⟨allocates.heap.evolves, fun a ha hs => ?_⟩
    obtain hs | hs := hs
    · exact Or.inl (top ▸ hs)
    · obtain hs | hs := pending a hs
      · exact Or.inr hs
      · omega
  | bind heap slot_new value fresh outside unbound allocated saved stored overwrites top below
      pending =>
    refine ⟨heap.evolves, fun a ha hs => ?_⟩
    obtain hs | hs := hs
    · rw [top, List.map_cons, List.mem_cons] at hs
      obtain rfl | hs := hs
      · omega
      · exact Or.inl hs
    · exact Or.inr (pending ▸ hs)
  | overwrite copied _ fresh mem heap env allocated saved stored overwrites top below pending =>
    refine ⟨?_, fun a _ hs => by simpa [Config.slots, top, pending] using hs⟩
    obtain ⟨b, hb, rfl⟩ := List.mem_map.1 mem
    obtain ⟨x, hx⟩ := c.wf.env.slot_mem hb
    rw [heap]
    exact copied.evolves.trans (evolves_overwritten (Or.inl mem) (copied.cellAt hx))
      fun _ _ hs => hs
  | enter allocates frame_new saved stored overwrites top below pending =>
    refine ⟨allocates.heap.evolves, fun a ha hs => ?_⟩
    obtain hs | hs := hs
    · rw [top, List.map_append, List.mem_append] at hs
      obtain hs | hs := hs
      · obtain ⟨b, hb, rfl⟩ := List.mem_map.1 hs
        obtain hs | hs := frame_new b hb
        · exact Or.inr hs
        · omega
      · exact Or.inl hs
    · exact Or.inr (pending a hs)
  | leave heap allocated saved stored overwrites below pending =>
    refine ⟨?_, fun a _ hs => ?_⟩
    · rw [heap]
      exact (Extends.refl _).evolves
    · obtain hs | hs := hs
      · have hsuffix : d.top <:+ c.top := by
          have := c.wf.suffixes
          rw [below] at this
          exact (List.isChain_cons_cons.1 this).1
        obtain ⟨b, hb, rfl⟩ := List.mem_map.1 hs
        exact Or.inl (List.mem_map_of_mem (hsuffix.subset hb))
      · exact Or.inr (pending ▸ hs)

theorem Steps.later (hs : Steps c d) : Later c d := by
  induction hs with
  | refl => exact .refl _
  | tail _ ha ih => exact ih.trans ha.later

/-- The binding of an argument stays as it is until the call uses it. -/
theorem Action.pending_cell (ha : Action c d) (hle : a ≤ c.state.heap.length)
    (hd : a ∈ d.pending) : a ∈ c.pending ∧ cellAt d.state.heap a = cellAt c.state.heap a := by
  cases ha with
  | record heap env allocated same top below pending =>
    rw [heap]
    exact ⟨pending ▸ hd, rfl⟩
  | allocate allocates env same top below pending =>
    refine ⟨?_, allocates.heap.cell hle⟩
    obtain ha | ha := pending a hd
    · exact ha
    · omega
  | bind heap slot_new value fresh outside unbound allocated saved stored overwrites top below
      pending =>
    exact ⟨pending ▸ hd, heap.cell hle⟩
  | @overwrite h slot v copied _ fresh mem heap env allocated saved stored overwrites top below
      pending =>
    rw [pending] at hd
    have hne : slot ≠ a := (List.nodup_append.1 c.wf.nodup).2.2 slot mem a hd
    refine ⟨hd, ?_⟩
    rw [heap, cellAt_overwritten_of_ne hne, copied.cell hle]
  | enter allocates frame_new saved stored overwrites top below pending =>
    exact ⟨pending a hd, allocates.heap.cell hle⟩
  | leave heap allocated saved stored overwrites below pending =>
    rw [heap]
    exact ⟨pending ▸ hd, rfl⟩

theorem Steps.pending_cell (hs : Steps c d) (hle : a ≤ c.state.heap.length)
    (hd : a ∈ d.pending) : a ∈ c.pending ∧ cellAt d.state.heap a = cellAt c.state.heap a := by
  induction hs with
  | refl => exact ⟨hd, rfl⟩
  | tail hs hact ih =>
    have hlen := hs.later.evolves.1
    obtain ⟨ha, hcell⟩ := hact.pending_cell (hle.trans hlen) hd
    obtain ⟨hc, hcell'⟩ := ih ha
    exact ⟨hc, hcell.trans hcell'⟩

end Lisp
