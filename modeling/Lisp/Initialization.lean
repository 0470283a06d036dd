import Lisp.Bindings
import Lisp.Allocation
import Lisp.Evaluator

/-! The configuration that `interpreter_init` starts from. -/
namespace Lisp
variable {F : Type} {h h' : Heap F} {a v z : Nat} {b : Binding} {bs bs₂ : List Binding}
  {vs vs₂ : List Nat} {S : Nat → Prop} {l l₂ : List (Text × Primitive)} {r r₂ : Nat × Heap F}
  {n : Text} {f : Primitive}

/-- `r` is the list of the bindings `bs` in new objects, with the primitives `vs` as values. -/
structure Created (h : Heap F) (l : List (Text × Primitive)) (r : Nat × Heap F)
    (bs : List Binding) (vs : List Nat) : Prop where
  heap : Extends h r.2
  live : NewLive h r.2
  names : bs.map Binding.name = l.map fun p => some p.1
  nodup : (bs.map Binding.slot ++ vs).Nodup
  new : ∀ a ∈ bs.map Binding.slot ++ vs, h.length < a ∧ a ≤ r.2.length
  values : List.Forall₂ (fun b v => cellAt r.2 b.slot = some (.list v 0) ∧
    ∃ f, cellAt r.2 v = some (.primitive f)) bs vs
  simple : ∀ a p b c n, h.length < a → cellAt r.2 a ≠ some (.closure p b c n)
  list : ∀ S : Nat → Prop, (∀ a, h.length < a → a ≤ r.2.length → S a → a ∈ bs.map Binding.slot) →
    HeapOk h S → EnvList r.2 S r.1 bs ∧ HeapOk r.2 S ∧ ∀ z, LastCell r.2 r.1 z → h.length < z

theorem created_nil (h : Heap F) : Created h [] (0, h) [] [] where
  heap := .refl h
  live := .refl h
  names := rfl
  nodup := List.nodup_nil
  new := by simp
  values := .nil
  simple a p b c n ha hc := by
    have : a ≤ h.length := (cellAt_le hc).2
    omega
  list S _ hh := by
    refine ⟨.nil, hh, fun z hz => ?_⟩
    cases hz with
    | here he => simp [cellAt_zero] at he
    | next he => simp [cellAt_zero] at he

theorem created_cons {L : Nat} (hL : h.length = L) (hn : isTruthName n = false)
    (hr : Created (alloc (alloc (alloc (alloc h (.atom n)).2 (.primitive f)).2
      (.list (L + 2) 0)).2 (.list (L + 1) (L + 3))).2 l r bs vs) :
    Created h ((n, f) :: l) (alloc r.2 (.list (L + 4) r.1)) (⟨L + 3, some n⟩ :: bs)
      ((L + 2) :: vs) := by
  generalize hh₁ : (alloc h (.atom n)).2 = h₁ at hr
  generalize hh₂ : (alloc h₁ (.primitive f)).2 = h₂ at hr
  generalize hh₃ : (alloc h₂ (.list (L + 2) 0)).2 = h₃ at hr
  generalize hh₄ : (alloc h₃ (.list (L + 1) (L + 3))).2 = h₄ at hr
  generalize hh₅ : (alloc r.2 (.list (L + 4) r.1)).2 = h₅
  have hl₁ : h₁.length = L + 1 := by rw [← hh₁, length_alloc, hL]
  have hl₂ : h₂.length = L + 2 := by rw [← hh₂, length_alloc, hl₁]
  have hl₃ : h₃.length = L + 3 := by rw [← hh₃, length_alloc, hl₂]
  have hl₄ : h₄.length = L + 4 := by rw [← hh₄, length_alloc, hl₃]
  have hl₅ : h₅.length = r.2.length + 1 := by rw [← hh₅, length_alloc]
  have he₁ : Extends h h₁ := hh₁ ▸ extends_alloc _ _
  have he₂ : Extends h₁ h₂ := hh₂ ▸ extends_alloc _ _
  have he₃ : Extends h₂ h₃ := hh₃ ▸ extends_alloc _ _
  have he₄ : Extends h₃ h₄ := hh₄ ▸ extends_alloc _ _
  have he₅ : Extends r.2 h₅ := hh₅ ▸ extends_alloc _ _
  have hc₁ : cellAt h₁ (L + 1) = some (.atom n) := hh₁ ▸ cellAt_alloc_at hL
  have hc₂ : cellAt h₂ (L + 2) = some (.primitive f) := hh₂ ▸ cellAt_alloc_at hl₁
  have hc₃ : cellAt h₃ (L + 3) = some (.list (L + 2) 0) := hh₃ ▸ cellAt_alloc_at hl₂
  have hc₄ : cellAt h₄ (L + 4) = some (.list (L + 1) (L + 3)) := hh₄ ▸ cellAt_alloc_at hl₃
  have hc₅ : cellAt h₅ (r.2.length + 1) = some (.list (L + 4) r.1) := hh₅ ▸ cellAt_alloc_at rfl
  have hle := hr.heap.1
  have h45 := hr.heap.trans he₅
  have h35 := he₄.trans h45
  have h25 := he₃.trans h35
  have hold := he₁.trans (he₂.trans (he₃.trans he₄))
  constructor
  case heap => exact hh₅ ▸ hold.trans h45
  case live =>
    have hlive₁ : NewLive h h₁ := hh₁ ▸ newLive_alloc _ _
    have hlive₂ := hlive₁.trans he₂ (hh₂ ▸ newLive_alloc _ _)
    have hlive₃ := hlive₂.trans he₃ (hh₃ ▸ newLive_alloc _ _)
    have hlive₄ := (hlive₃.trans he₄ (hh₄ ▸ newLive_alloc _ _)).trans hr.heap hr.live
    exact hlive₄.trans (extends_alloc _ _) (newLive_alloc _ _)
  case names => simp [hr.names]
  case nodup =>
    have hnew : ∀ a ∈ bs.map Binding.slot ++ vs, L + 4 < a := by
      intro a ha
      have := (hr.new a ha).1
      omega
    have hperm : (bs.map Binding.slot ++ (L + 2) :: vs).Perm
        ((L + 2) :: (bs.map Binding.slot ++ vs)) := List.perm_middle
    refine List.nodup_cons.2 ⟨fun hmem => ?_, hperm.nodup_iff.2 (List.nodup_cons.2 ⟨?_, hr.nodup⟩)⟩
    · rcases List.mem_cons.1 (hperm.subset hmem) with h | h
      · exact absurd h (Nat.succ_ne_self (L + 2))
      · have : L + 4 < L + 3 := hnew _ h
        omega
    · intro hmem
      have := hnew _ hmem
      omega
  case new =>
    intro a ha
    rw [hh₅, hl₅, hL]
    have hcases : a = L + 3 ∨ a = L + 2 ∨ a ∈ bs.map Binding.slot ++ vs := by
      simp only [List.map_cons, List.cons_append, List.mem_cons, List.mem_append] at ha ⊢
      tauto
    rcases hcases with rfl | rfl | ha
    · omega
    · omega
    · have := hr.new a ha
      omega
  case values =>
    rw [hh₅]
    refine .cons ⟨h35.cellAt hc₃, f, h25.cellAt hc₂⟩ (hr.values.imp ?_)
    rintro b v ⟨h1, g, h2⟩
    exact ⟨he₅.cellAt h1, g, he₅.cellAt h2⟩
  case simple =>
    intro a p b c k ha hc
    rw [hh₅] at hc
    have hle' := (cellAt_le hc).2
    rcases Nat.lt_or_ge r.2.length a with hlt | hge
    · obtain rfl : a = r.2.length + 1 := by omega
      simp [hc₅] at hc
    · rw [he₅.cell hge] at hc
      rcases Nat.lt_or_ge (L + 4) a with hlt | hge
      · exact hr.simple a p b c k (hl₄ ▸ hlt) hc
      · have hcases : a = L + 1 ∨ a = L + 2 ∨ a = L + 3 ∨ a = L + 4 := by omega
        rcases hcases with rfl | rfl | rfl | rfl
        · simp [(he₂.trans (he₃.trans (he₄.trans hr.heap))).cellAt hc₁] at hc
        · simp [(he₃.trans (he₄.trans hr.heap)).cellAt hc₂] at hc
        · simp [(he₄.trans hr.heap).cellAt hc₃] at hc
        · simp [hr.heap.cellAt hc₄] at hc
  case list =>
    intro S hS hh
    rw [hh₅, hl₅] at hS
    have hcases : ∀ a, L < a → a ≤ r.2.length + 1 → S a →
        a = L + 3 ∨ a ∈ bs.map Binding.slot := by
      intro a h1 h2 h3
      simpa using hS a (by omega) h2 h3
    have hnot : ∀ a, L < a → a ≤ L + 4 → a ≠ L + 3 → ¬S a := by
      intro a h1 h2 h3 hs
      rcases hcases a h1 (by omega) hs with h | h
      · exact h3 h
      · have := (hr.new a (by simp [h])).1
        omega
    have hok₁ : HeapOk h₁ S := by
      have hcell : CellOk h S (.atom n : Cell F) := trivial
      exact hh₁ ▸ hh.alloc (by simp [Cell.parts]) hcell
    have hok₂ : HeapOk h₂ S := by
      have hcell : CellOk h₁ S (.primitive f : Cell F) := trivial
      exact hh₂ ▸ hok₁.alloc (by simp [Cell.parts]) hcell
    have hok₃ : HeapOk h₃ S := by
      have hcell : CellOk h₂ S (.list (L + 2) 0 : Cell F) := Or.inl rfl
      exact hh₃ ▸ hok₂.alloc (by simp [Cell.parts, hl₂]) hcell
    have hok₄ : HeapOk h₄ S := by
      have hcell : CellOk h₃ S (.list (L + 1) (L + 3) : Cell F) := Or.inr ⟨_, _, hc₃⟩
      exact hh₄ ▸ hok₃.alloc (by simp [Cell.parts, hl₃]) hcell
    obtain ⟨henv, hok, hspine⟩ := hr.list S (fun a h1 h2 h3 => by
      rcases hcases a (by omega) (by omega) h3 with h | h
      · omega
      · exact h) hok₄
    have hok₅ : HeapOk h₅ S := by
      have hcell : CellOk r.2 S (.list (L + 4) r.1 : Cell F) := henv.tail
      refine hh₅ ▸ hok.alloc ?_ hcell
      have := henv.le
      simp only [Cell.parts, List.mem_cons, List.not_mem_nil, or_false]
      omega
    have hlast : ¬S (r.2.length + 1) := by
      intro hs
      rcases hcases _ (by omega) (Nat.le_refl _) hs with h | h
      · omega
      · have := (hr.new (r.2.length + 1) (List.mem_append_left _ h)).2
        omega
    rw [hh₅, alloc_fst]
    refine ⟨?_, hok₅, fun z hz => ?_⟩
    · refine .cons hc₅ (h45.cellAt hc₄) (h35.cellAt hc₃) ⟨?_, hn⟩ hlast
        (hnot (L + 4) (by omega) (by omega) (by omega)) (henv.evolves he₅.evolves)
      exact (he₂.trans h25).cellAt hc₁
    · cases hz with
      | here _ => omega
      | next he _ hz =>
        obtain ⟨-, rfl⟩ := Cell.list.inj (Option.some.inj (hc₅.symm.trans he))
        have := hspine z (hz.of_extends he₅ hok henv.le)
        omega

/-- `create_environment` makes the bindings of a library, in new objects. -/
theorem created_environment [CFloat F] (l : List (Text × Primitive))
    (hl : ∀ p ∈ l, isTruthName p.1 = false) (h : Heap F) :
    ∃ bs vs, Created h l (createEnvironment h l) bs vs := by
  induction l generalizing h with
  | nil => exact ⟨[], [], created_nil h⟩
  | cons p l ih =>
    obtain ⟨n, f⟩ := p
    obtain ⟨bs, vs, hr⟩ := ih (fun p hp => hl p (by simp [hp]))
      (alloc (alloc (alloc (alloc h (.atom n)).2 (.primitive f)).2
        (.list (h.length + 2) 0)).2 (.list (h.length + 1) (h.length + 3))).2
    refine ⟨⟨h.length + 3, some n⟩ :: bs, (h.length + 2) :: vs, ?_⟩
    have := created_cons rfl (hl (n, f) (by simp)) hr
    simpa [createEnvironment, makePair, alloc_fst, length_alloc] using this

/-- The new environment binds the names of the library to its primitives. -/
theorem built_createEnvironment (l : List (Text × Primitive)) (h : Heap F) :
    ∃ t : Obj F, Built h t (createEnvironment h l) ∧
      t.bindings = l.map fun p => (some p.1, .primitive p.2) := by
  induction l generalizing h with
  | nil => exact ⟨.null, built_null h, rfl⟩
  | cons p l ih =>
    obtain ⟨n, f⟩ := p
    have hpair := built_list (built_leaf (h := h) (k := .atom n) rfl)
      (built_list (built_leaf (k := .primitive f) rfl) (built_null _))
    obtain ⟨t, ht, hbindings⟩ := ih _
    exact ⟨_, built_list hpair ht, by rw [Obj.bindings, hbindings, List.map_cons]⟩

theorem EnvList.slotsOf {e : Nat} {t : Obj F} {cs : List Nat} (he : EnvList h S e bs)
    (hr : Reads h e t cs) : slotsOf h e = bs.map Binding.slot := by
  have hwalk : ∀ fuel, t.depth ≤ fuel →
      (cellsFrom h fuel e).map (fun l => cdr h (car h l)) = bs.map Binding.slot := by
    induction he generalizing t cs with
    | nil => simp [cellsFrom_zero]
    | @cons e _ _ _ _ _ _ he hpair _ _ _ _ _ ih =>
      intro fuel hf
      obtain ⟨_, _, _, _, rfl, -, -, hn⟩ := hr.of_list he
      obtain _ | fuel := fuel
      · simp [Obj.depth] at hf
      simp only [Obj.depth] at hf
      have he0 : e ≠ 0 := Nat.pos_iff_ne_zero.1 (cellAt_le he).1
      simp [cellsFrom, he0, cdr_eq he, car_eq he, cdr_eq hpair, ih hn fuel (by omega)]
  exact hwalk _ hr.depth_le

section join
variable {e e₂ : Nat}

theorem newLive_joinLists (hh : HeapOk h S) (he : EnvList h S e bs) (hl : NewLive h₀ h) :
    NewLive h₀ (joinLists h e e₂).2 := by
  by_cases h0 : e = 0
  · simpa [joinLists, h0] using hl
  by_cases h20 : e₂ = 0
  · simpa [joinLists, h0, h20] using hl
  obtain ⟨z, hz, -⟩ := he.lastCell h0
  obtain ⟨t, cs, hr⟩ := hh.readable e he.le
  rw [joinLists_eq hz hr h20]
  intro a o ha ho
  by_cases haz : z = a
  · subst haz
    obtain _ | z := z
    · simp [objectAt] at ho
    simp only [linked, update, objectAt, List.getElem?_modify, if_pos, Option.map_eq_map,
      Option.map_eq_some_iff] at ho
    obtain ⟨o', ho', rfl⟩ := ho
    exact hl _ o' ha ho'
  · rw [linked, objectAt_update_of_ne _ haz] at ho
    exact hl a o ha ho

/-- A slot and its value are no cells of the list that is linked. -/
theorem cellAt_joinLists {k : Cell F} (hh : HeapOk h S) (he : EnvList h S e bs)
    (hk : cellAt h a = some k) (hz : S a ∨ ∀ x y, k ≠ .list x y) :
    cellAt (joinLists h e e₂).2 a = some k := by
  by_cases h0 : e = 0
  · simpa [joinLists, h0] using hk
  by_cases h20 : e₂ = 0
  · simpa [joinLists, h0, h20] using hk
  obtain ⟨z, hz', hzs⟩ := he.lastCell h0
  obtain ⟨t, cs, hr⟩ := hh.readable e he.le
  obtain ⟨x, hzc⟩ := hz'.cell
  rw [joinLists_eq hz' hr h20, cellAt_linked_of_ne, hk]
  rintro rfl
  rcases hz with hz | hz
  · exact hzs hz
  · exact hz x 0 (Option.some.inj (hk.symm.trans hzc))

end join

/-- The libraries of `init_env`, in the order of the environment. -/
def initLibrary : List (Text × Primitive) := mathLibrary ++ primitiveLibrary

theorem isTruthName_initLibrary : ∀ p ∈ initLibrary, isTruthName p.1 = false := by decide

theorem initLibrary_nodup : (initLibrary.map Prod.fst).Nodup := by decide

/-- The list of the bindings `bs`, whose values `vs` are primitives. -/
structure Initial (init : Nat × Heap F) (bs : List Binding) (vs : List Nat) : Prop where
  env : EnvList init.2 (Slots bs []) init.1 bs
  heap : HeapOk init.2 (Slots bs [])
  names : bs.map Binding.name = initLibrary.map fun p => some p.1
  nodup : (bs.map Binding.slot ++ vs).Nodup
  values : List.Forall₂ (fun b v => cellAt init.2 b.slot = some (.list v 0) ∧
    ∃ f, cellAt init.2 v = some (.primitive f)) bs vs
  live : NewLive [] init.2

theorem cellOk_linked {k : Cell F} {e₂ x : Nat} (hh : HeapOk h S)
    (hz : cellAt h z = some (.list x 0)) (hk : cellAt h a = some k)
    (hsimple : ∀ p b c n, k ≠ .closure p b c n) : CellOk (linked h z e₂) S k := by
  cases k with
  | list u y =>
    rcases hh.cells a _ hk with rfl | hlist
    · exact Or.inl rfl
    · exact Or.inr (list_linked hz hlist)
  | closure p b c n => exact absurd rfl (hsimple p b c n)
  | _ => trivial

/-- The new environment, and what it binds the names to. -/
theorem initial_library [CFloat F] : ∃ bs vs, Initial (initEnv : Nat × Heap F) bs vs ∧
    bindingTrees (initEnv : Nat × Heap F).2 bs =
      initLibrary.map fun p => (some p.1, .primitive p.2) := by
  obtain ⟨bsP, vsP, hP⟩ := created_environment (F := F) primitiveLibrary
    (fun p hp => isTruthName_initLibrary p (List.mem_append_right _ hp)) []
  generalize hprim : createEnvironment ([] : Heap F) primitiveLibrary = prim at hP
  obtain ⟨bsM, vsM, hM⟩ := created_environment (F := F) mathLibrary
    (fun p hp => isTruthName_initLibrary p (List.mem_append_left _ hp)) prim.2
  generalize hmath : createEnvironment prim.2 mathLibrary = math at hM
  have hinit : initEnv (F := F) = joinLists math.2 math.1 prim.1 := by
    simp only [initEnv, hprim, hmath]
  have hold : ∀ a ∈ bsP.map Binding.slot ++ vsP, a ≤ prim.2.length := fun a ha => (hP.new a ha).2
  have hnew : ∀ a ∈ bsM.map Binding.slot ++ vsM, prim.2.length < a := fun a ha => (hM.new a ha).1
  have hS : ∀ a, Slots (bsM ++ bsP) [] a ↔
      a ∈ bsM.map Binding.slot ∨ a ∈ bsP.map Binding.slot := by
    simp [Slots]
  have hnil : HeapOk ([] : Heap F) (Slots (bsM ++ bsP) []) := by
    refine ⟨fun a ha => ?_, fun a c hc => ?_⟩
    · obtain rfl := Nat.le_zero.1 ha
      exact ⟨_, _, .null⟩
    · have : 0 < a ∧ a ≤ 0 := cellAt_le hc
      omega
  obtain ⟨henvP, hokP, -⟩ := hP.list (Slots (bsM ++ bsP) []) (fun a _ hle ha => by
    rcases (hS a).1 ha with h | h
    · have := hnew a (List.mem_append_left _ h)
      omega
    · exact h) hnil
  obtain ⟨henvM, hokM, hspine⟩ := hM.list (Slots (bsM ++ bsP) []) (fun a hlt _ ha => by
    rcases (hS a).1 ha with h | h
    · exact h
    · have := hold a (List.mem_append_left _ h)
      omega) hokP
  have hsimple : ∀ a p b c n, cellAt math.2 a ≠ some (.closure p b c n) := by
    intro a p b c n hc
    rcases Nat.lt_or_ge prim.2.length a with hlt | hle
    · exact hM.simple a p b c n hlt hc
    · rw [hM.heap.cell hle] at hc
      exact hP.simple a p b c n (cellAt_le hc).1 hc
  have henvP' : EnvList math.2 (Slots (bsM ++ bsP) []) prim.1 bsP :=
    henvP.evolves hM.heap.evolves
  have hjoin := henvM.joined hokM
    (fun b hb => (hS b.slot).2 (Or.inl (List.mem_map_of_mem hb))) henvP' hM.heap hspine
    (fun z t₂ c₂ hz hr₂ hmem => by
      obtain ⟨u, ds, hu⟩ := hokP.readable prim.1 henvP.le
      obtain ⟨-, rfl⟩ := (hu.mono hM.heap).unique hr₂
      have := (hu.valid.2 z hmem).2
      have := hspine z hz
      omega) (fun z a k hz _ hk => by
      obtain ⟨x, hzc⟩ := hz.cell
      exact cellOk_linked hokM hzc hk fun p b c n he => hsimple a p b c n (he ▸ hk))
  refine ⟨bsM ++ bsP, vsM ++ vsP, ?_, ?_⟩
  · constructor
    case env =>
      rw [hinit]
      exact hjoin.1
    case heap =>
      rw [hinit]
      exact hjoin.2.1
    case names => simp [initLibrary, hM.names, hP.names]
    case nodup =>
      have hperm : ((bsM ++ bsP).map Binding.slot ++ (vsM ++ vsP)).Perm
          ((bsM.map Binding.slot ++ vsM) ++ (bsP.map Binding.slot ++ vsP)) := by
        rw [List.map_append, List.append_assoc, List.append_assoc]
        refine List.Perm.append_left _ ?_
        rw [← List.append_assoc, ← List.append_assoc]
        exact List.Perm.append_right _ List.perm_append_comm
      refine hperm.nodup_iff.2 (List.nodup_append.2 ⟨hM.nodup, hP.nodup, fun a ha b hb => ?_⟩)
      have := hnew a ha
      have := hold b hb
      omega
    case values =>
      rw [hinit]
      have hboth := List.rel_append hM.values (hP.values.imp fun b v h =>
        ⟨hM.heap.cellAt h.1, h.2.imp fun _ hf => hM.heap.cellAt hf⟩)
      refine List.forall₂_iff_zip.2 ⟨hboth.length_eq, fun {b v} hmem => ?_⟩
      obtain ⟨h1, f, h2⟩ := List.forall₂_zip hboth hmem
      refine ⟨cellAt_joinLists hokM henvM h1 (Or.inl (Or.inl ?_)), f,
        cellAt_joinLists hokM henvM h2 (Or.inr (by simp))⟩
      exact List.mem_map_of_mem (List.of_mem_zip hmem).1
    case live =>
      rw [hinit]
      exact newLive_joinLists hokM henvM (hP.live.trans hM.heap hM.live)
  · obtain ⟨tP, htP, hbP⟩ := built_createEnvironment (F := F) primitiveLibrary []
    obtain ⟨tM, htM, hbM⟩ := built_createEnvironment (F := F) mathLibrary prim.2
    rw [hprim] at htP
    rw [hmath] at htM
    have hbsM : ∀ b ∈ bsM, Slots (bsM ++ bsP) [] b.slot := fun b hb =>
      (hS b.slot).2 (Or.inl (List.mem_map_of_mem hb))
    have hext : Extends prim.2 (joinLists math.2 math.1 prim.1).2 := hjoin.2.2.1
    have htreesM : bindingTrees (joinLists math.2 math.1 prim.1).2 bsM = tM.bindings := by
      rw [henvM.bindingTrees_joined htM.reads List.nodup_range' hbsM, henvM.bindings htM.reads]
    have htreesP : bindingTrees (joinLists math.2 math.1 prim.1).2 bsP = tP.bindings :=
      ((henvP.evolves hext.evolves).bindings (htP.reads.mono hext)).symm
    rw [hinit, bindingTrees, List.map_append]
    change bindingTrees _ bsM ++ bindingTrees _ bsP = _
    rw [htreesM, htreesP, hbM, hbP, initLibrary, List.map_append]

theorem initial_env [CFloat F] : ∃ bs vs, Initial (initEnv : Nat × Heap F) bs vs := by
  obtain ⟨bs, vs, hi, -⟩ := initial_library (F := F)
  exact ⟨bs, vs, hi⟩

/-- `c` is the configuration of a new interpreter. -/
structure Initialized (c : Config F) : Prop where
  below : c.below = []
  pending : c.pending = []
  names : c.top.map Binding.name = initLibrary.map fun p => some p.1
  base : BaseOk c
  separated : Separated c
  live : NewLive [] c.state.heap

/-- The value of a binding, which determines the binding. -/
theorem Initial.value {init : Nat × Heap F} (hi : Initial init bs vs) {b : Binding} (hb : b ∈ bs) :
    ∃ i v : Nat, v ≠ 0 ∧ vs[i]? = some v ∧ bs[i]? = some b ∧
      cellAt init.2 b.slot = some (.list v 0) ∧ ∃ f, cellAt init.2 v = some (.primitive f) := by
  obtain ⟨i, hi', rfl⟩ := List.getElem_of_mem hb
  have hlen := hi.values.length_eq
  obtain ⟨h1, f, h2⟩ := hi.values.get hi' (hlen ▸ hi')
  have hv0 := Nat.pos_iff_ne_zero.1 (cellAt_le h2).1
  exact ⟨i, _, hv0, List.getElem?_eq_getElem _, List.getElem?_eq_getElem _, h1, f, h2⟩

theorem Initial.initialized {init : Nat × Heap F} (hi : Initial init bs vs) :
    ∃ c : Config F, c.state = ⟨init.2, init.1, [], ⟨[], [], slotsOf init.2 init.1, [], 0, 0⟩⟩ ∧
      Initialized c := by
  obtain ⟨t, cs, hr⟩ := hi.heap.readable _ hi.env.le
  have hslots := hi.env.slotsOf hr
  obtain ⟨hnodup, hvs, hapart⟩ := List.nodup_append.1 hi.nodup
  have hwf : WellFormed (⟨init.2, init.1, [], ⟨[], [], slotsOf init.2 init.1, [], 0, 0⟩⟩ :
      Interpreter F) bs [] [] :=
    ⟨hi.heap, hi.env, .nil, List.isChain_singleton _, by simpa using hnodup, by simp⟩
  let c : Config F := ⟨_, bs, [], [], hwf⟩
  have hbase : c.base = bs := Config.base_of_nil rfl
  have hholds : ∀ s ∈ c.state.trace.stored, ∃ i v : Nat, vs[i]? = some v ∧
      (∃ b : Binding, bs[i]? = some b ∧ b.slot = s) ∧ Holds init.2 s [v] ∧
      ∃ f, cellAt init.2 v = some (.primitive f) := by
    intro s hs
    obtain ⟨b, hb, rfl⟩ := List.mem_map.1 (hslots ▸ hs : s ∈ bs.map Binding.slot)
    obtain ⟨i, v, hv0, hv, hbi, hcell, f, hf⟩ := hi.value hb
    exact ⟨i, v, hv, ⟨b, hbi, rfl⟩, ⟨v, _, hv0, hcell, .leaf hf rfl⟩, f, hf⟩
  have hno : ∀ i v : Nat, vs[i]? = some v → v ∉ bs.map Binding.slot := by
    intro i v hv hmem
    exact hapart v hmem v (List.mem_of_getElem? hv) rfl
  refine ⟨c, rfl, rfl, rfl, hi.names, ?_, ?_, hi.live⟩
  · constructor
    case named =>
      intro b hb
      have : b.name ∈ bs.map Binding.name := List.mem_map_of_mem (hbase ▸ hb)
      rw [hi.names] at this
      obtain ⟨p, -, hp⟩ := List.mem_map.1 this
      exact ⟨p.1, hp.symm⟩
    case distinct =>
      have hmap : initLibrary.map (fun p => some p.1) = (initLibrary.map Prod.fst).map some := by
        rw [List.map_map]
        rfl
      rw [hbase, hi.names, hmap]
      exact initLibrary_nodup.map (Option.some_injective _)
    case values =>
      intro b hb
      obtain ⟨i, v, hv0, -, -, hv, -⟩ := hi.value (hbase ▸ hb)
      exact ⟨v, hv0, hv⟩
  · constructor
    case base =>
      intro b hb
      show b.slot ∈ slotsOf init.2 init.1
      rw [hslots]
      exact List.mem_map_of_mem (hbase ▸ hb)
    case stored =>
      intro s hs
      obtain ⟨i, v, hv, -, hh, -⟩ := hholds s hs
      have hne := hno i v hv
      refine ⟨[v], hh, List.nodup_singleton v, fun a ha => ?_⟩
      obtain rfl := List.mem_singleton.1 ha
      refine ⟨?_, ?_, by simp [c]⟩
      · rintro (h | h)
        · exact hne h
        · simp [c] at h
      · show a ∉ slotsOf init.2 init.1
        rw [hslots]
        exact hne
    case disjoint =>
      intro s hs s' hs' hss cs cs' h1 h2 a ha ha'
      obtain ⟨i, v, hv, ⟨b, hb, rfl⟩, hh, -⟩ := hholds s hs
      obtain ⟨j, w, hw, ⟨b', hb', rfl⟩, hh', -⟩ := hholds s' hs'
      obtain rfl := h1.unique hh
      obtain rfl := h2.unique hh'
      obtain rfl := List.mem_singleton.1 ha
      obtain rfl := List.mem_singleton.1 ha'
      have hlt := (List.getElem?_eq_some_iff.1 hv).1
      have hij : i = j := (List.getElem?_inj hlt hvs).1 (hv.trans hw.symm)
      subst hij
      exact hss (congrArg _ (Option.some.inj (hb.symm.trans hb')))
    case allocated => simp [c]

theorem initialized [CFloat F] : ∃ c : Config F, c.state = interpreterInit ∧ Initialized c := by
  obtain ⟨bs, vs, hi⟩ := initial_env (F := F)
  exact hi.initialized

end Lisp
