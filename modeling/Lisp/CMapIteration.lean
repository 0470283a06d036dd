import Lisp.CMap

/-! Iteration over a hash table: `cmap_first` and `cmap_next`. -/
namespace Lisp
namespace CMap
open scoped List
variable {κ ν : Type}

section source

def cmapFirst (cm : CMap κ ν) : Option Nat :=
  if cm.size = 0 then none
  else (List.range cm.capacity).find? fun i => !isFree (cm.entries i)

/-- The loop of `cmap_next`, for at most the given number of rounds. The field `end` is never
assigned: `fin` is the index of the entry that it points to, if it is one. There is no result if
an entry outside the table is examined. -/
def cmapNext (cm : CMap κ ν) (fin : Option Nat) : Nat → Nat → Option (Option Nat)
  | 0, _ => none
  | rounds + 1, e =>
    if some e = fin then some none else
    let e := e + 1
    if cm.capacity ≤ e then none
    else if !isFree (cm.entries e) then some (some e)
    else cmapNext cm fin rounds e

/-- The entries of the keys from one that `cmap_first` or `cmap_next` returned, for at most the
given number of calls. -/
def keysFrom (cm : CMap κ ν) (fin : Option Nat) (rounds : Nat) :
    Nat → Option Nat → Option (List Nat)
  | _, none => some []
  | 0, some _ => none
  | calls + 1, some e => do
    let next ← cmapNext cm fin rounds e
    let rest ← keysFrom cm fin rounds calls next
    return e :: rest

end source

section iteration
variable {cm : CMap κ ν} {fin next : Option Nat} {m e start rounds calls : Nat} {l : List Nat}

/-- The entries in use from one on. -/
def usedFrom (cm : CMap κ ν) (start : Nat) : List Nat :=
  (List.range' start (cm.capacity - start)).filter fun i => !isFree (cm.entries i)

/-- The entries in use. -/
def used (cm : CMap κ ν) : List Nat := usedFrom cm 0

theorem mem_usedFrom : e ∈ usedFrom cm start ↔ start ≤ e ∧ e < cm.capacity ∧ Full cm e := by
  simp only [usedFrom, Full, List.mem_filter, List.mem_range'_1, Bool.not_eq_true']
  constructor
  · rintro ⟨⟨h1, h2⟩, h3⟩
    exact ⟨h1, by omega, h3⟩
  · rintro ⟨h1, h2, h3⟩
    exact ⟨⟨h1, by omega⟩, h3⟩

theorem mem_used : e ∈ used cm ↔ e < cm.capacity ∧ Full cm e := by
  rw [used, mem_usedFrom, and_iff_right (Nat.zero_le e)]

theorem usedFrom_full (hlt : start < cm.capacity) (hfull : Full cm start) :
    usedFrom cm start = start :: usedFrom cm (start + 1) := by
  obtain ⟨k, hk⟩ : ∃ k, cm.capacity - start = k + 1 := ⟨cm.capacity - start - 1, by omega⟩
  have hk' : cm.capacity - (start + 1) = k := by omega
  have hused : (!isFree (cm.entries start)) = true := by simpa [Full] using hfull
  rw [usedFrom, usedFrom, hk, hk', List.range'_succ, List.filter_cons, if_pos hused]

theorem usedFrom_free (hfree : ¬Full cm start) :
    usedFrom cm start = usedFrom cm (start + 1) := by
  by_cases hlt : start < cm.capacity
  · obtain ⟨k, hk⟩ : ∃ k, cm.capacity - start = k + 1 := ⟨cm.capacity - start - 1, by omega⟩
    have hk' : cm.capacity - (start + 1) = k := by omega
    have hused : ¬(!isFree (cm.entries start)) = true := by simpa [Full] using hfree
    rw [usedFrom, usedFrom, hk, hk', List.range'_succ, List.filter_cons, if_neg hused]
  · have h1 : cm.capacity - start = 0 := by omega
    have h2 : cm.capacity - (start + 1) = 0 := by omega
    rw [usedFrom, usedFrom, h1, h2]
    rfl

/-- The entries behind the first one in use are those from the next index on. -/
theorem usedFrom_cons (h : usedFrom cm start = e :: l) : l = usedFrom cm (e + 1) := by
  induction hk : cm.capacity - start generalizing start with
  | zero => simp [usedFrom, hk] at h
  | succ k ih =>
    by_cases hfull : Full cm start
    · rw [usedFrom_full (by omega) hfull] at h
      obtain ⟨rfl, rfl⟩ := List.cons.inj h
      rfl
    · rw [usedFrom_free hfull] at h
      exact ih h (by omega)

theorem cmapFirst_eq (hsize : cm.size = 0 → used cm = []) : cmapFirst cm = (used cm).head? := by
  unfold cmapFirst
  split_ifs with h
  · rw [hsize h]
    rfl
  · rw [used, usedFrom, List.head?_filter, Nat.sub_zero, ← List.range_eq_range']

/-- A call that returns examines no entry outside the table; at the end of the iteration no entry
in use is left before the end marker. -/
theorem cmapNext_some (h : cmapNext cm fin rounds e = some next) (he : e < cm.capacity) :
    (∃ e', next = some e' ∧ e < e' ∧ e' < cm.capacity) ∨
      next = none ∧ ∃ m, fin = some m ∧ e ≤ m ∧ m < cm.capacity := by
  induction rounds generalizing e with
  | zero => simp [cmapNext] at h
  | succ rounds ih =>
    unfold cmapNext at h
    by_cases hend : some e = fin
    · rw [if_pos hend] at h
      exact Or.inr ⟨(Option.some.inj h).symm, e, hend.symm, Nat.le_refl e, he⟩
    · rw [if_neg hend] at h
      by_cases hout : cm.capacity ≤ e + 1
      · simp [hout] at h
      · by_cases hused : (!isFree (cm.entries (e + 1))) = true
        · simp only [if_neg hout, if_pos hused, Option.some.injEq] at h
          exact Or.inl ⟨e + 1, h.symm, Nat.lt_succ_self e, by omega⟩
        · simp only [if_neg hout, if_neg hused] at h
          rcases ih h (by omega) with ⟨e', hnext, hlt, hcap⟩ | ⟨hnext, m, hm, hle, hcap⟩
          · exact Or.inl ⟨e', hnext, by omega, hcap⟩
          · exact Or.inr ⟨hnext, m, hm, by omega, hcap⟩

/-- With an end marker at or behind the last entry in use, a call finds the next one. -/
theorem cmapNext_eq (hm : m < cm.capacity) (hlast : ∀ i ∈ used cm, i ≤ m) (he : e ≤ m)
    (hrounds : m - e < rounds) :
    cmapNext cm (some m) rounds e = some (usedFrom cm (e + 1)).head? := by
  induction rounds generalizing e with
  | zero => omega
  | succ rounds ih =>
    unfold cmapNext
    by_cases hend : e = m
    · have hnil : usedFrom cm (e + 1) = [] := by
        apply List.eq_nil_iff_forall_not_mem.2
        intro i hi
        obtain ⟨h1, h2, h3⟩ := mem_usedFrom.1 hi
        have := hlast i (mem_used.2 ⟨h2, h3⟩)
        omega
      rw [if_pos (congrArg some hend), hnil]
      rfl
    · have hne : ¬some e = some m := fun h => hend (Option.some.inj h)
      have hin : ¬cm.capacity ≤ e + 1 := by omega
      simp only [if_neg hne, if_neg hin]
      by_cases hfull : Full cm (e + 1)
      · have hused : (!isFree (cm.entries (e + 1))) = true := by simpa [Full] using hfull
        rw [if_pos hused, usedFrom_full (by omega) hfull]
        rfl
      · have hused : ¬(!isFree (cm.entries (e + 1))) = true := by simpa [Full] using hfull
        rw [if_neg hused, usedFrom_free hfull]
        exact ih (by omega) (by omega)

/-- An iteration that ends has not passed the end marker. -/
theorem keysFrom_le (h : keysFrom cm fin rounds calls (some e) = some l) (he : e < cm.capacity) :
    ∃ m, fin = some m ∧ m < cm.capacity ∧ ∀ i ∈ l, i ≤ m := by
  induction calls generalizing e l with
  | zero => simp [keysFrom] at h
  | succ calls ih =>
    simp only [keysFrom, Option.bind_eq_bind, Option.bind_eq_some_iff, Option.pure_def,
      Option.some.injEq] at h
    obtain ⟨next, hnext, rest, hrest, rfl⟩ := h
    rcases cmapNext_some hnext he with ⟨e', rfl, hlt, hcap⟩ | ⟨rfl, m, hm, hle, hcap⟩
    · obtain ⟨m, hm, hmc, hall⟩ := ih hrest hcap
      refine ⟨m, hm, hmc, ?_⟩
      intro i hi
      rcases List.mem_cons.1 hi with rfl | hi
      · cases calls with
        | zero => simp [keysFrom] at hrest
        | succ calls =>
          have hmem : e' ∈ rest := by
            simp only [keysFrom, Option.bind_eq_bind, Option.bind_eq_some_iff, Option.pure_def,
              Option.some.injEq] at hrest
            obtain ⟨-, -, rest', -, rfl⟩ := hrest
            exact List.mem_cons_self
          have := hall e' hmem
          omega
      · exact hall i hi
    · obtain rfl : rest = [] := by
        cases calls <;> exact (Option.some.inj hrest).symm
      exact ⟨m, hm, hcap, by simpa using hle⟩

theorem keysFrom_eq (hm : m < cm.capacity) (hlast : ∀ i ∈ used cm, i ≤ m)
    (hl : usedFrom cm start = l) : keysFrom cm (some m) (m + 1) l.length l.head? = some l := by
  induction l generalizing start with
  | nil => rfl
  | cons e l ih =>
    have hrest := usedFrom_cons hl
    have he : e ∈ usedFrom cm start := hl ▸ List.mem_cons_self
    obtain ⟨-, hcap, hfull⟩ := mem_usedFrom.1 he
    have hnext := cmapNext_eq hm hlast (hlast e (mem_used.2 ⟨hcap, hfull⟩))
      (by omega : m - e < m + 1)
    rw [← hrest] at hnext
    simp only [List.length_cons, List.head?_cons, keysFrom, hnext, Option.bind_eq_bind,
      Option.bind_some, ih hrest.symm, Option.pure_def]

/-- Following the keys returns each entry in use once if and only if the end marker is an entry
of the table at or behind the last one in use, or none is in use. -/
theorem iteration_iff (hsize : cm.size = 0 → used cm = []) (fin : Option Nat) :
    (∃ rounds calls l, keysFrom cm fin rounds calls (cmapFirst cm) = some l ∧ l ~ used cm) ↔
      used cm = [] ∨ ∃ m, fin = some m ∧ m < cm.capacity ∧ ∀ i ∈ used cm, i ≤ m := by
  rw [cmapFirst_eq hsize]
  constructor
  · rintro ⟨rounds, calls, l, hrun, hperm⟩
    cases hused : used cm with
    | nil => exact Or.inl rfl
    | cons e rest =>
      right
      have he : e ∈ used cm := hused ▸ List.mem_cons_self
      rw [hused, List.head?_cons] at hrun
      obtain ⟨m, hm, hcap, hall⟩ := keysFrom_le hrun (mem_used.1 he).1
      refine ⟨m, hm, hcap, ?_⟩
      intro i hi
      exact hall i (hperm.mem_iff.2 (hused ▸ hi))
  · rintro (hnil | ⟨m, rfl, hcap, hlast⟩)
    · exact ⟨0, 0, [], by rw [hnil]; rfl, by rw [hnil]⟩
    · exact ⟨m + 1, _, used cm, keysFrom_eq hcap hlast rfl, .refl _⟩

end iteration

section runs
variable {cm cm' : CMap κ ν} {key : κ} {hash : κ → Nat} {cmp : κ → κ → Int}
  {cleanupKey cleanupValue : Bool} {capacity rounds start stop index i j : Nat}
  {memory : Nat → MapEntry κ ν} {inserted : List (κ × ν)}

/-- The size is at least the number of pairs. It may be more in a table whose capacity is over
`2 ^ 31`, where the sum of hash and offset wraps around and an insertion may find no free entry
although there is one. -/
structure Sized (cm : CMap κ ν) : Prop where
  capacity_pos : 0 < cm.capacity
  capacity_lt : cm.capacity < 2 ^ 32
  stored_le : (stored cm).length ≤ cm.size
  size_le : cm.size ≤ cm.capacity

theorem used_length (cm : CMap κ ν) : (used cm).length = (stored cm).length := by
  rw [← numStored_eq, numStored, used, usedFrom, List.range_eq_range', Nat.sub_zero]

theorem Sized.used_nil (h : Sized cm) (hsize : cm.size = 0) : used cm = [] := by
  have := h.stored_le
  apply List.length_eq_zero_iff.1
  rw [used_length]
  omega

theorem Sized.init (hlt : capacity < 2 ^ 32) :
    Sized (cmapCreate memory hash cmp cleanupKey cleanupValue capacity) := by
  have hpos : 0 < if 0 < capacity then capacity else DEFAULT_CAPACITY := by
    split_ifs with h
    · exact h
    · decide
  have heq : cmapCreate memory hash cmp cleanupKey cleanupValue capacity =
      cmapCreate memory hash cmp cleanupKey cleanupValue
        (if 0 < capacity then capacity else DEFAULT_CAPACITY) := by
    unfold cmapCreate
    rw [if_pos hpos]
  obtain ⟨hc, hfree, hsize, -⟩ := created_init heq hpos
  constructor
  case capacity_pos => exact hc.capacity_eq ▸ hpos
  case capacity_lt =>
    rw [hc.capacity_eq]
    split_ifs
    · exact hlt
    · decide
  case stored_le =>
    rw [stored_nil hfree]
    exact Nat.zero_le _
  case size_le =>
    rw [hsize]
    exact Nat.zero_le _

theorem pairOf_length_le (e : MapEntry κ ν) : (pairOf e).length ≤ 1 := by
  unfold pairOf
  split_ifs <;> simp

theorem probes_mem_lt (hpos : 0 < cm.capacity) (hi : i ∈ probes cm start) : i < cm.capacity := by
  obtain ⟨k, -, rfl⟩ := List.mem_map.1 hi
  exact Nat.mod_lt _ hpos

theorem findFree_mem {l : List Nat} {entry : Option Nat} (h : findFree cm l entry = some index) :
    index ∈ l ∨ entry = some index := by
  induction l generalizing entry with
  | nil => exact Or.inr h
  | cons a l ih =>
    by_cases ha : isFree (cm.entries a) = true
    · rw [findFree, if_pos ha] at h
      obtain rfl := Option.some.inj h
      exact Or.inl List.mem_cons_self
    · rw [findFree, if_neg ha] at h
      rcases ih h with hmem | heq
      · exact Or.inl (List.mem_cons_of_mem a hmem)
      · obtain rfl := Option.some.inj heq
        exact Or.inl List.mem_cons_self

/-- An insertion adds one pair at most, and one to the size. -/
theorem Sized.insert {value : ν} {entry : Option Nat} (h : Sized cm)
    (hrun : cmapInsert cm key value = some (entry, cm')) : Sized cm' := by
  unfold cmapInsert at hrun
  split_ifs at hrun with hfull
  · obtain ⟨-, rfl⟩ := Prod.mk.inj (Option.some.inj hrun)
    exact h
  · simp only [Option.bind_eq_bind, Option.bind_eq_some_iff, Option.pure_def, Option.some.injEq,
      Prod.mk.injEq] at hrun
    obtain ⟨index, hfind, -, rfl⟩ := hrun
    have hcap := h.capacity_lt
    have hsize := h.size_le
    have hsucc : toUnsigned (cm.size + 1) = cm.size + 1 :=
      toUnsigned_natCast (n := cm.size + 1) (by omega)
    have hlt : index < cm.capacity := by
      rcases findFree_mem hfind with hmem | hnone
      · exact probes_mem_lt h.capacity_pos hmem
      · cases hnone
    generalize hentry : ({ setFree { cm.entries index with key := key, value := value } false with
      hash := cm.hash key % cm.capacity } : MapEntry κ ν) = e
    have hbefore := (stored_perm cm hlt).length_eq
    have hafter := (stored_setEntry cm hlt e).length_eq
    have hone := pairOf_length_le e
    have hle := h.stored_le
    rw [List.length_append] at hbefore hafter
    constructor
    case capacity_pos => exact h.capacity_pos
    case capacity_lt => exact hcap
    case stored_le =>
      show (stored (setEntry cm index e)).length ≤ toUnsigned (cm.size + 1)
      omega
    case size_le =>
      show toUnsigned (cm.size + 1) ≤ cm.capacity
      omega

/-- What `delete` does to the table: it may move entries. -/
structure Shifted (cm cm' : CMap κ ν) : Prop where
  capacity_eq : cm'.capacity = cm.capacity
  size_eq : cm'.size = cm.size
  stored_le : (stored cm').length ≤ (stored cm).length

theorem Shifted.refl (cm : CMap κ ν) : Shifted cm cm := ⟨rfl, rfl, Nat.le_refl _⟩

theorem Shifted.trans {cm'' : CMap κ ν} (h : Shifted cm cm') (h' : Shifted cm' cm'') :
    Shifted cm cm'' :=
  ⟨h'.capacity_eq.trans h.capacity_eq, h'.size_eq.trans h.size_eq,
    Nat.le_trans h'.stored_le h.stored_le⟩

/-- A move overwrites one entry and frees another. -/
theorem shifted_moved (hs : start < cm.capacity) (hj : j < cm.capacity) (hfull : Full cm j) :
    Shifted cm (moved cm start j) := by
  constructor
  case capacity_eq => rfl
  case size_eq => rfl
  case stored_le =>
    have hentry : (setEntry cm start (cm.entries j)).entries j = cm.entries j := by
      by_cases h : j = start
      · simp [setEntry, h]
      · simp [setEntry, h]
    have h1 := (stored_perm cm hs).length_eq
    have h2 := (stored_setEntry cm hs (cm.entries j)).length_eq
    have h3 := (stored_perm (setEntry cm start (cm.entries j)) hj).length_eq
    have h4 := (stored_setEntry (setEntry cm start (cm.entries j)) hj
      (setFree (cm.entries j) true)).length_eq
    rw [hentry, pairOf_full hfull] at h3
    rw [pairOf_full hfull] at h2
    rw [pairOf_free (isFree_setFree _ true)] at h4
    simp only [List.length_append, List.length_cons, List.length_nil] at h1 h2 h3 h4
    show (stored (setEntry (setEntry cm start (cm.entries j)) j
      (setFree (cm.entries j) true))).length ≤ _
    omega

theorem replace_shifted (hs : start < cm.capacity) (hj : j < cm.capacity)
    (h : replace cm start stop i j = some (cm', index)) :
    Shifted cm cm' ∧ index < cm.capacity := by
  induction i generalizing j with
  | zero =>
    obtain ⟨rfl, rfl⟩ := Prod.mk.inj (Option.some.inj h)
    exact ⟨.refl cm, hj⟩
  | succ i ih =>
    have hnext : toUnsigned (j + 1) % cm.capacity < cm.capacity := Nat.mod_lt _ (by omega)
    simp only [replace] at h
    generalize toUnsigned (j + 1) % cm.capacity = k at h hnext
    split_ifs at h with hstop hfree hhome
    · obtain ⟨rfl, rfl⟩ := Prod.mk.inj (Option.some.inj h)
      exact ⟨shifted_moved hs hnext (by simpa [Full] using hfree), hnext⟩
    · exact ih hnext h

theorem delete_shifted (hs : start < cm.capacity) (h : delete stop rounds cm start = some cm') :
    Shifted cm cm' := by
  induction rounds generalizing cm start with
  | zero => simp [delete] at h
  | succ rounds ih =>
    unfold delete at h
    cases hrep : replace cm start stop cm.capacity start with
    | none =>
      simp only [hrep, Option.some.injEq] at h
      exact h ▸ .refl cm
    | some result =>
      obtain ⟨cm₁, j⟩ := result
      simp only [hrep] at h
      obtain ⟨hshift, hj⟩ := replace_shifted hs hs hrep
      exact hshift.trans (ih (hshift.capacity_eq ▸ hj) h)

/-- A removal takes out at least one pair if it takes one from the size. -/
theorem Sized.remove (h : Sized cm) (hrun : cmapRemove rounds cm key = some cm') : Sized cm' := by
  simp only [cmapRemove] at hrun
  split_ifs at hrun with hneg
  · exact Option.some.inj hrun ▸ h
  · cases hsearch : search cm key (cm.hash key % cm.capacity)
        (probes cm (cm.hash key % cm.capacity)) with
    | none => simp [lookupIndex, hsearch] at hneg
    | some index =>
      obtain ⟨pre, post, hl, hfull, -⟩ := search_some hsearch
      have hlt : index < cm.capacity := probes_mem_lt h.capacity_pos (by rw [hl]; simp)
      have hcap := h.capacity_lt
      have hindex : toUnsigned (lookupIndex cm key) = index := by
        simp only [lookupIndex, hsearch, toInt, Int.bmod, Nat.reducePow, Nat.cast_ofNat] at hneg ⊢
        unfold toUnsigned
        split_ifs at hneg ⊢ <;> omega
      simp only [hindex, Option.bind_eq_bind, Option.bind_eq_some_iff, Option.pure_def,
        Option.some.injEq] at hrun
      obtain ⟨cm₁, hdel, rfl⟩ := hrun
      have hshift := delete_shifted (by rw [erase_capacity]; exact hlt) hdel
      have hsize : cm₁.size = cm.size := by
        rw [hshift.size_eq, erase_eq]
        rfl
      have hstored := (stored_erase hlt hfull).length_eq
      have hle := hshift.stored_le
      have hpairs := h.stored_le
      have hroom := h.size_le
      have hcap₁ : cm₁.capacity = cm.capacity := hshift.capacity_eq.trans (erase_capacity cm index)
      rw [List.length_cons] at hstored
      have hpred : toUnsigned (cm₁.size - 1) = cm₁.size - 1 := by
        unfold toUnsigned
        omega
      constructor
      case capacity_pos => exact hcap₁ ▸ h.capacity_pos
      case capacity_lt => exact hcap₁ ▸ hcap
      case stored_le =>
        show (stored cm₁).length ≤ toUnsigned (cm₁.size - 1)
        omega
      case size_le =>
        show toUnsigned (cm₁.size - 1) ≤ cm₁.capacity
        omega

theorem Sized.clear (h : Sized cm) : Sized (cmapClear cm) := by
  have hcap := h.capacity_lt
  have hsize := h.size_le
  have hpairs : 0 + (pairsIn cm (List.range cm.capacity)).length ≤ cm.size := by
    rw [Nat.zero_add]
    exact h.stored_le
  obtain ⟨entries, hrun, hfree, -⟩ := clearFrom_eq cm 0
    (List.nodup_range (n := cm.capacity)) hpairs (by omega)
  unfold cmapClear
  rw [hrun]
  have hnil : stored { cm with entries := entries } = [] :=
    stored_nil fun i hi => hfree i (List.mem_range.2 hi)
  constructor
  case capacity_pos => exact h.capacity_pos
  case capacity_lt => exact hcap
  case stored_le => exact Nat.le_of_eq (congrArg List.length hnil)
  case size_le => exact Nat.zero_le _

theorem Sized.run {op : CMapOp κ ν} {inserted' : List (κ × ν)} (h : Sized cm)
    (hrun : op.run rounds (cm, inserted) = some (cm', inserted')) : Sized cm' := by
  cases op with
  | insert key value =>
    simp only [CMapOp.run, Option.bind_eq_bind, Option.bind_eq_some_iff, Option.pure_def,
      Option.some.injEq, Prod.mk.injEq] at hrun
    obtain ⟨⟨entry, cm₁⟩, hins, rfl, -⟩ := hrun
    exact h.insert hins
  | remove key =>
    simp only [CMapOp.run, Option.bind_eq_bind, Option.bind_eq_some_iff, Option.pure_def,
      Option.some.injEq, Prod.mk.injEq] at hrun
    obtain ⟨cm₁, hrem, rfl, -⟩ := hrun
    exact h.remove hrem
  | lookup key =>
    obtain ⟨rfl, -⟩ := Prod.mk.inj (Option.some.inj hrun)
    exact h
  | clear =>
    obtain ⟨rfl, -⟩ := Prod.mk.inj (Option.some.inj hrun)
    exact h.clear

theorem sized_runMap (hlt : capacity < 2 ^ 32) (ops : List (CMapOp κ ν))
    (hrun : runMap rounds (cmapCreate memory hash cmp cleanupKey cleanupValue capacity) ops =
      some (cm, inserted)) : Sized cm := by
  induction ops using List.reverseRecOn generalizing cm inserted with
  | nil =>
    obtain ⟨rfl, -⟩ := Prod.mk.inj (Option.some.inj hrun)
    exact .init hlt
  | append_singleton ops op ih =>
    cases hprev : runMap rounds
        (cmapCreate memory hash cmp cleanupKey cleanupValue capacity) ops with
    | none =>
      unfold runMap at hprev hrun
      rw [List.foldlM_append, hprev] at hrun
      cases hrun
    | some state =>
      obtain ⟨cm₁, inserted₁⟩ := state
      rw [runMap_append hprev] at hrun
      exact (ih hprev).run hrun

/-- In every table that was reached, an iteration returns the key of each entry in use once and
ends, without a look at an entry outside the table, if and only if no entry is in use or the
field `end`, which nothing assigns, happens to point to an entry of the table at or behind the
last one in use. -/
theorem runMap_iteration_iff (hlt : capacity < 2 ^ 32) (ops : List (CMapOp κ ν))
    (hrun : runMap rounds (cmapCreate memory hash cmp cleanupKey cleanupValue capacity) ops =
      some (cm, inserted)) (fin : Option Nat) :
    (∃ rounds calls l, keysFrom cm fin rounds calls (cmapFirst cm) = some l ∧ l ~ used cm) ↔
      used cm = [] ∨ ∃ m, fin = some m ∧ m < cm.capacity ∧ ∀ i ∈ used cm, i ≤ m :=
  iteration_iff (sized_runMap hlt ops hrun).used_nil fin

/-- A table of capacity 2 where `memory` is free. -/
def small : CMap Nat Nat :=
  cmapCreate (fun _ => ⟨0, 0, 0, 0⟩) id (fun a b => a - b) false false 2

theorem small_insert : ∃ s, runMap 3 small [.insert 1 5] = some s ∧ used s.1 = [1] ∧
    s.1.capacity = 2 :=
  ⟨_, rfl, by decide, by decide⟩

/-- Both entries are in use. -/
theorem runMap_iteration_iff_both : ∃ (cm : CMap Nat Nat) (inserted : List (Nat × Nat)),
    runMap 3 small [.insert 1 5, .insert 0 7] = some (cm, inserted) ∧ used cm = [0, 1] ∧
      ((∃ rounds calls l, keysFrom cm (some 1) rounds calls (cmapFirst cm) = some l ∧
          l ~ used cm) ↔
        used cm = [] ∨ ∃ m, some 1 = some m ∧ m < cm.capacity ∧ ∀ i ∈ used cm, i ≤ m) := by
  obtain ⟨⟨cm, inserted⟩, hrun, hused⟩ : ∃ s,
      runMap 3 small [.insert 1 5, .insert 0 7] = some s ∧ used s.1 = [0, 1] :=
    ⟨_, rfl, by decide +kernel⟩
  exact ⟨cm, inserted, hrun, hused,
    runMap_iteration_iff (by decide : 2 < 2 ^ 32) [.insert 1 5, .insert 0 7] hrun (some 1)⟩

/-- With an end marker behind the table, where the array ends, the walk leaves the table. -/
theorem runMap_iteration_leaves : ¬∀ (ops : List (CMapOp Nat Nat)) (cm : CMap Nat Nat)
    (inserted : List (Nat × Nat)) (fin : Option Nat),
    runMap 3 small ops = some (cm, inserted) →
    ∃ rounds calls l, keysFrom cm fin rounds calls (cmapFirst cm) = some l ∧ l ~ used cm := by
  intro h
  obtain ⟨⟨cm, inserted⟩, hrun, hused, hcap⟩ := small_insert
  have hsized : Sized cm := sized_runMap (by decide : 2 < 2 ^ 32) [.insert 1 5] hrun
  rcases (iteration_iff hsized.used_nil _).1 (h _ _ _ (some 2) hrun) with hnil | ⟨m, hm, hlt, -⟩
  · rw [hused] at hnil
    cases hnil
  · obtain rfl := Option.some.inj hm
    exact absurd hlt (by rw [hcap]; decide)

end runs

end CMap
end Lisp
