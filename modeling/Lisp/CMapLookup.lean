import Lisp.CMap
import Mathlib.Data.List.Pairwise

/-! What a hash table finds: insertions make a map, and so do removals that leave no probe
sequence broken. -/
namespace Lisp
namespace CMap
open scoped List
open Probing
variable {κ ν : Type}

/-- The comparison is an equality of keys, and equal keys have one hash. -/
structure KeyEquality (hash : κ → Nat) (cmp : κ → κ → Int) : Prop where
  refl : ∀ a, cmp a a = 0
  symm : ∀ a b, cmp a b = 0 → cmp b a = 0
  trans : ∀ a b c, cmp a b = 0 → cmp b c = 0 → cmp a c = 0
  hash_eq : ∀ a b, cmp a b = 0 → hash a = hash b

/-- The hash in an entry is that of its key. -/
def Keyed (cm : CMap κ ν) : Prop :=
  ∀ s < cm.capacity, Full cm s → (cm.entries s).hash = cm.hash (cm.entries s).key % cm.capacity

/-- No probe sequence is broken. -/
def Chained (cm : CMap κ ν) : Prop := Unbroken cm.capacity (Full cm) (homeSlot cm)

section search
variable {cm cm' : CMap κ ν} {key k : κ} {value : ν} {s index : Nat}

/-- The entry that is found for a key. -/
def found (cm : CMap κ ν) (key : κ) : Option Nat :=
  search cm key (cm.hash key % cm.capacity) (probes cm (cm.hash key % cm.capacity))

theorem search_pre {hash : Nat} {pre post : List Nat} (hfull : Full cm s)
    (hhash : (cm.entries s).hash = hash) (hcmp : cm.cmp (cm.entries s).key key = 0)
    (hpre : ∀ y ∈ pre, Full cm y ∧
      ((cm.entries y).hash = hash → cm.cmp (cm.entries y).key key ≠ 0)) :
    search cm key hash (pre ++ s :: post) = some s := by
  induction pre with
  | nil =>
    have hfree : ¬isFree (cm.entries s) = true := by simpa [Full] using hfull
    simp [search, hfree, hhash, hcmp]
  | cons a pre ih =>
    obtain ⟨ha, hne⟩ := hpre a List.mem_cons_self
    have hfree : ¬isFree (cm.entries a) = true := by simpa [Full] using ha
    have hrest := ih fun y hy => hpre y (List.mem_cons_of_mem a hy)
    rw [List.cons_append, search]
    by_cases hh : (cm.entries a).hash = hash
    · simp [hfree, hh, hne hh, hrest]
    · simp [hfree, hh, hrest]

variable (hcap : cm.capacity < 2 ^ 31) (hpos : 0 < cm.capacity)
include hcap hpos

/-- The slots that are probed for a key before one of them. -/
theorem probes_split (key : κ) (hs : s < cm.capacity) : ∃ pre post,
    probes cm (cm.hash key % cm.capacity) = pre ++ s :: post ∧
      ∀ y < cm.capacity, y ∈ pre ↔ OnWay cm.capacity (cm.hash key % cm.capacity) s y := by
  have hhome : cm.hash key % cm.capacity < cm.capacity := Nat.mod_lt _ hpos
  have hmem := (mem_slots hhome).2 hs
  obtain ⟨pre, post, hl⟩ := List.append_of_mem hmem
  exact ⟨pre, post, (probes_eq hcap hhome).trans hl, fun y hy => mem_pre_iff hhome hy hl⟩

theorem probes_lt (h : s ∈ probes cm (cm.hash key % cm.capacity)) : s < cm.capacity := by
  have hhome : cm.hash key % cm.capacity < cm.capacity := Nat.mod_lt _ hpos
  rw [probes_eq hcap hhome] at h
  exact (mem_slots hhome).1 h

/-- A key that is not found is in no entry. -/
theorem found_none (hkeyed : Keyed cm) (hchain : Chained cm) (heq : KeyEquality cm.hash cm.cmp)
    (h : found cm key = none) (hs : s < cm.capacity) (hfull : Full cm s) :
    cm.cmp (cm.entries s).key key ≠ 0 := by
  intro hcmp
  obtain ⟨pre, post, hl, hpre⟩ := probes_split hcap hpos key hs
  have hhash : (cm.entries s).hash = cm.hash key % cm.capacity := by
    rw [hkeyed s hs hfull, heq.hash_eq _ _ hcmp]
  have hhome : homeSlot cm s = cm.hash key % cm.capacity := by
    rw [homeSlot, hhash, Nat.mod_mod]
  rw [found, hl] at h
  refine search_none h (fun y hy => ?_) hfull hhash hcmp
  have hlt : y < cm.capacity := probes_lt hcap hpos (by rw [hl]; simp [hy])
  exact (hchain s hs hfull).2 y hlt (hhome ▸ (hpre y hlt).1 hy)

theorem found_some (h : found cm key = some s) : s < cm.capacity ∧ Full cm s ∧
    cm.cmp (cm.entries s).key key = 0 := by
  obtain ⟨pre, post, hl, hfull, -, hcmp, -⟩ := search_some h
  exact ⟨probes_lt hcap hpos (by rw [hl]; simp), hfull, hcmp⟩

theorem cmapLookup_eq (hsize : cm.size = (stored cm).length) (key : κ) :
    cmapLookup cm key = (found cm key).map fun s => (cm.entries s).value := by
  unfold cmapLookup lookupKey
  by_cases hzero : cm.size = 0
  · rw [if_pos hzero, Option.map_none]
    cases h : found cm key with
    | none => rfl
    | some s =>
      obtain ⟨hs, hfull, -⟩ := found_some hcap hpos h
      have hperm := (stored_perm cm hs).length_eq
      rw [pairOf_full hfull, ← hsize, hzero] at hperm
      simp at hperm
  · rw [if_neg hzero]
    rfl

omit hcap hpos in
/-- What an insertion leaves as it is, and the new entry. -/
theorem Inserted.frame (h : Inserted cm cm' key value index) :
    cm'.capacity = cm.capacity ∧ cm'.hash = cm.hash ∧ cm'.cmp = cm.cmp ∧
      (∀ y ≠ index, cm'.entries y = cm.entries y) ∧ Full cm' index ∧
      (cm'.entries index).hash = cm.hash key % cm.capacity ∧ (cm'.entries index).key = key ∧
      (cm'.entries index).value = value := by
  obtain ⟨e, rfl, hfull, hhash, hkey, hvalue⟩ := h.result
  refine ⟨rfl, rfl, rfl, ?_, ?_, ?_, ?_, ?_⟩
  · intro y hy
    simp [setEntry, hy]
  all_goals simpa [Full, setEntry]

omit hcap hpos in
theorem Inserted.ne (h : Inserted cm cm' key value index) (hs : Full cm s) : s ≠ index := by
  rintro rfl
  exact Bool.noConfusion (hs.symm.trans h.free)

/-- After an insertion a key that was found is found where it was, and the new key is found if it
was not. -/
theorem found_inserted (hkeyed : Keyed cm) (hchain : Chained cm)
    (heq : KeyEquality cm.hash cm.cmp) (h : Inserted cm cm' key value index) (k : κ) :
    found cm' k = match found cm k with
      | some s => some s
      | none => if cm.cmp key k = 0 then some index else none := by
  obtain ⟨hcapacity, hhash', hcmp', hother, hfull, hhash, hkey, -⟩ := h.frame
  have hprobes : found cm' k =
      search cm' k (cm.hash k % cm.capacity) (probes cm (cm.hash k % cm.capacity)) := by
    unfold found probes
    rw [hhash', hcapacity]
  have hold : ∀ y, Full cm y → Full cm' y ∧ cm'.entries y = cm.entries y := by
    intro y hy
    have hsame := hother y (h.ne hy)
    exact ⟨by rwa [Full, hsame], hsame⟩
  cases hfound : found cm k with
  | some s =>
    obtain ⟨pre, post, hl, hs, hh, hc, hpre⟩ := search_some hfound
    rw [hprobes, hl]
    apply search_pre (hold s hs).1
    · rw [(hold s hs).2, hh]
    · rw [(hold s hs).2, hcmp', hc]
    · intro y hy
      obtain ⟨hyfull, hyne⟩ := hpre y hy
      rw [(hold y hyfull).2, hcmp']
      exact ⟨(hold y hyfull).1, hyne⟩
  | none =>
    have hnone : ∀ y < cm.capacity, Full cm y → cm.cmp (cm.entries y).key k ≠ 0 :=
      fun y hy hf => found_none hcap hpos hkeyed hchain heq hfound hy hf
    by_cases hcmp : cm.cmp key k = 0
    · have hhome : cm.hash k % cm.capacity = cm.hash key % cm.capacity := by
        rw [heq.hash_eq _ _ hcmp]
      obtain ⟨pre, post, hl, hpre⟩ := probes_split hcap hpos k h.lt
      simp only [hcmp, if_true]
      rw [hprobes, hl]
      apply search_pre hfull
      · rw [hhash, hhome]
      · rw [hkey, hcmp', hcmp]
      · intro y hy
        have hylt : y < cm.capacity := probes_lt hcap hpos (by rw [hl]; simp [hy])
        have hyfull : Full cm y := h.way y hylt (hhome ▸ (hpre y hylt).1 hy)
        rw [(hold y hyfull).2, hcmp']
        exact ⟨(hold y hyfull).1, fun _ => hnone y hylt hyfull⟩
    · simp only [hcmp, if_false]
      rw [Option.eq_none_iff_forall_ne_some]
      intro s hs
      obtain ⟨hslt, hsfull, hsc⟩ := found_some (hcapacity ▸ hcap) (hcapacity ▸ hpos) hs
      rw [hcmp'] at hsc
      by_cases hsi : s = index
      · rw [hsi, hkey] at hsc
        exact hcmp hsc
      · rw [Full, hother s hsi] at hsfull
        rw [hother s hsi] at hsc
        exact hnone s (hcapacity ▸ hslt) hsfull hsc

omit hcap hpos in
theorem Keyed.insert (hkeyed : Keyed cm) (h : Inserted cm cm' key value index) : Keyed cm' := by
  obtain ⟨hcapacity, hhash', -, hother, -, hhash, hkey, -⟩ := h.frame
  intro s hs hfull
  rw [hcapacity] at hs
  rw [hhash', hcapacity]
  by_cases hsi : s = index
  · rw [hsi, hhash, hkey]
  · rw [Full, hother s hsi] at hfull
    rw [hother s hsi]
    exact hkeyed s hs hfull

omit hcap in
theorem Chained.insert (hchain : Chained cm) (h : Inserted cm cm' key value index) :
    Chained cm' := by
  obtain ⟨hcapacity, -, -, hother, hfull, hhash, -⟩ := h.frame
  have hhome : homeSlot cm' index = cm.hash key % cm.capacity := by
    rw [homeSlot, hhash, hcapacity, Nat.mod_mod]
  unfold Chained
  rw [hcapacity]
  apply Unbroken.fill hchain (s := index)
  · intro x hx
    by_cases hxi : x = index
    · simp [hxi, hfull]
    · simp [Full, hother x hxi, hxi]
  · intro x hx
    rw [homeSlot, homeSlot, hother x hx, hcapacity]
  · rw [hhome]
    exact Nat.mod_lt _ hpos
  · intro x hx hon
    exact h.way x hx (hhome ▸ hon)

end search

section insertions
variable {cm : CMap κ ν} {hash : κ → Nat} {cmp : κ → κ → Int} {cleanupKey cleanupValue : Bool}
  {capacity : Nat}

theorem chained_init {memory : Nat → MapEntry κ ν}
    (h : cm = cmapCreate memory hash cmp cleanupKey cleanupValue capacity) (hpos : 0 < capacity) :
    Keyed cm ∧ Chained cm := by
  obtain ⟨-, hfree, -⟩ := created_init h hpos
  constructor
  · intro s hs hfull
    exact Bool.noConfusion (hfull.symm.trans (hfree s hs))
  · apply Unbroken.empty
    intro s hs hfull
    exact Bool.noConfusion (hfull.symm.trans (hfree s hs))

/-- One more insertion: the pair is found for the keys for which nothing was found. -/
theorem cmapLookup_inserted {cm' : CMap κ ν} {key : κ} {value : ν} {index : Nat}
    (hcap : cm.capacity < 2 ^ 31) (hpos : 0 < cm.capacity) (hsize : cm.size = (stored cm).length)
    (hsize' : cm'.size = (stored cm').length) (hkeyed : Keyed cm) (hchain : Chained cm)
    (heq : KeyEquality cm.hash cm.cmp) (h : Inserted cm cm' key value index) (k : κ) :
    cmapLookup cm' k = (cmapLookup cm k).or (if cm.cmp key k = 0 then some value else none) := by
  obtain ⟨hcapacity, -, -, hother, -, -, -, hvalue⟩ := h.frame
  rw [cmapLookup_eq hcap hpos hsize, cmapLookup_eq (hcapacity ▸ hcap) (hcapacity ▸ hpos) hsize',
    found_inserted hcap hpos hkeyed hchain heq h]
  cases hfound : found cm k with
  | some s =>
    have hne := h.ne (found_some hcap hpos hfound).2.1
    simp [hother s hne]
  | none => by_cases hcmp : cm.cmp key k = 0 <;> simp [hcmp, hvalue]

/-- What holds between two operations that break no probe sequence. -/
structure Searchable (hash : κ → Nat) (cmp : κ → κ → Int) (cleanupKey cleanupValue : Bool)
    (capacity : Nat) (cm : CMap κ ν) (inserted : List (κ × ν)) : Prop where
  created : Created hash cmp cleanupKey cleanupValue capacity cm
  counted : Counted cleanupKey cleanupValue cm inserted
  keyed : Keyed cm
  chained : Chained cm

theorem searchable_init {memory : Nat → MapEntry κ ν}
    (h : cm = cmapCreate memory hash cmp cleanupKey cleanupValue capacity) (hpos : 0 < capacity) :
    Searchable hash cmp cleanupKey cleanupValue capacity cm [] := by
  obtain ⟨hkeyed, hchain⟩ := chained_init h hpos
  exact ⟨(created_init h hpos).1, counted_init h hpos, hkeyed, hchain⟩

theorem cmapLookup_empty (hsize : cm.size = 0) (k : κ) : cmapLookup cm k = none := by
  unfold cmapLookup lookupKey
  rw [if_pos hsize, Option.map_none]

theorem Searchable.insert {inserted : List (κ × ν)}
    (h : Searchable hash cmp cleanupKey cleanupValue capacity cm inserted)
    (heq : KeyEquality hash cmp) (hlt : capacity < 2 ^ 31) (hfew : cm.size < capacity)
    (key : κ) (value : ν) : ∃ cm' index, cmapInsert cm key value = some (some index, cm') ∧
      Searchable hash cmp cleanupKey cleanupValue capacity cm' (inserted ++ [(key, value)]) ∧
      cm'.size = cm.size + 1 ∧ (stored cm').Perm ((key, value) :: stored cm) ∧
      ∀ k, cmapLookup cm' k =
        (cmapLookup cm k).or (if cmp key k = 0 then some value else none) := by
  have hcapacity := h.created.capacity_eq
  have hcap : cm.capacity < 2 ^ 31 := by omega
  have hpos : 0 < cm.capacity := by omega
  obtain ⟨cm', index, hrun, hins⟩ := cmapInsert_eq hcap h.counted.size (by omega) key value
  obtain ⟨hcreated, hcounted⟩ := h.counted.insert hcap h.created hins
  have heq' : KeyEquality cm.hash cm.cmp := by rwa [h.created.hash_eq, h.created.cmp_eq]
  refine ⟨cm', index, hrun, ⟨hcreated, hcounted, h.keyed.insert hins,
    h.chained.insert hpos hins⟩, ?_, stored_inserted hins, ?_⟩
  · rw [hcounted.size, (stored_inserted hins).length_eq, h.counted.size, List.length_cons]
  · intro k
    rw [← h.created.cmp_eq]
    exact cmapLookup_inserted hcap hpos h.counted.size hcounted.size h.keyed h.chained heq' hins k

/-- Insertions do not replace: a lookup gives the value of the first insertion of the key, and the
count is the number of insertions. -/
theorem insertions_first (memory : Nat → MapEntry κ ν) (heq : KeyEquality hash cmp)
    (cleanupKey cleanupValue : Bool) (hpos : 0 < capacity) (hlt : capacity < 2 ^ 31)
    (rounds : Nat) (pairs : List (κ × ν)) (hlen : pairs.length ≤ capacity) : ∃ cm,
      runMap rounds (cmapCreate memory hash cmp cleanupKey cleanupValue capacity)
        (pairs.map fun p => .insert p.1 p.2) = some (cm, pairs) ∧
      (∀ k, cmapLookup cm k = (pairs.find? fun p => cmp p.1 k = 0).map Prod.snd) ∧
      cmapCount cm = pairs.length := by
  suffices h : ∃ cm, runMap rounds (cmapCreate memory hash cmp cleanupKey cleanupValue capacity)
        (pairs.map fun p => .insert p.1 p.2) = some (cm, pairs) ∧
      Searchable hash cmp cleanupKey cleanupValue capacity cm pairs ∧
      (∀ k, cmapLookup cm k = (pairs.find? fun p => cmp p.1 k = 0).map Prod.snd) ∧
      cm.size = pairs.length by
    obtain ⟨cm, hrun, -, hlook, hsize⟩ := h
    exact ⟨cm, hrun, hlook, hsize⟩
  induction pairs using List.reverseRecOn with
  | nil =>
    have hinit := searchable_init (rfl : cmapCreate memory hash cmp cleanupKey cleanupValue
      capacity = _) hpos
    have hsize := (created_init (rfl : cmapCreate memory hash cmp cleanupKey cleanupValue
      capacity = _) hpos).2.2.1
    exact ⟨_, rfl, hinit, cmapLookup_empty hsize, hsize⟩
  | append_singleton pairs p ih =>
    rw [List.length_append, List.length_singleton] at hlen
    obtain ⟨cm, hrun, hsearch, hlook, hsize⟩ := ih (by omega)
    obtain ⟨cm', index, hins, hsearch', hsize', -, hlook'⟩ :=
      hsearch.insert heq hlt (by omega) p.1 p.2
    refine ⟨cm', ?_, hsearch', fun k => ?_, ?_⟩
    · rw [List.map_append, List.map_singleton, runMap_append hrun]
      simp [CMapOp.run, hins]
    · rw [hlook', hlook, List.find?_append]
      by_cases hk : cmp p.1 k = 0 <;> cases pairs.find? (fun p => cmp p.1 k = 0) <;> simp [hk]
    · rw [hsize', hsize, List.length_append, List.length_singleton]

theorem keyEquality_sub : KeyEquality (id : Nat → Nat) fun a b => (a : Int) - b := by
  constructor
  case refl => exact fun a => Int.sub_self a
  case symm => exact fun a b h => by omega
  case trans => exact fun a b c h1 h2 => by omega
  case hash_eq => exact fun a b h => by simp only [id]; omega

theorem insertions_first_twice : ∃ cm : CMap Nat Nat,
    runMap 3 (cmapCreate (fun _ => ⟨0, 0, 0, 0⟩) id (fun a b => (a : Int) - b) true true 2)
        ([(0, 1), (0, 2)].map fun p => .insert p.1 p.2) = some (cm, [(0, 1), (0, 2)]) ∧
      cmapLookup cm 0 = some 1 ∧ cmapCount cm = 2 := by
  obtain ⟨cm, h1, h2, h3⟩ := insertions_first (fun _ => (⟨0, 0, 0, 0⟩ : MapEntry Nat Nat))
    keyEquality_sub true true (by decide : 0 < 2) (by decide) 3 [(0, 1), (0, 2)] (by decide)
  exact ⟨cm, h1, h2 0, h3⟩

/-- The second insertion of a key does not change what a lookup gives, and counts. -/
theorem insertions_first_second : ∃ (cm : CMap Nat Nat) (inserted : List (Nat × Nat)),
    runMap 3 (cmapCreate (fun _ => ⟨0, 0, 0, 0⟩) id (fun a b => (a : Int) - b) true true 2)
        [.insert 0 1, .insert 0 2] = some (cm, inserted) ∧
      cmapLookup cm 0 ≠ some 2 ∧ cmapCount cm ≠ 1 := by
  have hmap : (runMap 3 (cmapCreate (fun _ => (⟨0, 0, 0, 0⟩ : MapEntry Nat Nat)) id
      (fun a b => (a : Int) - b) true true 2) [.insert 0 1, .insert 0 2]).map
        (fun s => (cmapLookup s.1 0, cmapCount s.1)) = some (some 1, 2) := by decide +kernel
  obtain ⟨⟨cm, inserted⟩, hrun, h⟩ := Option.map_eq_some_iff.1 hmap
  rw [Prod.mk.injEq] at h
  exact ⟨cm, inserted, hrun, by rw [h.1]; decide, by rw [h.2]; decide⟩

end insertions

section removals
variable {cm t t' : CMap κ ν} {start stop hole j x : Nat}

/-- The rounds of `delete` from the hole at `hole` on, when the entry at `start` was taken out:
each entry that is moved has the hole on its way, and the last hole is on no entry's way. -/
inductive Mends (cm : CMap κ ν) (start stop : Nat) : Nat → Prop where
  | done {hole : Nat} (hlast : ∀ j < cm.capacity, ¬Replaces cm stop hole j)
    (hclear : ∀ s < cm.capacity, s ≠ start → Full cm s →
      ¬OnWay cm.capacity (homeSlot cm s) s hole) : Mends cm start stop hole
  | move {hole j : Nat} (hj : j < cm.capacity) (hrep : Replaces cm stop hole j)
    (hway : OnWay cm.capacity (homeSlot cm j) j hole) (hrest : Mends cm start stop j) :
    Mends cm start stop hole

instance : Decidable (Full cm x) := inferInstanceAs (Decidable (_ = _))

instance : Decidable (Replaces cm stop hole j) := inferInstanceAs (Decidable (_ ∧ _))

/-- There is one entry to be moved next at most. -/
theorem Replaces.unique (hhole : hole < cm.capacity) (hj : j < cm.capacity) (hx : x < cm.capacity)
    (h1 : Replaces cm stop hole j) (h2 : Replaces cm stop hole x) : x = j := by
  obtain ⟨⟨hne1, -⟩, -, hhome1, hall1⟩ := h1
  obtain ⟨⟨hne2, -⟩, -, hhome2, hall2⟩ := h2
  rcases Nat.lt_trichotomy (steps cm.capacity hole x) (steps cm.capacity hole j) with h | h | h
  · exact absurd hhome2 (Nat.not_le.2 (hall1 x hx hne2 h).2)
  · exact steps_inj hhole hx hj h
  · exact absurd hhome1 (Nat.not_le.2 (hall2 j hj hne1 h).2)

/-- Only the entries that are passed decide about the next one. -/
theorem Replaces.congr (hcap : t.capacity = cm.capacity) (hj : j < cm.capacity)
    (hsame : ∀ x < cm.capacity, Between cm.capacity hole x stop → t.entries x = cm.entries x) :
    Replaces t stop hole j ↔ Replaces cm stop hole j := by
  unfold Replaces Full homeSlot
  rw [hcap]
  constructor
  · rintro ⟨hb, hfull, hhome, hall⟩
    rw [hsame j hj hb] at hfull hhome
    refine ⟨hb, hfull, hhome, fun x hx hne hlt => ?_⟩
    have h := hall x hx hne hlt
    rwa [hsame x hx ⟨hne, Nat.lt_trans hlt hb.2⟩] at h
  · rintro ⟨hb, hfull, hhome, hall⟩
    rw [hsame j hj hb]
    refine ⟨hb, hfull, hhome, fun x hx hne hlt => ?_⟩
    rw [hsame x hx ⟨hne, Nat.lt_trans hlt hb.2⟩]
    exact hall x hx hne hlt

/-- A table during `delete`: the slots ahead are as they were, and each entry comes from one that
was there, farther on the same way. -/
structure Compacting (cm : CMap κ ν) (start stop hole : Nat) (t : CMap κ ν) : Prop where
  capacity : t.capacity = cm.capacity
  hash : t.hash = cm.hash
  ahead : ∀ x < cm.capacity, Between cm.capacity hole x stop → t.entries x = cm.entries x
  behind : ¬Between cm.capacity hole start stop
  free : isFree (t.entries hole) = true
  keyed : Keyed t
  unbroken : UnbrokenBut cm.capacity (Full t) (homeSlot t) hole
  origin : ∀ s < cm.capacity, Full t s → ∃ s' < cm.capacity, s' ≠ start ∧ Full cm s' ∧
    homeSlot t s = homeSlot cm s' ∧ (s = s' ∨ OnWay cm.capacity (homeSlot cm s') s' s)

theorem Compacting.move (h : Compacting cm start stop hole t) (hhole : hole < cm.capacity)
    (hstop : stop < cm.capacity) (hstart : start < cm.capacity) (hj : j < cm.capacity)
    (hrep : Replaces cm stop hole j) (hway : OnWay cm.capacity (homeSlot cm j) j hole) :
    Compacting cm start stop j (moved t hole j) := by
  obtain ⟨hbetween, hfull, -⟩ := hrep
  have hne : hole ≠ j := hbetween.1
  have hentry : t.entries j = cm.entries j := h.ahead j hj hbetween
  have hmoved := moved_entries t hne
  have hhome : ∀ x, homeSlot (moved t hole j) x =
      if x = j then homeSlot cm j else if x = hole then homeSlot cm j else homeSlot t x := by
    intro x
    unfold homeSlot
    rw [hmoved, show (moved t hole j).capacity = cm.capacity from h.capacity, hentry]
    split_ifs
    · rfl
    · rfl
    · rw [h.capacity]
  have hfullx : ∀ x, Full (moved t hole j) x ↔ (Full t x ∨ x = hole) ∧ x ≠ j := by
    intro x
    unfold Full
    rw [hmoved]
    by_cases hxj : x = j
    · simp [hxj, isFree_setFree]
    · by_cases hxh : x = hole
      · simpa [hxh, hne, hentry, Full] using hfull
      · simp [hxj, hxh]
  have hjt : homeSlot t j = homeSlot cm j := by rw [homeSlot, hentry, h.capacity, homeSlot]
  constructor
  case capacity => exact h.capacity
  case hash => exact h.hash
  case ahead =>
    intro x hx hb
    obtain ⟨hb', hxj⟩ := hbetween.trans hhole hj hx hstop hb
    rw [hmoved, if_neg hxj, if_neg hb'.1.symm]
    exact h.ahead x hx hb'
  case behind => exact fun hb => h.behind (hbetween.trans hhole hj hstart hstop hb).1
  case free => rw [hmoved, if_pos rfl, isFree_setFree]
  case keyed =>
    intro s hs hf
    rw [hfullx] at hf
    rw [hmoved, if_neg hf.2]
    by_cases hsh : s = hole
    · rw [if_pos hsh]
      exact h.keyed j (h.capacity ▸ hj) (by rwa [Full, hentry])
    · rw [if_neg hsh]
      exact h.keyed s hs (hf.1.resolve_right hsh)
  case unbroken =>
    apply h.unbroken.move hj
    · rwa [Full, hentry]
    · rwa [hjt]
    · exact fun x _ => hfullx x
    · intro x hx
      rw [hhome, if_neg hx]
      split_ifs with hxj
      · rw [hxj, hjt]
      · rfl
    · rw [hhome, if_neg hne, if_pos rfl, hjt]
  case origin =>
    intro s hs hf
    rw [hfullx] at hf
    obtain ⟨hor, hsj⟩ := hf
    rw [hhome, if_neg hsj]
    by_cases hsh : s = hole
    · rw [if_pos hsh]
      have hjs : j ≠ start := by
        rintro rfl
        exact h.behind hbetween
      exact ⟨j, hj, hjs, hfull, rfl, Or.inr (hsh ▸ hway)⟩
    · rw [if_neg hsh]
      exact h.origin s hs (hor.resolve_right hsh)

/-- When `delete` returns, no probe sequence is broken. -/
theorem Mends.delete (hm : Mends cm start stop hole) (h : Compacting cm start stop hole t)
    (hlt : cm.capacity < 2 ^ 31) (hhole : hole < cm.capacity) (hstop : stop < cm.capacity)
    (hstart : start < cm.capacity) {rounds : Nat} (hrun : delete stop rounds t hole = some t') :
    t'.capacity = cm.capacity ∧ t'.hash = cm.hash ∧ Keyed t' ∧ Chained t' := by
  induction hm generalizing t rounds with
  | @done hole hlast hclear =>
    cases rounds with
    | zero => simp [CMap.delete] at hrun
    | succ rounds =>
      unfold CMap.delete at hrun
      rcases replace_start (h.capacity ▸ hlt) (h.capacity ▸ hhole) (h.capacity ▸ hstop) with
        ⟨hnone, -⟩ | ⟨x, hx, -, hrep⟩
      · rw [hnone] at hrun
        obtain rfl := Option.some.inj hrun
        refine ⟨h.capacity, h.hash, h.keyed, ?_⟩
        unfold Chained
        rw [h.capacity]
        apply h.unbroken.close
        intro s hs hf hon
        obtain ⟨s', hs', hne, hf', hhome, hor⟩ := h.origin s hs hf
        rw [hhome] at hon
        rcases hor with rfl | hway
        · exact hclear s hs hne hf' hon
        · exact hclear s' hs' hne hf' (hway.trans hon)
      · rw [h.capacity] at hx
        exact absurd ((Replaces.congr h.capacity hx h.ahead).1 hrep) (hlast x hx)
  | @move hole j hj hrep hway hrest ih =>
    cases rounds with
    | zero => simp [CMap.delete] at hrun
    | succ rounds =>
      have hrep' := (Replaces.congr h.capacity hj h.ahead).2 hrep
      unfold CMap.delete at hrun
      rcases replace_start (h.capacity ▸ hlt) (h.capacity ▸ hhole) (h.capacity ▸ hstop) with
        ⟨-, hnone⟩ | ⟨x, hx, hsome, hrepx⟩
      · exact absurd hrep' (hnone j (h.capacity ▸ hj))
      · rw [hsome] at hrun
        obtain rfl := hrep'.unique (h.capacity ▸ hhole) (h.capacity ▸ hj) hx hrepx
        exact ih (h.move hhole hstop hstart hj hrep hway) hj hrun

/-- The table when `delete` begins. -/
theorem compacting_erase (hkeyed : Keyed cm) (hchain : Chained cm) :
    Compacting cm start stop start (erase cm start) := by
  have hself : (erase cm start).entries start = setFree (cm.entries start) true := by
    rw [erase_eq]
    simp [setEntry]
  have hother : ∀ x ≠ start, (erase cm start).entries x = cm.entries x := by
    intro x hx
    rw [erase_eq]
    simp [setEntry, hx]
  have hcapacity : (erase cm start).capacity = cm.capacity := by rw [erase_eq]; rfl
  have hhash : (erase cm start).hash = cm.hash := by rw [erase_eq]; rfl
  have hfull : ∀ x, Full (erase cm start) x ↔ Full cm x ∧ x ≠ start := by
    intro x
    by_cases hx : x = start
    · simp [Full, hx, hself, isFree_setFree]
    · simp [Full, hother x hx, hx]
  have hhome : homeSlot (erase cm start) = homeSlot cm := by
    funext x
    unfold homeSlot
    rw [hcapacity]
    by_cases hx : x = start
    · rw [hx, hself]
      rfl
    · rw [hother x hx]
  constructor
  case capacity => exact hcapacity
  case hash => exact hhash
  case ahead => exact fun x _ hb => hother x hb.1.symm
  case behind => exact fun hb => hb.1 rfl
  case free => rw [hself, isFree_setFree]
  case keyed =>
    intro s hs hf
    obtain ⟨hf, hne⟩ := (hfull s).1 hf
    rw [hother s hne, hhash, hcapacity]
    exact hkeyed s (hcapacity ▸ hs) hf
  case unbroken =>
    rw [hhome]
    exact hchain.take fun x _ => hfull x
  case origin =>
    intro s hs hf
    obtain ⟨hf, hne⟩ := (hfull s).1 hf
    exact ⟨s, hs, hne, hf, by rw [hhome], Or.inl rfl⟩

end removals

section maps
variable {cm cm' : CMap κ ν} {hash : κ → Nat} {cmp : κ → κ → Int} {cleanupKey cleanupValue : Bool}
  {capacity rounds : Nat} {inserted : List (κ × ν)} {k : κ}

/-- No key is stored twice. -/
def Distinct (cmp : κ → κ → Int) (cm : CMap κ ν) : Prop :=
  (stored cm).Pairwise fun p q => cmp p.1 q.1 ≠ 0

theorem mem_stored {p : κ × ν} : p ∈ stored cm ↔
    ∃ s < cm.capacity, Full cm s ∧ (cm.entries s).key = p.1 ∧ (cm.entries s).value = p.2 := by
  unfold stored
  rw [List.mem_flatMap]
  constructor
  · rintro ⟨s, hs, hp⟩
    cases hf : isFree (cm.entries s) with
    | true => simp [pairOf_free hf] at hp
    | false =>
      rw [pairOf_full hf, List.mem_singleton] at hp
      exact ⟨s, List.mem_range.1 hs, hf, by rw [hp], by rw [hp]⟩
  · rintro ⟨s, hs, hf, hk, hv⟩
    refine ⟨s, List.mem_range.2 hs, ?_⟩
    rw [pairOf_full hf, hk, hv]
    exact List.mem_singleton.2 rfl

/-- A lookup gives the value that is stored with the key. -/
theorem Searchable.lookup_iff (h : Searchable hash cmp cleanupKey cleanupValue capacity cm inserted)
    (heq : KeyEquality hash cmp) (hpos : 0 < capacity) (hlt : capacity < 2 ^ 31)
    (hdist : Distinct cmp cm) (k : κ) (v : ν) :
    cmapLookup cm k = some v ↔ ∃ k', (k', v) ∈ stored cm ∧ cmp k' k = 0 := by
  have hcapacity := h.created.capacity_eq
  have hcap : cm.capacity < 2 ^ 31 := by omega
  have hpos' : 0 < cm.capacity := by omega
  have hcmp := h.created.cmp_eq
  have heq' : KeyEquality cm.hash cm.cmp := by rwa [h.created.hash_eq, hcmp]
  rw [cmapLookup_eq hcap hpos' h.counted.size, Option.map_eq_some_iff]
  constructor
  · rintro ⟨s, hs, rfl⟩
    obtain ⟨hslt, hfull, hc⟩ := found_some hcap hpos' hs
    exact ⟨_, mem_stored.2 ⟨s, hslt, hfull, rfl, rfl⟩, hcmp ▸ hc⟩
  · rintro ⟨k', hmem, hk'⟩
    obtain ⟨s, hs, hfull, hkey, hvalue⟩ := mem_stored.1 hmem
    cases hfound : found cm k with
    | none =>
      apply absurd _ (found_none hcap hpos' h.keyed h.chained heq' hfound hs hfull)
      rw [hkey, hcmp, hk']
    | some x =>
      obtain ⟨hx, hxfull, hc⟩ := found_some hcap hpos' hfound
      rw [hcmp] at hc
      have hxmem : ((cm.entries x).key, (cm.entries x).value) ∈ stored cm :=
        mem_stored.2 ⟨x, hx, hxfull, rfl, rfl⟩
      have : Std.Symm fun p q : κ × ν => cmp p.1 q.1 ≠ 0 := ⟨fun p q h h' => h (heq.symm _ _ h')⟩
      have hsame : ((cm.entries x).key, (cm.entries x).value) = (k', v) := by
        by_contra hne
        exact hdist.forall hxmem hmem hne (heq.trans _ _ _ hc (heq.symm _ _ hk'))
      exact ⟨x, rfl, (Prod.mk.inj hsame).2⟩

/-- A removal that leaves no probe sequence broken. -/
theorem Searchable.remove (h : Searchable hash cmp cleanupKey cleanupValue capacity cm inserted)
    (heq : KeyEquality hash cmp) (hpos : 0 < capacity) (hlt : capacity < 2 ^ 31)
    (hrounds : capacity < rounds) (hdist : Distinct cmp cm) (key : κ)
    (hm : ∀ index : Nat, lookupIndex cm key = index →
      Mends cm index (homeSlot cm index) index) :
    ∃ cm', cmapRemove rounds cm key = some cm' ∧
      Searchable hash cmp cleanupKey cleanupValue capacity cm' inserted ∧ Distinct cmp cm' ∧
      ∀ k, cmapLookup cm' k = if cmp key k = 0 then none else cmapLookup cm k := by
  have hcapacity := h.created.capacity_eq
  have hcap : cm.capacity < 2 ^ 31 := by omega
  have hpos' : 0 < cm.capacity := by omega
  have hcmp := h.created.cmp_eq
  have heq' : KeyEquality cm.hash cm.cmp := by rwa [h.created.hash_eq, hcmp]
  obtain ⟨cm', hrun, hcreated, hcounted⟩ := h.counted.remove hcap hpos' h.created
    (by omega : cm.capacity < rounds) key
  rcases lookupIndex_eq hcap hpos' key with ⟨hneg, hnone⟩ | ⟨index, hilt, hindex, hsearch⟩
  · have hsame : cmapRemove rounds cm key = some cm := if_pos hneg
    obtain rfl : cm = cm' := Option.some.inj (hsame.symm.trans hrun)
    refine ⟨cm, hrun, h, hdist, fun k => ?_⟩
    by_cases hk : cmp key k = 0
    · rw [if_pos hk, cmapLookup_eq hcap hpos' h.counted.size]
      cases hfound : found cm k with
      | none => rfl
      | some s =>
        obtain ⟨hs, hfull, hc⟩ := found_some hcap hpos' hfound
        apply absurd _ (found_none hcap hpos' h.keyed h.chained heq' hnone hs hfull)
        rw [hcmp] at hc ⊢
        exact heq.trans _ _ _ hc (heq.symm _ _ hk)
    · rw [if_neg hk]
  · obtain ⟨-, -, -, hfull, -, hc, -⟩ := search_some hsearch
    rw [hcmp] at hc
    obtain ⟨entries, hdel, hrun', hperm⟩ := cmapRemove_found hcap hpos'
      (by omega : cm.capacity < rounds) hilt hindex hfull
    obtain rfl := Option.some.inj (hrun'.symm.trans hrun)
    have hstop : homeSlot cm index < cm.capacity := Nat.mod_lt _ hpos'
    obtain ⟨-, -, hkeyed, hchained⟩ := (hm index hindex).delete
      (compacting_erase h.keyed h.chained) hcap hilt hstop hilt hdel
    have hsearchable : Searchable hash cmp cleanupKey cleanupValue capacity _ inserted :=
      ⟨hcreated, hcounted, hkeyed, hchained⟩
    have hsymm : ∀ p q : κ × ν, cmp p.1 q.1 ≠ 0 → cmp q.1 p.1 ≠ 0 :=
      fun p q h h' => h (heq.symm _ _ h')
    have hpair := (hperm.pairwise_iff fun {p q} => hsymm p q).1 hdist
    obtain ⟨hfirst, hrest⟩ := List.pairwise_cons.1 hpair
    refine ⟨_, hrun, hsearchable, hrest, fun k => ?_⟩
    ext v
    rw [hsearchable.lookup_iff heq hpos hlt hrest]
    by_cases hk : cmp key k = 0
    · rw [if_pos hk]
      constructor
      · rintro ⟨k', hmem, hk'⟩
        exact absurd (heq.trans _ _ _ hc (heq.trans _ _ _ hk (heq.symm _ _ hk')))
          (hfirst (k', v) hmem)
      · intro h
        cases h
    · rw [if_neg hk, h.lookup_iff heq hpos hlt hdist]
      constructor
      · rintro ⟨k', hmem, hk'⟩
        exact ⟨k', hperm.symm.subset (List.mem_cons_of_mem _ hmem), hk'⟩
      · rintro ⟨k', hmem, hk'⟩
        rcases List.mem_cons.1 (hperm.subset hmem) with hp | hp
        · apply absurd _ hk
          rw [← (Prod.mk.inj hp).1] at hc
          exact heq.trans _ _ _ (heq.symm _ _ hc) hk'
        · exact ⟨k', hp, hk'⟩

/-- Runs from a new map, and the finite map that the same insertions and removals make. A key
that is inserted is not in the map, and there is room for it; a removal that finds its key leaves
no probe sequence broken. -/
inductive MapRun (rounds : Nat) (init : CMap κ ν) :
    List (CMapOp κ ν) → CMap κ ν → (κ → Option ν) → Prop where
  | create : MapRun rounds init [] init fun _ => none
  | insert {ops cm map entry cm'} (h : MapRun rounds init ops cm map) (key : κ) (value : ν)
    (hnew : map key = none) (hfew : cmapCount cm < cm.capacity)
    (hrun : cmapInsert cm key value = some (entry, cm')) :
    MapRun rounds init (ops ++ [.insert key value]) cm'
      fun k => if cm.cmp key k = 0 then some value else map k
  | remove {ops cm map cm'} (h : MapRun rounds init ops cm map) (key : κ)
    (hmends : ∀ index : Nat, lookupIndex cm key = index →
      Mends cm index (homeSlot cm index) index)
    (hrun : cmapRemove rounds cm key = some cm') :
    MapRun rounds init (ops ++ [.remove key]) cm'
      fun k => if cm.cmp key k = 0 then none else map k
  | lookup {ops cm map} (h : MapRun rounds init ops cm map) (key : κ) :
    MapRun rounds init (ops ++ [.lookup key]) cm map

theorem MapRun.searchable {memory : Nat → MapEntry κ ν} (heq : KeyEquality hash cmp)
    (hpos : 0 < capacity) (hlt : capacity < 2 ^ 31) (hrounds : capacity < rounds)
    {ops : List (CMapOp κ ν)} {map : κ → Option ν}
    (h : MapRun rounds (cmapCreate memory hash cmp cleanupKey cleanupValue capacity) ops cm map) :
    (∃ inserted, Searchable hash cmp cleanupKey cleanupValue capacity cm inserted) ∧
      Distinct cmp cm ∧ ∀ k, cmapLookup cm k = map k := by
  induction h with
  | create =>
    obtain ⟨-, hfree, hsize, -⟩ := created_init (rfl : cmapCreate memory hash cmp cleanupKey
      cleanupValue capacity = _) hpos
    refine ⟨⟨[], searchable_init rfl hpos⟩, ?_, cmapLookup_empty hsize⟩
    rw [Distinct, stored_nil hfree]
    exact List.Pairwise.nil
  | @insert ops cm map entry cm' _ key value hnew hfew hrun ih =>
    obtain ⟨⟨inserted, hs⟩, hdist, hlook⟩ := ih
    obtain ⟨cm'', index, hrun', hs', -, hperm, hlook'⟩ :=
      hs.insert heq hlt (hs.created.capacity_eq ▸ hfew) key value
    obtain ⟨-, rfl⟩ := Prod.mk.inj (Option.some.inj (hrun'.symm.trans hrun))
    have hother : ∀ k' v, (k', v) ∈ stored cm → cmp k' key ≠ 0 := by
      intro k' v hmem hk'
      have hsome := (hs.lookup_iff heq hpos hlt hdist key v).2 ⟨k', hmem, hk'⟩
      rw [hlook, hnew] at hsome
      cases hsome
    have hsymm : ∀ p q : κ × ν, cmp p.1 q.1 ≠ 0 → cmp q.1 p.1 ≠ 0 :=
      fun p q h h' => h (heq.symm _ _ h')
    refine ⟨⟨_, hs'⟩, ?_, fun k => ?_⟩
    · apply (hperm.pairwise_iff fun {p q} => hsymm p q).2
      apply List.pairwise_cons.2
      exact ⟨fun q hq => hsymm q _ (hother q.1 q.2 hq), hdist⟩
    · rw [hlook', hs.created.cmp_eq, hlook]
      by_cases hk : cmp key k = 0
      · cases hv : map k with
        | none => simp [hk]
        | some v =>
          rw [← hlook] at hv
          obtain ⟨k', hmem, hk'⟩ := (hs.lookup_iff heq hpos hlt hdist k v).1 hv
          exact absurd (heq.trans _ _ _ hk' (heq.symm _ _ hk)) (hother k' v hmem)
      · simp [hk]
  | @remove ops cm map cm' _ key hmends hrun ih =>
    obtain ⟨⟨inserted, hs⟩, hdist, hlook⟩ := ih
    obtain ⟨cm'', hrun', hs', hdist', hlook'⟩ :=
      hs.remove heq hpos hlt hrounds hdist key hmends
    obtain rfl := Option.some.inj (hrun'.symm.trans hrun)
    refine ⟨⟨inserted, hs'⟩, hdist', fun k => ?_⟩
    rw [hlook', hs.created.cmp_eq, hlook]
  | lookup _ key ih => exact ih

/-- In a run whose removals leave no probe sequence broken, a lookup gives what the map has, and
the next call returns. -/
theorem mapRun_lookup {memory : Nat → MapEntry κ ν} (heq : KeyEquality hash cmp)
    (hpos : 0 < capacity) (hlt : capacity < 2 ^ 31) (hrounds : capacity < rounds)
    {ops : List (CMapOp κ ν)} {map : κ → Option ν}
    (h : MapRun rounds (cmapCreate memory hash cmp cleanupKey cleanupValue capacity) ops cm map) :
    (∀ k, cmapLookup cm k = map k) ∧ (∀ k, ∃ cm', cmapRemove rounds cm k = some cm') ∧
      ∀ k v, cmapCount cm < cm.capacity →
        ∃ index cm', cmapInsert cm k v = some (some index, cm') := by
  obtain ⟨⟨inserted, hs⟩, -, hlook⟩ := h.searchable heq hpos hlt hrounds
  have hcapacity := hs.created.capacity_eq
  refine ⟨hlook, fun k => ?_, fun k v hfew => ?_⟩
  · obtain ⟨cm', hrun, -⟩ := hs.counted.remove (by omega) (by omega) hs.created
      (by omega : cm.capacity < rounds) k
    exact ⟨cm', hrun⟩
  · obtain ⟨cm', index, hrun, -⟩ := cmapInsert_eq (by omega) hs.counted.size hfew k v
    exact ⟨index, cm', hrun⟩

/-- Three keys with one hash: once the second is removed, the third is not found. -/
theorem mapRun_lookup_lost : ∃ (cm : CMap Nat Nat) (inserted : List (Nat × Nat)),
    runMap 4 (cmapCreate (fun _ => ⟨0, 0, 0, 0⟩) (fun _ => 0) (fun a b : Nat => (a : Int) - b)
        true true 3) [.insert 1 10, .insert 2 20, .insert 3 30, .remove 2] = some (cm, inserted) ∧
      cmapLookup cm 3 ≠ some 30 := by
  have hmap : (runMap 4 (cmapCreate (fun _ => (⟨0, 0, 0, 0⟩ : MapEntry Nat Nat)) (fun _ => 0)
      (fun a b : Nat => (a : Int) - b) true true 3)
        [.insert 1 10, .insert 2 20, .insert 3 30, .remove 2]).map
        (fun s => cmapLookup s.1 3) = some none := by decide +kernel
  obtain ⟨⟨cm, inserted⟩, hrun, h⟩ := Option.map_eq_some_iff.1 hmap
  exact ⟨cm, inserted, hrun, by rw [h]; decide⟩

/-- The table after `cmap_insert`, where there is room. -/
def inserting (cm : CMap κ ν) (k : κ) (v : ν) : CMap κ ν :=
  ((cmapInsert cm k v).map Prod.snd).getD cm

theorem cmapInsert_inserting {k : κ} {v : ν} (h : (cmapInsert cm k v).isSome = true) :
    ∃ entry, cmapInsert cm k v = some (entry, inserting cm k v) := by
  obtain ⟨⟨entry, cm'⟩, hrun⟩ := Option.isSome_iff_exists.1 h
  exact ⟨entry, by simp [inserting, hrun]⟩

/-- A table of four entries. -/
def four : CMap Nat Nat :=
  cmapCreate (fun _ => ⟨0, 0, 0, 0⟩) id (fun a b : Nat => (a : Int) - b) true true 4

/-- The keys 0 and 4 have one home slot, so that 1 is behind its own; the removal of 0 moves
both. -/
theorem mapRun_lookup_moves : ∃ (cm : CMap Nat Nat) (map : Nat → Option Nat),
    MapRun 5 four [.insert 0 10, .insert 4 20, .insert 1 30, .remove 0] cm map ∧
    ∀ k, cmapLookup cm k = map k := by
  let first := inserting four 0 10
  let second := inserting (inserting four 0 10) 4 20
  let third := inserting (inserting (inserting four 0 10) 4 20) 1 30
  obtain ⟨e₁, h₁⟩ : ∃ e, cmapInsert four 0 10 = some (e, first) :=
    cmapInsert_inserting (by decide +kernel)
  obtain ⟨e₂, h₂⟩ : ∃ e, cmapInsert first 4 20 = some (e, second) :=
    cmapInsert_inserting (by decide +kernel)
  obtain ⟨e₃, h₃⟩ : ∃ e, cmapInsert second 1 30 = some (e, third) :=
    cmapInsert_inserting (by decide +kernel)
  have hfirst : MapRun 5 four [.insert 0 10] first _ :=
    .insert .create 0 10 rfl (by decide +kernel) h₁
  have hsecond : MapRun 5 four [.insert 0 10, .insert 4 20] second _ :=
    hfirst.insert 4 20 (by decide +kernel) (by decide +kernel) h₂
  have hthird : MapRun 5 four [.insert 0 10, .insert 4 20, .insert 1 30] third _ :=
    hsecond.insert 1 30 (by decide +kernel) (by decide +kernel) h₃
  have hindex : lookupIndex third 0 = (0 : Nat) := by decide +kernel
  have hmends : Mends third 0 (homeSlot third 0) 0 := by
    have hlast : Mends third 0 (homeSlot third 0) 2 := .done (by decide +kernel) (by decide +kernel)
    have hnext : Mends third 0 (homeSlot third 0) 1 :=
      .move (by decide +kernel) (by decide +kernel) (by decide +kernel) hlast
    exact .move (by decide +kernel) (by decide +kernel) (by decide +kernel) hnext
  obtain ⟨cm, hrun⟩ :=
    (mapRun_lookup keyEquality_sub (by decide) (by decide) (by decide) hthird).2.1 0
  have hremove := hthird.remove 0 (fun index h => by
    obtain rfl : index = 0 := Int.ofNat.inj (h.symm.trans hindex)
    exact hmends) hrun
  exact ⟨_, _, hremove,
    (mapRun_lookup keyEquality_sub (by decide) (by decide) (by decide) hremove).1⟩

end maps

end CMap
end Lisp
