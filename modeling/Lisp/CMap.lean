import Lisp.Library.Ledger
import Lisp.Library.Probing
import Lisp.Machine
import Mathlib.Data.List.Induction

/-! The hash table of the library (`cmap.c`), with open addressing. A pointer to an entry is its
index. -/
namespace Lisp
open scoped List
open Probing
variable {κ ν : Type}

/-- `struct entry` -/
structure MapEntry (κ ν : Type) where
  hash : Nat
  status : BitVec 8
  key : κ
  value : ν

/-- What a cleanup function was called on. -/
inductive Disposed (κ ν : Type) where
  | key (k : κ)
  | value (v : ν)
deriving DecidableEq, Repr

/-- `CMap`, with or without functions to clean up keys and values, and a record of their calls.
The function `cmp` is what `compare` calls. -/
structure CMap (κ ν : Type) where
  entries : Nat → MapEntry κ ν
  capacity : Nat
  size : Nat
  hash : κ → Nat
  cmp : κ → κ → Int
  cleanupKey : Bool
  cleanupValue : Bool
  cleaned : List (Disposed κ ν)

def DEFAULT_CAPACITY : Nat := 1024

def FREE_MASK : BitVec 8 := 1

namespace CMap

section source

def isFree (e : MapEntry κ ν) : Bool := e.status &&& FREE_MASK != 0

def setFree (e : MapEntry κ ν) (free : Bool) : MapEntry κ ν :=
  { e with status := if free then e.status ||| FREE_MASK else e.status &&& ~~~FREE_MASK }

def setEntry (cm : CMap κ ν) (index : Nat) (e : MapEntry κ ν) : CMap κ ν :=
  { cm with entries := Function.update cm.entries index e }

/-- The indices `(hash + i) % capacity` of a loop over all entries from `hash` on. -/
def probes (cm : CMap κ ν) (hash : Nat) : List Nat :=
  (List.range cm.capacity).map fun i : Nat => toUnsigned (hash + i) % cm.capacity

/-- `cmap_create`; the memory for the entries is allocated, and not initialized. -/
def cmapCreate (memory : Nat → MapEntry κ ν) (hash : κ → Nat) (cmp : κ → κ → Int)
    (cleanupKey cleanupValue : Bool) (capacity : Nat) : CMap κ ν :=
  let cm : CMap κ ν :=
    { entries := memory
      capacity := if 0 < capacity then capacity else DEFAULT_CAPACITY
      size := 0
      hash := hash
      cmp := cmp
      cleanupKey := cleanupKey
      cleanupValue := cleanupValue
      cleaned := [] }
  (List.range cm.capacity).foldl (fun cm i => setEntry cm i (setFree (cm.entries i) true)) cm

/-- The loop of `cmap_insert`, which ends with the last entry if none is free. -/
def findFree (cm : CMap κ ν) : List Nat → Option Nat → Option Nat
  | [], entry => entry
  | index :: rest, _ =>
    if isFree (cm.entries index) then some index else findFree cm rest (some index)

/-- `cmap_insert`: the entry, or `NULL`. There is no result where the assertion fails. -/
def cmapInsert (cm : CMap κ ν) (key : κ) (value : ν) : Option (Option Nat × CMap κ ν) :=
  if cm.size = cm.capacity then some (none, cm) else do
  let hash := cm.hash key % cm.capacity
  let entry ← findFree cm (probes cm hash) none
  let e := { cm.entries entry with key := key, value := value }
  let cm := setEntry cm entry { setFree e false with hash := hash }
  return (some entry, { cm with size := toUnsigned (cm.size + 1) })

/-- The loop of `lookup_key` and `lookup_index`. -/
def search (cm : CMap κ ν) (key : κ) (hash : Nat) : List Nat → Option Nat
  | [] => none
  | index :: rest =>
    let e := cm.entries index
    if isFree e then none
    else if e.hash ≠ hash then search cm key hash rest
    else if cm.cmp e.key key = 0 then some index
    else search cm key hash rest

def lookupKey (cm : CMap κ ν) (key : κ) : Option Nat :=
  if cm.size = 0 then none else
  let hash := cm.hash key % cm.capacity
  search cm key hash (probes cm hash)

def lookupIndex (cm : CMap κ ν) (key : κ) : Int :=
  let hash := cm.hash key % cm.capacity
  match search cm key hash (probes cm hash) with
  | some index => toInt index
  | none => -1

def cmapCount (cm : CMap κ ν) : Nat := cm.size

/-- `cmap_lookup`, with the value that the returned pointer points to. -/
def cmapLookup (cm : CMap κ ν) (key : κ) : Option ν :=
  (lookupKey cm key).map fun entry => (cm.entries entry).value

def erase (cm : CMap κ ν) (index : Nat) : CMap κ ν :=
  let e := cm.entries index
  let cm := if cm.cleanupKey then { cm with cleaned := cm.cleaned ++ [.key e.key] } else cm
  let cm := if cm.cleanupValue then { cm with cleaned := cm.cleaned ++ [.value e.value] } else cm
  setEntry cm index (setFree e true)

/-- The inner loop of `delete`, with `i` rounds to go: the new `j`, or nothing if it returns. -/
def replace (cm : CMap κ ν) (start stop : Nat) : Nat → Nat → Option (CMap κ ν × Nat)
  | 0, j => some (cm, j)
  | i + 1, j =>
    let j := toUnsigned (j + 1) % cm.capacity
    if j = stop then none else
    let next := cm.entries j
    if isFree next then none
    else if start ≤ next.hash % cm.capacity then
      some (setEntry (setEntry cm start next) j (setFree next true), j)
    else replace cm start stop i j

/-- `delete`, for at most the given number of rounds. -/
def delete (stop : Nat) : Nat → CMap κ ν → Nat → Option (CMap κ ν)
  | 0, _, _ => none
  | rounds + 1, cm, start =>
    match replace cm start stop cm.capacity start with
    | none => some cm
    | some (cm, j) => delete stop rounds cm j

def cmapRemove (rounds : Nat) (cm : CMap κ ν) (key : κ) : Option (CMap κ ν) :=
  let start := lookupIndex cm key
  if start < 0 then some cm else do
  let e := toUnsigned start
  let cm := erase cm e
  let cm ← delete ((cm.entries e).hash % cm.capacity) rounds cm e
  return { cm with size := toUnsigned (cm.size - 1) }

/-- The loop of `cmap_clear`. -/
def clearFrom : List Nat → CMap κ ν → Nat → CMap κ ν
  | [], cm, _ => cm
  | i :: rest, cm, numCleared =>
    if isFree (cm.entries i) then clearFrom rest cm numCleared else
    let cm := erase cm i
    let numCleared := toUnsigned (numCleared + 1)
    if numCleared = cm.size then cm else clearFrom rest cm numCleared

def cmapClear (cm : CMap κ ν) : CMap κ ν :=
  { clearFrom (List.range cm.capacity) cm 0 with size := 0 }

end source

section runs

inductive CMapOp (κ ν : Type) where
  | insert (key : κ) (value : ν)
  | remove (key : κ)
  | lookup (key : κ)
  | clear

/-- An operation, where the loop of `delete` has at most the given number of rounds in each call;
and the pairs that were inserted so far, which are those that got an entry. -/
def CMapOp.run (rounds : Nat) (state : CMap κ ν × List (κ × ν)) :
    CMapOp κ ν → Option (CMap κ ν × List (κ × ν))
  | insert key value => do
    let (entry, cm) ← cmapInsert state.1 key value
    return (cm, if entry.isSome then state.2 ++ [(key, value)] else state.2)
  | remove key => do
    let cm ← cmapRemove rounds state.1 key
    return (cm, state.2)
  | lookup _ => some state
  | clear => some (cmapClear state.1, state.2)

def runMap (rounds : Nat) (cm : CMap κ ν) (ops : List (CMapOp κ ν)) :
    Option (CMap κ ν × List (κ × ν)) :=
  ops.foldlM (CMapOp.run rounds) (cm, [])

/-- The pair in an entry, if its free bit is clear. -/
def pairOf (e : MapEntry κ ν) : List (κ × ν) := if isFree e then [] else [(e.key, e.value)]

/-- The pairs that are stored. -/
def stored (cm : CMap κ ν) : List (κ × ν) :=
  (List.range cm.capacity).flatMap fun i => pairOf (cm.entries i)

/-- The number of entries whose free bit is clear. -/
def numStored (cm : CMap κ ν) : Nat :=
  ((List.range cm.capacity).filter fun i => !isFree (cm.entries i)).length

/-- The calls of the cleanup functions on a pair. -/
def calls (cleanupKey cleanupValue : Bool) (p : κ × ν) : List (Disposed κ ν) :=
  (if cleanupKey then [.key p.1] else []) ++ if cleanupValue then [.value p.2] else []

end runs

section entries
variable {cm cm' : CMap κ ν} {e : MapEntry κ ν} {i index : Nat}

theorem isFree_setFree (e : MapEntry κ ν) (free : Bool) : isFree (setFree e free) = free := by
  have hbits : ∀ b : BitVec 8, ((b ||| FREE_MASK) &&& FREE_MASK != 0) = true ∧
      ((b &&& ~~~FREE_MASK) &&& FREE_MASK != 0) = false := by decide
  cases free with
  | true => exact (hbits e.status).1
  | false => exact (hbits e.status).2

/-- The pairs in the other entries. -/
def others (cm : CMap κ ν) (index : Nat) : List (κ × ν) :=
  ((List.range cm.capacity).erase index).flatMap fun i => pairOf (cm.entries i)

theorem stored_perm (cm : CMap κ ν) (hi : index < cm.capacity) :
    stored cm ~ pairOf (cm.entries index) ++ others cm index :=
  (List.perm_cons_erase (List.mem_range.2 hi)).flatMap_right _

theorem others_setEntry (cm : CMap κ ν) (index : Nat) (e : MapEntry κ ν) :
    others (setEntry cm index e) index = others cm index := by
  unfold others
  apply List.flatMap_congr
  intro i hi
  have hne : i ≠ index := ((List.nodup_range).mem_erase_iff.1 hi).1
  simp [setEntry, hne]

theorem stored_setEntry (cm : CMap κ ν) (hi : index < cm.capacity) (e : MapEntry κ ν) :
    stored (setEntry cm index e) ~ pairOf e ++ others cm index := by
  have h := stored_perm (setEntry cm index e) hi
  rw [others_setEntry] at h
  simpa [setEntry] using h

theorem numStored_eq (cm : CMap κ ν) : numStored cm = (stored cm).length := by
  unfold numStored stored
  induction List.range cm.capacity with
  | nil => rfl
  | cons i l ih => cases h : isFree (cm.entries i) <;> simp [pairOf, h, ih]

theorem pairOf_free (h : isFree e = true) : pairOf e = [] := if_pos h

theorem pairOf_full (h : isFree e = false) : pairOf e = [(e.key, e.value)] := by simp [pairOf, h]

end entries

section compaction
variable {cm cm' : CMap κ ν} {start stop i j : Nat}

/-- The entry is in use. -/
def Full (cm : CMap κ ν) (x : Nat) : Prop := isFree (cm.entries x) = false

/-- The slot where the search for an entry begins. -/
def homeSlot (cm : CMap κ ν) (x : Nat) : Nat := (cm.entries x).hash % cm.capacity

/-- The entry that `delete` moves next, if the free one is `hole`: the first one before a free
entry and before `stop` whose home slot is not less than `hole`. -/
def Replaces (cm : CMap κ ν) (stop hole j : Nat) : Prop :=
  Between cm.capacity hole j stop ∧ Full cm j ∧ hole ≤ homeSlot cm j ∧
    ∀ x < cm.capacity, hole ≠ x → steps cm.capacity hole x < steps cm.capacity hole j →
      Full cm x ∧ homeSlot cm x < hole

/-- The table after the entry `j` was moved to `start`. -/
def moved (cm : CMap κ ν) (start j : Nat) : CMap κ ν :=
  setEntry (setEntry cm start (cm.entries j)) j (setFree (cm.entries j) true)

theorem toUnsigned_succ (h : j + 1 < 2 ^ 32) : toUnsigned (j + 1) = j + 1 :=
  toUnsigned_natCast (n := j + 1) h

/-- The inner loop has passed the slots up to `j`, and there was none to move. -/
theorem replace_eq (hcap : cm.capacity < 2 ^ 31) (hs : start < cm.capacity)
    (hstop : stop < cm.capacity) (hi : i ≤ cm.capacity)
    (hj : j = slot cm.capacity start (cm.capacity - i))
    (hgap : cm.capacity - i < gap cm.capacity start stop)
    (hpast : ∀ x < cm.capacity, start ≠ x → steps cm.capacity start x ≤ cm.capacity - i →
      Full cm x ∧ homeSlot cm x < start) :
    (replace cm start stop i j = none ∧ ∀ x < cm.capacity, ¬Replaces cm stop start x) ∨
      ∃ x < cm.capacity, replace cm start stop i j = some (moved cm start x, x) ∧
        Replaces cm stop start x := by
  induction i generalizing j with
  | zero =>
    unfold gap at hgap
    split_ifs at hgap <;> omega
  | succ i ih =>
    have hd : cm.capacity - (i + 1) + 1 = cm.capacity - i := by omega
    have hjlt : j < cm.capacity := hj ▸ slot_lt (by omega) _ _
    have hnext : toUnsigned (j + 1) % cm.capacity = slot cm.capacity start (cm.capacity - i) := by
      rw [toUnsigned_succ (by omega), hj, slot_succ, hd]
    unfold replace
    rw [hnext]
    by_cases hstart : stop = start ∧ i = 0
    · -- The walk is back at the slot where it began.
      obtain ⟨rfl, rfl⟩ := hstart
      refine Or.inl ⟨if_pos (slot_self hs), fun x hx hrep => ?_⟩
      obtain ⟨⟨hne, hlt⟩, -, hhome, -⟩ := hrep
      have hle : steps cm.capacity stop x ≤ cm.capacity - (0 + 1) := by
        have := steps_lt hs hx
        omega
      exact absurd hhome (Nat.not_le.2 (hpast x hx hne hle).2)
    · have hi0 : i ≠ 0 := by
        rintro rfl
        have hne : start ≠ stop := fun h => hstart ⟨h.symm, rfl⟩
        rw [gap_eq_steps hne] at hgap
        have := steps_lt hs hstop
        omega
      generalize hx : slot cm.capacity start (cm.capacity - i) = x
      have hxlt : x < cm.capacity := hx ▸ slot_lt (by omega) _ _
      have hsteps : steps cm.capacity start x = cm.capacity - i := by
        rw [← hx, steps_slot hs (by omega)]
      have hne : start ≠ x := by
        rintro rfl
        rw [steps_self] at hsteps
        omega
      have hearlier : ∀ y < cm.capacity, Replaces cm stop start y →
          cm.capacity - i ≤ steps cm.capacity start y := by
        intro y hy hrep
        obtain ⟨⟨hney, -⟩, -, hhome, -⟩ := hrep
        by_contra hlt
        exact absurd hhome (Nat.not_le.2 (hpast y hy hney (by omega)).2)
      by_cases hxstop : x = stop
      · refine Or.inl ⟨if_pos hxstop, fun y hy hrep => ?_⟩
        have h1 := hearlier y hy hrep
        obtain ⟨⟨-, hlt⟩, -⟩ := hrep
        rw [gap_eq_steps (hxstop ▸ hne), ← hxstop] at hlt
        omega
      · rw [if_neg hxstop]
        have hgap' : cm.capacity - i < gap cm.capacity start stop := by
          by_cases hss : start = stop
          · rw [hss, gap_self]
            omega
          · rw [gap_eq_steps hss] at hgap ⊢
            have : steps cm.capacity start stop ≠ cm.capacity - i := by
              rw [← hsteps]
              exact fun h => hxstop (steps_inj hs hxlt hstop h.symm)
            omega
        have hpast' : ∀ y < cm.capacity, start ≠ y →
            steps cm.capacity start y < cm.capacity - i → Full cm y ∧ homeSlot cm y < start :=
          fun y hy hney hlt => hpast y hy hney (by omega)
        by_cases hfree : isFree (cm.entries x) = true
        · refine Or.inl ⟨if_pos hfree, fun y hy hrep => ?_⟩
          have h1 := hearlier y hy hrep
          obtain ⟨-, hfull, -, hall⟩ := hrep
          by_cases hyx : y = x
          · subst hyx
            exact Bool.noConfusion (hfree.symm.trans hfull)
          · have h2 : steps cm.capacity start y ≠ cm.capacity - i := by
              rw [← hsteps]
              exact fun h => hyx (steps_inj hs hy hxlt h)
            exact Bool.noConfusion (hfree.symm.trans (hall x hxlt hne (by omega)).1)
        · have hfull : Full cm x := by simpa [Full] using hfree
          rw [if_neg hfree]
          by_cases hhome : start ≤ homeSlot cm x
          · refine Or.inr ⟨x, hxlt, if_pos hhome, ⟨hne, by omega⟩, hfull, hhome, ?_⟩
            rw [hsteps]
            exact hpast'
          · have hskip : ¬start ≤ (cm.entries x).hash % cm.capacity := hhome
            rw [if_neg hskip]
            apply ih (by omega) hx.symm hgap'
            intro y hy hney hle
            by_cases hyx : y = x
            · subst hyx
              exact ⟨hfull, by omega⟩
            · have h2 : steps cm.capacity start y ≠ cm.capacity - i := by
                rw [← hsteps]
                exact fun h => hyx (steps_inj hs hy hxlt h)
              exact hpast' y hy hney (by omega)

/-- One round of `delete` moves an entry into the hole, or ends. -/
theorem replace_start (hcap : cm.capacity < 2 ^ 31) (hs : start < cm.capacity)
    (hstop : stop < cm.capacity) :
    (replace cm start stop cm.capacity start = none ∧
        ∀ x < cm.capacity, ¬Replaces cm stop start x) ∨
      ∃ x < cm.capacity, replace cm start stop cm.capacity start = some (moved cm start x, x) ∧
        Replaces cm stop start x := by
  apply replace_eq hcap hs hstop (Nat.le_refl _)
  · rw [Nat.sub_self, slot, Nat.add_zero, Nat.mod_eq_of_lt hs]
  · rw [Nat.sub_self]
    unfold gap
    split_ifs <;> omega
  · intro x hx hne hle
    rw [Nat.sub_self, Nat.le_zero] at hle
    exact absurd (steps_inj hs hs hx ((steps_self _ _).trans hle.symm)) hne

/-- The hole after the move is where the entry was. -/
theorem moved_entries (cm : CMap κ ν) (hne : start ≠ j) (x : Nat) : (moved cm start j).entries x =
    if x = j then setFree (cm.entries j) true else
      if x = start then cm.entries j else cm.entries x := by
  unfold moved setEntry
  by_cases hj : x = j
  · subst hj
    simp
  · by_cases hs : x = start
    · subst hs
      simp [hj]
    · simp [hj, hs]

/-- A move keeps the pairs that are stored. -/
theorem stored_moved (hs : start < cm.capacity) (hj : j < cm.capacity) (hne : start ≠ j)
    (hfree : isFree (cm.entries start) = true) : stored (moved cm start j) ~ stored cm := by
  have h1 := stored_perm cm hs
  have h2 := stored_setEntry cm hs (cm.entries j)
  have h3 := stored_perm (setEntry cm start (cm.entries j)) hj
  have h4 := stored_setEntry (setEntry cm start (cm.entries j)) hj
    (setFree (cm.entries j) true)
  have hsame : (setEntry cm start (cm.entries j)).entries j = cm.entries j := by
    simp [setEntry, hne.symm]
  rw [pairOf_free hfree] at h1
  rw [hsame] at h3
  rw [pairOf_free (isFree_setFree _ true)] at h4
  exact h4.trans (((List.perm_append_left_iff _).1 (h3.symm.trans h2)).trans h1.symm)

/-- The loop of `delete` ends: the hole comes nearer to `stop` in each round. -/
theorem delete_stored (cm : CMap κ ν) (stop rounds : Nat) (hcap : cm.capacity < 2 ^ 31)
    (hs : start < cm.capacity) (hstop : stop < cm.capacity)
    (hfree : isFree (cm.entries start) = true) (hrounds : gap cm.capacity start stop < rounds) :
    ∃ entries, delete stop rounds cm start = some { cm with entries := entries } ∧
      stored { cm with entries := entries } ~ stored cm := by
  induction rounds generalizing cm start with
  | zero => omega
  | succ rounds ih =>
    unfold delete
    rcases replace_start hcap hs hstop with ⟨h, -⟩ | ⟨j, hj, h, hrep⟩
    · rw [h]
      exact ⟨cm.entries, rfl, List.Perm.refl _⟩
    · rw [h]
      obtain ⟨hbetween, hfull, -⟩ := hrep
      have hne : start ≠ j := hbetween.1
      have hfree' : isFree ((moved cm start j).entries j) = true := by
        rw [moved_entries cm hne, if_pos rfl, isFree_setFree]
      have hgap := hbetween.gap_lt hs hstop
      obtain ⟨entries, hdel, hperm⟩ := ih (moved cm start j) hcap hj hstop hfree'
        (Nat.lt_of_lt_of_le hgap (Nat.le_of_lt_succ hrounds))
      exact ⟨entries, hdel, hperm.trans (stored_moved hs hj hne hfree)⟩

end compaction

section operations
variable {cm : CMap κ ν} {key : κ} {value : ν} {hash index n : Nat} {l : List Nat}

theorem probes_eq (hcap : cm.capacity < 2 ^ 31) (hh : hash < cm.capacity) :
    probes cm hash = (List.range cm.capacity).map (slot cm.capacity hash) := by
  unfold probes
  apply List.map_congr_left
  intro i hi
  rw [List.mem_range] at hi
  have h : toUnsigned (hash + i) = hash + i := toUnsigned_natCast (n := hash + i) (by omega)
  rw [h, slot]

theorem findFree_spec (cm : CMap κ ν) (entry : Option Nat)
    (h : ∃ x ∈ l, isFree (cm.entries x) = true) :
    ∃ pre x post, l = pre ++ x :: post ∧ findFree cm l entry = some x ∧
      isFree (cm.entries x) = true ∧ ∀ y ∈ pre, Full cm y := by
  induction l generalizing entry with
  | nil => simp at h
  | cons a l ih =>
    by_cases ha : isFree (cm.entries a) = true
    · exact ⟨[], a, l, rfl, if_pos ha, ha, by simp⟩
    · obtain ⟨x, hx, hfree⟩ := h
      have hxl : x ∈ l := by
        rcases List.mem_cons.1 hx with rfl | hx
        · exact absurd hfree ha
        · exact hx
      obtain ⟨pre, y, post, rfl, hfind, hy, hpre⟩ := ih (some a) ⟨x, hxl, hfree⟩
      refine ⟨a :: pre, y, post, rfl, (if_neg ha).trans hfind, hy, ?_⟩
      intro z hz
      rcases List.mem_cons.1 hz with rfl | hz
      · simpa [Full] using ha
      · exact hpre z hz

/-- A search ends at the first entry with the key if none before it is free. -/
theorem search_some (h : search cm key hash l = some index) : ∃ pre post,
    l = pre ++ index :: post ∧ Full cm index ∧ (cm.entries index).hash = hash ∧
      cm.cmp (cm.entries index).key key = 0 ∧ ∀ y ∈ pre, Full cm y ∧
        ((cm.entries y).hash = hash → cm.cmp (cm.entries y).key key ≠ 0) := by
  induction l with
  | nil => simp [search] at h
  | cons a l ih =>
    unfold search at h
    by_cases hfree : isFree (cm.entries a) = true
    · simp [hfree] at h
    · have hfull : Full cm a := by simpa [Full] using hfree
      by_cases hmatch : (cm.entries a).hash = hash ∧ cm.cmp (cm.entries a).key key = 0
      · obtain ⟨hhash, hcmp⟩ := hmatch
        simp only [hfree, hhash, hcmp, ne_eq, not_true, if_false, if_true] at h
        obtain rfl := Option.some.inj h
        exact ⟨[], l, rfl, hfull, hhash, hcmp, by simp⟩
      · have hrest : search cm key hash l = some index := by
          by_cases hhash : (cm.entries a).hash = hash
          · have hcmp : cm.cmp (cm.entries a).key key ≠ 0 := fun h => hmatch ⟨hhash, h⟩
            simpa [hfree, hhash, hcmp] using h
          · simpa [hfree, hhash] using h
        obtain ⟨pre, post, rfl, h1, h2, h3, hpre⟩ := ih hrest
        refine ⟨a :: pre, post, rfl, h1, h2, h3, ?_⟩
        intro y hy
        rcases List.mem_cons.1 hy with rfl | hy
        · exact ⟨hfull, fun hh hc => hmatch ⟨hh, hc⟩⟩
        · exact hpre y hy

/-- A search without result has passed no entry with the key before a free one. -/
theorem search_none {pre post : List Nat} (h : search cm key hash (pre ++ index :: post) = none)
    (hpre : ∀ y ∈ pre, Full cm y) (hfull : Full cm index) (hhash : (cm.entries index).hash = hash) :
    cm.cmp (cm.entries index).key key ≠ 0 := by
  induction pre with
  | nil =>
    intro hcmp
    have hfree : ¬isFree (cm.entries index) = true := by simpa [Full] using hfull
    simp [search, hfree, hhash, hcmp] at h
  | cons a pre ih =>
    have hfree : ¬isFree (cm.entries a) = true := by simpa [Full] using hpre a List.mem_cons_self
    apply ih _ fun y hy => hpre y (List.mem_cons_of_mem a hy)
    rw [List.cons_append, search] at h
    by_cases hmatch : (cm.entries a).hash = hash ∧ cm.cmp (cm.entries a).key key = 0
    · simp [hfree, hmatch] at h
    · by_cases hh : (cm.entries a).hash = hash
      · have hcmp : cm.cmp (cm.entries a).key key ≠ 0 := fun h => hmatch ⟨hh, h⟩
        simpa [hfree, hh, hcmp] using h
      · simpa [hfree, hh] using h

theorem erase_eq (cm : CMap κ ν) (index : Nat) : erase cm index =
    { setEntry cm index (setFree (cm.entries index) true) with
      cleaned := cm.cleaned ++ calls cm.cleanupKey cm.cleanupValue
        ((cm.entries index).key, (cm.entries index).value) } := by
  obtain ⟨entries, capacity, size, hash, cmp, cleanupKey, cleanupValue, cleaned⟩ := cm
  cases cleanupKey <;> cases cleanupValue <;> simp [erase, setEntry, calls]

theorem exists_free (cm : CMap κ ν) (h : (stored cm).length < cm.capacity) :
    ∃ x < cm.capacity, isFree (cm.entries x) = true := by
  by_contra hnone
  have hall : numStored cm = cm.capacity := by
    unfold numStored
    rw [List.filter_eq_self.2, List.length_range]
    intro x hx
    rw [List.mem_range] at hx
    simpa using fun hfree => hnone ⟨x, hx, hfree⟩
  rw [numStored_eq] at hall
  omega

/-- What an insertion changes: an entry that was free, the first one from the home slot on. -/
structure Inserted (cm cm' : CMap κ ν) (key : κ) (value : ν) (index : Nat) : Prop where
  lt : index < cm.capacity
  free : isFree (cm.entries index) = true
  way : ∀ x < cm.capacity, OnWay cm.capacity (cm.hash key % cm.capacity) index x → Full cm x
  result : ∃ e, cm' = { setEntry cm index e with size := toUnsigned (cm.size + 1) } ∧
    isFree e = false ∧ e.hash = cm.hash key % cm.capacity ∧ e.key = key ∧ e.value = value

theorem cmapInsert_eq (hcap : cm.capacity < 2 ^ 31) (hsize : cm.size = (stored cm).length)
    (hlt : cm.size < cm.capacity) (key : κ) (value : ν) : ∃ cm' index,
      cmapInsert cm key value = some (some index, cm') ∧ Inserted cm cm' key value index := by
  have hhome : cm.hash key % cm.capacity < cm.capacity := Nat.mod_lt _ (by omega)
  obtain ⟨x, hx, hfree⟩ := exists_free cm (by omega)
  obtain ⟨pre, index, post, hl, hfind, hindex, hpre⟩ :=
    findFree_spec cm (l := probes cm (cm.hash key % cm.capacity)) none
      ⟨x, by rwa [probes_eq hcap hhome, mem_slots hhome], hfree⟩
  rw [probes_eq hcap hhome] at hl
  refine ⟨{ setEntry cm index { setFree { cm.entries index with key := key, value := value } false
      with hash := cm.hash key % cm.capacity } with size := toUnsigned (cm.size + 1) }, index,
    ?_, ?_⟩
  · simp only [cmapInsert, hfind, if_neg hlt.ne, Option.bind_eq_bind, Option.bind_some]
    rfl
  · constructor
    case lt => exact (mem_slots hhome).1 (by rw [hl]; simp)
    case free => exact hindex
    case way => exact fun y hy hon => hpre y ((mem_pre_iff hhome hy hl).2 hon)
    case result => exact ⟨_, rfl, isFree_setFree _ false, rfl, rfl, rfl⟩

theorem cmapInsert_full (h : cm.size = cm.capacity) (key : κ) (value : ν) :
    cmapInsert cm key value = some (none, cm) := if_pos h

theorem stored_inserted {cm' : CMap κ ν} (h : Inserted cm cm' key value index) :
    stored cm' ~ (key, value) :: stored cm := by
  obtain ⟨e, rfl, hfull, -, rfl, rfl⟩ := h.result
  have h1 := stored_perm cm h.lt
  have h2 := stored_setEntry cm h.lt e
  rw [pairOf_free h.free] at h1
  rw [pairOf_full hfull] at h2
  exact h2.trans (List.Perm.cons _ h1.symm)

theorem lookupIndex_eq (hcap : cm.capacity < 2 ^ 31) (hpos : 0 < cm.capacity) (key : κ) :
    lookupIndex cm key < 0 ∧
        search cm key (cm.hash key % cm.capacity) (probes cm (cm.hash key % cm.capacity)) = none ∨
      ∃ index < cm.capacity, lookupIndex cm key = index ∧
        search cm key (cm.hash key % cm.capacity) (probes cm (cm.hash key % cm.capacity)) =
          some index := by
  have hhome : cm.hash key % cm.capacity < cm.capacity := Nat.mod_lt _ hpos
  cases h : search cm key (cm.hash key % cm.capacity) (probes cm (cm.hash key % cm.capacity)) with
  | none =>
    have hindex : lookupIndex cm key = -1 := by simp only [lookupIndex, h]
    exact Or.inl ⟨by omega, rfl⟩
  | some index =>
    have hindex : lookupIndex cm key = toInt index := by simp only [lookupIndex, h]
    obtain ⟨pre, post, hl, -⟩ := search_some h
    rw [probes_eq hcap hhome] at hl
    have hlt : index < cm.capacity := (mem_slots hhome).1 (by rw [hl]; simp)
    exact Or.inr ⟨index, hlt, hindex.trans (toInt_natCast (by omega)), rfl⟩

/-- What a removal changes if the key is found at `index`. -/
theorem cmapRemove_eq {rounds : Nat} (hcap : cm.capacity < 2 ^ 31)
    (h : lookupIndex cm key = index) (hlt : index < cm.capacity) :
    cmapRemove rounds cm key =
      (delete (homeSlot cm index) rounds (erase cm index) index).map fun cm' =>
        { cm' with size := toUnsigned (cm'.size - 1) } := by
  have hindex : toUnsigned index = index := toUnsigned_natCast (by omega)
  have hneg : ¬(index : Int) < 0 := by omega
  have hhome : ((erase cm index).entries index).hash % (erase cm index).capacity =
      homeSlot cm index := by
    rw [erase_eq]
    simp [setEntry, setFree, homeSlot]
  unfold cmapRemove
  simp only [h, if_neg hneg, hindex, hhome, Option.bind_eq_bind, Option.pure_def]
  cases delete (homeSlot cm index) rounds (erase cm index) index <;> rfl

/-- The pairs in some of the entries. -/
def pairsIn (cm : CMap κ ν) (l : List Nat) : List (κ × ν) :=
  l.flatMap fun i => pairOf (cm.entries i)

theorem pairsIn_congr {cm' : CMap κ ν} (h : ∀ i ∈ l, cm'.entries i = cm.entries i) :
    pairsIn cm' l = pairsIn cm l :=
  List.flatMap_congr fun i hi => by rw [h i hi]

/-- The loop of `cmap_clear` may end early only when no entry is left. -/
theorem clearFrom_eq (cm : CMap κ ν) (n : Nat) (hnodup : l.Nodup)
    (hsize : n + (pairsIn cm l).length ≤ cm.size) (hlt : cm.size < 2 ^ 32) : ∃ entries,
      clearFrom l cm n = { cm with
        entries := entries
        cleaned := cm.cleaned ++
          (pairsIn cm l).flatMap (calls cm.cleanupKey cm.cleanupValue) } ∧
      (∀ i ∈ l, isFree (entries i) = true) ∧ ∀ i ∉ l, entries i = cm.entries i := by
  induction l generalizing cm n with
  | nil => exact ⟨cm.entries, by simp [clearFrom, pairsIn], by simp, by simp⟩
  | cons a l ih =>
    obtain ⟨hal, hnodup⟩ := List.nodup_cons.1 hnodup
    by_cases hfree : isFree (cm.entries a) = true
    · have hpairs : pairsIn cm (a :: l) = pairsIn cm l := by simp [pairsIn, pairOf_free hfree]
      rw [hpairs] at hsize ⊢
      obtain ⟨entries, hrun, hin, hout⟩ := ih cm n hnodup hsize hlt
      refine ⟨entries, (if_pos hfree).trans hrun, ?_, ?_⟩
      · intro i hi
        rcases List.mem_cons.1 hi with rfl | hi
        · rw [hout i hal, hfree]
        · exact hin i hi
      · exact fun i hi => hout i fun h => hi (List.mem_cons_of_mem a h)
    · have hfull : isFree (cm.entries a) = false := by simpa using hfree
      have hpairs : pairsIn cm (a :: l) =
          ((cm.entries a).key, (cm.entries a).value) :: pairsIn cm l := by
        simp [pairsIn, pairOf_full hfull]
      rw [hpairs, List.length_cons] at hsize
      have hother : ∀ i ≠ a, (erase cm a).entries i = cm.entries i := by
        intro i hi
        rw [erase_eq]
        simp [setEntry, hi]
      have hself : isFree ((erase cm a).entries a) = true := by
        rw [erase_eq]
        simp [setEntry, isFree_setFree]
      have hrest : pairsIn (erase cm a) l = pairsIn cm l :=
        pairsIn_congr fun i hi => hother i fun h => hal (h ▸ hi)
      have hcount : toUnsigned (n + 1) = n + 1 := toUnsigned_natCast (n := n + 1) (by omega)
      rw [hpairs]
      unfold clearFrom
      rw [if_neg hfree]
      simp only [hcount]
      by_cases hlast : n + 1 = (erase cm a).size
      · have hzero : pairsIn cm l = [] := by
          rw [erase_eq] at hlast
          apply List.length_eq_zero_iff.1
          simp only [setEntry] at hlast
          omega
        refine ⟨(erase cm a).entries, ?_, ?_, ?_⟩
        · rw [if_pos hlast, hzero, erase_eq]
          simp [setEntry]
        · intro i hi
          rcases List.mem_cons.1 hi with rfl | hi
          · exact hself
          · have hnil : pairOf (cm.entries i) = [] := List.flatMap_eq_nil_iff.1 hzero i hi
            rw [hother i fun h => hal (h ▸ hi)]
            by_contra hf
            simp [pairOf, hf] at hnil
        · exact fun i hi => hother i fun h => hi (h ▸ List.mem_cons_self)
      · obtain ⟨entries, hrun, hin, hout⟩ := ih (erase cm a) (n + 1) hnodup
          (by rw [hrest, erase_eq]; simp only [setEntry]; omega)
          (by rw [erase_eq]; exact hlt)
        refine ⟨entries, ?_, ?_, ?_⟩
        · rw [if_neg hlast, hrun, hrest, erase_eq]
          simp [setEntry]
        · intro i hi
          rcases List.mem_cons.1 hi with rfl | hi
          · rw [hout i hal, hself]
          · exact hin i hi
        · intro i hi
          rw [hout i fun h => hi (List.mem_cons_of_mem a h)]
          exact hother i fun h => hi (h ▸ List.mem_cons_self)

end operations

section accounts
variable {cm : CMap κ ν} {hash : κ → Nat} {cmp : κ → κ → Int} {cleanupKey cleanupValue : Bool}
  {capacity rounds : Nat} {inserted : List (κ × ν)}

/-- The map is one that was created with these values. -/
structure Created (hash : κ → Nat) (cmp : κ → κ → Int) (cleanupKey cleanupValue : Bool)
    (capacity : Nat) (cm : CMap κ ν) : Prop where
  hash_eq : cm.hash = hash
  cmp_eq : cm.cmp = cmp
  cleanupKey_eq : cm.cleanupKey = cleanupKey
  cleanupValue_eq : cm.cleanupValue = cleanupValue
  capacity_eq : cm.capacity = capacity

theorem Created.update (h : Created hash cmp cleanupKey cleanupValue capacity cm)
    (entries : Nat → MapEntry κ ν) (size : Nat) (cleaned : List (Disposed κ ν)) :
    Created hash cmp cleanupKey cleanupValue capacity
      { cm with entries := entries, size := size, cleaned := cleaned } :=
  ⟨h.hash_eq, h.cmp_eq, h.cleanupKey_eq, h.cleanupValue_eq, h.capacity_eq⟩

/-- The size is the number of pairs, and each pair that was inserted is stored or was cleaned up. -/
structure Counted (cleanupKey cleanupValue : Bool) (cm : CMap κ ν) (inserted : List (κ × ν)) :
    Prop where
  size : cm.size = (stored cm).length
  ledger : ∃ gone, cm.cleaned = gone.flatMap (calls cleanupKey cleanupValue) ∧
    Ledger inserted (stored cm) gone

theorem stored_length_le (cm : CMap κ ν) : (stored cm).length ≤ cm.capacity := by
  rw [← numStored_eq, numStored]
  exact (List.length_filter_le _ _).trans_eq List.length_range

theorem foldl_setFree (l : List Nat) (cm : CMap κ ν) : ∃ entries,
    l.foldl (fun cm i => setEntry cm i (setFree (cm.entries i) true)) cm =
        { cm with entries := entries } ∧
      (∀ i ∈ l, isFree (entries i) = true) ∧
      ∀ i, isFree (cm.entries i) = true → isFree (entries i) = true := by
  induction l generalizing cm with
  | nil => exact ⟨cm.entries, rfl, by simp, fun _ h => h⟩
  | cons a l ih =>
    obtain ⟨entries, hrun, hin, hstay⟩ := ih (setEntry cm a (setFree (cm.entries a) true))
    refine ⟨entries, hrun, ?_, ?_⟩
    · intro i hi
      rcases List.mem_cons.1 hi with rfl | hi
      · exact hstay i (by simp [setEntry, isFree_setFree])
      · exact hin i hi
    · intro i hi
      apply hstay
      by_cases hia : i = a
      · subst hia
        simp [setEntry, isFree_setFree]
      · simpa [setEntry, hia] using hi

theorem created_init {memory : Nat → MapEntry κ ν}
    (h : cm = cmapCreate memory hash cmp cleanupKey cleanupValue capacity) (hpos : 0 < capacity) :
    Created hash cmp cleanupKey cleanupValue capacity cm ∧
      (∀ i < cm.capacity, isFree (cm.entries i) = true) ∧ cm.size = 0 ∧ cm.cleaned = [] := by
  unfold cmapCreate at h
  simp only [if_pos hpos] at h
  obtain ⟨entries, hrun, hfree, -⟩ := foldl_setFree (List.range capacity)
    ⟨memory, capacity, 0, hash, cmp, cleanupKey, cleanupValue, []⟩
  rw [hrun] at h
  subst h
  exact ⟨⟨rfl, rfl, rfl, rfl, rfl⟩, fun i hi => hfree i (List.mem_range.2 hi), rfl, rfl⟩

theorem stored_nil (h : ∀ i < cm.capacity, isFree (cm.entries i) = true) : stored cm = [] := by
  unfold stored
  rw [List.flatMap_eq_nil_iff]
  intro i hi
  exact pairOf_free (h i (List.mem_range.1 hi))

theorem counted_init {memory : Nat → MapEntry κ ν}
    (h : cm = cmapCreate memory hash cmp cleanupKey cleanupValue capacity) (hpos : 0 < capacity) :
    Counted cleanupKey cleanupValue cm [] := by
  obtain ⟨-, hfree, hsize, hcleaned⟩ := created_init h hpos
  have hnil := stored_nil hfree
  constructor
  case size => rw [hsize, hnil, List.length_nil]
  case ledger => exact ⟨[], hcleaned, by rw [hnil]; exact .init⟩

variable (hcap : cm.capacity < 2 ^ 31) (hpos : 0 < cm.capacity)

include hcap

theorem Counted.insert (h : Counted cleanupKey cleanupValue cm inserted)
    (hc : Created hash cmp cleanupKey cleanupValue capacity cm) {cm' : CMap κ ν} {key : κ}
    {value : ν} {index : Nat} (hins : Inserted cm cm' key value index) :
    Created hash cmp cleanupKey cleanupValue capacity cm' ∧
      Counted cleanupKey cleanupValue cm' (inserted ++ [(key, value)]) := by
  have hperm := stored_inserted hins
  obtain ⟨e, rfl, -⟩ := hins.result
  refine ⟨hc.update _ _ _, ?_⟩
  have hle := stored_length_le cm
  obtain ⟨gone, hgone, hledger⟩ := h.ledger
  constructor
  case size =>
    have hsucc : toUnsigned (cm.size + 1) = cm.size + 1 :=
      toUnsigned_natCast (n := cm.size + 1) (by rw [h.size]; omega)
    rw [hperm.length_eq, List.length_cons, ← h.size]
    exact hsucc
  case ledger => exact ⟨gone, hgone, (hledger.enter _).perm hperm.symm⟩

omit hcap in
theorem stored_erase {index : Nat} (hlt : index < cm.capacity) (hfull : Full cm index) :
    stored cm ~ ((cm.entries index).key, (cm.entries index).value) :: stored (erase cm index) := by
  have h1 := stored_perm cm hlt
  have h2 := stored_setEntry cm hlt (setFree (cm.entries index) true)
  rw [pairOf_full hfull] at h1
  rw [pairOf_free (isFree_setFree _ true)] at h2
  rw [erase_eq]
  exact h1.trans (List.Perm.cons _ h2.symm)

include hpos

omit hcap hpos in
theorem erase_capacity (cm : CMap κ ν) (index : Nat) : (erase cm index).capacity = cm.capacity := by
  rw [erase_eq]
  rfl

/-- A removal of a key that is stored takes out one pair. -/
theorem cmapRemove_found {key : κ} {index : Nat} (hrounds : cm.capacity < rounds)
    (hlt : index < cm.capacity) (hindex : lookupIndex cm key = index) (hfull : Full cm index) :
    ∃ entries, delete (homeSlot cm index) rounds (erase cm index) index =
        some { erase cm index with entries := entries } ∧
      cmapRemove rounds cm key = some { erase cm index with
        entries := entries, size := toUnsigned ((erase cm index).size - 1) } ∧
      stored cm ~ ((cm.entries index).key, (cm.entries index).value) ::
        stored { erase cm index with entries := entries } := by
  have hsame := erase_capacity cm index
  have hfree : isFree ((erase cm index).entries index) = true := by
    rw [erase_eq]
    simp [setEntry, isFree_setFree]
  have hstop : homeSlot cm index < (erase cm index).capacity := hsame ▸ Nat.mod_lt _ hpos
  have hgap := gap_le (a := index) hstop
  obtain ⟨entries, hdel, hperm⟩ := delete_stored _ (homeSlot cm index) rounds (hsame ▸ hcap)
    (hsame ▸ hlt) hstop hfree (by omega)
  refine ⟨entries, hdel, ?_, (stored_erase hlt hfull).trans (List.Perm.cons _ hperm.symm)⟩
  rw [cmapRemove_eq hcap hindex hlt, hdel]
  rfl

/-- What is removed is cleaned up. -/
theorem Counted.remove (h : Counted cleanupKey cleanupValue cm inserted)
    (hc : Created hash cmp cleanupKey cleanupValue capacity cm) (hrounds : cm.capacity < rounds)
    (key : κ) : ∃ cm', cmapRemove rounds cm key = some cm' ∧
      Created hash cmp cleanupKey cleanupValue capacity cm' ∧
      Counted cleanupKey cleanupValue cm' inserted := by
  rcases lookupIndex_eq hcap hpos key with ⟨hneg, -⟩ | ⟨index, hlt, hindex, hsearch⟩
  · exact ⟨cm, if_pos hneg, hc, h⟩
  · obtain ⟨-, -, -, hfull, -⟩ := search_some hsearch
    obtain ⟨entries, -, hrun, hperm⟩ := cmapRemove_found hcap hpos hrounds hlt hindex hfull
    have hlen := hperm.length_eq
    obtain ⟨gone, hgone, hledger⟩ := h.ledger
    refine ⟨_, hrun, ?_, ?_⟩
    · rw [erase_eq]
      exact hc.update _ _ _
    · constructor
      case size =>
        have hsize : (erase cm index).size = (stored cm).length := by
          rw [erase_eq, ← h.size]
          rfl
        have hle := stored_length_le cm
        show toUnsigned ((erase cm index).size - 1) =
          (stored { erase cm index with entries := entries }).length
        rw [List.length_cons] at hlen
        unfold toUnsigned
        omega
      case ledger =>
        refine ⟨gone ++ [((cm.entries index).key, (cm.entries index).value)], ?_, ?_⟩
        · rw [List.flatMap_append, ← hgone, erase_eq, hc.cleanupKey_eq, hc.cleanupValue_eq]
          simp
        · exact (hledger.perm hperm).leave

omit hpos in
theorem Counted.clear (h : Counted cleanupKey cleanupValue cm inserted)
    (hc : Created hash cmp cleanupKey cleanupValue capacity cm) :
    Created hash cmp cleanupKey cleanupValue capacity (cmapClear cm) ∧
      Counted cleanupKey cleanupValue (cmapClear cm) inserted ∧
      ∀ i < cm.capacity, isFree ((cmapClear cm).entries i) = true := by
  have hle := stored_length_le cm
  obtain ⟨entries, hrun, hfree, -⟩ := clearFrom_eq cm 0
    (List.nodup_range (n := cm.capacity)) (by rw [h.size, Nat.zero_add]; exact Nat.le_refl _)
    (by rw [h.size]; omega)
  obtain ⟨gone, hgone, hledger⟩ := h.ledger
  unfold cmapClear
  rw [hrun]
  have hall : ∀ i < cm.capacity, isFree (entries i) = true :=
    fun i hi => hfree i (List.mem_range.2 hi)
  have hnil : stored { cm with entries := entries } = [] := stored_nil hall
  refine ⟨hc.update _ _ _, ?_, hall⟩
  constructor
  case size => exact (congrArg List.length hnil).symm
  case ledger =>
    refine ⟨gone ++ stored cm, ?_, ?_⟩
    · rw [List.flatMap_append, ← hgone, hc.cleanupKey_eq, hc.cleanupValue_eq]
      rfl
    · have hperm : stored cm ~ stored { cm with entries := entries } ++ stored cm := by
        rw [hnil, List.nil_append]
      exact (hledger.perm hperm).leaveAll

omit hcap hpos in
theorem runMap_append {ops : List (CMapOp κ ν)} {state : CMap κ ν × List (κ × ν)}
    (h : runMap rounds cm ops = some state) (op : CMapOp κ ν) :
    runMap rounds cm (ops ++ [op]) = op.run rounds state := by
  unfold runMap at h ⊢
  rw [List.foldlM_append, h]
  simp

theorem Counted.run (h : Counted cleanupKey cleanupValue cm inserted)
    (hc : Created hash cmp cleanupKey cleanupValue capacity cm) (hrounds : cm.capacity < rounds)
    (op : CMapOp κ ν) : ∃ cm' inserted', op.run rounds (cm, inserted) = some (cm', inserted') ∧
      Created hash cmp cleanupKey cleanupValue capacity cm' ∧
      Counted cleanupKey cleanupValue cm' inserted' := by
  cases op with
  | insert key value =>
    by_cases hfull : cm.size = cm.capacity
    · exact ⟨cm, inserted, by simp [CMapOp.run, cmapInsert_full hfull], hc, h⟩
    · have hle := stored_length_le cm
      have hlt : cm.size < cm.capacity := lt_of_le_of_ne (h.size ▸ hle) hfull
      obtain ⟨cm', index, hrun, hins⟩ := cmapInsert_eq hcap h.size hlt key value
      obtain ⟨hc', h'⟩ := h.insert hcap hc hins
      exact ⟨cm', _, by simp [CMapOp.run, hrun], hc', h'⟩
  | remove key =>
    obtain ⟨cm', hrun, hc', h'⟩ := h.remove hcap hpos hc hrounds key
    exact ⟨cm', inserted, by simp [CMapOp.run, hrun], hc', h'⟩
  | lookup key => exact ⟨cm, inserted, rfl, hc, h⟩
  | clear =>
    obtain ⟨hc', h', -⟩ := h.clear hcap hc
    exact ⟨cmapClear cm, inserted, rfl, hc', h'⟩

end accounts

section accounting
variable {capacity rounds : Nat}

theorem counted_runMap (memory : Nat → MapEntry κ ν) (hash : κ → Nat) (cmp : κ → κ → Int)
    (cleanupKey cleanupValue : Bool) (hpos : 0 < capacity) (hlt : capacity < 2 ^ 31)
    (hrounds : capacity < rounds) (ops : List (CMapOp κ ν)) : ∃ cm inserted,
      runMap rounds (cmapCreate memory hash cmp cleanupKey cleanupValue capacity) ops =
        some (cm, inserted) ∧
      Created hash cmp cleanupKey cleanupValue capacity cm ∧
      Counted cleanupKey cleanupValue cm inserted := by
  induction ops using List.reverseRecOn with
  | nil => exact ⟨_, [], rfl, (created_init rfl hpos).1, counted_init rfl hpos⟩
  | append_singleton ops op ih =>
    obtain ⟨cm, inserted, hrun, hc, h⟩ := ih
    have hcap := hc.capacity_eq
    obtain ⟨cm', inserted', hrun', hc', h'⟩ := h.run (by omega) (by omega) hc
      (by omega : cm.capacity < rounds) op
    exact ⟨cm', inserted', (runMap_append hrun op).trans hrun', hc', h'⟩

/-- Every call returns, the size is the number of entries in use and at most the capacity, an
insertion changes one entry, which was free, and nothing if there is none, and each pair that was
inserted is stored or was cleaned up, once. -/
theorem runMap_accounts (memory : Nat → MapEntry κ ν) (hash : κ → Nat) (cmp : κ → κ → Int)
    (cleanupKey cleanupValue : Bool) (hpos : 0 < capacity) (hlt : capacity < 2 ^ 31)
    (hrounds : capacity < rounds) (ops : List (CMapOp κ ν)) : ∃ cm inserted gone,
      runMap rounds (cmapCreate memory hash cmp cleanupKey cleanupValue capacity) ops =
        some (cm, inserted) ∧
      cm.capacity = capacity ∧ cm.size = numStored cm ∧ cm.size ≤ capacity ∧
      (∀ key value, cm.size = capacity → cmapInsert cm key value = some (none, cm)) ∧
      (∀ key value, cm.size < capacity → ∃ cm' index,
        cmapInsert cm key value = some (some index, cm') ∧ index < capacity ∧
          isFree (cm.entries index) = true ∧ ∀ i ≠ index, cm'.entries i = cm.entries i) ∧
      cm.cleaned = gone.flatMap (calls cleanupKey cleanupValue) ∧
      inserted.Perm (stored cm ++ gone) := by
  obtain ⟨cm, inserted, hrun, hc, h⟩ :=
    counted_runMap memory hash cmp cleanupKey cleanupValue hpos hlt hrounds ops
  obtain ⟨gone, hgone, hledger⟩ := h.ledger
  have hcap := hc.capacity_eq
  refine ⟨cm, inserted, gone, hrun, hcap, h.size.trans (numStored_eq cm).symm, ?_, ?_, ?_, hgone,
    hledger⟩
  · rw [h.size, ← hcap]
    exact stored_length_le cm
  · intro key value hfull
    exact cmapInsert_full (hfull.trans hcap.symm) key value
  · intro key value hfew
    obtain ⟨cm', index, hins, hspec⟩ := cmapInsert_eq (by omega) h.size (by omega) key value
    refine ⟨cm', index, hins, hcap ▸ hspec.lt, hspec.free, fun i hi => ?_⟩
    obtain ⟨e, rfl, -⟩ := hspec.result
    simp [setEntry, hi]

theorem runMap_accounts_full : ∃ (cm : CMap Nat Nat) (inserted gone : List (Nat × Nat)),
    runMap 3 (cmapCreate (fun _ => ⟨0, 0, 0, 0⟩) id (fun a b => a - b) true true 2)
        [.insert 1 5, .insert 3 6, .insert 5 7, .remove 1] = some (cm, inserted) ∧
      cm.size = numStored cm ∧ cm.cleaned = gone.flatMap (calls true true) ∧
      inserted.Perm (stored cm ++ gone) := by
  obtain ⟨cm, inserted, gone, h1, -, h2, -, -, -, h3, h4⟩ :=
    runMap_accounts (fun _ => (⟨0, 0, 0, 0⟩ : MapEntry Nat Nat)) id (fun a b => a - b) true true
      (by decide : 0 < 2) (by decide) (by decide : 2 < 3)
      [.insert 1 5, .insert 3 6, .insert 5 7, .remove 1]
  exact ⟨cm, inserted, gone, h1, h2, h3, h4⟩

end accounting

end CMap
end Lisp
