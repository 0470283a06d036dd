import Mathlib.Data.Vector.Basic
import Mathlib.Logic.Equiv.Basic

/-! Arrays that hold several values in one entry, or one value in several: bits packed into words,
and elements of a fixed size. -/
namespace Packing

section bits
variable {w m : Nat} {v : Vector (BitVec w) m} {i j : Nat} {b : Bool}

/-- The bit at a position, counted over all the words. -/
def readBit (v : Vector (BitVec w) m) (i : Nat) (h : i / w < m) : Bool := v[i / w].getLsbD (i % w)

def writeBit (v : Vector (BitVec w) m) (i : Nat) (h : i / w < m) (b : Bool) :
    Vector (BitVec w) m :=
  v.set (i / w)
    (if b then v[i / w] ||| BitVec.twoPow w (i % w) else v[i / w] &&& ~~~BitVec.twoPow w (i % w)) h

/-- A mask of one bit tests that bit. -/
theorem and_twoPow_ne_zero {x : BitVec w} {k : Nat} (hk : k < w) :
    x &&& BitVec.twoPow w k ≠ 0 ↔ x.getLsbD k = true := by
  have hne : BitVec.twoPow w k ≠ 0 := by
    intro h
    have hbit := congrArg (fun y => y.getLsbD k) h
    simp [hk] at hbit
  rw [BitVec.and_twoPow]
  split
  next h => exact iff_of_true hne h
  next h => exact iff_of_false (fun h' => h' rfl) h

theorem position_inj (hword : i / w = j / w) (hbit : i % w = j % w) : i = j := by
  rw [← Nat.div_add_mod i w, hword, hbit, Nat.div_add_mod]

/-- The bits are independent, also those of one word. -/
theorem readBit_writeBit (hw : 0 < w) (hi : i / w < m) (hj : j / w < m) :
    readBit (writeBit v i hi b) j hj = if j = i then b else readBit v j hj := by
  have hlt := Nat.mod_lt j hw
  unfold readBit writeBit
  by_cases hword : i / w = j / w
  · simp only [hword, Vector.getElem_set_self]
    by_cases hji : j = i
    · subst hji
      cases b <;> simp [hlt]
    · have hbit : j % w ≠ i % w := fun h => hji (position_inj hword h.symm).symm
      cases b <;> simp [hji, hlt, hbit]
  · have hji : j ≠ i := fun h => hword (by rw [h])
    rw [Vector.getElem_set_ne _ _ hword, if_neg hji]

end bits

section elements
variable {α : Type} {m n size : Nat} {v : Vector α m} {a : Vector α size} {offset : Nat}

/-- The entries from a place on, which have to be in the array. -/
def readAt (v : Vector α m) (offset size : Nat) : Option (Vector α size) :=
  if h : offset + size ≤ m then some (Vector.ofFn fun k => v[offset + k]) else none

def writeAt (v : Vector α m) (offset : Nat) (a : Vector α size) : Option (Vector α m) :=
  if offset + size ≤ m then
    some (Vector.ofFn fun k =>
      if h : offset ≤ k ∧ k < offset + size then a[k.val - offset] else v.get k)
  else none

theorem offset_lt (i : Fin n) (k : Fin size) : i * size + k < n * size := by
  have hle : (i.val + 1) * size ≤ n * size := Nat.mul_le_mul_right size i.isLt
  rw [Nat.succ_mul] at hle
  omega

/-- Element `i` of an array that holds elements of the same size. -/
def element (v : Vector α (n * size)) (i : Fin n) : Vector α size :=
  Vector.ofFn fun k =>
    have h := offset_lt i k
    v[i * size + k]

variable {v : Vector α (n * size)} {i k : Fin n}

theorem area_le (i : Fin n) : i * size + size ≤ n * size := by
  rw [← Nat.succ_mul]
  exact Nat.mul_le_mul_right size i.isLt

theorem readAt_element (v : Vector α (n * size)) (i : Fin n) :
    readAt v (i * size) size = some (element v i) := dif_pos (area_le i)

/-- An area of one element has no entry of another. -/
theorem mem_area {l : Nat} (hl : l < size) :
    (i * size ≤ k * size + l ∧ k * size + l < i * size + size) ↔ k = i := by
  constructor
  · rintro ⟨hlow, hhigh⟩
    rcases Nat.lt_trichotomy k i with hlt | heq | hgt
    · have := Nat.mul_le_mul_right size (Nat.succ_le_of_lt hlt)
      rw [Nat.succ_mul] at this
      omega
    · exact Fin.ext heq
    · have := Nat.mul_le_mul_right size (Nat.succ_le_of_lt hgt)
      rw [Nat.succ_mul] at this
      omega
  · rintro rfl
    omega

/-- A write to an element changes no other. -/
theorem writeAt_element (v : Vector α (n * size)) (i : Fin n) (a : Vector α size) :
    ∃ v', writeAt v (i * size) a = some v' ∧
      ∀ k, element v' k = if k = i then a else element v k := by
  refine ⟨_, if_pos (area_le i), fun k => ?_⟩
  ext l hl
  by_cases hki : k = i
  · subst hki
    simp [element]
  · have hout := mt (mem_area hl).1 hki
    simp [element, Vector.get, hki, hout]

/-- What two writes make of an exchange. -/
theorem apply_swap {ι β : Type} [DecidableEq ι] (f : ι → β) (i j k : ι) :
    f (Equiv.swap i j k) = if k = j then f i else if k = i then f j else f k := by
  rcases eq_or_ne k j with rfl | hkj
  · rw [Equiv.swap_apply_right, if_pos rfl]
  rcases eq_or_ne k i with rfl | hki
  · rw [Equiv.swap_apply_left, if_neg hkj, if_pos rfl]
  · rw [Equiv.swap_apply_of_ne_of_ne hki hkj, if_neg hkj, if_neg hki]

end elements
end Packing
