import Lisp.Permutations

/-! The memory of a permuter: its elements as bytes, and its directions as the bits that C computes
with, in `int` after the integer promotions. -/
namespace Lisp
open Packing
variable {n elemSize : Nat}

section source

/-- `1 << k`, for which C defines a value where it fits an `int`. -/
def shiftedOne (k : Int) : Option (BitVec 32) :=
  if 0 ≤ k ∧ k < 31 then some ((1 : BitVec 32) <<< k.toNat) else none

/-- The conversion of an `int` to `char` or `uint8_t`. -/
def toByte (x : BitVec 32) : BitVec 8 := x.setWidth 8

/-- The integer promotion of a `uint8_t`. -/
def promoteByte (b : BitVec 8) : BitVec 32 := b.setWidth 32

/-- The integer promotion of a `char`. It is up to the compiler whether the type has a sign. -/
def promoteChar (charSigned : Bool) (c : BitVec 8) : BitVec 32 :=
  if charSigned then c.signExtend 32 else c.setWidth 32

/-- `struct permuter` with `n` elements, and what its pointers lead to: the bytes of the elements,
and those of the temporary element. -/
structure PackedPermuter (n elemSize : Nat) where
  elems : Vector (BitVec 8) (n * elemSize)
  tmp : Vector (BitVec 8) elemSize
  cmp : Vector (BitVec 8) elemSize → Vector (BitVec 8) elemSize → Int
  index : Int
  directions : Vector (BitVec 8) (directionArrLen n)

namespace PackedPermuter

/-- The index of the byte with a direction. -/
def byteIndex (i : Int) : Int := i.tdiv CHAR_BIT

/-- `p->directions[index]`, which has to be in the array. -/
def directionByte (p : PackedPermuter n elemSize) (index : Int) : Option (BitVec 8) :=
  if 0 ≤ index then p.directions[index.toNat]? else none

def storeByte (p : PackedPermuter n elemSize) (index : Int) (b : BitVec 8) :
    Option (PackedPermuter n elemSize) :=
  if h : 0 ≤ index ∧ index.toNat < directionArrLen n then
    some { p with directions := p.directions.set index.toNat b h.2 }
  else none

def ithDirection (p : PackedPermuter n elemSize) (i : Int) : Option Permuter.Direction := do
  let dirBucket ← p.directionByte (byteIndex i)
  let mask := toByte (← shiftedOne (i.tmod CHAR_BIT))
  let bit := promoteByte dirBucket &&& promoteByte mask != 0
  return if bit then .right else .left

def setIthDirection (charSigned : Bool) (p : PackedPermuter n elemSize) (i : Int)
    (direction : Permuter.Direction) : Option (PackedPermuter n elemSize) := do
  let index := byteIndex i
  let mask := toByte (← shiftedOne (i.tmod CHAR_BIT))
  let dirBucket ← p.directionByte index
  match direction with
  | .left => p.storeByte index (toByte (promoteByte dirBucket &&& ~~~promoteChar charSigned mask))
  | .right => p.storeByte index (toByte (promoteByte dirBucket ||| promoteChar charSigned mask))

def flipIthDirection (charSigned : Bool) (p : PackedPermuter n elemSize) (i : Int) :
    Option (PackedPermuter n elemSize) := do
  let dir ← p.ithDirection i
  p.setIthDirection charSigned i (if dir = .left then .right else .left)

/-- `permuter_ith`, as an offset from `elems`. -/
def permuterIth (elemSize : Nat) (i : Int) : Option Nat :=
  if 0 ≤ i then some (i.toNat * elemSize) else none

/-- `swap`. The copies of `memcpy` read all their bytes first. -/
def swap (charSigned : Bool) (p : PackedPermuter n elemSize) (i j : Int) :
    Option (PackedPermuter n elemSize) := do
  if !(0 ≤ i && i < n) then none
  if !(0 ≤ j && j < n) then none
  let dirI ← p.ithDirection i
  let p ← p.setIthDirection charSigned i (← p.ithDirection j)
  let p ← p.setIthDirection charSigned j dirI
  let p := { p with tmp := ← readAt p.elems (← permuterIth elemSize i) elemSize }
  let elem ← readAt p.elems (← permuterIth elemSize j) elemSize
  let p := { p with elems := ← writeAt p.elems (← permuterIth elemSize i) elem }
  return { p with elems := ← writeAt p.elems (← permuterIth elemSize j) p.tmp }

end PackedPermuter

end source

section promotions
variable {b c : BitVec 8} {k : Nat}

theorem shiftedOne_eq (hk : k < 8) : shiftedOne k = some (BitVec.twoPow 32 k) := by
  rw [shiftedOne, if_pos (by omega), Int.toNat_natCast, BitVec.twoPow]
  rfl

theorem toByte_twoPow (hk : k < 8) : toByte (BitVec.twoPow 32 k) = BitVec.twoPow 8 k := by
  have hk' : k < 32 := by omega
  ext l hl
  simp [toByte, hk', eq_comm]

theorem toByte_promoteByte (b : BitVec 8) : toByte (promoteByte b) = b := by
  simp [toByte, promoteByte]

/-- The bits of the sign are above those of the byte. -/
theorem toByte_promoteChar (charSigned : Bool) (c : BitVec 8) :
    toByte (promoteChar charSigned c) = c := by
  cases charSigned with
  | false => exact toByte_promoteByte c
  | true =>
    refine BitVec.eq_of_getLsbD_eq fun l hl => ?_
    have hl' : l < 32 := by omega
    simp only [toByte, promoteChar, if_true, BitVec.getLsbD_setWidth, BitVec.getLsbD_signExtend, hl,
      hl', decide_true, Bool.true_and]

/-- The mask of the last bit of a byte is negative, where the type has a sign. -/
example : (promoteChar true (toByte (1 <<< 7))).toInt = -128 := by decide

theorem toByte_clear (charSigned : Bool) (b c : BitVec 8) :
    toByte (promoteByte b &&& ~~~promoteChar charSigned c) = b &&& ~~~c := by
  have hmask := toByte_promoteChar charSigned c
  have hbyte := toByte_promoteByte b
  unfold toByte at hmask hbyte ⊢
  rw [BitVec.setWidth_and, BitVec.setWidth_not (by decide), hmask, hbyte]

theorem toByte_set (charSigned : Bool) (b c : BitVec 8) :
    toByte (promoteByte b ||| promoteChar charSigned c) = b ||| c := by
  have hmask := toByte_promoteChar charSigned c
  have hbyte := toByte_promoteByte b
  unfold toByte at hmask hbyte ⊢
  rw [BitVec.setWidth_or, hmask, hbyte]

theorem promoteByte_and_ne_zero (b c : BitVec 8) :
    (promoteByte b &&& promoteByte c != 0) = (b &&& c != 0) := by
  have hand : promoteByte b &&& promoteByte c = promoteByte (b &&& c) := BitVec.setWidth_and.symm
  have hzero : promoteByte (b &&& c) = 0 ↔ b &&& c = 0 := by
    constructor
    · intro h
      rw [← toByte_promoteByte (b &&& c), h]
      rfl
    · intro h
      rw [h]
      rfl
  rw [hand, Bool.eq_iff_iff, bne_iff_ne, bne_iff_ne, ne_eq, hzero]

end promotions

namespace PackedPermuter
variable {p q : PackedPermuter n elemSize} {charSigned : Bool} {d : Permuter.Direction}

section directions

theorem byteIndex_natCast (k : Nat) : byteIndex k = (k / CHAR_BIT : Nat) := rfl

theorem tmod_natCast (k : Nat) : (k : Int).tmod CHAR_BIT = (k % CHAR_BIT : Nat) := rfl

/-- A direction is read from its bit, where the byte is in the array. -/
theorem ithDirection_eq (p : PackedPermuter n elemSize) (k : Nat) : p.ithDirection k =
    if h : k / CHAR_BIT < directionArrLen n then
      some (if readBit p.directions k h then .right else .left)
    else none := by
  have hk := Permuter.bit_lt k
  rw [ithDirection, byteIndex_natCast, tmod_natCast, shiftedOne_eq hk, directionByte,
    if_pos (Int.natCast_nonneg _), Int.toNat_natCast]
  split
  next h =>
    rw [Vector.getElem?_eq_getElem h]
    simp only [Option.bind_eq_bind, Option.bind_some, toByte_twoPow hk, promoteByte_and_ne_zero,
      bne_iff_ne, and_twoPow_ne_zero hk]
    rfl
  next h =>
    rw [Vector.getElem?_eq_none (Nat.le_of_not_lt h)]
    rfl

theorem setIthDirection_eq (p : PackedPermuter n elemSize) (k : Nat)
    (h : k / CHAR_BIT < directionArrLen n) : p.setIthDirection charSigned k d =
      some { p with directions := writeBit p.directions k h (d == .right) } := by
  have hk := Permuter.bit_lt k
  have hstore (b : BitVec 8) : p.storeByte (k / CHAR_BIT : Nat) b =
      some { p with directions := p.directions.set (k / CHAR_BIT) b h } :=
    dif_pos ⟨Int.natCast_nonneg _, h⟩
  rw [setIthDirection, byteIndex_natCast, tmod_natCast, shiftedOne_eq hk, directionByte,
    if_pos (Int.natCast_nonneg _), Int.toNat_natCast, Vector.getElem?_eq_getElem h]
  simp only [Option.bind_eq_bind, Option.bind_some, toByte_twoPow hk, toByte_clear, toByte_set,
    hstore]
  cases d with
  | left => rfl
  | right => rfl

/-- The two permuters differ in their directions only. -/
structure SameElements (p q : PackedPermuter n elemSize) : Prop where
  elems : q.elems = p.elems
  tmp : q.tmp = p.tmp
  cmp : q.cmp = p.cmp
  index : q.index = p.index

theorem exists_ithDirection (p : PackedPermuter n elemSize) (i : Fin n) :
    ∃ d, p.ithDirection i = some d :=
  ⟨_, (p.ithDirection_eq i).trans (dif_pos (Permuter.bucket_lt i))⟩

/-- The directions are independent, also those of one byte. -/
theorem setIthDirection_spec (charSigned : Bool) (p : PackedPermuter n elemSize) (i : Fin n)
    (d : Permuter.Direction) : ∃ q, p.setIthDirection charSigned i d = some q ∧ SameElements p q ∧
      ∀ k : Nat, q.ithDirection k = if k = i then some d else p.ithDirection k := by
  refine ⟨_, p.setIthDirection_eq i (Permuter.bucket_lt i), ⟨rfl, rfl, rfl, rfl⟩, fun k => ?_⟩
  rw [ithDirection_eq, ithDirection_eq]
  by_cases hk : k / CHAR_BIT < directionArrLen n
  · have hbit := readBit_writeBit (v := p.directions) (b := d == .right) (by decide)
      (Permuter.bucket_lt i) hk
    rw [dif_pos hk, dif_pos hk, hbit]
    by_cases hki : k = i
    · rw [if_pos hki, if_pos hki]
      cases d <;> rfl
    · rw [if_neg hki, if_neg hki]
  · have hki : k ≠ i := by
      rintro rfl
      exact hk (Permuter.bucket_lt i)
    rw [dif_neg hk, dif_neg hk, if_neg hki]

theorem setIthDirection_some {i : Fin n} (h : p.setIthDirection charSigned i d = some q) :
    SameElements p q ∧
      ∀ k : Nat, q.ithDirection k = if k = i then some d else p.ithDirection k := by
  obtain ⟨r, hr, hspec⟩ := p.setIthDirection_spec charSigned i d
  rw [hr] at h
  cases h
  exact hspec

theorem flipIthDirection_spec (charSigned : Bool) (p : PackedPermuter n elemSize) (i : Fin n) :
    ∃ q, p.flipIthDirection charSigned i = some q ∧ SameElements p q ∧ ∀ k : Nat, q.ithDirection k =
      if k = i then (p.ithDirection i).map PlainChanges.Direction.flip else p.ithDirection k := by
  obtain ⟨d, hd⟩ := p.exists_ithDirection i
  obtain ⟨q, hq, hsame, hdirs⟩ := p.setIthDirection_spec charSigned i d.flip
  refine ⟨q, ?_, hsame, fun k => ?_⟩
  · have hflip : (if d = .left then .right else .left) = d.flip := by cases d <;> rfl
    rw [flipIthDirection, hd, Option.bind_eq_bind, Option.bind_some, hflip, hq]
  · rw [hdirs, hd, Option.map_some]

end directions

section swaps

theorem permuterIth_natCast (k : Nat) : permuterIth elemSize k = some (k * elemSize) :=
  if_pos (Int.natCast_nonneg k)

/-- The assertions hold of an index of the array. -/
theorem asserted (i : Fin n) : (0 ≤ (i : Int) && (i : Int) < n) = true := by simp

/-- The two directions are written first, then the two elements. -/
theorem swap_eq (charSigned : Bool) (p : PackedPermuter n elemSize) (i j : Fin n) :
    ∃ dirI dirJ q r w, p.ithDirection i = some dirI ∧ p.ithDirection j = some dirJ ∧
      p.setIthDirection charSigned i dirJ = some q ∧ q.setIthDirection charSigned j dirI = some r ∧
      (∀ k, element w k = if k = j then element p.elems i else if k = i then element p.elems j
        else element p.elems k) ∧
      p.swap charSigned i j = some { r with elems := w, tmp := element p.elems i } := by
  obtain ⟨dirI, hI⟩ := p.exists_ithDirection i
  obtain ⟨dirJ, hJ⟩ := p.exists_ithDirection j
  obtain ⟨q, hq, hsame, -⟩ := p.setIthDirection_spec charSigned i dirJ
  obtain ⟨r, hr, hsame', -⟩ := q.setIthDirection_spec charSigned j dirI
  have helems : r.elems = p.elems := hsame'.elems.trans hsame.elems
  obtain ⟨v, hv, helemI⟩ := writeAt_element p.elems i (element p.elems j)
  obtain ⟨w, hw, helemJ⟩ := writeAt_element v j (element p.elems i)
  refine ⟨dirI, dirJ, q, r, w, hI, hJ, hq, hr, fun k => by rw [helemJ, helemI], ?_⟩
  simp only [swap, asserted, Bool.not_true, Bool.false_eq_true, if_false, Option.pure_def,
    Option.bind_eq_bind, Option.bind_some, hI, hJ, hq, hr, permuterIth_natCast, helems,
    readAt_element, hv, hw]

/-- The elements change places with their directions. Besides, only the bytes of the temporary
element are written. -/
theorem swap_spec (charSigned : Bool) (p : PackedPermuter n elemSize) (i j : Fin n) :
    ∃ q, p.swap charSigned i j = some q ∧
      (∀ k : Fin n, element q.elems k = element p.elems (Equiv.swap i j k)) ∧
      (∀ k : Nat, q.ithDirection k = p.ithDirection (Equiv.swap i.val j.val k : Nat)) ∧
      q.tmp = element p.elems i ∧ q.cmp = p.cmp ∧ q.index = p.index := by
  obtain ⟨dirI, dirJ, q, r, w, hI, hJ, hq, hr, helem, hswap⟩ := p.swap_eq charSigned i j
  obtain ⟨hsame, hdirs⟩ := setIthDirection_some hq
  obtain ⟨hsame', hdirs'⟩ := setIthDirection_some hr
  refine ⟨_, hswap, fun k => ?_, fun k => ?_, rfl, hsame'.cmp.trans hsame.cmp,
    hsame'.index.trans hsame.index⟩
  · rw [helem, apply_swap (element p.elems)]
  · show r.ithDirection k = _
    rw [hdirs', hdirs, ← hI, ← hJ, apply_swap fun k : Nat => p.ithDirection k]

end swaps

section unpacking

/-- The permuter with its elements as values. -/
def unpack (p : PackedPermuter n elemSize) : Permuter (Vector (BitVec 8) elemSize) n :=
  ⟨Vector.ofFn (element p.elems), p.cmp, p.index, p.directions⟩

theorem get_unpack (p : PackedPermuter n elemSize) (i : Fin n) :
    p.unpack.elems.get i = element p.elems i := Vector.getElem_ofFn _

theorem ithDirection_unpack (p : PackedPermuter n elemSize) (i : Fin n) :
    p.ithDirection i = some (p.unpack.ithDirection i) := by
  rw [p.ithDirection_eq, dif_pos (Permuter.bucket_lt i), Permuter.ithDirection_eq]
  rfl

theorem setIthDirection_unpack (charSigned : Bool) (p : PackedPermuter n elemSize) (i : Fin n)
    (d : Permuter.Direction) :
    (p.setIthDirection charSigned i d).map unpack = some (p.unpack.setIthDirection i d) := by
  rw [p.setIthDirection_eq i (Permuter.bucket_lt i), Permuter.setIthDirection_eq]
  rfl

theorem unpack_setIthDirection {i : Fin n} (h : p.setIthDirection charSigned i d = some q) :
    q.unpack = p.unpack.setIthDirection i d := by
  have hset := p.setIthDirection_unpack charSigned i d
  rwa [h, Option.map_some, Option.some_inj] at hset

theorem flipIthDirection_unpack (charSigned : Bool) (p : PackedPermuter n elemSize) (i : Fin n) :
    (p.flipIthDirection charSigned i).map unpack = some (p.unpack.flipIthDirection i) := by
  rw [flipIthDirection, ithDirection_unpack, Option.bind_eq_bind, Option.bind_some,
    setIthDirection_unpack, Permuter.flipIthDirection]

theorem exchange_unpack (charSigned : Bool) (p : PackedPermuter n elemSize) (i j : Fin n) :
    (p.swap charSigned i j).map unpack = some (p.unpack.exchange i j) := by
  obtain ⟨dirI, dirJ, q, r, w, hI, hJ, hq, hr, helem, hswap⟩ := p.swap_eq charSigned i j
  rw [ithDirection_unpack, Option.some_inj] at hI hJ
  have hset := unpack_setIthDirection hq
  have hset' := unpack_setIthDirection hr
  have helems : r.elems = p.elems :=
    (setIthDirection_some hr).1.elems.trans (setIthDirection_some hq).1.elems
  have hexchange : Vector.ofFn (element w) =
      (r.unpack.elems.set i (r.unpack.permuterIth j)).set j (r.unpack.permuterIth i) := by
    refine Vector.ext fun k hk => ?_
    rw [Vector.getElem_ofFn, helem]
    show _ = Vector.get _ ⟨k, hk⟩
    simp only [Permuter.get_set, Permuter.permuterIth, get_unpack, helems, eq_comm (a := j),
      eq_comm (a := i)]
  rw [hswap, Option.map_some, Option.some_inj, unpack, hexchange]
  rw [Permuter.exchange, hI, hJ, ← hset, ← hset']
  rfl

/-- An index outside the array fails an assertion at both levels. -/
theorem swap_unpack (charSigned : Bool) (p : PackedPermuter n elemSize) (i : Fin n) (j : Int) :
    (p.swap charSigned i j).map unpack = p.unpack.swap i j := by
  unfold Permuter.swap
  split
  next h =>
    have hexchange := p.exchange_unpack charSigned i ⟨j.toNat, by omega⟩
    rwa [Int.toNat_of_nonneg h.1] at hexchange
  next h =>
    have hj : (0 ≤ j && j < n) = false := by simpa using h
    simp only [swap, asserted, hj, Bool.not_true, Bool.not_false, Bool.false_eq_true, if_false,
      if_true, Option.pure_def, Option.bind_eq_bind, Option.bind_none, Option.map_none]

end unpacking

/-- The directions in the bytes are those of `n` elements, and do not depend on each other: this is
so for all the bits of the bytes. An exchange takes them along with the elements. -/
theorem directions_independent (charSigned : Bool) (p : PackedPermuter n elemSize) (i j : Fin n) :
    (0 ≤ byteIndex i ∧ byteIndex i < directionArrLen n) ∧
    (∃ d, p.ithDirection i = some d) ∧
    (∀ d, ∃ q, p.setIthDirection charSigned i d = some q ∧ SameElements p q ∧
      ∀ k : Nat, q.ithDirection k = if k = i then some d else p.ithDirection k) ∧
    (∃ q, p.flipIthDirection charSigned i = some q ∧ SameElements p q ∧ ∀ k : Nat,
      q.ithDirection k =
        if k = i then (p.ithDirection i).map PlainChanges.Direction.flip else p.ithDirection k) ∧
    ∃ q, p.swap charSigned i j = some q ∧
      (∀ k : Fin n, element q.elems k = element p.elems (Equiv.swap i j k)) ∧
      (∀ k : Nat, q.ithDirection k = p.ithDirection (Equiv.swap i.val j.val k : Nat)) ∧
      q.tmp = element p.elems i ∧ q.cmp = p.cmp ∧ q.index = p.index := by
  have hbyte : byteIndex i = (i / CHAR_BIT : Nat) := byteIndex_natCast i
  refine ⟨⟨?_, ?_⟩, p.exists_ithDirection i, p.setIthDirection_spec charSigned i,
    p.flipIthDirection_spec charSigned i, p.swap_spec charSigned i j⟩
  · rw [hbyte]
    exact Int.natCast_nonneg _
  · rw [hbyte]
    exact Int.ofNat_lt.2 (Permuter.bucket_lt i)

end PackedPermuter
end Lisp
