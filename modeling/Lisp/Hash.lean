import Lisp.Library.Mixing
import Lisp.Machine
import Mathlib.Data.Fintype.BigOperators

/-! The hash functions for the keys of maps (`hash.c`, `murmur3.c`). -/
namespace Lisp
namespace Hash
open Mixing Function

abbrev Byte := BitVec 8

variable {key key' s : List Byte} {i j n : Nat} {signed : Bool}

section strings

/-- A `char` as a wider number: the platform says whether it has a sign. -/
def ofChar (signed : Bool) (w : Nat) (c : Byte) : BitVec w :=
  if signed then c.signExtend w else c.setWidth w

/-- `roberts_hash`: the code is an `unsigned long` until it is returned. -/
def robertsHash (signed : Bool) (key : List Byte) (keysize : Nat) : BitVec 32 :=
  ((key.take (toInt keysize).toNat).foldl
    (fun hashcode c => hashcode * 2630849305 + ofChar signed 64 c) 0).setWidth 32

/-- The characters of a string, up to the one that ends it. -/
def chars (s : List Byte) : List Byte := s.takeWhile (· ≠ 0)

def stringHash (signed : Bool) (s : List Byte) : BitVec 32 :=
  (chars s).foldl (fun hashcode c => hashcode * 2630849305 + ofChar signed 32 c) 0

def djb2Hash (s : List Byte) : BitVec 32 :=
  (chars s).foldl (fun hash c => ((hash <<< 5) + hash) + c.setWidth 32) 5381

def sdbm (s : List Byte) : BitVec 32 :=
  (chars s).foldl (fun hash c => c.setWidth 32 + (hash <<< 6) + (hash <<< 16) - hash) 0

def looseLoose (s : List Byte) : BitVec 32 :=
  (chars s).foldl (fun hash c => hash + c.setWidth 32) 0

theorem ofChar_injective (signed : Bool) : Injective (ofChar signed 32) := by
  have hback : ∀ signed c, (ofChar signed 32 c).setWidth 8 = c := by decide
  exact LeftInverse.injective (hback signed)

theorem ofChar_setWidth : ∀ signed c, (ofChar signed 64 c).setWidth 32 = ofChar signed 32 c := by
  decide

theorem stringHash_eq : stringHash signed s =
    polynomial 2630849305 (ofChar signed 32) 0 (chars s) := rfl

theorem djb2Hash_eq : djb2Hash s = polynomial 33 (ofChar false 32) 5381 (chars s) := by
  have hstep : ∀ (hash : BitVec 32) (c : Byte),
      (hash <<< 5) + hash + c.setWidth 32 = hash * 33 + ofChar false 32 c := by
    intro hash c
    have h5 : hash <<< 5 = hash * 32 := BitVec.shiftLeft_eq_mul_twoPow hash 5
    rw [h5, show (33 : BitVec 32) = 32 + 1 from rfl, mul_add, mul_one]
    rfl
  exact List.foldl_ext _ _ _ fun hash c _ => hstep hash c

theorem sdbm_eq : sdbm s = polynomial 65599 (ofChar false 32) 0 (chars s) := by
  have hstep : ∀ (hash : BitVec 32) (c : Byte),
      c.setWidth 32 + (hash <<< 6) + (hash <<< 16) - hash = hash * 65599 + ofChar false 32 c := by
    intro hash c
    have h6 : hash <<< 6 = hash * 64 := BitVec.shiftLeft_eq_mul_twoPow hash 6
    have h16 : hash <<< 16 = hash * 65536 := BitVec.shiftLeft_eq_mul_twoPow hash 16
    rw [h6, h16, show (65599 : BitVec 32) = 64 + 65536 - 1 from rfl, mul_sub, mul_add, mul_one,
      add_assoc, add_sub_assoc, add_comm]
    rfl
  exact List.foldl_ext _ _ _ fun hash c _ => hstep hash c

/-- The upper half of the `unsigned long` never reaches the lower one. -/
theorem robertsHash_eq (hsize : key.length < 2 ^ 31) : robertsHash signed key key.length =
    polynomial 2630849305 (ofChar signed 32) 0 key := by
  have hfold : ∀ (l : List Byte) (h : BitVec 64),
      (l.foldl (fun hashcode c => hashcode * 2630849305 + ofChar signed 64 c) h).setWidth 32 =
        polynomial 2630849305 (ofChar signed 32) (h.setWidth 32) l := by
    intro l
    induction l with
    | nil => exact fun _ => rfl
    | cons c l ih =>
      intro h
      have hstep : (h * 2630849305 + ofChar signed 64 c).setWidth 32 =
          h.setWidth 32 * 2630849305 + ofChar signed 32 c := by
        rw [BitVec.setWidth_add _ _ (by decide), BitVec.setWidth_mul _ _ (by decide),
          ofChar_setWidth]
        rfl
      rw [List.foldl_cons, ih, hstep]
      rfl
  rw [robertsHash, toInt_natCast hsize, Int.toNat_natCast, List.take_length]
  exact hfold key 0

theorem chars_terminated {t rest : List Byte} (ht : ∀ c ∈ t, c ≠ 0) :
    chars (t ++ 0 :: rest) = t := by
  rw [chars, List.takeWhile_append_of_pos (by simpa using ht)]
  simp

/-- Strings with the same characters in another order have one code. -/
theorem looseLoose_perm {s s' : List Byte} (h : (chars s).Perm (chars s')) :
    looseLoose s = looseLoose s' := by
  unfold looseLoose
  exact h.foldl_eq' (fun x _ y _ z => add_right_comm z (x.setWidth 32) (y.setWidth 32)) 0

/-- `roberts_hash` of the bytes of a string is its `string_hash`, and none of the hashes takes two
strings that differ in one character for the same. -/
theorem string_hashes (signed : Bool) {s rest : List Byte} (hsize : s.length < 2 ^ 31)
    (hs : ∀ c ∈ s, c ≠ 0) :
    robertsHash signed s s.length = stringHash signed (s ++ 0 :: rest) ∧
      ∀ pre x post y rest', s = pre ++ x :: post → y ≠ 0 → x ≠ y →
        stringHash signed (s ++ 0 :: rest) ≠ stringHash signed (pre ++ y :: post ++ 0 :: rest') ∧
        djb2Hash (s ++ 0 :: rest) ≠ djb2Hash (pre ++ y :: post ++ 0 :: rest') ∧
        sdbm (s ++ 0 :: rest) ≠ sdbm (pre ++ y :: post ++ 0 :: rest') := by
  rw [stringHash_eq, djb2Hash_eq, sdbm_eq, chars_terminated hs, robertsHash_eq hsize]
  refine ⟨rfl, fun pre x post y rest' hsplit hy hxy => ?_⟩
  subst hsplit
  have hs' : ∀ c ∈ pre ++ y :: post, c ≠ 0 := by
    intro c hc
    rcases List.mem_append.1 hc with hc | hc
    · exact hs c (List.mem_append_left _ hc)
    · rcases List.mem_cons.1 hc with rfl | hc
      · exact hy
      · exact hs c (by simp [hc])
  rw [stringHash_eq, djb2Hash_eq, sdbm_eq, chars_terminated hs']
  refine ⟨?_, ?_, ?_⟩
  · exact polynomial_ne (d := 4177795369) (by decide) (ofChar_injective signed) hxy 0
  · exact polynomial_ne (d := 1041204193) (by decide) (ofChar_injective false) hxy 5381
  · exact polynomial_ne (d := 2390421439) (by decide) (ofChar_injective false) hxy 0

/-- The strings `lisp` and `list`. -/
theorem string_hashes_list :
    robertsHash true [108, 105, 115, 112] 4 = stringHash true [108, 105, 115, 112, 0] ∧
      djb2Hash [108, 105, 115, 112, 0] ≠ djb2Hash [108, 105, 115, 116, 0] := by
  obtain ⟨hroberts, hchange⟩ :=
    @string_hashes true [108, 105, 115, 112] [] (by decide) (by decide)
  exact ⟨hroberts, (hchange [108, 105, 115] 112 [] 116 [] rfl (by decide) (by decide)).2.1⟩

end strings

section murmur

def rotl32 (x : BitVec 32) (r : Nat) : BitVec 32 := (x <<< r) ||| (x >>> (32 - r))

def fmix32 (h : BitVec 32) : BitVec 32 :=
  let h := h ^^^ (h >>> 16)
  let h := h * 0x85ebca6b
  let h := h ^^^ (h >>> 13)
  let h := h * 0xc2b2ae35
  h ^^^ (h >>> 16)

/-- What the body and the tail do to a block before it is mixed in. -/
def mixKey (k1 : BitVec 32) : BitVec 32 :=
  let k1 := k1 * 0xcc9e2d51
  let k1 := rotl32 k1 15
  k1 * 0x1b873593

def mixBlock (h1 k1 : BitVec 32) : BitVec 32 :=
  let h1 := h1 ^^^ mixKey k1
  let h1 := rotl32 h1 13
  h1 * 5 + 0xe6546b64

def byteAt (key : List Byte) (i : Nat) : Byte := key.getD i 0

/-- `getblock`, where the first of four bytes is the lowest. -/
def getblock (key : List Byte) (i : Nat) : BitVec 32 :=
  .ofNat 32 ((byteAt key (4 * i)).toNat + 2 ^ 8 * (byteAt key (4 * i + 1)).toNat +
    2 ^ 16 * (byteAt key (4 * i + 2)).toNat + 2 ^ 24 * (byteAt key (4 * i + 3)).toNat)

/-- The bytes behind the last block, as the `switch` whose cases fall through puts them together. -/
def tailKey (key : List Byte) (len : Nat) : BitVec 32 :=
  let tail := fun i => (byteAt key (len / 4 * 4 + i)).setWidth 32
  let k1 := 0
  let k1 := if 3 ≤ len % 4 then k1 ^^^ (tail 2 <<< 16) else k1
  let k1 := if 2 ≤ len % 4 then k1 ^^^ (tail 1 <<< 8) else k1
  k1 ^^^ tail 0

def mixTail (key : List Byte) (len : Nat) (h1 : BitVec 32) : BitVec 32 :=
  if 1 ≤ len % 4 then h1 ^^^ mixKey (tailKey key len) else h1

/-- `MurmurHash3_x86_32`. -/
def murmurHash3 (key : List Byte) (len : Nat) (seed : BitVec 32) : BitVec 32 :=
  let h1 := (List.range (len / 4)).foldl (fun h1 i => mixBlock h1 (getblock key i)) seed
  let h1 := mixTail key len h1
  let h1 := h1 ^^^ .ofNat 32 len
  fmix32 h1

/-- `murmur_hash`; a negative length makes it read outside of the key. -/
def murmurHash (key : List Byte) (keysize : Nat) : Option (BitVec 32) :=
  if toInt keysize < 0 then none else some (murmurHash3 key (toInt keysize).toNat 7)

theorem rotl32_eq (x : BitVec 32) {r : Nat} (hr : r < 32) : rotl32 x r = x.rotateLeft r := by
  rw [BitVec.rotateLeft_def, Nat.mod_eq_of_lt hr, rotl32]

theorem rotl32_injective {r : Nat} (hr : r < 32) : Injective fun x => rotl32 x r := by
  intro x y hxy
  simp only [rotl32_eq _ hr] at hxy
  exact rotate_injective hr hxy

theorem fmix32_injective : Injective fmix32 :=
  (xorShift_injective (by decide)).comp <|
    (mul_injective (d := 2127672349) (by decide)).comp <|
      (xorShift_injective (by decide)).comp <|
        (mul_injective (d := 2781581891) (by decide)).comp (xorShift_injective (by decide))

theorem mixKey_injective : Injective mixKey :=
  (mul_injective (d := 1458385051) (by decide)).comp <|
    (rotl32_injective (by decide)).comp (mul_injective (d := 3739302833) (by decide))

/-- The end of a step of the body. -/
theorem mixed_injective : Injective fun h1 : BitVec 32 => rotl32 h1 13 * 5 + 0xe6546b64 :=
  (add_injective _).comp <|
    (mul_injective (d := 3435973837) (by decide)).comp (rotl32_injective (by decide))

theorem mixBlock_left (k1 : BitVec 32) : Injective fun h1 => mixBlock h1 k1 :=
  mixed_injective.comp (xor_injective (mixKey k1))

theorem mixBlock_right (h1 : BitVec 32) : Injective (mixBlock h1) := by
  refine mixed_injective.comp (f := fun k1 => h1 ^^^ mixKey k1) ?_
  exact fun x y h => mixKey_injective ((BitVec.xor_right_inj h1).1 h)

theorem mixTail_left (key : List Byte) (n : Nat) : Injective (mixTail key n) := by
  intro x y hxy
  unfold mixTail at hxy
  split_ifs at hxy
  · exact xor_injective _ hxy
  · exact hxy

theorem byteAt_congr (h : key[i]? = key'[i]?) : byteAt key i = byteAt key' i := by
  rw [byteAt, byteAt, List.getD_eq_getElem?_getD, List.getD_eq_getElem?_getD, h]

theorem getElem?_of_byteAt (hlen : key.length = key'.length) (h : byteAt key i = byteAt key' i) :
    key[i]? = key'[i]? := by
  rcases Nat.lt_or_ge i key.length with hi | hi
  · have hi' := hlen ▸ hi
    rw [byteAt, byteAt, List.getD_eq_getElem?_getD, List.getD_eq_getElem?_getD,
      List.getElem?_eq_getElem hi, List.getElem?_eq_getElem hi'] at h
    rw [List.getElem?_eq_getElem hi, List.getElem?_eq_getElem hi']
    exact congrArg some h
  · rw [List.getElem?_eq_none hi, List.getElem?_eq_none (hlen ▸ hi)]

theorem getblock_congr (h : ∀ j, j / 4 = i → byteAt key j = byteAt key' j) :
    getblock key i = getblock key' i := by
  rw [getblock, getblock, h _ (by omega), h _ (by omega), h _ (by omega), h _ (by omega)]

theorem getblock_inj (h : getblock key i = getblock key' i) (hj : j / 4 = i) :
    byteAt key j = byteAt key' j := by
  have hbound : ∀ b : Byte, b.toNat < 2 ^ 8 := fun b => b.isLt
  have hnat := congrArg BitVec.toNat h
  simp only [getblock, BitVec.toNat_ofNat] at hnat
  have h0 := hbound (byteAt key (4 * i))
  have h1 := hbound (byteAt key (4 * i + 1))
  have h2 := hbound (byteAt key (4 * i + 2))
  have h3 := hbound (byteAt key (4 * i + 3))
  have h0' := hbound (byteAt key' (4 * i))
  have h1' := hbound (byteAt key' (4 * i + 1))
  have h2' := hbound (byteAt key' (4 * i + 2))
  have h3' := hbound (byteAt key' (4 * i + 3))
  have hj' : j = 4 * i ∨ j = 4 * i + 1 ∨ j = 4 * i + 2 ∨ j = 4 * i + 3 := by omega
  refine BitVec.eq_of_toNat_eq ?_
  rcases hj' with rfl | rfl | rfl | rfl
  all_goals omega

/-- Three bytes that are put together one above the other. -/
def threeBytes (a b c : Byte) : BitVec 32 :=
  (0 ^^^ (a.setWidth 32 <<< 16)) ^^^ (b.setWidth 32 <<< 8) ^^^ c.setWidth 32

theorem threeBytes_inj {a b c a' b' c' : Byte} (h : threeBytes a b c = threeBytes a' b' c') :
    a = a' ∧ b = b' ∧ c = c' := by
  have hbit : ∀ i, (threeBytes a b c).getLsbD i = (threeBytes a' b' c').getLsbD i := by
    intro i
    rw [h]
  simp only [threeBytes, BitVec.getLsbD_xor, BitVec.getLsbD_shiftLeft,
    BitVec.getLsbD_setWidth] at hbit
  refine ⟨BitVec.eq_of_getLsbD_eq fun i hi => ?_, BitVec.eq_of_getLsbD_eq fun i hi => ?_,
    BitVec.eq_of_getLsbD_eq fun i hi => ?_⟩
  · have h8 : 8 ≤ i + 16 - 8 := by omega
    have h16 : 8 ≤ i + 16 := by omega
    simpa [BitVec.getLsbD_of_ge _ _ h8, BitVec.getLsbD_of_ge _ _ h16, show i + 16 < 32 by omega,
      show ¬i + 16 < 8 by omega, show i < 32 by omega] using hbit (i + 16)
  · simpa [show i + 8 < 32 by omega, show i + 8 < 16 by omega, show ¬i + 8 < 8 by omega,
      show i < 32 by omega] using hbit (i + 8)
  · simpa [show i < 32 by omega, show i < 16 by omega, hi] using hbit i

theorem tailKey_eq (key : List Byte) (n : Nat) : tailKey key n = threeBytes
    (if 3 ≤ n % 4 then byteAt key (n / 4 * 4 + 2) else 0)
    (if 2 ≤ n % 4 then byteAt key (n / 4 * 4 + 1) else 0) (byteAt key (n / 4 * 4)) := by
  unfold tailKey threeBytes
  split_ifs <;> simp

theorem tailKey_inj (h : tailKey key n = tailKey key' n) (hj : j / 4 = n / 4) (hlt : j < n) :
    byteAt key j = byteAt key' j := by
  rw [tailKey_eq, tailKey_eq] at h
  obtain ⟨h2, h1, h0⟩ := threeBytes_inj h
  have hj' : j = n / 4 * 4 ∨ j = n / 4 * 4 + 1 ∨ j = n / 4 * 4 + 2 := by omega
  rcases hj' with rfl | rfl | rfl
  · exact h0
  · rwa [if_pos (by omega), if_pos (by omega)] at h1
  · rwa [if_pos (by omega), if_pos (by omega)] at h2

theorem mixTail_congr (h : ∀ j, j / 4 = n / 4 → byteAt key j = byteAt key' j) (h1 : BitVec 32) :
    mixTail key n h1 = mixTail key' n h1 := by
  have hkey : tailKey key n = tailKey key' n := by
    rw [tailKey_eq, tailKey_eq, h _ (by omega), h _ (by omega), h _ (by omega)]
  rw [mixTail, mixTail, hkey]

/-- What the finalization gets of keys that differ in one block or in the tail. -/
theorem mixed_ne (hlen : key.length = key'.length) (hsame : ∀ j, j / 4 ≠ i → key[j]? = key'[j]?)
    (hne : key ≠ key') (seed : BitVec 32) :
    mixTail key key.length ((List.range (key.length / 4)).foldl
        (fun h1 i => mixBlock h1 (getblock key i)) seed) ≠
      mixTail key' key.length ((List.range (key.length / 4)).foldl
        (fun h1 i => mixBlock h1 (getblock key' i)) seed) := by
  have hbytes : ∀ j, j / 4 ≠ i → byteAt key j = byteAt key' j := fun j hj =>
    byteAt_congr (hsame j hj)
  have hblocks : ∀ k, k ≠ i → getblock key k = getblock key' k := fun k hk =>
    getblock_congr fun j hj => hbytes j (hj ▸ hk)
  obtain ⟨j, hj⟩ : ∃ j, key[j]? ≠ key'[j]? := by
    by_contra hall
    exact hne (List.ext_getElem? (by simpa using hall))
  have hji : j / 4 = i := by_contra fun h => hj (hsame j h)
  have hbyte : byteAt key j ≠ byteAt key' j := mt (getElem?_of_byteAt hlen) hj
  have hjn : j < key.length := by
    by_contra hge
    have hge' : key'.length ≤ j := hlen ▸ Nat.not_lt.1 hge
    exact hj (by rw [List.getElem?_eq_none (Nat.not_lt.1 hge), List.getElem?_eq_none hge'])
  rcases Nat.lt_or_ge i (key.length / 4) with hlt | hge
  · rw [mixTail_congr fun k hk => hbytes k (by omega)]
    refine (mixTail_left key' _).ne ?_
    obtain ⟨pre, post, hrange⟩ := List.append_of_mem (List.mem_range.2 hlt)
    have hnodup := List.nodup_range (n := key.length / 4)
    rw [hrange] at hnodup
    have hpre : i ∉ pre := fun hm => (List.nodup_append.1 hnodup).2.2 i hm i (by simp) rfl
    have hpost : i ∉ post := (List.nodup_cons.1 (List.nodup_append.1 hnodup).2.1).1
    have hmap : ∀ {l : List Nat}, i ∉ l → l.map (getblock key) = l.map (getblock key') :=
      fun hl => List.map_congr_left fun k hk => hblocks k fun he => hl (he ▸ hk)
    have hblock : getblock key i ≠ getblock key' i := fun h => hbyte (getblock_inj h hji)
    have hchain := @foldl_ne _ _ mixBlock (pre.map (getblock key)) (post.map (getblock key)) _ _
      seed mixBlock_left mixBlock_right hblock
    have hrun : ∀ k : List Byte, (List.range (key.length / 4)).foldl
        (fun h1 i => mixBlock h1 (getblock k i)) seed =
          (pre.map (getblock k) ++ getblock k i :: post.map (getblock k)).foldl mixBlock seed := by
      intro k
      rw [← List.map_cons, ← List.map_append, ← hrange, List.foldl_map]
    rw [hrun key, hrun key', ← hmap hpre, ← hmap hpost]
    exact hchain
  · have hi : i = key.length / 4 := by omega
    have hbody : (List.range (key.length / 4)).foldl
        (fun h1 i => mixBlock h1 (getblock key i)) seed =
          (List.range (key.length / 4)).foldl (fun h1 i => mixBlock h1 (getblock key' i)) seed :=
      List.foldl_ext _ _ _ fun h1 k hk => by
        rw [hblocks k (by have := List.mem_range.1 hk; omega)]
    have htail : 1 ≤ key.length % 4 := by omega
    rw [hbody, mixTail, mixTail, if_pos htail, if_pos htail]
    intro heq
    exact hbyte (tailKey_inj (mixKey_injective ((BitVec.xor_right_inj _).1 heq)) (hi ▸ hji) hjn)

/-- Keys of one length that differ in one block, or in the tail, have different codes. -/
theorem murmurHash_ne (hsize : key.length < 2 ^ 31) (hlen : key.length = key'.length)
    (hsame : ∀ j, j / 4 ≠ i → key[j]? = key'[j]?) (hne : key ≠ key') :
    murmurHash key key.length ≠ murmurHash key' key'.length := by
  have hint : ¬toInt key.length < 0 := by rw [toInt_natCast hsize]; omega
  rw [← hlen, murmurHash, murmurHash, if_neg hint, if_neg hint, toInt_natCast hsize,
    Int.toNat_natCast]
  refine (Option.some_injective _).ne (fmix32_injective.ne ?_)
  exact (xor_injective _).ne (mixed_ne hlen hsame hne 7)

/-- Whatever surrounds a block, each code is the code of the key with exactly one such block. -/
theorem murmurHash_block {pre post : List Byte} (halign : pre.length % 4 = 0)
    (hsize : pre.length + 4 + post.length < 2 ^ 31) (code : BitVec 32) :
    ∃! block : List Byte, block.length = 4 ∧
      murmurHash (pre ++ block ++ post) (pre ++ block ++ post).length = some code := by
  have hlength : ∀ block : List Byte, block.length = 4 →
      (pre ++ block ++ post).length = pre.length + 4 + post.length := by
    intro block hb
    rw [List.length_append, List.length_append, hb]
  have hunique : ∀ b b' : List Byte, b.length = 4 → b'.length = 4 →
      murmurHash (pre ++ b ++ post) (pre ++ b ++ post).length =
        murmurHash (pre ++ b' ++ post) (pre ++ b' ++ post).length → b = b' := by
    intro b b' hb hb' h
    by_contra hne
    refine murmurHash_ne (i := pre.length / 4) ?_ ?_ ?_ ?_ h
    · exact hlength b hb ▸ hsize
    · rw [hlength b hb, hlength b' hb']
    · intro j hj
      rcases Nat.lt_or_ge j pre.length with hlt | hge
      · simp only [List.append_assoc, List.getElem?_append_left hlt]
      · have hpost : 4 ≤ j - pre.length := by omega
        simp only [List.append_assoc, List.getElem?_append_right hge, hb, hb',
          List.getElem?_append_right (hb.le.trans hpost),
          List.getElem?_append_right (hb'.le.trans hpost)]
    · simpa using hne
  -- There are as many blocks as codes, and no code is met twice.
  let hash : (Fin 4 → Fin 256) → Fin (2 ^ 32) := fun v =>
    (murmurHash3 (pre ++ List.ofFn (fun i => BitVec.ofFin (v i)) ++ post)
      (pre.length + 4 + post.length) 7).toFin
  have hcode : ∀ v, murmurHash (pre ++ List.ofFn (fun i => BitVec.ofFin (v i)) ++ post)
      (pre ++ List.ofFn (fun i => BitVec.ofFin (v i)) ++ post).length =
        some (BitVec.ofFin (hash v)) := by
    intro v
    rw [hlength _ (List.length_ofFn), murmurHash, toInt_natCast hsize,
      if_neg (Int.not_lt.2 (Int.natCast_nonneg _)), Int.toNat_natCast]
  have hinj : Injective hash := by
    intro v v' h
    have hbytes := hunique _ _ List.length_ofFn List.length_ofFn
      ((hcode v).trans ((congrArg (some <| BitVec.ofFin ·) h).trans (hcode v').symm))
    exact funext fun i => BitVec.ofFin.inj (congrFun (List.ofFn_injective hbytes) i)
  have hsurj := ((Fintype.bijective_iff_injective_and_card hash).2 ⟨hinj, by simp⟩).2
  obtain ⟨v, hv⟩ := hsurj code.toFin
  refine ⟨_, ⟨List.length_ofFn, (hcode v).trans (by rw [hv])⟩, fun b hb => ?_⟩
  exact hunique _ _ hb.1 List.length_ofFn (hb.2.trans ((hcode v).trans (by rw [hv])).symm)

/-- After `list` and before `!`. -/
theorem murmurHash_block_list : ∃! block : List Byte, block.length = 4 ∧
    murmurHash ([108, 105, 115, 116] ++ block ++ [33])
      ([108, 105, 115, 116] ++ block ++ [33]).length = some 0 :=
  murmurHash_block (by decide) (by decide) 0

end murmur
end Hash
end Lisp
