import Mathlib.Tactic.SplitIfs

/-! Buffers of a fixed size, and the string functions that write into them. A write past the end
of a buffer has no result. -/
namespace CString

/-- A buffer of `size` characters, and the ones that have been written from its beginning on. -/
structure Buffer where
  size : Nat
  text : List Char
  fits : text.length ≤ size

namespace Buffer
variable {b b' : Buffer} {i n : Nat} {s : List Char}

def malloc (size : Nat) : Buffer :=
  ⟨size, [], Nat.zero_le size⟩

def realloc (b : Buffer) (size : Nat) : Buffer :=
  ⟨size, b.text.take size, by simp only [List.length_take]; omega⟩

/-- `memcpy` to an offset. -/
def memcpy (b : Buffer) (i : Nat) (s : List Char) : Option Buffer :=
  if h : i + s.length ≤ b.size then
    some ⟨b.size, b.text.take i ++ s ++ b.text.drop (i + s.length), by
      have := b.fits
      simp only [List.length_append, List.length_take, List.length_drop]
      omega⟩
  else none

/-- `strcpy` to an offset: the characters and the terminator, where the text ends. -/
def strcpy (b : Buffer) (i : Nat) (s : List Char) : Option Buffer :=
  if h : i + s.length < b.size then
    some ⟨b.size, b.text.take i ++ s, by
      simp only [List.length_append, List.length_take]
      omega⟩
  else none

@[simp] theorem realloc_size : (b.realloc n).size = n := rfl

theorem realloc_text (hn : b.text.length ≤ n) : (b.realloc n).text = b.text :=
  List.take_of_length_le hn

theorem strcpy_none : b.strcpy i s = none ↔ b.size ≤ i + s.length := by
  unfold strcpy
  split_ifs with h
  · exact iff_of_false nofun (by omega)
  · exact iff_of_true rfl (by omega)

/-- A string that is written behind the others. -/
theorem strcpy_end (hi : i = b.text.length) (hfits : i + s.length < b.size) :
    ∃ b', b.strcpy i s = some b' ∧ b'.size = b.size ∧ b'.text = b.text ++ s := by
  refine ⟨_, dif_pos hfits, rfl, ?_⟩
  subst hi
  exact congrArg (· ++ s) List.take_length

/-- A string that is written from the beginning on. -/
theorem strcpy_start (hfits : s.length < b.size) :
    ∃ b', b.strcpy 0 s = some b' ∧ b'.size = b.size ∧ b'.text = s :=
  ⟨_, dif_pos (by omega), rfl, rfl⟩

theorem memcpy_none : b.memcpy i s = none ↔ b.size < i + s.length := by
  unfold memcpy
  split_ifs with h
  · exact iff_of_false nofun (by omega)
  · exact iff_of_true rfl (by omega)

theorem memcpy_end (hi : i = b.text.length) (hfits : i + s.length ≤ b.size) :
    ∃ b', b.memcpy i s = some b' ∧ b'.size = b.size ∧ b'.text = b.text ++ s := by
  refine ⟨_, dif_pos hfits, rfl, ?_⟩
  subst hi
  have hdrop : b.text.drop (b.text.length + s.length) = [] := List.drop_eq_nil_of_le (by omega)
  simp only [List.take_length, hdrop, List.append_nil]

end Buffer

end CString
