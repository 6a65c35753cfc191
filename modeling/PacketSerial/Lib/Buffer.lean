/-
  Arrays of bytes of a fixed size, and the C library functions on them.

  A `Buffer n` is a C array of `n` bytes: its length cannot change, whatever is
  written to it.  `memcpy` writes at an offset; what would land past the end is
  not stored, so that a caller's bounds are a statement about the offset and the
  length it asks for, not about the array.  `strncpy` and `strlen` treat the
  array as a C string: `cstr` is its part before the first zero.
-/
import Mathlib.Data.List.TakeWhile
import Mathlib.Tactic

/-! ## C strings -/

/-- The C string at the start of a byte list: what stands before the first zero. -/
def cstr (l : List UInt8) : List UInt8 := l.takeWhile (· ≠ 0)

/-- The `size` bytes that `strncpy` writes: it copies up to the first zero of the
    source, and fills the rest with zeros. -/
def strncpyBytes (src : List UInt8) (size : ℕ) : List UInt8 :=
  let s := cstr (src.take size)
  s ++ List.replicate (size - s.length) 0

theorem cstr_length_le (l : List UInt8) : (cstr l).length ≤ l.length :=
  (List.takeWhile_prefix _).length_le

/-- A list without zeros is a C string up to the zero that follows it. -/
theorem cstr_append_zero {l : List UInt8} (hl : 0 ∉ l) (r : List UInt8) :
    cstr (l ++ 0 :: r) = l := by
  induction l with
  | nil => rfl
  | cons b l ih =>
    rw [List.mem_cons, not_or] at hl
    have hb : b ≠ 0 := fun h => hl.1 h.symm
    simpa [cstr, hb] using ih hl.2

theorem cstr_of_zero_notMem {l : List UInt8} (hl : 0 ∉ l) : cstr l = l := by
  rw [cstr, List.takeWhile_eq_self_iff]
  exact fun b hb => by simpa using fun h : b = 0 => hl (h ▸ hb)

theorem zero_notMem_cstr (l : List UInt8) : 0 ∉ cstr l := fun h => by
  simpa using List.mem_takeWhile_imp h

theorem take_cstr_length (l : List UInt8) : l.take (cstr l).length = cstr l :=
  (List.prefix_iff_eq_take.1 (List.takeWhile_prefix _)).symm

/-- A list with a zero in it holds a whole C string. -/
theorem cstr_length_lt {l : List UInt8} (h : 0 ∈ l) : (cstr l).length < l.length := by
  refine lt_of_le_of_ne (cstr_length_le l) fun he => ?_
  have hl : cstr l = l := (List.takeWhile_prefix _).eq_of_length he
  exact zero_notMem_cstr l (by rwa [hl])

/-- The C string ends before a zero that stands among the first `k` bytes. -/
theorem cstr_length_lt_of_mem_take {l : List UInt8} {k : ℕ} (h : 0 ∈ l.take k) :
    (cstr l).length < k := by
  have hlt := cstr_length_lt h
  have hl : cstr l = cstr (l.take k) := by
    conv_lhs => rw [← List.take_append_drop k l, cstr, List.takeWhile_append,
      if_neg (by simpa [cstr] using hlt.ne)]
    rfl
  rw [hl]
  exact hlt.trans_le (by simp)

@[simp] theorem strncpyBytes_length (src : List UInt8) (size : ℕ) :
    (strncpyBytes src size).length = size := by
  have h : (cstr (src.take size)).length ≤ size :=
    (cstr_length_le _).trans (by simp)
  simp only [strncpyBytes, List.length_append, List.length_replicate]; omega

/-- `strncpy` of a whole source without zeros is a plain copy. -/
theorem strncpyBytes_eq_self {src : List UInt8} (h : 0 ∉ src) :
    strncpyBytes src src.length = src := by
  simp [strncpyBytes, cstr_of_zero_notMem h]

/-- `strncpy` of a whole source whose only zero is its last byte is a plain copy. -/
theorem strncpyBytes_append_zero {src : List UInt8} (h : 0 ∉ src) :
    strncpyBytes (src ++ [0]) (src ++ [0]).length = src ++ [0] := by
  rw [strncpyBytes, List.take_length, cstr_append_zero h []]
  simp

/-- A source with a zero in it makes `strncpy` write one. -/
theorem zero_mem_strncpyBytes {src : List UInt8} (h : 0 ∈ src) :
    0 ∈ strncpyBytes src src.length := by
  have hlt := cstr_length_lt h
  rw [strncpyBytes, List.take_length, List.mem_append, List.mem_replicate]
  exact Or.inr ⟨by omega, rfl⟩

/-! ## Buffers -/

/-- A C array of `n` bytes. -/
structure Buffer (n : ℕ) where
  bytes : List UInt8
  length_eq : bytes.length = n
deriving DecidableEq, Repr

namespace Buffer
variable {n : ℕ}

@[simp] theorem length_bytes (b : Buffer n) : b.bytes.length = n := b.length_eq

@[ext] theorem ext {b c : Buffer n} (h : b.bytes = c.bytes) : b = c := by
  cases b; cases c; cases h; rfl

/-- An array of zeros, as `memset(.., 0, ..)` and static storage leave it. -/
def zero (n : ℕ) : Buffer n := ⟨List.replicate n 0, by simp⟩

@[simp] theorem bytes_zero : (zero n).bytes = List.replicate n 0 := rfl

/-- `memcpy(b + offset, src, length of src)`. -/
def memcpy (b : Buffer n) (offset : ℕ) (src : List UInt8) : Buffer n :=
  ⟨(b.bytes.take offset ++ src ++ b.bytes.drop (offset + src.length)).take n, by
    have := b.length_eq
    simp only [List.length_take, List.length_append, List.length_drop]; omega⟩

/-- `strncpy(b + offset, src, size)`. -/
def strncpy (b : Buffer n) (offset : ℕ) (src : List UInt8) (size : ℕ) : Buffer n :=
  b.memcpy offset (strncpyBytes src size)

/-- `strlen(b)`: the place of the first zero, `n` if there is none. -/
def strlen (b : Buffer n) : ℕ := (cstr b.bytes).length

theorem bytes_memcpy (b : Buffer n) (offset : ℕ) (src : List UInt8)
    (h : offset + src.length ≤ n) :
    (b.memcpy offset src).bytes =
      b.bytes.take offset ++ src ++ b.bytes.drop (offset + src.length) := by
  refine List.take_of_length_le ?_
  have := b.length_eq
  simp only [List.length_append, List.length_take, List.length_drop]; omega

/-- A copy that fits extends the bytes before it. -/
theorem take_memcpy (b : Buffer n) (offset : ℕ) (src : List UInt8)
    (h : offset + src.length ≤ n) :
    (b.memcpy offset src).bytes.take (offset + src.length) = b.bytes.take offset ++ src := by
  have hl : (b.bytes.take offset ++ src).length = offset + src.length := by
    rw [List.length_append, List.length_take, length_bytes]; omega
  rw [bytes_memcpy b _ _ h, ← hl, List.take_left]

/-- `strlen` stays inside any prefix of the array with a zero in it. -/
theorem strlen_lt {b : Buffer n} {k : ℕ} (h : 0 ∈ b.bytes.take k) : b.strlen < k ∧ b.strlen < n :=
  ⟨cstr_length_lt_of_mem_take h,
    (cstr_length_lt (List.mem_of_mem_take h)).trans_eq b.length_eq⟩

/-- The string ends inside its array. -/
def Terminated (b : Buffer n) : Prop := b.strlen < n

instance (b : Buffer n) : Decidable b.Terminated := inferInstanceAs (Decidable (_ < _))

/-- Equal as strings. -/
def SameString (b c : Buffer n) : Prop := cstr b.bytes = cstr c.bytes

instance (b c : Buffer n) : Decidable (b.SameString c) := inferInstanceAs (Decidable (_ = _))

/-- A string without zeros that was copied in with its terminator. -/
theorem cstr_memcpy (b : Buffer n) {s : List UInt8} (h0 : 0 ∉ s) (h : s.length < n) :
    cstr (b.memcpy 0 (s ++ [0])).bytes = s := by
  rw [bytes_memcpy b _ _ (by simpa using h), List.take_zero, List.nil_append, List.append_assoc]
  exact cstr_append_zero h0 _

theorem sameString_memcpy (b : Buffer n) {c : Buffer n} (h : c.Terminated) :
    (b.memcpy 0 (cstr c.bytes ++ [0])).SameString c :=
  cstr_memcpy b (zero_notMem_cstr _) h

end Buffer
