/-
  `hexhelper.c`: bytes written out as hexadecimal digits.

  `char` is signed and has 8 bits.  As an `int` a byte from 0x80 on is negative, and `%X`
  takes it for an unsigned number: it has eight digits, not two.  The index `i` is an
  `int`; where it overflows it is taken to wrap.  A call is the list of its writes into
  `output`, with their offsets.

  * `renderAt`: bytes rendered at every second place, or every third, or any other;
  * `string2hexstring_eq`, `stringn2hexstring_eq`: the one loop renders all bytes at every
    second place, the other every third of as many places as there are bytes;
  * `renderAt_holds`: at every second place, the digits of small bytes make a string;
  * `renderAt_within`: how much room they need;
  * `hexRendered_iff`: so the two agree on no input of two bytes or more.
-/
import PacketSerial.Integers
import PacketSerial.Lib.Buffer
import PacketSerial.Lib.Memory

namespace PacketSerial

open Memory

/-! ## The functions -/

/-- A digit of `%X`. -/
def hexDigit (d : ℕ) : UInt8 := UInt8.ofNat (if d < 10 then 48 + d else 55 + d)

/-- The number that `%X` prints for a `char`. -/
def charAsUnsigned (c : UInt8) : ℕ := if c.toNat < 128 then c.toNat else 2 ^ 32 - 256 + c.toNat

/-- What `sprintf(.., "%02X", c)` writes, with the zero at its end. -/
def sprintf02X (c : UInt8) : List UInt8 :=
  ((Nat.digits 16 (charAsUnsigned c)).reverse.map hexDigit).leftpad 2 48 ++ [0]

/-- The loop of `stringn2hexstring`, and what comes after it.  The comparison is one of
    `size_t`.  As long as there are turns there are bytes in `input`. -/
def stringn2hexstringLoop (length : ℕ) : List UInt8 → ℤ → List (Write UInt8)
  | [], i => [⟨i, [0]⟩]
  | c :: input, i =>
    if (i % 2 ^ 64).toNat < length then
      -- the body adds 2 to `i`, and the head of the loop adds 1
      ⟨i, sprintf02X c⟩ :: stringn2hexstringLoop length input (intAdd (intAdd i 2) 1)
    else [⟨i, [0]⟩]

/-- `stringn2hexstring` -/
def stringn2hexstring (input : List UInt8) (length : ℕ) : List (Write UInt8) :=
  stringn2hexstringLoop length input 0

/-- The loop of `string2hexstring`, and what comes after it. -/
def string2hexstringLoop : List UInt8 → ℤ → List (Write UInt8)
  | [], i => [⟨i, [0]⟩]
  | c :: input, i =>
    if c ≠ 0 then ⟨i, sprintf02X c⟩ :: string2hexstringLoop input (intAdd i 2)
    else [⟨i, [0]⟩]

/-- `string2hexstring`; there is a zero in `input`. -/
def string2hexstring (input : List UInt8) : List (Write UInt8) := string2hexstringLoop input 0

/-! ## Digits -/

theorem sprintf02X_of_lt {c : UInt8} (h : c.toNat < 128) :
    sprintf02X c = [hexDigit (c.toNat / 16), hexDigit (c.toNat % 16), 0] := by
  rw [sprintf02X, charAsUnsigned, if_pos h]
  rcases Nat.eq_zero_or_pos c.toNat with h0 | hpos
  · rw [h0]; rfl
  rcases lt_or_ge c.toNat 16 with hlt | hge
  · rw [Nat.digits_of_lt 16 _ hpos.ne' hlt, Nat.div_eq_of_lt hlt, Nat.mod_eq_of_lt hlt]
    rfl
  · rw [Nat.digits_def' (by decide) hpos, Nat.digits_of_lt 16 _ (by omega) (by omega)]
    rfl

/-- How many bytes are written for a byte. -/
theorem length_sprintf02X (c : UInt8) :
    (sprintf02X c).length = if c.toNat < 128 then 3 else 9 := by
  split_ifs with h
  · rw [sprintf02X_of_lt h]; rfl
  · have hc := c.toNat_lt
    have hlog : Nat.log 16 (2 ^ 32 - 256 + c.toNat) = 7 :=
      Nat.log_eq_of_pow_le_of_lt_pow (by omega) (by omega)
    rw [sprintf02X, charAsUnsigned, if_neg h, List.length_append, List.length_leftpad,
      List.length_map, List.length_reverse, Nat.length_digits 16 _ (by decide) (by omega), hlog]
    rfl

theorem hexDigit_ne_zero {d : ℕ} (h : d < 16) : hexDigit d ≠ 0 := by
  interval_cases d <;> decide

/-! ## Rendering -/

/-- The bytes rendered one after the other, `stride` places apart, and a zero after them. -/
def renderAt (stride : ℤ) : ℤ → List UInt8 → List (Write UInt8)
  | offset, [] => [⟨offset, [0]⟩]
  | offset, c :: bytes => ⟨offset, sprintf02X c⟩ :: renderAt stride (offset + stride) bytes

theorem forall_renderAt {stride : ℤ} {bytes : List UInt8} {P : Write UInt8 → Prop} :
    ∀ {offset : ℤ}, (∀ w ∈ renderAt stride offset bytes, P w) ↔
      P ⟨offset + stride * bytes.length, [0]⟩ ∧
        ∀ (k : ℕ) (c : UInt8), bytes[k]? = some c → P ⟨offset + stride * k, sprintf02X c⟩ := by
  induction bytes with
  | nil => intro offset; simp [renderAt]
  | cons c bytes ih =>
    intro offset
    have hshift : ∀ k : ℕ, offset + stride + stride * k = offset + stride * ((k + 1 : ℕ) : ℤ) := by
      intro k; push_cast; ring
    rw [renderAt, List.forall_mem_cons, ih, List.length_cons, hshift]
    constructor
    · rintro ⟨hc, hend, hall⟩
      refine ⟨hend, fun k => ?_⟩
      cases k with
      | zero =>
        intro c' h
        cases h
        simpa using hc
      | succ k =>
        intro c' h
        rw [← hshift]
        exact hall k c' h
    · rintro ⟨hend, hall⟩
      refine ⟨by simpa using hall 0 c rfl, hend, fun k c' h => ?_⟩
      rw [hshift]
      exact hall (k + 1) c' h

/-- **The room that it needs**: for its end, and for the bytes with eight digits. -/
theorem renderAt_within {stride size : ℕ} {bytes : List UInt8} (hs : 2 ≤ stride) :
    (∀ w ∈ renderAt stride 0 bytes, w.Within size) ↔
      stride * bytes.length < size ∧
        ∀ (k : ℕ) (c : UInt8), bytes[k]? = some c → 128 ≤ c.toNat → stride * k + 9 ≤ size := by
  rw [forall_renderAt]
  simp only [Write.Within, List.length_singleton, length_sprintf02X, zero_add, Nat.cast_one]
  constructor
  · rintro ⟨⟨-, hend⟩, hall⟩
    refine ⟨by exact_mod_cast hend, fun k c hk hc => ?_⟩
    have hw := (hall k c hk).2
    rw [if_neg (by omega)] at hw
    exact_mod_cast hw
  · rintro ⟨hend, hall⟩
    refine ⟨⟨by positivity, by exact_mod_cast hend⟩, fun k c hk => ⟨by positivity, ?_⟩⟩
    split_ifs with hc
    · -- two digits, and a zero that the next byte or the end overwrites
      have hlt : k < bytes.length := (List.getElem?_eq_some_iff.1 hk).1
      have hle : stride * (k + 1) ≤ stride * bytes.length := Nat.mul_le_mul_left _ hlt
      rw [Nat.mul_add, mul_one] at hle
      exact_mod_cast (show stride * k + 3 ≤ size by omega)
    · exact_mod_cast hall k c hk (by omega)

/-- The two digits of each byte. -/
def hexString (bytes : List UInt8) : List UInt8 :=
  bytes.flatMap fun b => [hexDigit (b.toNat / 16), hexDigit (b.toNat % 16)]

/-- **At every second place, small bytes make a string.** -/
theorem renderAt_holds {bytes : List UInt8} : ∀ {mem : ℤ → UInt8} {offset : ℤ},
    (∀ b ∈ bytes, b.toNat < 128) →
    Holds (writeAll mem (renderAt 2 offset bytes)) offset (hexString bytes ++ [0]) := by
  induction bytes with
  | nil => intro mem offset _; exact holds_apply mem ⟨offset, [0]⟩
  | cons c bytes ih =>
    intro mem offset h
    rw [List.forall_mem_cons] at h
    rw [renderAt, writeAll_cons, sprintf02X_of_lt h.1, hexString, List.flatMap_cons, List.append_assoc]
    refine Holds.append (Holds.writeAll ?_ ?_) (ih h.2)
    · exact (holds_apply mem ⟨offset, [hexDigit (c.toNat / 16), hexDigit (c.toNat % 16)] ++ [0]⟩).left
    · -- the bytes after it are written behind its digits
      rw [forall_renderAt]
      simp only [List.length_cons, List.length_nil]
      exact ⟨by push_cast; omega, fun k _ _ => by push_cast; omega⟩

/-! ## The loops -/

/-- What a turn of `stringn2hexstring` does to `i`. -/
theorem intAdd_intAdd {i : ℤ} (h0 : -2 ^ 31 ≤ i) (h : i + 3 < 2 ^ 31) :
    intAdd (intAdd i 2) 1 = i + 3 := by
  have hbody : intAdd i 2 = i + 2 := intAdd_of_lt (by omega) (by omega)
  rw [hbody, intAdd_of_lt (by omega) (by omega)]
  ring

/-- The last multiple of three that an `int` can be. -/
theorem intAdd_intAdd_last : intAdd (intAdd 2147483646 2) 1 = -2147483647 := by decide

theorem string2hexstringLoop_eq {input : List UInt8} : ∀ {i : ℕ},
    i + 2 * (cstr input).length < 2 ^ 31 →
    string2hexstringLoop input i = renderAt 2 i (cstr input) := by
  induction input with
  | nil => intro i _; rfl
  | cons c input ih =>
    intro i h
    rw [string2hexstringLoop]
    split_ifs with hc
    · have hcstr : cstr (c :: input) = c :: cstr input := by simp [cstr, hc]
      rw [hcstr, List.length_cons] at h
      have hnext : intAdd i 2 = ((i + 2 : ℕ) : ℤ) := intAdd_of_lt (by omega) (by omega)
      rw [hcstr, renderAt, hnext, ih (by omega)]
      rfl
    · have hcstr : cstr (c :: input) = [] := by simp [cstr, hc]
      rw [hcstr, renderAt]

/-- **`string2hexstring`** renders all bytes at every second place. -/
theorem string2hexstring_eq {input : List UInt8} (h : 2 * (cstr input).length < 2 ^ 31) :
    string2hexstring input = renderAt 2 0 (cstr input) := by
  have heq := @string2hexstringLoop_eq input 0 (by omega)
  rwa [Nat.cast_zero] at heq

theorem string2hexstring_within_iff {input : List UInt8} {size : ℕ}
    (h : 2 * (cstr input).length < 2 ^ 31) :
    (∀ w ∈ string2hexstring input, w.Within size) ↔
      2 * (cstr input).length < size ∧
        ∀ (k : ℕ) (c : UInt8), (cstr input)[k]? = some c → 128 ≤ c.toNat → 2 * k + 9 ≤ size := by
  have hwithin := @renderAt_within 2 size (cstr input) le_rfl
  rw [Nat.cast_ofNat] at hwithin
  rw [string2hexstring_eq h, hwithin]

theorem stringn2hexstringLoop_eq {length : ℕ} (hl : length ≤ 2 ^ 31 - 2) {input : List UInt8} :
    ∀ {i : ℕ}, i % 3 = 0 → i ≤ length + 2 → length ≤ i + input.length →
    stringn2hexstringLoop length input i =
      renderAt 3 i (input.take ((length - i + 2) / 3)) := by
  induction input with
  | nil => intro i _ _ _; rw [stringn2hexstringLoop, List.take_nil, renderAt]
  | cons c input ih =>
    intro i h3 hle hi
    rw [List.length_cons] at hi
    rw [stringn2hexstringLoop, sizeOfIndex (by omega)]
    split_ifs with hlt
    · have hturns : (length - i + 2) / 3 = (length - (i + 3) + 2) / 3 + 1 := by omega
      have hnext : intAdd (intAdd i 2) 1 = ((i + 3 : ℕ) : ℤ) := intAdd_intAdd (by omega) (by omega)
      rw [hturns, List.take_succ_cons, renderAt, hnext, ih (by omega) (by omega) (by omega)]
      rfl
    · have hturns : (length - i + 2) / 3 = 0 := by omega
      rw [hturns, List.take_zero, renderAt]

/-- **`stringn2hexstring`** renders a third of the bytes, at every third place. -/
theorem stringn2hexstring_eq {input : List UInt8} (h : input.length ≤ 2 ^ 31 - 2) :
    stringn2hexstring input input.length =
      renderAt 3 0 (input.take ((input.length + 2) / 3)) := by
  have heq := @stringn2hexstringLoop_eq input.length h input 0 rfl (by omega) (by omega)
  rwa [Nat.cast_zero, Nat.sub_zero] at heq

/-- The first write of the loop. -/
theorem exists_offset (length : ℕ) (input : List UInt8) (i : ℤ) :
    ∃ w ∈ stringn2hexstringLoop length input i, w.offset = i := by
  cases input with
  | nil => exact ⟨_, List.mem_cons_self, rfl⟩
  | cons c input =>
    rw [stringn2hexstringLoop]
    split_ifs <;> exact ⟨_, List.mem_cons_self, rfl⟩

/-- Where `i` overflows, it is negative, and so is the offset of a write. -/
theorem stringn2hexstringLoop_wraps {length : ℕ} (hl : 2 ^ 31 - 2 < length) {input : List UInt8} :
    ∀ {i : ℕ}, i % 3 = 0 → i ≤ 2147483646 → length ≤ i + input.length →
    ∃ w ∈ stringn2hexstringLoop length input i, w.offset < 0 := by
  induction input with
  | nil =>
    intro i _ hle hi
    rw [List.length_nil] at hi
    omega
  | cons c input ih =>
    intro i h3 hle hi
    rw [List.length_cons] at hi
    rw [stringn2hexstringLoop, sizeOfIndex (by omega), if_pos (by omega)]
    rcases eq_or_ne i 2147483646 with rfl | hne
    · obtain ⟨w, hw, ho⟩ := exists_offset length input (intAdd (intAdd 2147483646 2) 1)
      refine ⟨w, List.mem_cons_of_mem _ hw, ?_⟩
      rw [ho, intAdd_intAdd_last]
      decide
    · have hnext : intAdd (intAdd i 2) 1 = ((i + 3 : ℕ) : ℤ) := intAdd_intAdd (by omega) (by omega)
      rw [hnext]
      obtain ⟨w, hw, ho⟩ := @ih (i + 3) (by omega) (by omega) (by omega)
      exact ⟨w, List.mem_cons_of_mem _ hw, ho⟩

/-- **The array that `process` has for it is too short** for one byte, and for bytes from
    0x80 on near the end. -/
theorem stringn2hexstring_within_iff {input : List UInt8} (hne : input ≠ []) :
    (∀ w ∈ stringn2hexstring input input.length, w.Within (input.length * 2 + 1)) ↔
      2 ≤ input.length ∧ input.length ≤ 2 ^ 31 - 2 ∧
        ∀ (k : ℕ) (c : UInt8), input[k]? = some c → 3 * k < input.length → 128 ≤ c.toNat →
          3 * k + 8 ≤ 2 * input.length := by
  have hpos := List.length_pos_iff.2 hne
  by_cases hl : input.length ≤ 2 ^ 31 - 2
  · have hwithin := @renderAt_within 3 (input.length * 2 + 1)
      (input.take ((input.length + 2) / 3)) (by decide)
    rw [Nat.cast_ofNat] at hwithin
    rw [stringn2hexstring_eq hl, hwithin, and_iff_right hl, List.length_take]
    refine and_congr (by omega) (forall_congr' fun k => forall_congr' fun c => ?_)
    rw [List.getElem?_take]
    split_ifs with hk
    · exact ⟨fun h hc _ hhigh => by have := h hc hhigh; omega,
        fun h hc hhigh => by have := h hc (by omega) hhigh; omega⟩
    · exact iff_of_true (fun h => by cases h) fun _ hlt => absurd hlt (by omega)
  · refine iff_of_false (fun h => ?_) fun h => hl h.2.1
    obtain ⟨w, hw, hneg⟩ := @stringn2hexstringLoop_wraps input.length (by omega) input 0 rfl
      (by omega) (by omega)
    exact absurd (h w hw).1 (not_le.2 hneg)

/-! ## Where they agree -/

/-- What the two functions are to make of some bytes: the string of their digits. -/
structure HexRendered (input : List UInt8) : Prop where
  counted : ∀ mem : ℤ → UInt8,
    Holds (writeAll mem (stringn2hexstring input input.length)) 0 (hexString input ++ [0])
  terminated : 0 ∉ input → ∀ mem : ℤ → UInt8,
    Holds (writeAll mem (string2hexstring (input ++ [0]))) 0 (hexString input ++ [0])

/-- **`string2hexstring` writes the string of the digits.** -/
theorem string2hexstring_holds {input : List UInt8} (h : ∀ b ∈ input, b.toNat < 128)
    (h0 : 0 ∉ input) (hl : 2 * input.length < 2 ^ 31) (mem : ℤ → UInt8) :
    Holds (writeAll mem (string2hexstring (input ++ [0]))) 0 (hexString input ++ [0]) := by
  have hcstr : cstr (input ++ [0]) = input := cstr_append_zero h0 []
  rw [string2hexstring_eq (by rw [hcstr]; exact hl), hcstr]
  exact renderAt_holds h

/-- Where `i` is after the first turn of `stringn2hexstring`: behind the third place, or
    before the start, when it has overflowed. -/
def PastThird (i : ℤ) : Prop :=
  3 ≤ i ∧ i ≤ 2147483646 ∧ i % 3 = 0 ∨ -2147483648 ≤ i ∧ i < 0 ∧ i % 3 = 2

/-- A negative `i` is a large `size_t`, so that the loop ends before it comes to 0. -/
theorem PastThird.of_lt {i : ℤ} (h : PastThird i) {length : ℕ} (hl : length < 2 ^ 64)
    (hlt : (i % 2 ^ 64).toNat < length) : 3 ≤ i ∨ i ≤ -4 := by
  rcases h with h | ⟨h1, h2, h3⟩
  · exact Or.inl h.1
  · have hmod : i % 2 ^ 64 = i + 2 ^ 64 := by
      rw [← Int.add_emod_right, Int.emod_eq_of_lt (by omega) (by omega)]
    rw [hmod] at hlt
    omega

theorem PastThird.next {i : ℤ} (h : PastThird i) (hi : 3 ≤ i ∨ i ≤ -4) :
    PastThird (intAdd (intAdd i 2) 1) := by
  rcases eq_or_ne i 2147483646 with rfl | hne
  · rw [intAdd_intAdd_last, PastThird]
    decide
  · rw [PastThird] at h
    rw [intAdd_intAdd (by omega) (by omega), PastThird]
    omega

theorem not_touches_third {i : ℤ} (hi : 3 ≤ i ∨ i ≤ -4) {data : List UInt8}
    (hd : data.length ≤ 3) : ¬ Write.Touches ⟨i, data⟩ 2 := by
  rintro ⟨h1, h2⟩
  dsimp only at h1 h2
  omega

/-- After the first turn the loop does not come back to the third place. -/
theorem stringn2hexstringLoop_untouched {length : ℕ} (hl : length < 2 ^ 64) {input : List UInt8} :
    ∀ {i : ℤ}, (∀ b ∈ input, b.toNat < 128) → PastThird i →
    ∀ w ∈ stringn2hexstringLoop length input i, ¬ w.Touches 2 := by
  have hend : ∀ {i : ℤ}, PastThird i → ∀ w ∈ [(⟨i, [0]⟩ : Write UInt8)], ¬ w.Touches 2 := by
    intro i hi w hw ht
    rw [List.mem_singleton] at hw
    subst hw
    simp only [Write.Touches, List.length_singleton] at ht
    rw [PastThird] at hi
    omega
  induction input with
  | nil => intro i _ hi; exact hend hi
  | cons c input ih =>
    intro i hb hi
    rw [List.forall_mem_cons] at hb
    rw [stringn2hexstringLoop]
    split_ifs with hlt
    · have hside := hi.of_lt hl hlt
      rw [List.forall_mem_cons]
      refine ⟨not_touches_third hside ?_, ih hb.2 (hi.next hside)⟩
      rw [sprintf02X_of_lt hb.1]
      exact le_rfl
    · exact hend hi

/-- The first turn of `stringn2hexstring`. -/
theorem stringn2hexstring_cons (c : UInt8) (input : List UInt8) :
    stringn2hexstring (c :: input) (c :: input).length =
      ⟨0, sprintf02X c⟩ :: stringn2hexstringLoop (c :: input).length input 3 := by
  have hnext : intAdd (intAdd 0 2) 1 = 3 := by decide
  rw [stringn2hexstring, stringn2hexstringLoop, if_pos (by simp), hnext]

/-- The zero after the first byte stays. -/
theorem stringn2hexstring_third {c : UInt8} {input : List UInt8}
    (h : ∀ b ∈ c :: input, b.toNat < 128) (hl : (c :: input).length < 2 ^ 64) (mem : ℤ → UInt8) :
    writeAll mem (stringn2hexstring (c :: input) (c :: input).length) 2 = 0 := by
  rw [List.forall_mem_cons] at h
  rw [stringn2hexstring_cons, writeAll_cons,
    writeAll_of_untouched (stringn2hexstringLoop_untouched hl h.2 (Or.inl (by decide))),
    sprintf02X_of_lt h.1]
  rfl

/-- **The two functions agree on one byte at most**, of those that they render alike: in
    `stringn2hexstring` the zero after the first byte stays, and ends the string. -/
theorem hexRendered_iff {input : List UInt8} (h : ∀ b ∈ input, b.toNat < 128)
    (hl : input.length < 2 ^ 64) :
    (HexRendered input ↔ input.length ≤ 1) ∧
      (0 ∉ input → 2 * input.length < 2 ^ 31 → ∀ mem : ℤ → UInt8,
        Holds (writeAll mem (string2hexstring (input ++ [0]))) 0 (hexString input ++ [0])) := by
  refine ⟨⟨fun hr => ?_, fun hle => ⟨fun mem => ?_, fun h0 mem => ?_⟩⟩,
    fun h0 hsize mem => string2hexstring_holds h h0 hsize mem⟩
  · by_contra hlong
    obtain ⟨c, d, rest, rfl⟩ : ∃ c d rest, input = c :: d :: rest := by
      rcases input with _ | ⟨c, _ | ⟨d, rest⟩⟩
      · simp at hlong
      · simp at hlong
      · exact ⟨c, d, rest, rfl⟩
    -- the zero is where the first digit of the second byte should be
    have hthird := hr.counted (fun _ => 0) 2 (by simp [hexString])
    have hd := d.toNat_lt
    rw [Nat.cast_ofNat, zero_add, stringn2hexstring_third h hl] at hthird
    exact hexDigit_ne_zero (by omega) hthird.symm
  · rcases input with _ | ⟨c, _ | ⟨d, rest⟩⟩
    · exact holds_apply mem ⟨0, [0]⟩
    · have hc := h c (by simp)
      rw [stringn2hexstring_cons, stringn2hexstringLoop, writeAll_cons, sprintf02X_of_lt hc]
      refine Holds.writeAll (holds_apply mem ⟨0, _⟩) ?_
      simp [hexString]
    · simp at hle
  · exact string2hexstring_holds h h0 (by omega) mem

theorem hexRendered_iff_letter : HexRendered [0x41] :=
  (@hexRendered_iff [0x41] (by simp) (by simp)).1.2 le_rfl

/-- "AB" comes out as "41" of the one, and as "4142" of the other. -/
theorem letters_not_hexRendered : ¬ HexRendered [0x41, 0x42] := by
  intro h
  have hthird := h.counted (fun _ => 0) 2 (by decide +kernel)
  revert hthird
  decide +kernel

end PacketSerial
