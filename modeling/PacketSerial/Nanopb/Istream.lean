/-
  nanopb: input streams over a memory buffer, and the readers of `pb_decode.c`
  below the level of fields.

  A stream is the list of the bytes it can still read (`bytes_left` of them, from
  `state` on).  A reader returns its result, `none` where the C function returns
  false, and the stream it leaves, also when it fails: the scan of a union message
  goes on after a failed skip.  Error texts are not modelled (nothing reads them).

  * `pbDecodeVarint_encode`, `pbDecodeVarint32_numeral`: the two varint decoders read
    every number that fits back from its numeral, the second one from all of them;
  * `pbDecodeTag_numeral`: so does the tag decoder;
  * the `_suffix` lemmas: a reader leaves a suffix of the stream;
  * the `_cut` lemmas: where the tail of a value has been lost and zeros stand in its
    place, a reader that succeeds has read all that is left of the value.
-/
import PacketSerial.Lib.Varint

namespace PacketSerial

/-- `pb_istream_t` over a memory buffer. -/
abbrev PbIstream := List UInt8

/-- `pb_wire_type_t`; `other` is a value without a name (3, 4, 6 or 7 in a tag). -/
inductive WireType where
  | varint
  | bit64
  | string
  | bit32
  | other (n : ℕ)
deriving DecidableEq, Repr

/-- The number of a wire type. -/
def WireType.code : WireType → ℕ
  | varint => 0
  | bit64 => 1
  | string => 2
  | bit32 => 5
  | other n => n

def WireType.ofNat : ℕ → WireType
  | 0 => varint
  | 1 => bit64
  | 2 => string
  | 5 => bit32
  | n => other n

/-! ## The readers -/

/-- `pb_read`: all of `count` bytes, or nothing. -/
def pbRead (stream : PbIstream) (count : ℕ) : Option (List UInt8) × PbIstream :=
  if stream.length < count then (none, stream)
  else (some (stream.take count), stream.drop count)

/-- The loop of `pb_decode_varint32_eof` after the first byte.  `bitpos` is a
    `uint_fast8_t` and wraps at 256; `result` is a `uint32_t`. -/
def varint32Loop (bitpos result : ℕ) : PbIstream → Option ℕ × PbIstream
  | [] => (none, [])
  | byte :: stream =>
    let signExtension : UInt8 := if bitpos < 63 then 0xFF else 0x01
    if 32 ≤ bitpos ∧ byte &&& 0x7F ≠ 0 ∧ (result >>> 31 = 0 ∨ byte ≠ signExtension) then
      (none, stream)
    else
      let result' := if 32 ≤ bitpos then result
        else (result ||| (byte &&& 0x7F).toNat <<< bitpos) % 2 ^ 32
      let bitpos' := (bitpos + 7) % 256
      if byte &&& 0x80 ≠ 0 then varint32Loop bitpos' result' stream
      else if bitpos' = 35 ∧ byte &&& 0x70 ≠ 0 then (none, stream)
      else (some result', stream)

/-- `pb_decode_varint32_eof`: the value, and the flag `eof`. -/
def pbDecodeVarint32Eof : PbIstream → Option ℕ × Bool × PbIstream
  | [] => (none, true, [])
  | byte :: stream =>
    if byte &&& 0x80 = 0 then (some byte.toNat, false, stream)
    else
      let r := varint32Loop 7 (byte &&& 0x7F).toNat stream
      (r.1, false, r.2)

/-- `pb_decode_varint32` -/
def pbDecodeVarint32 (stream : PbIstream) : Option ℕ × PbIstream :=
  let r := pbDecodeVarint32Eof stream
  (r.1, r.2.2)

/-- The loop of `pb_decode_varint`; `result` is a `uint64_t`. -/
def varintLoop (bitpos result : ℕ) : PbIstream → Option ℕ × PbIstream
  | [] => (none, [])
  | byte :: stream =>
    if 64 ≤ bitpos then (none, byte :: stream)
    else
      let result' := (result ||| (byte &&& 0x7F).toNat <<< bitpos) % 2 ^ 64
      if byte &&& 0x80 ≠ 0 then varintLoop (bitpos + 7) result' stream
      else (some result', stream)

/-- `pb_decode_varint` -/
def pbDecodeVarint (stream : PbIstream) : Option ℕ × PbIstream := varintLoop 0 0 stream

/-- `pb_skip_varint`; the Boolean is the value returned. -/
def pbSkipVarint : PbIstream → Bool × PbIstream
  | [] => (false, [])
  | byte :: stream => if byte &&& 0x80 ≠ 0 then pbSkipVarint stream else (true, stream)

/-- `pb_read(stream, NULL, count)` -/
def pbSkip (stream : PbIstream) (count : ℕ) : Bool × PbIstream :=
  let r := pbRead stream count
  (r.1.isSome, r.2)

/-- `pb_skip_string` -/
def pbSkipString (stream : PbIstream) : Bool × PbIstream :=
  match pbDecodeVarint32 stream with
  | (none, stream) => (false, stream)
  | (some length, stream) => pbSkip stream length

/-- `pb_decode_tag`: the wire type and the tag, and the flag `eof`. -/
def pbDecodeTag (stream : PbIstream) : Option (WireType × ℕ) × Bool × PbIstream :=
  match pbDecodeVarint32Eof stream with
  | (none, eof, stream) => (none, eof, stream)
  | (some temp, eof, stream) =>
    -- messages may end in a zero tag
    if temp = 0 then (none, true, stream)
    else (some (WireType.ofNat (temp % 8), temp / 8), eof, stream)

/-- `pb_skip_field` -/
def pbSkipField (stream : PbIstream) : WireType → Bool × PbIstream
  | .varint => pbSkipVarint stream
  | .bit64 => pbSkip stream 8
  | .string => pbSkipString stream
  | .bit32 => pbSkip stream 4
  | .other _ => (false, stream)

/-- `pb_make_string_substream`: the substream, and the stream after it.  (In C the
    stream moves past the substream when that is closed, which every caller does
    before it reads on.) -/
def pbMakeStringSubstream (stream : PbIstream) : Option PbIstream × PbIstream :=
  match pbDecodeVarint32 stream with
  | (none, stream) => (none, stream)
  | (some size, stream) => pbRead stream size

/-! ## Numerals are read back -/

theorem varintLoop_encode {n : ℕ} : ∀ {bitpos result : ℕ} (rest : PbIstream),
    result < 2 ^ bitpos → result + n * 2 ^ bitpos < 2 ^ 64 → 0 < n ∨ bitpos = 0 →
    varintLoop bitpos result (Varint.encode n ++ rest) = (some (result + n * 2 ^ bitpos), rest) := by
  induction n using Varint.group_induction with
  | last n hn =>
    intro bitpos result rest hr h64 hpos
    have hb : bitpos < 64 := by
      rcases hpos with hpos | rfl
      · by_contra hb
        have := Nat.pow_le_pow_right (n := 2) (by omega) (not_lt.1 hb)
        have := Nat.le_mul_of_pos_left (2 ^ bitpos) hpos
        omega
      · omega
    have hbyte : (UInt8.ofNat n).toNat = n := by rw [UInt8.toNat_ofNat']; omega
    have hlast : ¬ (UInt8.ofNat n) &&& 0x80 ≠ 0 := by
      rw [Varint.and_0x80_ne_zero, hbyte]; omega
    rw [Varint.encode_of_lt hn, List.singleton_append, varintLoop, if_neg (by omega)]
    simp only [if_neg hlast, Varint.toNat_and_0x7F, hbyte, Nat.mod_eq_of_lt hn]
    rw [Varint.or_shiftLeft_group hr, Nat.mod_eq_of_lt h64]
  | more n hn ih =>
    intro bitpos result rest hr h64 _
    have hb : bitpos < 64 := by
      by_contra hb
      have := Nat.pow_le_pow_right (n := 2) (by omega) (not_lt.1 hb)
      have := Nat.le_mul_of_pos_left (2 ^ bitpos) (show 0 < n by omega)
      omega
    have hbyte : (UInt8.ofNat (n % 128 + 128)).toNat = n % 128 + 128 := by
      rw [UInt8.toNat_ofNat']; omega
    have hmore : UInt8.ofNat (n % 128 + 128) &&& 0x80 ≠ 0 := by
      rw [Varint.and_0x80_ne_zero, hbyte]; omega
    have hp : 2 ^ (bitpos + 7) = 128 * 2 ^ bitpos := by rw [pow_add]; ring
    have hg : n % 128 * 2 ^ bitpos ≤ 127 * 2 ^ bitpos := Nat.mul_le_mul_right _ (by omega)
    have hsum : result + n % 128 * 2 ^ bitpos + n / 128 * 2 ^ (bitpos + 7) =
        result + n * 2 ^ bitpos := by
      rw [hp, add_assoc, ← mul_assoc, ← add_mul]
      congr 2; omega
    rw [Varint.encode_of_ge hn, List.cons_append, varintLoop, if_neg (by omega)]
    simp only [if_pos hmore, Varint.toNat_and_0x7F, hbyte]
    rw [show (n % 128 + 128) % 128 = n % 128 by omega, Varint.or_shiftLeft_group hr,
      Nat.mod_eq_of_lt (by omega), ih rest (by omega) (by omega) (Or.inl (by omega)), hsum]

/-- **Every 64-bit number is read back from its numeral.** -/
theorem pbDecodeVarint_encode {n : ℕ} (h : n < 2 ^ 64) (rest : PbIstream) :
    pbDecodeVarint (Varint.encode n ++ rest) = (some n, rest) := by
  rw [pbDecodeVarint, varintLoop_encode rest (by simp) (by simpa using h) (Or.inr rfl)]
  simp

/-- Zeros on top of a numeral do not change the result. -/
theorem varint32Loop_zero {l : List UInt8} {n : ℕ} (hl : Varint.Numeral l n) :
    ∀ {bitpos result : ℕ} (rest : PbIstream), n = 0 → 35 ≤ bitpos →
    bitpos + 7 * l.length ≤ 256 → varint32Loop bitpos result (l ++ rest) = (some result, rest) := by
  induction hl with
  | @last b hb =>
    intro bitpos result rest hn hbit hlen
    have hb0 : b = 0 := UInt8.toNat_inj.1 hn
    rw [List.length_singleton] at hlen
    subst hb0
    rw [List.singleton_append, varint32Loop, if_neg (by simp), if_neg (by simp)]
    simp only [if_pos (show 32 ≤ bitpos by omega)]
    exact if_neg fun h => h.2 (by decide)
  | @more b l n hb hl ih =>
    intro bitpos result rest hn hbit hlen
    have hmore : b &&& 0x80 ≠ 0 := Varint.and_0x80_ne_zero.2 hb
    have hb0 : b &&& 0x7F = 0 := by
      rw [← UInt8.toNat_inj, Varint.toNat_and_0x7F]
      show b.toNat % 128 = 0
      omega
    rw [List.length_cons] at hlen
    have hpos := hl.length_pos
    rw [List.cons_append, varint32Loop, if_neg (by simp [hb0])]
    simp only [if_pos hmore, if_pos (show 32 ≤ bitpos by omega)]
    rw [Nat.mod_eq_of_lt (by omega)]
    exact ih rest (by omega) (by omega) (by omega)

theorem varint32Loop_numeral {l : List UInt8} {n : ℕ} (hl : Varint.Numeral l n) :
    ∀ {bitpos result : ℕ} (rest : PbIstream), 7 ∣ bitpos → bitpos ≤ 28 → result < 2 ^ bitpos →
    result + n * 2 ^ bitpos < 2 ^ 32 → l.length ≤ 20 →
    varint32Loop bitpos result (l ++ rest) = (some (result + n * 2 ^ bitpos), rest) := by
  have h70 : ∀ x : Fin 16, x.val &&& 112 = 0 := by decide
  induction hl with
  | @last b hb =>
    intro bitpos result rest _ hbit hr h32 _
    have hlast : ¬ b &&& 0x80 ≠ 0 := by rw [Varint.and_0x80_ne_zero]; omega
    have hfit : ¬ ((bitpos + 7) % 256 = 35 ∧ b &&& 0x70 ≠ 0) := by
      rintro ⟨h35, hne⟩
      have hb28 : bitpos = 28 := by omega
      subst hb28
      refine hne (UInt8.toNat_inj.1 ?_)
      rw [UInt8.toNat_and]
      exact h70 ⟨b.toNat, by omega⟩
    rw [List.singleton_append, varint32Loop, if_neg (by omega)]
    simp only [if_neg hlast, if_neg hfit, if_neg (show ¬ 32 ≤ bitpos by omega),
      Varint.toNat_and_0x7F, Nat.mod_eq_of_lt hb]
    rw [Varint.or_shiftLeft_group hr, Nat.mod_eq_of_lt h32]
  | @more b l n hb hl ih =>
    intro bitpos result rest h7 hbit hr h32 hlen
    have hmore : b &&& 0x80 ≠ 0 := Varint.and_0x80_ne_zero.2 hb
    have hp : 2 ^ (bitpos + 7) = 128 * 2 ^ bitpos := by rw [pow_add]; ring
    have hg : b.toNat % 128 * 2 ^ bitpos ≤ 127 * 2 ^ bitpos := Nat.mul_le_mul_right _ (by omega)
    have hsum : result + b.toNat % 128 * 2 ^ bitpos + n * 2 ^ (bitpos + 7) =
        result + (b.toNat % 128 + 128 * n) * 2 ^ bitpos := by
      rw [hp]; ring
    rw [List.length_cons] at hlen
    rw [List.cons_append, varint32Loop, if_neg (by omega)]
    simp only [if_pos hmore, if_neg (show ¬ 32 ≤ bitpos by omega), Varint.toNat_and_0x7F]
    rw [Varint.or_shiftLeft_group hr, Nat.mod_eq_of_lt (by omega), Nat.mod_eq_of_lt (by omega)]
    rcases Nat.lt_or_ge bitpos 28 with hlt | hge
    · rw [ih rest (by omega) (by omega) (by omega) (by omega) (by omega), hsum]
    · -- the fifth group is the last one of a 32-bit number
      have h28 : bitpos = 28 := by omega
      subst h28
      have hn : n = 0 := by omega
      rw [varint32Loop_zero hl rest hn (by omega) (by omega), ← hsum, hn, zero_mul, add_zero]

/-- **A 32-bit number is read from any numeral of it** of usual length. -/
theorem pbDecodeVarint32Eof_numeral {l : List UInt8} {n : ℕ} (hl : Varint.Numeral l n)
    (hlen : l.length ≤ 20) (h : n < 2 ^ 32) (rest : PbIstream) :
    pbDecodeVarint32Eof (l ++ rest) = (some n, false, rest) := by
  cases hl with
  | @last b hb =>
    have hlast : b &&& 0x80 = 0 := by
      by_contra hne
      rw [← ne_eq, Varint.and_0x80_ne_zero] at hne; omega
    rw [List.singleton_append, pbDecodeVarint32Eof, if_pos hlast]
  | @more b l n hb hl =>
    have hmore : ¬ b &&& 0x80 = 0 := Varint.and_0x80_ne_zero.2 hb
    rw [List.length_cons] at hlen
    rw [List.cons_append, pbDecodeVarint32Eof, if_neg hmore]
    simp only [Varint.toNat_and_0x7F]
    rw [varint32Loop_numeral hl rest (by omega) (by omega) (by omega) (by omega) (by omega)]
    simp only [Prod.mk.injEq, Option.some.injEq, and_true]
    omega

theorem pbDecodeVarint32_numeral {l : List UInt8} {n : ℕ} (hl : Varint.Numeral l n)
    (hlen : l.length ≤ 20) (h : n < 2 ^ 32) (rest : PbIstream) :
    pbDecodeVarint32 (l ++ rest) = (some n, rest) := by
  simp [pbDecodeVarint32, pbDecodeVarint32Eof_numeral hl hlen h]

/-- **A nonzero tag is read from any numeral of it.** -/
theorem pbDecodeTag_numeral {l : List UInt8} {n : ℕ} (hl : Varint.Numeral l n)
    (hlen : l.length ≤ 20) (h0 : n ≠ 0) (h : n < 2 ^ 32) (rest : PbIstream) :
    pbDecodeTag (l ++ rest) = (some (WireType.ofNat (n % 8), n / 8), false, rest) := by
  simp [pbDecodeTag, pbDecodeVarint32Eof_numeral hl hlen h, h0]

theorem pbSkipVarint_numeral {l : List UInt8} {n : ℕ} (hl : Varint.Numeral l n)
    (rest : PbIstream) : pbSkipVarint (l ++ rest) = (true, rest) := by
  induction hl with
  | last hb =>
    rw [List.singleton_append, pbSkipVarint, if_neg]
    rw [Varint.and_0x80_ne_zero]; omega
  | more hb _ ih => rw [List.cons_append, pbSkipVarint, if_pos (Varint.and_0x80_ne_zero.2 hb), ih]

theorem length_encode_le_five {n : ℕ} (h : n < 2 ^ 32) : (Varint.encode n).length ≤ 5 :=
  Varint.length_encode_le (by omega) (show n < 2 ^ (7 * 5) by omega)

theorem pbDecodeVarint32_encode {n : ℕ} (h : n < 2 ^ 32) (rest : PbIstream) :
    pbDecodeVarint32 (Varint.encode n ++ rest) = (some n, rest) :=
  pbDecodeVarint32_numeral (Varint.numeral_encode n)
    ((length_encode_le_five h).trans (by omega)) h rest

theorem pbDecodeTag_encode {n : ℕ} (h0 : n ≠ 0) (h : n < 2 ^ 32) (rest : PbIstream) :
    pbDecodeTag (Varint.encode n ++ rest) =
      (some (WireType.ofNat (n % 8), n / 8), false, rest) :=
  pbDecodeTag_numeral (Varint.numeral_encode n) ((length_encode_le_five h).trans (by omega)) h0 h
    rest

/-- A string with its length in front is read as a substream. -/
theorem pbMakeStringSubstream_encode {s : List UInt8} (h : s.length < 2 ^ 32) (rest : PbIstream) :
    pbMakeStringSubstream (Varint.encode s.length ++ (s ++ rest)) = (some s, rest) := by
  simp [pbMakeStringSubstream, pbDecodeVarint32_encode h, pbRead]

/-! ## A reader leaves a suffix of its stream -/

theorem varintLoop_suffix (stream : PbIstream) : ∀ bitpos result : ℕ,
    (varintLoop bitpos result stream).2 <:+ stream := by
  induction stream with
  | nil => intro bitpos result; exact List.suffix_refl _
  | cons byte stream ih =>
    intro bitpos result
    rw [varintLoop]; split_ifs
    · exact List.suffix_refl _
    · exact (ih _ _).trans (List.suffix_cons _ _)
    · exact List.suffix_cons _ _

theorem varint32Loop_suffix (stream : PbIstream) : ∀ bitpos result : ℕ,
    (varint32Loop bitpos result stream).2 <:+ stream := by
  induction stream with
  | nil => intro bitpos result; exact List.suffix_refl _
  | cons byte stream ih =>
    intro bitpos result
    rw [varint32Loop]; dsimp only
    split_ifs <;>
      first | exact List.suffix_cons _ _ | exact (ih _ _).trans (List.suffix_cons _ _)

theorem pbDecodeVarint_suffix (stream : PbIstream) : (pbDecodeVarint stream).2 <:+ stream :=
  varintLoop_suffix stream 0 0

/-- A varint takes at least one byte. -/
theorem pbDecodeVarint32Eof_suffix (byte : UInt8) (stream : PbIstream) :
    (pbDecodeVarint32Eof (byte :: stream)).2.2 <:+ stream := by
  rw [pbDecodeVarint32Eof]; split_ifs
  · exact List.suffix_refl _
  · exact varint32Loop_suffix _ _ _

theorem pbDecodeVarint32_suffix (stream : PbIstream) : (pbDecodeVarint32 stream).2 <:+ stream := by
  cases stream with
  | nil => exact List.suffix_refl _
  | cons byte stream =>
    exact (pbDecodeVarint32Eof_suffix byte stream).trans (List.suffix_cons _ _)

theorem pbRead_suffix (stream : PbIstream) (count : ℕ) : (pbRead stream count).2 <:+ stream := by
  rw [pbRead]; split_ifs
  · exact List.suffix_refl _
  · exact List.drop_suffix _ _

theorem pbSkipVarint_suffix (stream : PbIstream) : (pbSkipVarint stream).2 <:+ stream := by
  induction stream with
  | nil => exact List.suffix_refl _
  | cons byte stream ih =>
    rw [pbSkipVarint]; split_ifs
    · exact ih.trans (List.suffix_cons _ _)
    · exact List.suffix_cons _ _

theorem pbSkipField_suffix (stream : PbIstream) (wireType : WireType) :
    (pbSkipField stream wireType).2 <:+ stream := by
  cases wireType with
  | varint => exact pbSkipVarint_suffix stream
  | bit64 => exact pbRead_suffix stream 8
  | bit32 => exact pbRead_suffix stream 4
  | other n => exact List.suffix_refl _
  | string =>
    have h := pbDecodeVarint32_suffix stream
    rw [pbSkipField, pbSkipString]
    split <;> rename_i heq <;> rw [heq] at h
    · exact h
    · exact (pbRead_suffix _ _).trans h

theorem pbMakeStringSubstream_suffix (stream : PbIstream) :
    (pbMakeStringSubstream stream).2 <:+ stream := by
  have h := pbDecodeVarint32_suffix stream
  rw [pbMakeStringSubstream]
  split <;> rename_i heq <;> rw [heq] at h
  · exact h
  · exact (pbRead_suffix _ _).trans h

theorem pbDecodeTag_stream (stream : PbIstream) :
    (pbDecodeTag stream).2.2 = (pbDecodeVarint32Eof stream).2.2 := by
  rw [pbDecodeTag]
  rcases pbDecodeVarint32Eof stream with ⟨_ | temp, eof, rest⟩
  · rfl
  · dsimp only; split_ifs <;> rfl

theorem pbDecodeTag_suffix (stream : PbIstream) : (pbDecodeTag stream).2.2 <:+ stream := by
  rw [pbDecodeTag_stream]
  exact pbDecodeVarint32_suffix stream

/-- A tag takes at least one byte. -/
theorem pbDecodeTag_length {stream rest : PbIstream} {r : WireType × ℕ} {eof : Bool}
    (h : pbDecodeTag stream = (some r, eof, rest)) : rest.length < stream.length := by
  cases stream with
  | nil => simp [pbDecodeTag, pbDecodeVarint32Eof] at h
  | cons byte stream =>
    have hs := pbDecodeTag_stream (byte :: stream)
    rw [h] at hs
    have hle := (pbDecodeVarint32Eof_suffix byte stream).length_le
    rw [← hs] at hle
    exact Nat.lt_succ_of_le hle

@[simp] theorem pbDecodeTag_nil : pbDecodeTag [] = (none, true, []) := rfl

/-- A zero byte where a tag is due ends the message. -/
@[simp] theorem pbDecodeTag_zero (rest : PbIstream) :
    pbDecodeTag (0 :: rest) = (none, true, rest) := rfl

/-! ## Bytes behind what is read -/

/-- **What a byte does to the loop** does not depend on the bytes after it. -/
theorem varint32Loop_cons (bitpos result : ℕ) (b : UInt8) :
    (∀ s, varint32Loop bitpos result (b :: s) = (none, s)) ∨
    (∃ n, ∀ s, varint32Loop bitpos result (b :: s) = (some n, s)) ∨
    ∃ bitpos' result', ∀ s,
      varint32Loop bitpos result (b :: s) = varint32Loop bitpos' result' s := by
  simp only [varint32Loop]
  generalize (if bitpos < 63 then (0xFF : UInt8) else 0x01) = signExtension
  by_cases hover : 32 ≤ bitpos ∧ b &&& 0x7F ≠ 0 ∧ (result >>> 31 = 0 ∨ b ≠ signExtension)
  · exact Or.inl fun s => if_pos hover
  simp only [if_neg hover]
  by_cases hmore : b &&& 0x80 ≠ 0
  · exact Or.inr (Or.inr ⟨_, _, fun s => if_pos hmore⟩)
  simp only [if_neg hmore]
  by_cases hlast : (bitpos + 7) % 256 = 35 ∧ b &&& 0x70 ≠ 0
  · exact Or.inl fun s => if_pos hlast
  · exact Or.inr (Or.inl ⟨_, fun s => if_neg hlast⟩)

theorem varint32Loop_append {s : List UInt8} (t : List UInt8) : ∀ {bitpos result n : ℕ}
    {w : PbIstream}, varint32Loop bitpos result s = (some n, w) →
    varint32Loop bitpos result (s ++ t) = (some n, w ++ t) := by
  induction s with
  | nil => intro bitpos result n w h; cases h
  | cons b s ih =>
    intro bitpos result n w h
    rw [List.cons_append]
    rcases varint32Loop_cons bitpos result b with hb | ⟨m, hb⟩ | ⟨bitpos', result', hb⟩ <;>
      rw [hb] at h ⊢
    · cases h
    · cases h
      rfl
    · exact ih h

/-- A number that was read is read also when more bytes follow. -/
theorem pbDecodeVarint32_append {s : List UInt8} {n : ℕ} {w : PbIstream}
    (h : pbDecodeVarint32 s = (some n, w)) (t : List UInt8) :
    pbDecodeVarint32 (s ++ t) = (some n, w ++ t) := by
  rcases s with _ | ⟨b, s⟩
  · cases h
  simp only [pbDecodeVarint32, List.cons_append, pbDecodeVarint32Eof] at h ⊢
  split_ifs at h ⊢ with hb
  · cases h
    rfl
  · have hloop := varint32Loop_append t (Prod.ext (congrArg Prod.fst h) (congrArg Prod.snd h))
    rw [hloop]

theorem varint32Loop_last {s : List UInt8} (j : UInt8) : ∀ {bitpos result n : ℕ} {w : PbIstream},
    (varint32Loop bitpos result s).1 = none →
    varint32Loop bitpos result (s ++ [j]) = (some n, w) → w = [] := by
  induction s with
  | nil =>
    intro bitpos result n w _ h
    rw [List.nil_append] at h
    rcases varint32Loop_cons bitpos result j with hj | ⟨m, hj⟩ | ⟨bitpos', result', hj⟩ <;>
      rw [hj] at h <;> cases h
    rfl
  | cons b s ih =>
    intro bitpos result n w hnone h
    rw [List.cons_append] at h
    rcases varint32Loop_cons bitpos result b with hb | ⟨m, hb⟩ | ⟨bitpos', result', hb⟩ <;>
      rw [hb] at hnone h
    · cases h
    · cases hnone
    · exact ih hnone h

/-- A number that was not read before the last byte came takes that byte. -/
theorem pbDecodeVarint32_last {s : List UInt8} {j : UInt8} {n : ℕ} {w : PbIstream}
    (hnone : (pbDecodeVarint32 s).1 = none) (h : pbDecodeVarint32 (s ++ [j]) = (some n, w)) :
    w = [] := by
  rcases s with _ | ⟨b, s⟩
  · simp only [pbDecodeVarint32, List.nil_append, pbDecodeVarint32Eof] at h
    split_ifs at h <;> cases h
    rfl
  · simp only [pbDecodeVarint32, List.cons_append, pbDecodeVarint32Eof] at hnone h
    split_ifs at hnone h
    exact varint32Loop_last j hnone (Prod.ext (congrArg Prod.fst h) (congrArg Prod.snd h))

/-! ## Values whose tail is lost -/

/-- Where no byte of `l` is the last of a numeral, the loop ends after `l`. -/
theorem varintLoop_cut {l zs : List UInt8} : ∀ {bitpos result n : ℕ} {rest : PbIstream},
    (∀ b ∈ l, 128 ≤ b.toNat) → (∀ b ∈ zs, b = 0) →
    varintLoop bitpos result (l ++ zs) = (some n, rest) → rest <:+ zs := by
  induction l with
  | nil =>
    intro bitpos result n rest _ _ h
    have := varintLoop_suffix zs bitpos result
    rw [List.nil_append] at h
    rwa [h] at this
  | cons b l ih =>
    intro bitpos result n rest hl hz h
    have hb : b &&& 0x80 ≠ 0 := Varint.and_0x80_ne_zero.2 (hl b List.mem_cons_self)
    rw [List.cons_append, varintLoop] at h
    simp only [if_pos hb] at h
    split_ifs at h
    · cases h
    · exact ih (fun c hc => hl c (List.mem_cons_of_mem _ hc)) hz h

theorem varint32Loop_cut {l zs : List UInt8} : ∀ {bitpos result n : ℕ} {rest : PbIstream},
    (∀ b ∈ l, 128 ≤ b.toNat) → (∀ b ∈ zs, b = 0) →
    varint32Loop bitpos result (l ++ zs) = (some n, rest) → rest <:+ zs := by
  induction l with
  | nil =>
    intro bitpos result n rest _ _ h
    have := varint32Loop_suffix zs bitpos result
    rw [List.nil_append] at h
    rwa [h] at this
  | cons b l ih =>
    intro bitpos result n rest hl hz h
    have hb : b &&& 0x80 ≠ 0 := Varint.and_0x80_ne_zero.2 (hl b List.mem_cons_self)
    rw [List.cons_append, varint32Loop] at h
    simp only [if_pos hb] at h
    split_ifs at h <;>
      first
        | exact ih (fun c hc => hl c (List.mem_cons_of_mem _ hc)) hz h
        | simp at h

/-- The first bytes of a numeral are not its last. -/
theorem take_encode {n j : ℕ} (hj : j < (Varint.encode n).length) :
    ∀ b ∈ (Varint.encode n).take j, 128 ≤ b.toNat := by
  obtain ⟨init, last, he, hi, -⟩ := Varint.encode_eq_append n
  rw [he, List.length_append, List.length_singleton] at hj
  rw [he, List.take_append_of_le_length (by omega)]
  exact fun b hb => hi b (List.mem_of_mem_take hb)

theorem pbDecodeVarint_cut {n j v : ℕ} {zs : List UInt8} {rest : PbIstream}
    (hj : j < (Varint.encode n).length) (hz : ∀ b ∈ zs, b = 0)
    (h : pbDecodeVarint ((Varint.encode n).take j ++ zs) = (some v, rest)) : rest <:+ zs :=
  varintLoop_cut (take_encode hj) hz h

theorem pbDecodeVarint32_cut {n j v : ℕ} {zs : List UInt8} {rest : PbIstream}
    (hj : j < (Varint.encode n).length) (hz : ∀ b ∈ zs, b = 0)
    (h : pbDecodeVarint32 ((Varint.encode n).take j ++ zs) = (some v, rest)) : rest <:+ zs := by
  rcases hl : (Varint.encode n).take j with _ | ⟨b, l⟩
  · have := pbDecodeVarint32_suffix zs
    rw [hl, List.nil_append] at h
    rwa [h] at this
  · have hb := take_encode hj
    rw [hl] at h hb
    have hne : ¬ b &&& 0x80 = 0 := Varint.and_0x80_ne_zero.2 (hb b List.mem_cons_self)
    simp only [pbDecodeVarint32, List.cons_append, pbDecodeVarint32Eof, if_neg hne] at h
    exact varint32Loop_cut (fun c hc => hb c (List.mem_cons_of_mem _ hc)) hz
      (Prod.ext (congrArg Prod.fst h) (congrArg Prod.snd h))

/-- The same for bytes with their length in front. -/
theorem pbRead_cut {s zs x : List UInt8} {j size : ℕ} {rest rest' : PbIstream}
    (hs : s.length < 2 ^ 32) (hz : ∀ b ∈ zs, b = 0)
    (h : pbDecodeVarint32 ((Varint.encode s.length ++ s).take j ++ zs) = (some size, rest))
    (hr : pbRead rest size = (some x, rest')) : rest' <:+ zs := by
  have hread := pbRead_suffix rest size
  rw [hr] at hread
  by_cases hlt : j < (Varint.encode s.length).length
  · -- in the length
    rw [List.take_append_of_le_length (by omega)] at h
    exact hread.trans (pbDecodeVarint32_cut hlt hz h)
  · -- in the bytes
    have htake : (Varint.encode s.length ++ s).take j =
        Varint.encode s.length ++ s.take (j - (Varint.encode s.length).length) := by
      rw [List.take_append, List.take_of_length_le (by omega)]
    rw [htake, List.append_assoc, pbDecodeVarint32_encode hs] at h
    cases h
    rw [pbRead] at hr
    split_ifs at hr
    · cases hr
    cases hr
    rw [List.drop_append, List.drop_of_length_le (by simp), List.nil_append]
    exact List.drop_suffix _ _

end PacketSerial
