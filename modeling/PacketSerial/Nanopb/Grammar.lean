/-
  The wire format: a message is a sequence of fields, each a key (its tag and wire
  type, as a numeral) and a value that is all there.

  * `WireField`: a complete field;
  * `WireField.decode_key`, `WireField.skip_value`: the tag decoder reads its key, and
    `pb_skip_field` takes its value and nothing else.
-/
import PacketSerial.Nanopb.Istream

namespace PacketSerial

/-- A numeral of the length that the format allows. -/
def IsNumeral (l : List UInt8) (n : ℕ) : Prop := Varint.Numeral l n ∧ l.length ≤ 10

/-- A value of the wire type, complete. -/
inductive CompleteValue : WireType → List UInt8 → Prop
  | varint {l : List UInt8} {n : ℕ} : IsNumeral l n → n < 2 ^ 64 → CompleteValue .varint l
  | bit64 {l : List UInt8} : l.length = 8 → CompleteValue .bit64 l
  | string {l s : List UInt8} : IsNumeral l s.length → s.length < 2 ^ 32 →
      CompleteValue .string (l ++ s)
  | bit32 {l : List UInt8} : l.length = 4 → CompleteValue .bit32 l

/-- A complete field. -/
structure WireField where
  key : List UInt8
  wireType : WireType
  tag : ℕ
  value : List UInt8
  tag_pos : 0 < tag
  tag_lt : tag < 2 ^ 29
  key_numeral : IsNumeral key (8 * tag + wireType.code)
  complete : CompleteValue wireType value

def WireField.bytes (f : WireField) : List UInt8 := f.key ++ f.value

/-- The bytes of a message. -/
def wireBytes (fs : List WireField) : List UInt8 := fs.flatMap WireField.bytes

@[simp] theorem wireBytes_nil : wireBytes [] = [] := rfl

@[simp] theorem wireBytes_cons (f : WireField) (fs : List WireField) :
    wireBytes (f :: fs) = f.bytes ++ wireBytes fs := rfl

/-- **`pb_skip_field` takes a complete value.** -/
theorem CompleteValue.skip {wireType : WireType} {v : List UInt8} (h : CompleteValue wireType v)
    (rest : PbIstream) : pbSkipField (v ++ rest) wireType = (true, rest) := by
  cases h with
  | varint hl _ => exact pbSkipVarint_numeral hl.1 rest
  | bit64 hl => simp [pbSkipField, pbSkip, pbRead, ← hl]
  | bit32 hl => simp [pbSkipField, pbSkip, pbRead, ← hl]
  | string hl hs =>
    rw [pbSkipField, pbSkipString, List.append_assoc,
      pbDecodeVarint32_numeral hl.1 (hl.2.trans (by omega)) hs]
    simp [pbSkip, pbRead]

/-- The wire types that have values have their own numbers. -/
theorem CompleteValue.ofNat_code {wireType : WireType} {v : List UInt8}
    (h : CompleteValue wireType v) :
    wireType.code < 8 ∧ WireType.ofNat wireType.code = wireType := by
  cases h <;> decide

namespace WireField

theorem decode_key (f : WireField) (rest : PbIstream) :
    pbDecodeTag (f.key ++ rest) = (some (f.wireType, f.tag), false, rest) := by
  obtain ⟨hlt, hcode⟩ := f.complete.ofNat_code
  have hpos := f.tag_pos
  have htag := f.tag_lt
  rw [pbDecodeTag_numeral f.key_numeral.1 (f.key_numeral.2.trans (by omega)) (by omega) (by omega),
    show (8 * f.tag + f.wireType.code) % 8 = f.wireType.code by omega,
    show (8 * f.tag + f.wireType.code) / 8 = f.tag by omega, hcode]

theorem skip_value (f : WireField) (rest : PbIstream) :
    pbSkipField (f.value ++ rest) f.wireType = (true, rest) := f.complete.skip rest

theorem length_pos (f : WireField) : 0 < f.bytes.length := by
  have := f.key_numeral.1.length_pos
  rw [bytes, List.length_append]; omega

end WireField

end PacketSerial
