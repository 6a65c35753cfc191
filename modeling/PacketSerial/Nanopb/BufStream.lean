/-
  nanopb: input streams as `pb_decode.c` keeps them, a pointer and a count.

  `PbIstream` lists the bytes that can still be read.  Here a stream is the address of
  its next byte and the number of bytes left, over a memory that goes on past the end
  of the message; only the count keeps a reader inside.

  * `PbBufStream.bytes`: the list that a stream stands for;
  * `PbBufStream.leave`: the stream, when only a suffix of that list is left;
  * `Within`: a stream that ends where another does, with no more bytes left;
  * the `_eq` lemmas: the readers that the scan of a union message uses do on streams what
    their models do on lists, and move the pointer by what they take off the count.
-/
import PacketSerial.Nanopb.Istream

namespace PacketSerial

/-- The fields `state` and `bytes_left` of a `pb_istream_t` made from a buffer. -/
structure PbBufStream where
  state : ℕ
  bytesLeft : ℕ
deriving DecidableEq, Repr

namespace PbBufStream

/-- The address after the last byte. -/
def stop (s : PbBufStream) : ℕ := s.state + s.bytesLeft

/-- The bytes that are left. -/
def bytes (mem : ℕ → UInt8) (s : PbBufStream) : PbIstream :=
  (List.range' s.state s.bytesLeft).map mem

/-- The stream that has the bytes `l` left, up to the same end. -/
def leave (s : PbBufStream) (l : PbIstream) : PbBufStream := ⟨s.stop - l.length, l.length⟩

section
variable (mem : ℕ → UInt8)

/-! ## The readers -/

/-- `pb_read(stream, NULL, count)`; `buf_read` moves the pointer, whatever is left. -/
def pbSkip (s : PbBufStream) (count : ℕ) : Bool × PbBufStream :=
  if s.bytesLeft < count then (false, s)
  else (true, ⟨s.state + count, s.bytesLeft - count⟩)

/-- The loop of `pb_decode_varint32_eof`; `pb_readbyte` fails when nothing is left. -/
def varint32Loop (bitpos result state : ℕ) : ℕ → Option ℕ × PbBufStream
  | 0 => (none, ⟨state, 0⟩)
  | bytesLeft + 1 =>
    let byte := mem state
    let signExtension : UInt8 := if bitpos < 63 then 0xFF else 0x01
    if 32 ≤ bitpos ∧ byte &&& 0x7F ≠ 0 ∧ (result >>> 31 = 0 ∨ byte ≠ signExtension) then
      (none, ⟨state + 1, bytesLeft⟩)
    else
      let result' := if 32 ≤ bitpos then result
        else (result ||| (byte &&& 0x7F).toNat <<< bitpos) % 2 ^ 32
      let bitpos' := (bitpos + 7) % 256
      if byte &&& 0x80 ≠ 0 then varint32Loop bitpos' result' (state + 1) bytesLeft
      else if bitpos' = 35 ∧ byte &&& 0x70 ≠ 0 then (none, ⟨state + 1, bytesLeft⟩)
      else (some result', ⟨state + 1, bytesLeft⟩)

/-- `pb_decode_varint32_eof` -/
def pbDecodeVarint32Eof : PbBufStream → Option ℕ × Bool × PbBufStream
  | ⟨state, 0⟩ => (none, true, ⟨state, 0⟩)
  | ⟨state, bytesLeft + 1⟩ =>
    let byte := mem state
    if byte &&& 0x80 = 0 then (some byte.toNat, false, ⟨state + 1, bytesLeft⟩)
    else
      let r := varint32Loop mem 7 (byte &&& 0x7F).toNat (state + 1) bytesLeft
      (r.1, false, r.2)

/-- `pb_skip_varint` -/
def pbSkipVarint (state : ℕ) : ℕ → Bool × PbBufStream
  | 0 => (false, ⟨state, 0⟩)
  | bytesLeft + 1 =>
    if mem state &&& 0x80 ≠ 0 then pbSkipVarint (state + 1) bytesLeft
    else (true, ⟨state + 1, bytesLeft⟩)

/-- `pb_skip_string` -/
def pbSkipString (s : PbBufStream) : Bool × PbBufStream :=
  match pbDecodeVarint32Eof mem s with
  | (none, _, s) => (false, s)
  | (some length, _, s) => s.pbSkip length

/-- `pb_decode_tag` -/
def pbDecodeTag (s : PbBufStream) : Option (WireType × ℕ) × Bool × PbBufStream :=
  match pbDecodeVarint32Eof mem s with
  | (none, eof, s) => (none, eof, s)
  | (some temp, eof, s) =>
    if temp = 0 then (none, true, s)
    else (some (WireType.ofNat (temp % 8), temp / 8), eof, s)

/-- `pb_skip_field` -/
def pbSkipField (s : PbBufStream) : WireType → Bool × PbBufStream
  | .varint => pbSkipVarint mem s.state s.bytesLeft
  | .bit64 => s.pbSkip 8
  | .string => s.pbSkipString mem
  | .bit32 => s.pbSkip 4
  | .other _ => (false, s)

end

/-! ## Streams and lists -/

section
variable {mem : ℕ → UInt8} {s : PbBufStream}

@[simp] theorem length_bytes (mem : ℕ → UInt8) (s : PbBufStream) :
    (s.bytes mem).length = s.bytesLeft := by
  rw [bytes, List.length_map, List.length_range']

@[simp] theorem bytes_zero (mem : ℕ → UInt8) (state : ℕ) : bytes mem ⟨state, 0⟩ = [] := rfl

@[simp] theorem bytes_succ (mem : ℕ → UInt8) (state bytesLeft : ℕ) :
    bytes mem ⟨state, bytesLeft + 1⟩ = mem state :: bytes mem ⟨state + 1, bytesLeft⟩ := rfl

/-- A stream that leaves all its bytes is where it was. -/
theorem leave_bytes (mem : ℕ → UInt8) (s : PbBufStream) : s.leave (s.bytes mem) = s := by
  rw [leave, length_bytes, stop, Nat.add_sub_cancel]

/-- After the first byte, the end is the same. -/
theorem leave_succ (state bytesLeft : ℕ) :
    leave ⟨state, bytesLeft + 1⟩ = leave ⟨state + 1, bytesLeft⟩ := by
  funext l
  simp only [leave, stop, mk.injEq, and_true]
  omega

theorem stop_leave {l : PbIstream} (h : l.length ≤ s.bytesLeft) : (s.leave l).stop = s.stop := by
  rw [stop, leave, stop]
  dsimp only
  omega

/-- What is left is a suffix, in memory too. -/
theorem bytes_leave {l : PbIstream} (h : l <:+ s.bytes mem) : (s.leave l).bytes mem = l := by
  have hle := h.length_le
  rw [length_bytes] at hle
  have hdrop : s.bytesLeft - (s.bytesLeft - l.length) = l.length := by omega
  have hstate : s.state + (s.bytesLeft - l.length) = s.stop - l.length := by rw [stop]; omega
  conv_rhs => rw [List.suffix_iff_eq_drop.1 h, length_bytes, bytes, ← List.map_drop,
    List.drop_range', mul_one, hdrop, hstate]
  rfl

theorem leave_leave {l l' : PbIstream} (h : l.length ≤ s.bytesLeft) :
    (s.leave l).leave l' = s.leave l' := by
  rw [leave, stop_leave h, leave]

/-- The stream `s'` is `s`, moved on to the same end. -/
structure Within (s s' : PbBufStream) : Prop where
  start : s.state ≤ s'.state
  stop : s'.stop = s.stop

theorem Within.refl (s : PbBufStream) : Within s s := ⟨le_rfl, rfl⟩

theorem Within.trans {s s' s'' : PbBufStream} (h : Within s s') (h' : Within s' s'') :
    Within s s'' := ⟨h.start.trans h'.start, h'.stop.trans h.stop⟩

theorem Within.bytesLeft_le {s s' : PbBufStream} (h : Within s s') :
    s'.bytesLeft ≤ s.bytesLeft := by
  have hstart := h.start
  have hstop := h.stop
  rw [PbBufStream.stop, PbBufStream.stop] at hstop
  omega

theorem leave_within {s : PbBufStream} {l : PbIstream} (h : l.length ≤ s.bytesLeft) :
    Within s (s.leave l) := by
  refine ⟨?_, stop_leave h⟩
  rw [leave, stop]
  dsimp only
  omega

/-! ## The readers agree -/

theorem pbSkip_eq (mem : ℕ → UInt8) (s : PbBufStream) (count : ℕ) :
    s.pbSkip count =
      let r := PacketSerial.pbSkip (s.bytes mem) count
      (r.1, s.leave r.2) := by
  rw [pbSkip, PacketSerial.pbSkip, pbRead, length_bytes]
  split_ifs with h
  · exact Prod.ext rfl (leave_bytes mem s).symm
  · have hlen : ((s.bytes mem).drop count).length = s.bytesLeft - count := by
      rw [List.length_drop, length_bytes]
    refine Prod.ext rfl ?_
    dsimp only
    rw [leave, hlen, mk.injEq, stop]
    omega

theorem varint32Loop_eq (mem : ℕ → UInt8) (n : ℕ) : ∀ bitpos result state : ℕ,
    varint32Loop mem bitpos result state n =
      let r := PacketSerial.varint32Loop bitpos result (bytes mem ⟨state, n⟩)
      (r.1, leave ⟨state, n⟩ r.2) := by
  induction n with
  | zero => intro bitpos result state; rfl
  | succ n ih =>
    intro bitpos result state
    have hbytes := leave_bytes mem ⟨state + 1, n⟩
    rw [varint32Loop, bytes_succ, PacketSerial.varint32Loop, leave_succ]
    dsimp only
    -- the loop goes on with the next byte, or stops after this one
    split_ifs <;> first | exact ih _ _ _ | rw [hbytes]

theorem pbDecodeVarint32Eof_eq (mem : ℕ → UInt8) (s : PbBufStream) :
    s.pbDecodeVarint32Eof mem =
      let r := PacketSerial.pbDecodeVarint32Eof (s.bytes mem)
      (r.1, r.2.1, s.leave r.2.2) := by
  obtain ⟨state, _ | n⟩ := s
  · rfl
  · rw [pbDecodeVarint32Eof, bytes_succ, PacketSerial.pbDecodeVarint32Eof, leave_succ]
    dsimp only
    split_ifs
    · rw [leave_bytes]
    · rw [varint32Loop_eq]

theorem pbSkipVarint_eq (mem : ℕ → UInt8) (n : ℕ) : ∀ state : ℕ,
    pbSkipVarint mem state n =
      let r := PacketSerial.pbSkipVarint (bytes mem ⟨state, n⟩)
      (r.1, leave ⟨state, n⟩ r.2) := by
  induction n with
  | zero => intro state; rfl
  | succ n ih =>
    intro state
    rw [pbSkipVarint, bytes_succ, PacketSerial.pbSkipVarint, leave_succ]
    split_ifs
    · exact ih _
    · exact Prod.ext rfl (leave_bytes mem _).symm

theorem pbSkipString_eq (mem : ℕ → UInt8) (s : PbBufStream) :
    s.pbSkipString mem =
      let r := PacketSerial.pbSkipString (s.bytes mem)
      (r.1, s.leave r.2) := by
  have hsuf : (PacketSerial.pbDecodeVarint32Eof (s.bytes mem)).2.2 <:+ s.bytes mem :=
    pbDecodeVarint32_suffix (s.bytes mem)
  rw [pbSkipString, PacketSerial.pbSkipString, pbDecodeVarint32, pbDecodeVarint32Eof_eq]
  rcases hd : PacketSerial.pbDecodeVarint32Eof (s.bytes mem) with ⟨_ | length, eof, rest⟩
  · rfl
  · rw [hd] at hsuf
    have hle : rest.length ≤ s.bytesLeft := hsuf.length_le.trans_eq (length_bytes mem s)
    dsimp only
    rw [pbSkip_eq mem, bytes_leave hsuf]
    dsimp only
    rw [leave_leave hle]

/-- **The tag decoder** does on the stream what its model does on the list. -/
theorem pbDecodeTag_eq (mem : ℕ → UInt8) (s : PbBufStream) :
    s.pbDecodeTag mem =
      let r := PacketSerial.pbDecodeTag (s.bytes mem)
      (r.1, r.2.1, s.leave r.2.2) := by
  rw [pbDecodeTag, PacketSerial.pbDecodeTag, pbDecodeVarint32Eof_eq]
  rcases PacketSerial.pbDecodeVarint32Eof (s.bytes mem) with ⟨_ | temp, eof, rest⟩
  · rfl
  · dsimp only
    split_ifs <;> rfl

/-- **So does `pb_skip_field`**, whether it fails or not. -/
theorem pbSkipField_eq (mem : ℕ → UInt8) (s : PbBufStream) (wireType : WireType) :
    s.pbSkipField mem wireType =
      let r := PacketSerial.pbSkipField (s.bytes mem) wireType
      (r.1, s.leave r.2) := by
  cases wireType with
  | varint => exact pbSkipVarint_eq mem s.bytesLeft s.state
  | bit64 => exact pbSkip_eq mem s 8
  | string => exact pbSkipString_eq mem s
  | bit32 => exact pbSkip_eq mem s 4
  | other n => exact Prod.ext rfl (leave_bytes mem s).symm

end

end PbBufStream

end PacketSerial
