/-
  nanopb: the readers of `pb_decode.c` on a stream in memory, and the values that they read.

  A substream is a copy of the stream with a count of its own, and the stream moves past it
  only when it is closed.

  * the `_eq` lemmas: a reader does in memory what its model does on the list of the bytes;
  * `pbMakeStringSubstream_some`, `pbCloseStringSubstream_eq`: a substream, and where the
    stream is once it is closed;
  * `Reads`: so with a value, and the stream stays inside; the `_reads` lemmas.
-/
import PacketSerial.Nanopb.BufStream
import PacketSerial.Nanopb.Ltypes

namespace PacketSerial

variable {α : Type}

namespace PbBufStream

/-! ## More readers -/

section
variable (mem : ℕ → UInt8)

/-- `pb_read`: `buf_read` copies the bytes from `state` on. -/
def pbRead (s : PbBufStream) (count : ℕ) : Option (List UInt8) × PbBufStream :=
  if s.bytesLeft < count then (none, s)
  else (some ((List.range' s.state count).map mem), ⟨s.state + count, s.bytesLeft - count⟩)

/-- `pb_decode_varint32` -/
def pbDecodeVarint32 (s : PbBufStream) : Option ℕ × PbBufStream :=
  let r := s.pbDecodeVarint32Eof mem
  (r.1, r.2.2)

/-- The loop of `pb_decode_varint`. -/
def varintLoop (bitpos result state : ℕ) : ℕ → Option ℕ × PbBufStream
  | 0 => (none, ⟨state, 0⟩)
  | bytesLeft + 1 =>
    if 64 ≤ bitpos then (none, ⟨state, bytesLeft + 1⟩)
    else
      let byte := mem state
      let result' := (result ||| (byte &&& 0x7F).toNat <<< bitpos) % 2 ^ 64
      if byte &&& 0x80 ≠ 0 then varintLoop (bitpos + 7) result' (state + 1) bytesLeft
      else (some result', ⟨state + 1, bytesLeft⟩)

/-- `pb_decode_varint` -/
def pbDecodeVarint (s : PbBufStream) : Option ℕ × PbBufStream :=
  varintLoop mem 0 0 s.state s.bytesLeft

/-- `pb_make_string_substream`: the substream, and the stream, which stays where the
    substream starts. -/
def pbMakeStringSubstream (s : PbBufStream) : Option PbBufStream × PbBufStream :=
  match s.pbDecodeVarint32 mem with
  | (none, s) => (none, s)
  | (some size, s) =>
    if s.bytesLeft < size then (none, s)
    else (some ⟨s.state, size⟩, ⟨s.state, s.bytesLeft - size⟩)

/-- `pb_close_string_substream`: what is left of the substream is skipped. -/
def pbCloseStringSubstream (s substream : PbBufStream) : Bool × PbBufStream :=
  if substream.bytesLeft = 0 then (true, ⟨substream.state, s.bytesLeft⟩)
  else
    match substream.pbSkip substream.bytesLeft with
    | (false, _) => (false, s)
    | (true, substream) => (true, ⟨substream.state, s.bytesLeft⟩)

/-! ## Values -/

/-- `pb_dec_uvarint` into a number of `bits` bits -/
def pbDecUvarint (bits : ℕ) (s : PbBufStream) : Option ℕ × PbBufStream :=
  match s.pbDecodeVarint mem with
  | (none, s) => (none, s)
  | (some value, s) => if value % 2 ^ bits ≠ value then (none, s) else (some value, s)

/-- `pb_dec_varint` with `data_size` 1 -/
def pbDecVarint8 (s : PbBufStream) : Option UInt8 × PbBufStream :=
  match s.pbDecodeVarint mem with
  | (none, s) => (none, s)
  | (some value, s) =>
    let svalue := toInt32 value
    let clamped := toInt8 svalue
    if clamped ≠ svalue then (none, s) else (some (UInt8.ofNat (clamped % 256).toNat), s)

/-- `pb_dec_bytes` -/
def pbDecBytes (n : ℕ) (s : PbBufStream) : Option (List UInt8) × PbBufStream :=
  match s.pbDecodeVarint32 mem with
  | (none, s) => (none, s)
  | (some size, s) =>
    let allocSize := size + 2
    if size > 65535 then (none, s)
    else if allocSize > n + 2 then (none, s)
    else s.pbRead mem size

/-- `pb_dec_string` -/
def pbDecString (n : ℕ) (s : PbBufStream) : Option (List UInt8) × PbBufStream :=
  match s.pbDecodeVarint32 mem with
  | (none, s) => (none, s)
  | (some size, s) =>
    let allocSize := (size + 1) % 2 ^ 32
    if allocSize < size then (none, s)
    else if allocSize > n then (none, s)
    else s.pbRead mem size

end

/-! ## The readers agree -/

section
variable {mem : ℕ → UInt8} {s s' : PbBufStream}

theorem leave_suffix {l : PbIstream} (h : l <:+ s.bytes mem) : Within s (s.leave l) :=
  leave_within (h.length_le.trans_eq (length_bytes mem s))

theorem pbRead_eq (mem : ℕ → UInt8) (s : PbBufStream) (count : ℕ) :
    s.pbRead mem count =
      let r := PacketSerial.pbRead (s.bytes mem) count
      (r.1, s.leave r.2) := by
  have hskip := pbSkip_eq mem s count
  rw [pbSkip, PacketSerial.pbSkip] at hskip
  rw [pbRead]
  rw [PacketSerial.pbRead, length_bytes] at hskip ⊢
  split_ifs at hskip ⊢ with h
  · exact Prod.ext rfl (Prod.ext_iff.1 hskip).2
  · refine Prod.ext (congrArg some ?_) (Prod.ext_iff.1 hskip).2
    rw [bytes, ← List.map_take, List.take_range'_of_length_ge (not_lt.1 h)]

theorem pbDecodeVarint32_eq (mem : ℕ → UInt8) (s : PbBufStream) :
    s.pbDecodeVarint32 mem =
      let r := PacketSerial.pbDecodeVarint32 (s.bytes mem)
      (r.1, s.leave r.2) := by
  rw [pbDecodeVarint32, pbDecodeVarint32Eof_eq]
  rfl

theorem varintLoop_eq (mem : ℕ → UInt8) (n : ℕ) : ∀ bitpos result state : ℕ,
    varintLoop mem bitpos result state n =
      let r := PacketSerial.varintLoop bitpos result (bytes mem ⟨state, n⟩)
      (r.1, leave ⟨state, n⟩ r.2) := by
  induction n with
  | zero => intro bitpos result state; rfl
  | succ n ih =>
    intro bitpos result state
    rw [varintLoop, bytes_succ, PacketSerial.varintLoop]
    dsimp only
    split_ifs
    · rw [← bytes_succ, leave_bytes]
    · rw [leave_succ]
      exact ih _ _ _
    · rw [leave_succ, leave_bytes]

theorem pbDecodeVarint_eq (mem : ℕ → UInt8) (s : PbBufStream) :
    s.pbDecodeVarint mem =
      let r := PacketSerial.pbDecodeVarint (s.bytes mem)
      (r.1, s.leave r.2) := varintLoop_eq mem s.bytesLeft 0 0 s.state

theorem pbMakeStringSubstream_none (h : s.pbMakeStringSubstream mem = (none, s')) :
    PacketSerial.pbMakeStringSubstream (s.bytes mem) = (none, s'.bytes mem) ∧ Within s s' := by
  have hsuf := pbDecodeVarint32_suffix (s.bytes mem)
  rw [pbMakeStringSubstream, pbDecodeVarint32_eq] at h
  rw [PacketSerial.pbMakeStringSubstream]
  rcases hv : PacketSerial.pbDecodeVarint32 (s.bytes mem) with ⟨_ | size, l⟩ <;>
    rw [hv] at h hsuf <;> dsimp only at h hsuf ⊢
  · cases h
    exact ⟨by rw [bytes_leave hsuf], leave_suffix hsuf⟩
  · by_cases hlt : (s.leave l).bytesLeft < size
    · rw [if_pos hlt] at h
      cases h
      have hread : PacketSerial.pbRead l size = (none, l) := if_pos hlt
      rw [hread, bytes_leave hsuf]
      exact ⟨rfl, leave_suffix hsuf⟩
    · rw [if_neg hlt] at h
      cases h

/-- Where there is a substream, the stream is behind it once it is closed. -/
theorem pbMakeStringSubstream_some {substream : PbBufStream}
    (h : s.pbMakeStringSubstream mem = (some substream, s')) :
    PacketSerial.pbMakeStringSubstream (s.bytes mem) =
        (some (substream.bytes mem), bytes mem ⟨substream.stop, s'.bytesLeft⟩) ∧
      Within s ⟨substream.stop, s'.bytesLeft⟩ ∧ s.state ≤ substream.state := by
  have hsuf := pbDecodeVarint32_suffix (s.bytes mem)
  rw [pbMakeStringSubstream, pbDecodeVarint32_eq] at h
  rw [PacketSerial.pbMakeStringSubstream]
  rcases hv : PacketSerial.pbDecodeVarint32 (s.bytes mem) with ⟨_ | size, l⟩ <;>
    rw [hv] at h hsuf <;> dsimp only at h hsuf ⊢
  · cases h
  · have hread := pbRead_eq mem (s.leave l) size
    have hw := leave_suffix hsuf
    rw [bytes_leave hsuf] at hread
    by_cases hlt : (s.leave l).bytesLeft < size
    · rw [if_pos hlt] at h
      cases h
    rw [if_neg hlt, Prod.mk.injEq, Option.some.injEq] at h
    obtain ⟨rfl, rfl⟩ := h
    rw [pbRead, if_neg hlt] at hread
    have hsuf' : (PacketSerial.pbRead l size).2 <:+ (s.leave l).bytes mem := by
      rw [bytes_leave hsuf]
      exact pbRead_suffix l size
    obtain ⟨hbytes, hrest⟩ := Prod.ext_iff.1 hread
    dsimp only at hbytes hrest
    have hskip := leave_suffix hsuf'
    have hback := bytes_leave hsuf'
    rw [← hrest] at hskip hback
    exact ⟨Prod.ext hbytes.symm hback.symm, hw.trans hskip, hw.start⟩

/-- A substream is closed at its end. -/
theorem pbCloseStringSubstream_eq {substream substream' : PbBufStream}
    (h : Within substream substream') :
    s.pbCloseStringSubstream substream' = (true, ⟨substream.stop, s.bytesLeft⟩) := by
  have hstop : substream'.state + substream'.bytesLeft = substream.stop := h.stop
  rw [pbCloseStringSubstream]
  split_ifs with h0
  · rw [h0, Nat.add_zero] at hstop
    rw [hstop]
  · rw [pbSkip, if_neg (Nat.lt_irrefl _)]
    dsimp only
    rw [hstop]

end

/-! ## Values agree -/

/-- A value read from the stream `s` in memory, and from the list of its bytes: they are the
    same, with the same bytes left; and the stream goes on to its end, also on failure. -/
structure Reads (mem : ℕ → UInt8) (s : PbBufStream) (r : Option α × PbBufStream)
    (r' : Option (α × PbIstream)) : Prop where
  value : r.1 = r'.map Prod.fst
  left : ∀ {a rest}, r' = some (a, rest) → r.2.bytes mem = rest
  within : Within s r.2

section
variable {mem : ℕ → UInt8} {s s' : PbBufStream}

theorem reads_none (h : Within s s') : Reads mem s ((none : Option α), s') none :=
  ⟨rfl, nofun, h⟩

theorem reads_some {l : PbIstream} (h : l <:+ s.bytes mem) (a : α) :
    Reads mem s (some a, s.leave l) (some (a, l)) := by
  refine ⟨rfl, fun he => ?_, leave_suffix h⟩
  cases he
  exact bytes_leave h

theorem Reads.map {β : Type} {r : Option α × PbBufStream} {r' : Option (α × PbIstream)}
    (h : Reads mem s r r') (g : α → β) :
    Reads mem s (r.1.map g, r.2) (r'.map fun x => (g x.1, x.2)) := by
  refine ⟨?_, fun he => ?_, h.within⟩
  · rw [h.value, Option.map_map, Option.map_map]
    rfl
  · obtain ⟨x, hx, hg⟩ := Option.map_eq_some_iff.1 he
    cases hg
    exact h.left hx

/-- What follows a length. -/
theorem pbRead_reads {l : PbIstream} (h : l <:+ s.bytes mem) (size : ℕ) :
    Reads mem s ((s.leave l).pbRead mem size) (match PacketSerial.pbRead l size with
      | (none, _) => none
      | (some bytes, rest) => some (bytes, rest)) := by
  have hle : l.length ≤ s.bytesLeft := h.length_le.trans_eq (length_bytes mem s)
  have hsuf := (pbRead_suffix l size).trans h
  rw [pbRead_eq, bytes_leave h]
  rcases hr : PacketSerial.pbRead l size with ⟨_ | bytes, rest⟩ <;> rw [hr] at hsuf <;>
    dsimp only at hsuf ⊢ <;> rw [leave_leave hle]
  · exact reads_none (leave_suffix hsuf)
  · exact reads_some hsuf bytes

theorem pbDecUvarint_reads (mem : ℕ → UInt8) (s : PbBufStream) (bits : ℕ) :
    Reads mem s (s.pbDecUvarint mem bits) (PacketSerial.pbDecUvarint bits (s.bytes mem)) := by
  have hsuf := pbDecodeVarint_suffix (s.bytes mem)
  rw [pbDecUvarint, pbDecodeVarint_eq, PacketSerial.pbDecUvarint]
  rcases hv : PacketSerial.pbDecodeVarint (s.bytes mem) with ⟨_ | value, rest⟩ <;> rw [hv] at hsuf
  · exact reads_none (leave_suffix hsuf)
  · dsimp only
    split_ifs
    · exact reads_none (leave_suffix hsuf)
    · exact reads_some hsuf value

theorem pbDecVarint8_reads (mem : ℕ → UInt8) (s : PbBufStream) :
    Reads mem s (s.pbDecVarint8 mem) (PacketSerial.pbDecVarint8 (s.bytes mem)) := by
  have hsuf := pbDecodeVarint_suffix (s.bytes mem)
  rw [pbDecVarint8, pbDecodeVarint_eq, PacketSerial.pbDecVarint8]
  rcases hv : PacketSerial.pbDecodeVarint (s.bytes mem) with ⟨_ | value, rest⟩ <;> rw [hv] at hsuf
  · exact reads_none (leave_suffix hsuf)
  · dsimp only
    split_ifs
    · exact reads_none (leave_suffix hsuf)
    · exact reads_some hsuf _

theorem pbDecBytes_reads (mem : ℕ → UInt8) (s : PbBufStream) (n : ℕ) :
    Reads mem s (s.pbDecBytes mem n) (PacketSerial.pbDecBytes n (s.bytes mem)) := by
  have hsuf := pbDecodeVarint32_suffix (s.bytes mem)
  rw [pbDecBytes, pbDecodeVarint32_eq, PacketSerial.pbDecBytes]
  rcases hv : PacketSerial.pbDecodeVarint32 (s.bytes mem) with ⟨_ | size, rest⟩ <;> rw [hv] at hsuf
  · exact reads_none (leave_suffix hsuf)
  · dsimp only
    split_ifs
    · exact reads_none (leave_suffix hsuf)
    · exact reads_none (leave_suffix hsuf)
    · exact pbRead_reads hsuf size

theorem pbDecString_reads (mem : ℕ → UInt8) (s : PbBufStream) (n : ℕ) :
    Reads mem s (s.pbDecString mem n) (PacketSerial.pbDecString n (s.bytes mem)) := by
  have hsuf := pbDecodeVarint32_suffix (s.bytes mem)
  rw [pbDecString, pbDecodeVarint32_eq, PacketSerial.pbDecString]
  rcases hv : PacketSerial.pbDecodeVarint32 (s.bytes mem) with ⟨_ | size, rest⟩ <;> rw [hv] at hsuf
  · exact reads_none (leave_suffix hsuf)
  · dsimp only
    split_ifs
    · exact reads_none (leave_suffix hsuf)
    · exact reads_none (leave_suffix hsuf)
    · exact pbRead_reads hsuf size

end

end PbBufStream

end PacketSerial
