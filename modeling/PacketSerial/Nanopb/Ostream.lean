/-
  nanopb: output streams and the writers of `pb_encode.c` below the level of
  fields.

  A stream either stores into a buffer (`callback`) or only counts
  (`PB_OSTREAM_SIZING`).  `Writes enc w` says all that matters about a writer
  `enc`: it writes the bytes `w` if they fit, it counts them on a sizing stream,
  and it fails if they do not fit.  Writers are composed with `andThen`, and
  `Writes` follows the composition.
-/
import PacketSerial.Lib.Varint

namespace PacketSerial

/-- `pb_ostream_t`: `out` is what has been stored through `state` so far. -/
structure PbOstream where
  callback : Bool
  out : List UInt8
  maxSize : ℕ
  bytesWritten : ℕ
deriving DecidableEq, Repr

/-- `pb_ostream_from_buffer` -/
def pbOstreamFromBuffer (bufsize : ℕ) : PbOstream := ⟨true, [], bufsize, 0⟩

/-- `PB_OSTREAM_SIZING` -/
def PbOstream.sizing : PbOstream := ⟨false, [], 0, 0⟩

/-- `if (!f(stream)) return false; return g(stream);` -/
def andThen (r : Bool × PbOstream) (k : PbOstream → Bool × PbOstream) : Bool × PbOstream :=
  if r.1 then k r.2 else r

/-! ## The writers -/

/-- `pb_write` -/
def pbWrite (stream : PbOstream) (buf : List UInt8) (count : ℕ) : Bool × PbOstream :=
  if stream.callback then
    if stream.bytesWritten + count > stream.maxSize then (false, stream)
    else (true, { stream with
      out := stream.out ++ buf.take count, bytesWritten := stream.bytesWritten + count })
  else (true, { stream with bytesWritten := stream.bytesWritten + count })

/-- The loop of `pb_encode_varint` that fills `buffer[10]`. -/
def varintGroups : ℕ → ℕ → List UInt8
  | 0, _ => []
  | room + 1, value =>
    if value = 0 then []
    else UInt8.ofNat (value &&& 0x7F ||| 0x80) :: varintGroups room (value >>> 7)

/-- `buffer[i-1] &= 0x7F` -/
def unsetTopBit : List UInt8 → List UInt8
  | [] => []
  | [b] => [b &&& 0x7F]
  | b :: c :: l => b :: unsetTopBit (c :: l)

/-- `pb_encode_varint` -/
def pbEncodeVarint (value : ℕ) (stream : PbOstream) : Bool × PbOstream :=
  if value ≤ 0x7F then pbWrite stream [UInt8.ofNat value] 1
  else
    let buffer := unsetTopBit (varintGroups 10 value)
    pbWrite stream buffer buffer.length

/-- `pb_encode_tag` -/
def pbEncodeTag (wireType fieldNumber : ℕ) (stream : PbOstream) : Bool × PbOstream :=
  pbEncodeVarint (fieldNumber <<< 3 ||| wireType) stream

/-- `pb_encode_string` -/
def pbEncodeString (buffer : List UInt8) (size : ℕ) (stream : PbOstream) : Bool × PbOstream :=
  andThen (pbEncodeVarint size stream) fun stream => pbWrite stream buffer size

/-- `pb_encode_submessage`, and `pb_encode_delimited`; `encode` is `pb_encode` with
    the fields and the source of the submessage. -/
def pbEncodeSubmessage (encode : PbOstream → Bool × PbOstream) (stream : PbOstream) :
    Bool × PbOstream :=
  -- the message is encoded twice: first to find its size
  let r := encode .sizing
  if !r.1 then (false, stream)
  else
    let size := r.2.bytesWritten
    andThen (pbEncodeVarint size stream) fun stream =>
      if !stream.callback then pbWrite stream [] size
      else if stream.bytesWritten + size > stream.maxSize then (false, stream)
      else
        let s := encode ⟨true, [], size, 0⟩
        let stream := { stream with
          out := stream.out ++ s.2.out, bytesWritten := stream.bytesWritten + s.2.bytesWritten }
        if s.2.bytesWritten ≠ size then (false, stream) else (s.1, stream)

/-! ## What a writer writes -/

/-- The writer `enc` writes the bytes `w`. -/
structure Writes (enc : PbOstream → Bool × PbOstream) (w : List UInt8) : Prop where
  sizing : ∀ st, st.callback = false →
    enc st = (true, { st with bytesWritten := st.bytesWritten + w.length })
  fits : ∀ st, st.callback = true → st.bytesWritten + w.length ≤ st.maxSize →
    enc st = (true, { st with out := st.out ++ w, bytesWritten := st.bytesWritten + w.length })
  full : ∀ st, st.callback = true → st.bytesWritten ≤ st.maxSize →
    st.maxSize < st.bytesWritten + w.length → (enc st).1 = false

namespace Writes

theorem nil : Writes (fun st => (true, st)) [] where
  sizing st _ := rfl
  fits st _ _ := by simp
  full st _ h₁ h₂ := by simp at h₂; omega

theorem write (w : List UInt8) : Writes (fun st => pbWrite st w w.length) w where
  sizing st h := by simp [pbWrite, h]
  fits st h hf := by simp [pbWrite, h, hf]
  full st h _ hf := by simp [pbWrite, h, hf]

theorem andThen {e₁ e₂ : PbOstream → Bool × PbOstream} {w₁ w₂ : List UInt8}
    (h₁ : Writes e₁ w₁) (h₂ : Writes e₂ w₂) :
    Writes (fun st => andThen (e₁ st) e₂) (w₁ ++ w₂) where
  sizing st h := by
    rw [h₁.sizing st h, PacketSerial.andThen, if_pos rfl]
    refine (h₂.sizing { st with bytesWritten := st.bytesWritten + w₁.length } h).trans ?_
    simp [add_assoc]
  fits st h hf := by
    rw [List.length_append] at hf
    rw [h₁.fits st h (by omega), PacketSerial.andThen, if_pos rfl]
    refine (h₂.fits { st with
      out := st.out ++ w₁, bytesWritten := st.bytesWritten + w₁.length } h (by simp; omega)).trans ?_
    simp [add_assoc]
  full st h hle hf := by
    rw [List.length_append] at hf
    by_cases hf₁ : st.bytesWritten + w₁.length ≤ st.maxSize
    · rw [h₁.fits st h hf₁, PacketSerial.andThen, if_pos rfl]
      exact h₂.full _ h hf₁ (by simpa [add_assoc] using hf)
    · have := h₁.full st h hle (by omega)
      simp [PacketSerial.andThen, this]

end Writes

/-! ## The writers write -/

theorem unsetTopBit_varintGroups {room : ℕ} : ∀ {value : ℕ}, 0 < value → value < 2 ^ (7 * room) →
    unsetTopBit (varintGroups room value) = Varint.encode value := by
  induction room with
  | zero => intro value h0 h; simp at h; omega
  | succ room ih =>
    intro value h0 h
    have hg : value &&& 0x7F = value % 128 := Nat.and_two_pow_sub_one_eq_mod value 7
    have hs : value >>> 7 = value / 128 := Nat.shiftRight_eq_div_pow value 7
    have ho : value % 128 ||| 0x80 = value % 128 + 128 := by
      have := Nat.two_pow_add_eq_or_of_lt (i := 7) (b := value % 128) (by omega) 1
      rw [Nat.or_comm]; simpa [add_comm] using this.symm
    rw [varintGroups, if_neg (by omega), hg, hs, ho]
    by_cases hv : value < 128
    · have hz : varintGroups room (value / 128) = [] := by
        rw [show value / 128 = 0 by omega]; cases room <;> rfl
      have hb : UInt8.ofNat (value % 128 + 128) &&& 0x7F = UInt8.ofNat value := by
        rw [← UInt8.toNat_inj, Varint.toNat_and_0x7F, UInt8.toNat_ofNat', UInt8.toNat_ofNat']
        omega
      rw [hz, unsetTopBit, Varint.encode_of_lt hv, hb]
    · have hlt : value / 128 < 2 ^ (7 * room) := by
        rw [show 7 * (room + 1) = 7 * room + 7 by ring, pow_add] at h
        omega
      have ih := @ih (value / 128) (by omega) hlt
      rw [Varint.encode_of_ge (by omega), ← ih]
      cases hg : varintGroups room (value / 128) with
      | nil => rw [hg] at ih; exact absurd ih.symm (Varint.encode_ne_nil _)
      | cons c l => rfl

/-- **`pb_encode_varint` writes the numeral of its value.** -/
theorem writes_pbEncodeVarint {value : ℕ} (h : value < 2 ^ 64) :
    Writes (pbEncodeVarint value) (Varint.encode value) := by
  by_cases hv : value ≤ 0x7F
  · rw [Varint.encode_of_lt (by omega)]
    have he : pbEncodeVarint value = fun st => pbWrite st [UInt8.ofNat value] 1 := by
      funext st; rw [pbEncodeVarint, if_pos hv]
    rw [he]
    exact .write [UInt8.ofNat value]
  · have he : pbEncodeVarint value =
        fun st => pbWrite st (Varint.encode value) (Varint.encode value).length := by
      funext st
      rw [pbEncodeVarint, if_neg hv,
        unsetTopBit_varintGroups (by omega) (h.trans (by norm_num))]
    rw [he]
    exact .write _

theorem writes_pbEncodeTag {wireType fieldNumber : ℕ} (hw : wireType < 8)
    (hf : fieldNumber < 2 ^ 29) :
    Writes (pbEncodeTag wireType fieldNumber) (Varint.encode (8 * fieldNumber + wireType)) := by
  have ht : fieldNumber <<< 3 ||| wireType = 8 * fieldNumber + wireType := by
    rw [Nat.shiftLeft_eq, mul_comm, ← Nat.two_pow_add_eq_or_of_lt (i := 3) (by omega)]
  unfold pbEncodeTag
  rw [ht]
  exact writes_pbEncodeVarint (by omega)

theorem writes_pbEncodeString {s : List UInt8} (h : s.length < 2 ^ 64) :
    Writes (pbEncodeString s s.length) (Varint.encode s.length ++ s) :=
  (writes_pbEncodeVarint h).andThen (.write s)

/-- **`pb_encode_submessage` writes the message with its length in front.** -/
theorem writes_pbEncodeSubmessage {encode : PbOstream → Bool × PbOstream} {w : List UInt8}
    (he : Writes encode w) (h : w.length < 2 ^ 64) :
    Writes (pbEncodeSubmessage encode) (Varint.encode w.length ++ w) := by
  have hsize : encode .sizing = (true, ⟨false, [], 0, w.length⟩) := by
    rw [he.sizing _ rfl]; simp [PbOstream.sizing]
  have hsub : encode ⟨true, [], w.length, 0⟩ = (true, ⟨true, w, w.length, w.length⟩) := by
    rw [he.fits _ rfl (by simp)]; simp
  have hrun : pbEncodeSubmessage encode = fun st =>
      PacketSerial.andThen (pbEncodeVarint w.length st) fun st =>
        if !st.callback then pbWrite st [] w.length
        else if st.bytesWritten + w.length > st.maxSize then (false, st)
        else (true, { st with
          out := st.out ++ w, bytesWritten := st.bytesWritten + w.length }) := by
    funext st
    simp [pbEncodeSubmessage, hsize, hsub]
  rw [hrun]
  refine (writes_pbEncodeVarint h).andThen ⟨fun st h => ?_, fun st h hf => ?_, fun st h _ hf => ?_⟩
  · simp [h, pbWrite]
  · simp [h, hf]
  · simp [h, hf]

/-- A writer that started on an empty buffer. -/
theorem Writes.fromBuffer {enc : PbOstream → Bool × PbOstream} {w : List UInt8} (h : Writes enc w)
    (bufsize : ℕ) :
    if w.length ≤ bufsize then enc (pbOstreamFromBuffer bufsize) = (true, ⟨true, w, bufsize, w.length⟩)
    else (enc (pbOstreamFromBuffer bufsize)).1 = false := by
  split_ifs with hb
  · rw [h.fits _ rfl (by simpa [pbOstreamFromBuffer] using hb)]
    simp [pbOstreamFromBuffer]
  · exact h.full _ rfl (by simp [pbOstreamFromBuffer]) (by simpa [pbOstreamFromBuffer] using hb)

end PacketSerial
