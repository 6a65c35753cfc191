/-
  nanopb: output streams in memory, as `pb_encode.c` keeps them.

  A `PbOstream` lists what has been stored.  Here a stream is the address of its next byte and
  a count of its own; a substream gets a copy of the address, and `buf_write` stores there,
  whatever is in its way.

  * `Extends`: a stream after some bytes: they have been stored one behind the other, and it
    has moved on behind them;
  * `Stores`: a writer has done in memory what its model does on the list;
  * the `_stores` lemmas: so do the writers of `pb_encode.c`.
-/
import PacketSerial.Lib.Memory
import PacketSerial.Nanopb.Ostream

namespace PacketSerial

open Memory

/-- `pb_ostream_t`, with all that `buf_write` has stored through it. -/
structure PbBufOstream where
  callback : Bool
  state : ℕ
  maxSize : ℕ
  bytesWritten : ℕ
  writes : List (Write UInt8)
deriving DecidableEq, Repr

namespace PbBufOstream

/-- `pb_ostream_from_buffer` -/
def fromBuffer (buf bufsize : ℕ) : PbBufOstream := ⟨true, buf, bufsize, 0, []⟩

/-- `PB_OSTREAM_SIZING` -/
def sizing : PbBufOstream := ⟨false, 0, 0, 0, []⟩

/-- `if (!f(stream)) return false; return g(stream);` -/
def andThen (r : Bool × PbBufOstream) (k : PbBufOstream → Bool × PbBufOstream) :
    Bool × PbBufOstream :=
  if r.1 then k r.2 else r

/-! ## The writers -/

/-- `buf_write` -/
def bufWrite (s : PbBufOstream) (buf : List UInt8) (count : ℕ) : PbBufOstream :=
  { s with state := s.state + count, writes := s.writes ++ [⟨s.state, buf.take count⟩] }

/-- `pb_write` -/
def pbWrite (s : PbBufOstream) (buf : List UInt8) (count : ℕ) : Bool × PbBufOstream :=
  if s.callback then
    if s.bytesWritten + count > s.maxSize then (false, s)
    else
      let s := s.bufWrite buf count
      (true, { s with bytesWritten := s.bytesWritten + count })
  else (true, { s with bytesWritten := s.bytesWritten + count })

/-- `pb_encode_varint` -/
def pbEncodeVarint (value : ℕ) (s : PbBufOstream) : Bool × PbBufOstream :=
  if value ≤ 0x7F then s.pbWrite [UInt8.ofNat value] 1
  else
    let buffer := unsetTopBit (varintGroups 10 value)
    s.pbWrite buffer buffer.length

/-- `pb_encode_tag` -/
def pbEncodeTag (wireType fieldNumber : ℕ) (s : PbBufOstream) : Bool × PbBufOstream :=
  pbEncodeVarint (fieldNumber <<< 3 ||| wireType) s

/-- `pb_encode_string` -/
def pbEncodeString (buffer : List UInt8) (size : ℕ) (s : PbBufOstream) : Bool × PbBufOstream :=
  andThen (pbEncodeVarint size s) fun s => s.pbWrite buffer size

/-- `pb_encode_submessage`, and `pb_encode_delimited`; `encode` is `pb_encode` with
    the fields and the source of the submessage. -/
def pbEncodeSubmessage (encode : PbBufOstream → Bool × PbBufOstream) (s : PbBufOstream) :
    Bool × PbBufOstream :=
  let r := encode .sizing
  if !r.1 then (false, s)
  else
    let size := r.2.bytesWritten
    andThen (pbEncodeVarint size s) fun s =>
      if !s.callback then s.pbWrite [] size
      else if s.bytesWritten + size > s.maxSize then (false, s)
      else
        let r := encode ⟨s.callback, s.state, size, 0, []⟩
        let substream := r.2
        let s := { s with
          bytesWritten := s.bytesWritten + substream.bytesWritten
          state := substream.state
          writes := s.writes ++ substream.writes }
        if substream.bytesWritten ≠ size then (false, s) else (r.1, s)

/-! ## Streams and lists -/

/-- The stream of the model, with what has been stored so far. -/
def view (s : PbBufOstream) (out : List UInt8) : PbOstream :=
  ⟨s.callback, out, s.maxSize, s.bytesWritten⟩

/-- The stream `s'` is `s`, after the bytes `l` (none of them on a sizing stream). -/
structure Extends (s s' : PbBufOstream) (l : List UInt8) : Prop where
  callback : s'.callback = s.callback
  maxSize : s'.maxSize = s.maxSize
  state : s'.state = s.state + l.length
  writes : ∃ ws, s'.writes = s.writes ++ ws ∧ Consecutive s.state ws l
  counted : s.callback = true → s'.bytesWritten = s.bytesWritten + l.length
  fits : s.callback = true → s.bytesWritten ≤ s.maxSize → s'.bytesWritten ≤ s.maxSize

/-- What a writer has done to the stream `s` in memory, and its model to the list; `out` has
    been stored before. -/
def Stores (s : PbBufOstream) (out : List UInt8) (r : Bool × PbBufOstream)
    (r' : Bool × PbOstream) : Prop :=
  ∃ l, Extends s r.2 l ∧ r' = (r.1, r.2.view (out ++ l))

section
variable {s s' s'' : PbBufOstream} {out l l' : List UInt8}

theorem Extends.refl (s : PbBufOstream) : Extends s s [] :=
  ⟨rfl, rfl, rfl, ⟨[], (List.append_nil _).symm, .nil⟩, fun _ => rfl, fun _ h => h⟩

theorem Extends.trans (h : Extends s s' l) (h' : Extends s' s'' l') :
    Extends s s'' (l ++ l') := by
  obtain ⟨ws, hws, hcons⟩ := h.writes
  obtain ⟨ws', hws', hcons'⟩ := h'.writes
  refine ⟨h'.callback.trans h.callback, h'.maxSize.trans h.maxSize, ?_, ⟨ws ++ ws', ?_, ?_⟩, ?_, ?_⟩
  · rw [h'.state, h.state, List.length_append, Nat.add_assoc]
  · rw [hws', hws, List.append_assoc]
  · rw [h.state, Nat.cast_add] at hcons'
    exact hcons.append hcons'
  · intro hc
    rw [h'.counted (h.callback.trans hc), h.counted hc, List.length_append, Nat.add_assoc]
  · intro hc hle
    have hfits := h'.fits (h.callback.trans hc)
    rw [h.maxSize] at hfits
    exact hfits (h.fits hc hle)

theorem stores_fail (s : PbBufOstream) (out : List UInt8) :
    Stores s out (false, s) (false, s.view out) :=
  ⟨[], .refl s, by rw [List.append_nil]⟩

theorem stores_nothing (s : PbBufOstream) (out : List UInt8) :
    Stores s out (true, s) (true, s.view out) :=
  ⟨[], .refl s, by rw [List.append_nil]⟩

theorem Stores.andThen {r : Bool × PbBufOstream} {r' : Bool × PbOstream}
    {k : PbBufOstream → Bool × PbBufOstream} {k' : PbOstream → Bool × PbOstream}
    (h : Stores s out r r') (hk : ∀ s out, Stores s out (k s) (k' (s.view out))) :
    Stores s out (andThen r k) (PacketSerial.andThen r' k') := by
  obtain ⟨l, hl, rfl⟩ := h
  obtain ⟨ok, s'⟩ := r
  cases ok with
  | false => exact ⟨l, hl, rfl⟩
  | true =>
    obtain ⟨l', hl', heq⟩ := hk s' (out ++ l)
    refine ⟨l ++ l', hl.trans hl', ?_⟩
    rw [← List.append_assoc]
    exact heq

/-! ## The writers agree -/

/-- `pb_write`; a sizing stream does not look at the bytes. -/
theorem pbWrite_stores (out : List UInt8) {buf : List UInt8} {count : ℕ}
    (h : s.callback = true → count ≤ buf.length) :
    Stores s out (s.pbWrite buf count) (PacketSerial.pbWrite (s.view out) buf count) := by
  rw [pbWrite, PacketSerial.pbWrite]
  by_cases hc : s.callback = true
  · have hc' : (s.view out).callback = true := hc
    rw [if_pos hc, if_pos hc']
    by_cases hfull : s.bytesWritten + count > s.maxSize
    · have hfull' : (s.view out).bytesWritten + count > (s.view out).maxSize := hfull
      rw [if_pos hfull, if_pos hfull']
      exact stores_fail s out
    · have hfull' : ¬ (s.view out).bytesWritten + count > (s.view out).maxSize := hfull
      have hlen : (buf.take count).length = count := by rw [List.length_take, min_eq_left (h hc)]
      rw [if_neg hfull, if_neg hfull']
      refine ⟨buf.take count, ⟨rfl, rfl, ?_, ⟨_, rfl, .single _ _⟩, fun _ => ?_, fun _ _ => ?_⟩, rfl⟩
      · rw [hlen]
        rfl
      · rw [hlen]
        rfl
      · exact not_lt.1 hfull
  · have hc' : ¬ (s.view out).callback = true := hc
    rw [if_neg hc, if_neg hc']
    refine ⟨[], ⟨rfl, rfl, rfl, ⟨[], (List.append_nil _).symm, .nil⟩, fun h => absurd h hc,
      fun h => absurd h hc⟩, ?_⟩
    rw [List.append_nil]
    rfl

theorem pbEncodeVarint_stores (value : ℕ) (s : PbBufOstream) (out : List UInt8) :
    Stores s out (pbEncodeVarint value s) (PacketSerial.pbEncodeVarint value (s.view out)) := by
  rw [pbEncodeVarint, PacketSerial.pbEncodeVarint]
  split_ifs
  · exact pbWrite_stores out fun _ => le_rfl
  · exact pbWrite_stores out fun _ => le_rfl

theorem pbEncodeTag_stores (wireType fieldNumber : ℕ) (s : PbBufOstream) (out : List UInt8) :
    Stores s out (pbEncodeTag wireType fieldNumber s)
      (PacketSerial.pbEncodeTag wireType fieldNumber (s.view out)) :=
  pbEncodeVarint_stores _ s out

theorem pbEncodeString_stores {buffer : List UInt8} {size : ℕ} (h : size ≤ buffer.length)
    (s : PbBufOstream) (out : List UInt8) :
    Stores s out (pbEncodeString buffer size s)
      (PacketSerial.pbEncodeString buffer size (s.view out)) :=
  (pbEncodeVarint_stores size s out).andThen fun _ out => pbWrite_stores out fun _ => h

/-- A substream has room for `size` bytes behind those of the stream; what has been stored
    through it has been stored behind them. -/
theorem Extends.substream {size : ℕ} (h : Extends ⟨s.callback, s.state, size, 0, []⟩ s' l)
    (hc : s.callback = true) (hroom : s.bytesWritten + size ≤ s.maxSize) :
    Extends s { s with
      bytesWritten := s.bytesWritten + s'.bytesWritten
      state := s'.state
      writes := s.writes ++ s'.writes } l := by
  obtain ⟨ws, hws, hcons⟩ := h.writes
  have hcount := h.counted hc
  have hfits := h.fits hc (Nat.zero_le size)
  dsimp only at hws hcount hfits
  refine ⟨rfl, rfl, h.state, ⟨ws, ?_, hcons⟩, fun _ => ?_, fun _ _ => ?_⟩ <;> dsimp only
  · rw [hws, List.nil_append]
  · rw [hcount, Nat.zero_add]
  · omega

/-- **A submessage** is stored behind its length: the substream starts where the stream is,
    and the stream goes on where the substream has stopped. -/
theorem pbEncodeSubmessage_stores {encode : PbBufOstream → Bool × PbBufOstream}
    {encode' : PbOstream → Bool × PbOstream}
    (h : ∀ s out, Stores s out (encode s) (encode' (s.view out))) (s : PbBufOstream)
    (out : List UInt8) :
    Stores s out (pbEncodeSubmessage encode s)
      (PacketSerial.pbEncodeSubmessage encode' (s.view out)) := by
  obtain ⟨_, -, hsizing⟩ := h .sizing []
  rcases hrun : encode .sizing with ⟨ok, callback, state, maxSize, size, writes⟩
  rw [hrun] at hsizing
  have hsizing : encode' .sizing = (ok, ⟨callback, _, maxSize, size⟩) := hsizing
  rw [pbEncodeSubmessage, PacketSerial.pbEncodeSubmessage, hrun, hsizing]
  cases ok with
  | false => exact stores_fail s out
  | true =>
    have hok : ¬ (!true) = true := Bool.false_ne_true
    dsimp only
    rw [if_neg hok, if_neg hok]
    refine (pbEncodeVarint_stores size s out).andThen fun s out => ?_
    obtain ⟨callback, state, room, written, ws⟩ := s
    cases callback with
    | false =>
      -- a sizing stream only counts
      exact @pbWrite_stores _ out [] size fun h => absurd h Bool.false_ne_true
    | true =>
      change Stores _ out (if written + size > room then _ else _)
        (if written + size > room then _ else _)
      by_cases hfull : written + size > room
      · rw [if_pos hfull, if_pos hfull]
        exact stores_fail _ out
      · rw [if_neg hfull, if_neg hfull]
        obtain ⟨l, hl, hr⟩ := h ⟨true, state, size, 0, []⟩ []
        have hr : encode' ⟨true, [], size, 0⟩ = _ := hr
        have hroom : written + size ≤ room := not_lt.1 hfull
        rw [hr]
        rcases hsub : encode ⟨true, state, size, 0, []⟩ with ⟨ok, substream⟩
        rw [hsub] at hl
        have hl := Extends.substream (s := ⟨true, state, room, written, ws⟩) hl rfl hroom
        change Stores _ out (if substream.bytesWritten ≠ size then _ else _)
          (if substream.bytesWritten ≠ size then _ else _)
        by_cases hsize : substream.bytesWritten ≠ size
        · rw [if_pos hsize, if_pos hsize]
          exact ⟨l, hl, rfl⟩
        · rw [if_neg hsize, if_neg hsize]
          exact ⟨l, hl, rfl⟩

end

end PbBufOstream

end PacketSerial
