/-
  The COBS codec with output buffers of any size.

  * `cobsEncode_any`: `cobs_encode` reports an overflow exactly where the stuffed form does not
    fit; it then fills the buffer with what is decoded to a part of the source;
  * `cobsDecode_any`: `cobs_decode` returns `COBS_DECODE_OK` exactly for whole blocks without
    zeros that fit, and stays inside its buffer on any input;
  * `bufLen_iff`: which buffers are enough for all input of a length, next to the macros of
    `cobs.h`.
-/
import PacketSerial.Cobs

namespace PacketSerial

/-! ## Encoding -/

/-- The loop has run out of space: closing the last block leaves `out` in all of the
    destination. -/
structure EncodeStopped (s : EncodeState) (out : List UInt8) : Prop where
  overflow : s.outBufferOverflow = true
  close : (if s.code < s.dst.length then s.dst.set s.code s.searchLen else s.dst) = out
  write : s.code < s.dst.length → s.write = s.dst.length

theorem EncodeStopped.length {s : EncodeState} {out : List UInt8} (h : EncodeStopped s out) :
    out.length = s.dst.length := by
  rw [← h.close]
  split_ifs <;> simp

/-- The loop writes to the destination, but does not change its length. -/
theorem length_cobsEncodeLoop : ∀ (src : List UInt8) (s : EncodeState),
    (cobsEncodeLoop src s).dst.length = s.dst.length
  | [], _ => rfl
  | b :: src, s => by
    rw [cobsEncodeLoop]
    dsimp only
    split_ifs <;> simp [length_cobsEncodeLoop src]

/-- A byte fills the block, and the destination. -/
theorem cobsEncodeLoop_full_stop {pre acc src : List UInt8} {x y b : UInt8} (hb : b ≠ 0)
    (hs : src ≠ []) (hacc : acc.length + 2 = 255) :
    cobsEncodeLoop (b :: src) (openBlock pre x acc [y]) =
      ⟨pre ++ 255 :: (acc ++ [b]), pre.length + acc.length + 2, pre.length + acc.length + 3, 1,
        true⟩ := by
  have hc : UInt8.ofNat (acc.length + 1) + 1 = 0xFF := by
    rw [searchLen_succ, show acc.length + 1 + 1 = 255 by omega]; rfl
  obtain ⟨b', src, rfl⟩ := List.exists_cons_of_ne_nil hs
  rw [cobsEncodeLoop, if_neg openBlock_space, if_neg hb]
  refine (if_pos ⟨hs, hc⟩).trans ?_
  have hdst : ((openBlock pre x acc [y]).dst.set (pre.length + 1 + acc.length) b).set pre.length
      (UInt8.ofNat (acc.length + 1) + 1) = pre ++ 255 :: (acc ++ [b]) := by
    rw [openBlock_set_write, set_append_cons, hc]
  rw [cobsEncodeLoop]
  refine (if_pos ?_).trans ((EncodeState.mk.injEq ..).mpr ⟨hdst, ?_, ?_, rfl, rfl⟩) <;>
    simp only [openBlock, List.length_set, List.length_append, List.length_cons,
      List.length_nil] <;> omega

/-- **Without space for the stuffed form**, the loop stops with an overflow, and with what
    is decoded to a part of the source. -/
theorem cobsEncodeLoop_stopped {src : List UInt8} : ∀ {pre acc room : List UInt8} {x : UInt8},
    acc.length < 254 ∨ acc.length = 254 ∧ src = [] →
    1 + acc.length + room.length < (Stuffing.stuffFrom acc src).length →
    ∃ w k, EncodeStopped (cobsEncodeLoop src (openBlock pre x acc room)) (pre ++ w) ∧ w ≠ [] ∧
      k ≤ src.length ∧ Stuffing.unstuff w = acc ++ src.take k := by
  induction src with
  | nil =>
    intro pre acc room x h hroom
    rw [Stuffing.stuffFrom, List.length_cons] at hroom
    omega
  | cons b src ih =>
    intro pre acc room x h hroom
    have hacc : acc.length < 254 := h.resolve_right fun h => by simp at h
    rcases room with _ | ⟨y, room⟩
    · -- no space for the next byte: the block is closed as it is
      have hfull : (openBlock pre x acc []).write ≥ (openBlock pre x acc []).dst.length := by
        simp only [openBlock, List.length_append, List.length_cons, List.length_nil]; omega
      have hcode : pre.length < (pre ++ x :: (acc ++ [])).length := by
        rw [List.length_append, List.length_cons]; omega
      refine ⟨UInt8.ofNat (acc.length + 1) :: acc, 0, ?_, List.cons_ne_nil _ _, Nat.zero_le _, ?_⟩
      · rw [cobsEncodeLoop, if_pos hfull]
        refine ⟨rfl, ?_, fun _ => ?_⟩
        · exact (if_pos hcode).trans ((openBlock_set _).trans (by rw [List.append_nil]; rfl))
        · simp only [openBlock, List.length_append, List.length_cons, List.length_nil]; omega
      · rw [Stuffing.unstuff_last (by omega), List.take_zero, List.append_nil]
    rw [List.length_cons] at hroom
    by_cases hb : b = 0
    · subst hb
      rw [Stuffing.stuffFrom, if_pos rfl, List.length_cons, List.length_append] at hroom
      obtain ⟨w, k, hs, hw, hk, hun⟩ := @ih (pre ++ UInt8.ofNat (acc.length + 1) :: acc) [] room y
        (Or.inl (by simp)) (by simp only [List.length_nil]; omega)
      rw [cobsEncodeLoop_zero]
      refine ⟨UInt8.ofNat (acc.length + 1) :: (acc ++ w), k + 1, by simpa using hs,
        List.cons_ne_nil _ _, Nat.succ_le_succ hk, ?_⟩
      rw [Stuffing.unstuff_block hacc hw, hun]
      rfl
    by_cases hf : src ≠ [] ∧ acc.length + 2 = 255
    · have hlen : (acc ++ [b]).length = 254 := by
        rw [List.length_append, List.length_singleton]; omega
      rcases room with _ | ⟨z, room⟩
      · -- the byte that fills the block fills the buffer
        refine ⟨255 :: (acc ++ [b]), 1, ?_, List.cons_ne_nil _ _, by simp, ?_⟩
        · rw [cobsEncodeLoop_full_stop hb hf.1 hf.2]
          refine ⟨rfl, if_neg ?_, fun hlt => absurd hlt ?_⟩ <;>
            simp only [List.length_append, List.length_cons, List.length_nil] <;> omega
        · have hun := @Stuffing.unstuff_last (acc ++ [b]) hlen.le
          rw [hlen] at hun
          exact hun
      · rw [Stuffing.stuffFrom, if_neg hb, if_pos hf] at hroom
        simp only [List.length_cons, List.length_append] at hroom
        obtain ⟨w, k, hs, hw, hk, hun⟩ := @ih (pre ++ 255 :: (acc ++ [b])) [] room z
          (Or.inl (by simp)) (by simp only [List.length_nil]; omega)
        rw [cobsEncodeLoop_full hb hf.1 hf.2]
        refine ⟨255 :: (acc ++ [b] ++ w), k + 1, by simpa using hs, List.cons_ne_nil _ _,
          Nat.succ_le_succ hk, ?_⟩
        rw [Stuffing.unstuff_full hlen hw, hun]
        simp
    · rw [Stuffing.stuffFrom, if_neg hb, if_neg hf] at hroom
      obtain ⟨w, k, hs, hw, hk, hun⟩ := @ih pre (acc ++ [b]) room x (Stuffing.joined hacc hf)
        (by rw [List.length_append, List.length_singleton]; omega)
      rw [cobsEncodeLoop_byte hb hf hacc]
      refine ⟨w, k + 1, hs, hw, Nat.succ_le_succ hk, ?_⟩
      rw [hun]
      simp

/-- `cobs_encode` without space: the destination is full, and is decoded to a part of the
    source. -/
theorem cobsEncode_stopped {dst src : List UInt8} (h : dst.length < (Stuffing.stuff src).length) :
    let r := cobsEncode dst src
    r.outBufferOverflow = true ∧ r.outLen = dst.length ∧ r.dst.length = dst.length ∧
      ∃ k ≤ src.length, Stuffing.unstuff r.dst = src.take k := by
  intro r
  rcases dst with _ | ⟨x, room⟩
  · -- not even the first code has a place
    have hnil : (cobsEncodeLoop src ⟨[], 0, 1, 1, false⟩).dst = [] := by
      cases src with
      | nil => rfl
      | cons b src => rw [cobsEncodeLoop, if_pos (by simp)]
    have hr : r = ⟨0, true, []⟩ := by
      have hcode : (cobsEncodeLoop src ⟨[], 0, 1, 1, false⟩).code ≥
          (cobsEncodeLoop src ⟨[], 0, 1, 1, false⟩).dst.length := by
        rw [hnil]; exact Nat.zero_le _
      refine (if_pos hcode).trans ?_
      rw [hnil]
      rfl
    rw [hr]
    exact ⟨rfl, rfl, rfl, 0, Nat.zero_le _, by rw [Stuffing.unstuff, List.take_zero]⟩
  · have hopen : openBlock [] x [] room = ⟨x :: room, 0, 1, 1, false⟩ := rfl
    have hroom : 1 + ([] : List UInt8).length + room.length <
        (Stuffing.stuffFrom [] src).length := by
      rw [List.length_cons, Stuffing.stuff] at h
      rw [List.length_nil]
      omega
    obtain ⟨w, k, hs, -, hk, hun⟩ :=
      @cobsEncodeLoop_stopped src [] [] room x (Or.inl (by simp)) hroom
    rw [hopen, List.nil_append] at hs
    have hlen : w.length = (x :: room).length := hs.length.trans (length_cobsEncodeLoop _ _)
    have hr : r = ⟨w.length, true, w⟩ := by
      by_cases hcode : (cobsEncodeLoop src ⟨x :: room, 0, 1, 1, false⟩).code <
          (cobsEncodeLoop src ⟨x :: room, 0, 1, 1, false⟩).dst.length
      · have hclose := hs.close
        rw [if_pos hcode] at hclose
        refine (if_neg (not_le.2 hcode)).trans ?_
        rw [hclose, hs.write hcode, hs.overflow, ← hs.length]
      · have hclose := hs.close
        rw [if_neg hcode] at hclose
        refine (if_pos (not_lt.1 hcode)).trans ?_
        rw [hclose]
    rw [hr]
    exact ⟨rfl, hlen, hlen, k, hk, hun⟩

theorem encode_overflow_iff (dst src : List UInt8) :
    (cobsEncode dst src).outBufferOverflow = true ↔ dst.length < (Stuffing.stuff src).length := by
  by_cases hfit : (Stuffing.stuff src).length ≤ dst.length
  · rw [cobsEncode_eq hfit]
    exact iff_of_false Bool.false_ne_true (not_lt.2 hfit)
  · exact iff_of_true (cobsEncode_stopped (not_le.1 hfit)).1 (not_le.1 hfit)

/-- **Any destination**: an overflow is reported exactly where the stuffed form does not fit.
    Without one, it stands at the start of the destination, and the rest of that is as before;
    with one, the destination is full, and is decoded to a part of the source. -/
theorem cobsEncode_any (dst src : List UInt8) :
    ((cobsEncode dst src).outBufferOverflow = true ↔ dst.length < (Stuffing.stuff src).length) ∧
      let r := cobsEncode dst src
      let w := Stuffing.stuff src
      (r.outBufferOverflow = false → r.outLen = w.length ∧ r.dst = w ++ dst.drop w.length) ∧
        (r.outBufferOverflow = true → r.outLen = dst.length ∧ r.dst.length = dst.length ∧
          ∃ k ≤ src.length, Stuffing.unstuff r.dst = src.take k) := by
  have hov := encode_overflow_iff dst src
  refine ⟨hov, ?_⟩
  intro r w
  refine ⟨fun h => ?_, fun h => (cobsEncode_stopped (hov.1 h)).2⟩
  have hfit : w.length ≤ dst.length := by
    by_contra hlt
    exact Bool.false_ne_true (h.symm.trans (hov.2 (not_le.1 hlt)))
  have hr : r = ⟨w.length, false, w ++ dst.drop w.length⟩ := cobsEncode_eq hfit
  rw [hr]
  exact ⟨rfl, rfl⟩

/-! ## Decoding -/

/-- As much of the next block as there is space for. -/
def copyLen (r : CobsDecodeResult) (code : UInt8) (src : List UInt8) : ℕ :=
  min (blockLen code src) (r.dst.length - r.outLen)

/-- The result after that. -/
def CobsDecodeResult.copy (r : CobsDecodeResult) (code : UInt8) (src : List UInt8) :
    CobsDecodeResult where
  outLen := r.outLen + copyLen r code src
  outBufferOverflow := r.outBufferOverflow || decide (blockLen code src > r.dst.length - r.outLen)
  zeroByteInInput := r.zeroByteInInput || (src.take (copyLen r code src)).contains 0
  inputTooShort := r.inputTooShort || decide (code.toNat - 1 > src.length)
  dst := r.dst.take r.outLen ++ src.take (copyLen r code src) ++
    r.dst.drop (r.outLen + copyLen r code src)

/-- One turn of the loop. -/
theorem cobsDecodeLoop_turn {code : UInt8} (hc : code ≠ 0) (src : List UInt8)
    (r : CobsDecodeResult) :
    cobsDecodeLoop (code :: src) r =
      if src.drop (copyLen r code src) = [] then r.copy code src
      else if copyLen r code src ≠ 0xFE then
        if (r.copy code src).outLen ≥ (r.copy code src).dst.length then
          { r.copy code src with outBufferOverflow := true }
        else cobsDecodeLoop (src.drop (copyLen r code src)) (r.copy code src).zero
      else cobsDecodeLoop (src.drop (copyLen r code src)) (r.copy code src) := by
  have hin : (if code.toNat - 1 > src.length then src.length else code.toNat - 1) =
      blockLen code src := by
    rw [blockLen]; split_ifs <;> omega
  have hout : (if blockLen code src > r.dst.length - r.outLen then r.dst.length - r.outLen
      else blockLen code src) = copyLen r code src := by
    rw [copyLen]; split_ifs <;> omega
  rw [cobsDecodeLoop, if_neg hc]
  simp only [hin, hout]
  rfl

section
variable {r : CobsDecodeResult} {code : UInt8} {src : List UInt8}

theorem copyLen_le (r : CobsDecodeResult) (code : UInt8) (src : List UInt8) :
    copyLen r code src ≤ src.length ∧ copyLen r code src ≤ r.dst.length - r.outLen :=
  ⟨(min_le_left _ _).trans (blockLen_le code src), min_le_right _ _⟩

theorem length_dst_copy (h : r.outLen ≤ r.dst.length) :
    (r.copy code src).dst.length = r.dst.length := by
  have := copyLen_le r code src
  simp only [CobsDecodeResult.copy, List.length_append, List.length_take, List.length_drop]
  omega

theorem out_copy (h : r.outLen ≤ r.dst.length) :
    (r.copy code src).out = r.out ++ src.take (copyLen r code src) := by
  have hle := copyLen_le r code src
  have hl : (r.dst.take r.outLen ++ src.take (copyLen r code src)).length =
      r.outLen + copyLen r code src := by
    simp only [List.length_append, List.length_take]; omega
  simp only [CobsDecodeResult.out, CobsDecodeResult.copy]
  rw [← hl, List.take_left]

theorem ok_copy : (r.copy code src).ok = true ↔ r.ok = true ∧
    blockLen code src ≤ r.dst.length - r.outLen ∧ 0 ∉ src.take (copyLen r code src) ∧
      code.toNat - 1 ≤ src.length := by
  simp only [CobsDecodeResult.ok, CobsDecodeResult.copy, Bool.not_or, Bool.and_eq_true,
    Bool.not_eq_true', gt_iff_lt, ← Bool.not_eq_true, List.contains_iff_mem, decide_eq_true_eq,
    not_lt]
  tauto

/-- The loop stays inside its destination, leaves what it does not write, and reports an
    overflow that it has seen. -/
structure DecodeInside (r out : CobsDecodeResult) : Prop where
  le : r.outLen ≤ out.outLen
  inside : out.outLen ≤ out.dst.length
  length : out.dst.length = r.dst.length
  rest : out.dst.drop out.outLen = r.dst.drop out.outLen
  overflow : r.outBufferOverflow = true → out.outBufferOverflow = true

theorem DecodeInside.trans {s t : CobsDecodeResult} (h : DecodeInside r s)
    (h' : DecodeInside s t) : DecodeInside r t := by
  refine ⟨h.le.trans h'.le, h'.inside, h'.length.trans h.length, ?_, h'.overflow ∘ h.overflow⟩
  have hk : t.outLen = s.outLen + (t.outLen - s.outLen) := by have := h'.le; omega
  rw [h'.rest, hk, ← List.drop_drop, ← List.drop_drop, h.rest]

theorem copy_inside (h : r.outLen ≤ r.dst.length) : DecodeInside r (r.copy code src) := by
  have hle := copyLen_le r code src
  have hlen := @length_dst_copy r code src h
  refine ⟨Nat.le_add_right _ _, ?_, hlen, ?_, fun ho => by simp [CobsDecodeResult.copy, ho]⟩
  · rw [hlen]
    simp only [CobsDecodeResult.copy]
    omega
  · have hpre : (r.dst.take r.outLen ++ src.take (copyLen r code src)).length =
        r.outLen + copyLen r code src := by
      simp only [List.length_append, List.length_take]; omega
    simp only [CobsDecodeResult.copy]
    rw [List.drop_append, List.drop_of_length_le hpre.le, hpre, Nat.sub_self, List.drop_zero]
    rfl

theorem zero_inside (h : r.outLen < r.dst.length) : DecodeInside r r.zero :=
  ⟨Nat.le_succ _, by rw [CobsDecodeResult.length_dst_zero]; exact h,
    CobsDecodeResult.length_dst_zero, CobsDecodeResult.drop_zero (Nat.lt_succ_self _), id⟩

end

/-- What a turn leads to, when the rest of the loop stays inside. -/
theorem turn_inside {r : CobsDecodeResult} {code : UInt8} {src : List UInt8} (hc : code ≠ 0)
    (h : r.outLen ≤ r.dst.length)
    (hloop : ∀ r' : CobsDecodeResult, r'.outLen ≤ r'.dst.length →
      DecodeInside r' (cobsDecodeLoop (src.drop (copyLen r code src)) r')) :
    DecodeInside (r.copy code src) (cobsDecodeLoop (code :: src) r) := by
  have hcopy := (@copy_inside r code src h).inside
  rw [cobsDecodeLoop_turn hc]
  split_ifs with hrest hfe hfull
  · exact ⟨le_rfl, hcopy, rfl, rfl, id⟩
  · exact ⟨le_rfl, hcopy, rfl, rfl, fun _ => rfl⟩
  · have hzero := zero_inside (not_le.1 hfull)
    exact hzero.trans (hloop _ hzero.inside)
  · exact hloop _ hcopy

/-- **The loop stays inside its destination**, whatever the input is. -/
theorem cobsDecodeLoop_inside (src : List UInt8) : ∀ r : CobsDecodeResult,
    r.outLen ≤ r.dst.length → DecodeInside r (cobsDecodeLoop src r) := by
  induction hn : src.length using Nat.strongRecOn generalizing src with
  | ind n ih =>
    intro r h
    rcases src with _ | ⟨code, src⟩
    · rw [cobsDecodeLoop]
      exact ⟨le_rfl, h, rfl, rfl, id⟩
    by_cases hc : code = 0
    · rw [hc, cobsDecodeLoop, if_pos rfl]
      exact ⟨le_rfl, h, rfl, rfl, id⟩
    rw [List.length_cons] at hn
    have hdrop : (src.drop (copyLen r code src)).length < n := by rw [List.length_drop]; omega
    exact (copy_inside h).trans (turn_inside hc h fun r' => ih _ hdrop _ rfl r')

/-- An overflow is an error. -/
theorem ok_of_overflow {r : CobsDecodeResult} (h : r.outBufferOverflow = true) : ¬ r.ok = true := by
  simp [CobsDecodeResult.ok, h]

/-- The input is a sequence of whole blocks without zeros, and there is space for what it
    stands for. -/
structure Decodable (src : List UInt8) (room : ℕ) : Prop where
  nonzero : 0 ∉ src
  complete : Stuffing.Complete src
  fits : (Stuffing.unstuff src).length ≤ room

section
variable {code : UInt8} {src : List UInt8} {room : ℕ}

theorem zero_notMem_cons (hc : code ≠ 0) :
    0 ∉ code :: src ↔ 0 ∉ src.take (blockLen code src) ∧ 0 ∉ src.drop (blockLen code src) := by
  rw [List.mem_cons, not_or, and_iff_right (Ne.symm hc), ← not_or, ← List.mem_append,
    List.take_append_drop]

theorem length_take_blockLen (code : UInt8) (src : List UInt8) :
    (src.take (blockLen code src)).length = blockLen code src := by
  rw [List.length_take, min_eq_left (blockLen_le code src)]

/-- The block does not fit. -/
theorem not_decodable_of_block (hroom : room < blockLen code src) :
    ¬ Decodable (code :: src) room := by
  intro h
  have hfits := h.fits
  rw [unstuff_cons, List.length_append, length_take_blockLen] at hfits
  omega

theorem decodable_last (hc : code ≠ 0) (hroom : blockLen code src ≤ room)
    (hrest : src.drop (blockLen code src) = []) :
    Decodable (code :: src) room ↔
      0 ∉ src.take (blockLen code src) ∧ code.toNat - 1 ≤ src.length := by
  have hun := unstuff_cons code src
  rw [if_pos hrest, List.append_nil] at hun
  constructor
  · rintro ⟨h0, hcomplete, -⟩
    exact ⟨((zero_notMem_cons hc).1 h0).1, (complete_cons_iff.1 hcomplete).1⟩
  · rintro ⟨h0, hcode⟩
    refine ⟨(zero_notMem_cons hc).2 ⟨h0, by rw [hrest]; exact List.not_mem_nil⟩,
      complete_cons_iff.2 ⟨hcode, by rw [hrest]; exact Stuffing.complete_nil⟩, ?_⟩
    rw [hun, length_take_blockLen]
    exact hroom

/-- A block before the end, and `zeros` after it. -/
theorem decodable_more (hc : code ≠ 0) (hrest : src.drop (blockLen code src) ≠ []) :
    Decodable (code :: src) room ↔
      0 ∉ src.take (blockLen code src) ∧ code.toNat - 1 ≤ src.length ∧
        blockLen code src + (if blockLen code src = 0xFE then 0 else 1) ≤ room ∧
        Decodable (src.drop (blockLen code src))
          (room - blockLen code src - if blockLen code src = 0xFE then 0 else 1) := by
  have hun : (Stuffing.unstuff (code :: src)).length =
      blockLen code src + (if blockLen code src = 0xFE then 0 else 1) +
        (Stuffing.unstuff (src.drop (blockLen code src))).length := by
    rw [unstuff_cons, if_neg hrest]
    simp only [blockLen_eq_full hc hrest]
    split_ifs <;>
      simp only [List.length_append, length_take_blockLen, List.length_nil, List.length_singleton] <;>
      omega
  constructor
  · rintro ⟨h0, hcomplete, hfits⟩
    obtain ⟨htake, hdrop⟩ := (zero_notMem_cons hc).1 h0
    obtain ⟨hcode, hcomplete⟩ := complete_cons_iff.1 hcomplete
    exact ⟨htake, hcode, by omega, hdrop, hcomplete, by omega⟩
  · rintro ⟨htake, hcode, hroom, hdrop, hcomplete, hfits⟩
    exact ⟨(zero_notMem_cons hc).2 ⟨htake, hdrop⟩, complete_cons_iff.2 ⟨hcode, hcomplete⟩, by omega⟩

end

/-- The status of the loop, and what it has written where it is `COBS_DECODE_OK`. -/
structure LoopOk (src : List UInt8) (r : CobsDecodeResult) : Prop where
  status : (cobsDecodeLoop src r).ok = true ↔
    r.ok = true ∧ Decodable src (r.dst.length - r.outLen)
  out : (cobsDecodeLoop src r).ok = true →
    (cobsDecodeLoop src r).out = r.out ++ Stuffing.unstuff src

theorem loopOk_nil (r : CobsDecodeResult) : LoopOk [] r := by
  have hd : Decodable [] (r.dst.length - r.outLen) :=
    ⟨List.not_mem_nil, Stuffing.complete_nil, by rw [Stuffing.unstuff]; exact Nat.zero_le _⟩
  constructor
  · rw [cobsDecodeLoop]
    exact (and_iff_left hd).symm
  · intro _
    rw [cobsDecodeLoop, Stuffing.unstuff, List.append_nil]

theorem loopOk_of_not {src : List UInt8} {r : CobsDecodeResult}
    (h : ¬ (cobsDecodeLoop src r).ok = true) (hd : ¬ Decodable src (r.dst.length - r.outLen)) :
    LoopOk src r :=
  ⟨iff_of_false h fun hr => hd hr.2, fun hr => absurd hr h⟩

section
variable {r : CobsDecodeResult} {code : UInt8} {src : List UInt8}

/-- There is no space for the block. -/
theorem loopOk_block (hc : code ≠ 0) (h : r.outLen ≤ r.dst.length)
    (hov : r.dst.length - r.outLen < blockLen code src) : LoopOk (code :: src) r := by
  have hcont := @turn_inside r code src hc h fun r' hr => cobsDecodeLoop_inside _ r' hr
  have hflag : (r.copy code src).outBufferOverflow = true := by
    rw [CobsDecodeResult.copy, decide_eq_true hov, Bool.or_true]
  exact loopOk_of_not (ok_of_overflow (hcont.overflow hflag)) (not_decodable_of_block hov)

/-- The block is the last one. -/
theorem loopOk_last (hc : code ≠ 0) (h : r.outLen ≤ r.dst.length)
    (hov : blockLen code src ≤ r.dst.length - r.outLen)
    (hrest : src.drop (blockLen code src) = []) : LoopOk (code :: src) r := by
  have hlen : copyLen r code src = blockLen code src := min_eq_left hov
  have hloop : cobsDecodeLoop (code :: src) r = r.copy code src := by
    rw [cobsDecodeLoop_turn hc, hlen, if_pos hrest]
  constructor
  · rw [hloop, ok_copy, hlen, decodable_last hc hov hrest, and_iff_right hov]
  · intro _
    rw [hloop, out_copy h, hlen, unstuff_cons, if_pos hrest, List.append_nil]

/-- There is space for the block, but none for the zero after it. -/
theorem loopOk_noZero (hc : code ≠ 0) (h : r.outLen ≤ r.dst.length)
    (hov : blockLen code src = r.dst.length - r.outLen)
    (hrest : src.drop (blockLen code src) ≠ []) (hfe : blockLen code src ≠ 0xFE) :
    LoopOk (code :: src) r := by
  have hlen : copyLen r code src = blockLen code src := min_eq_left hov.le
  have hfull : (r.copy code src).outLen ≥ (r.copy code src).dst.length := by
    rw [length_dst_copy h, CobsDecodeResult.copy, hlen]
    dsimp only
    omega
  have hloop : cobsDecodeLoop (code :: src) r = { r.copy code src with outBufferOverflow := true } := by
    rw [cobsDecodeLoop_turn hc, hlen, if_neg hrest, if_pos hfe, if_pos hfull]
  refine loopOk_of_not (ok_of_overflow (by rw [hloop])) fun hd => ?_
  have := ((decodable_more hc hrest).1 hd).2.2.1
  rw [if_neg hfe] at this
  omega

/-- The rest is decoded behind the block, and a zero if the block is not full. -/
theorem loopOk_more (hc : code ≠ 0) (h : r.outLen ≤ r.dst.length)
    (hrest : src.drop (blockLen code src) ≠ [])
    (hfit : blockLen code src + (if blockLen code src = 0xFE then 0 else 1) ≤
      r.dst.length - r.outLen)
    (hloop : ∀ r' : CobsDecodeResult, r'.outLen ≤ r'.dst.length →
      LoopOk (src.drop (blockLen code src)) r') : LoopOk (code :: src) r := by
  have hov : blockLen code src ≤ r.dst.length - r.outLen := by omega
  have hlen : copyLen r code src = blockLen code src := min_eq_left hov
  have hdst := @length_dst_copy r code src h
  have hout := @out_copy r code src h
  have hok := @ok_copy r code src
  rw [hlen] at hout hok
  have hpos : (r.copy code src).outLen = r.outLen + blockLen code src := by
    rw [CobsDecodeResult.copy, hlen]
  -- the result that the loop goes on with
  obtain ⟨r', hr', hok', hroom, hout'⟩ : ∃ r' : CobsDecodeResult,
      cobsDecodeLoop (code :: src) r = cobsDecodeLoop (src.drop (blockLen code src)) r' ∧
      (r'.ok = (r.copy code src).ok ∧ r'.outLen ≤ r'.dst.length) ∧
      r'.dst.length - r'.outLen =
        r.dst.length - r.outLen - blockLen code src - (if blockLen code src = 0xFE then 0 else 1) ∧
      r'.out = (r.copy code src).out ++ if code = 255 then [] else [0] := by
    by_cases hfe : blockLen code src = 0xFE
    · refine ⟨r.copy code src, ?_, ⟨rfl, (copy_inside h).inside⟩, ?_, ?_⟩
      · rw [cobsDecodeLoop_turn hc, hlen, if_neg hrest, if_neg (not_not.2 hfe)]
      · rw [hdst, hpos, if_pos hfe]
        omega
      · rw [if_pos ((blockLen_eq_full hc hrest).1 hfe), List.append_nil]
    · rw [if_neg hfe] at hfit ⊢
      have hlt : (r.copy code src).outLen < (r.copy code src).dst.length := by omega
      refine ⟨(r.copy code src).zero, ?_, ⟨rfl, (zero_inside hlt).inside⟩, ?_, ?_⟩
      · rw [cobsDecodeLoop_turn hc, hlen, if_neg hrest, if_pos hfe, if_neg (not_le.2 hlt)]
      · rw [CobsDecodeResult.length_dst_zero, CobsDecodeResult.outLen_zero, hdst, hpos]
        omega
      · rw [if_neg fun h255 => hfe ((blockLen_eq_full hc hrest).2 h255),
          CobsDecodeResult.out_zero hlt]
  obtain ⟨hstatus, hwritten⟩ := hloop r' hok'.2
  rw [hok'.1, hok, hroom, ← hr'] at hstatus
  rw [hout', hout, ← hr'] at hwritten
  refine ⟨hstatus.trans ?_, fun hr => ?_⟩
  · rw [decodable_more hc hrest]
    exact ⟨fun ⟨⟨hr, _, h0, hcode⟩, hd⟩ => ⟨hr, h0, hcode, hfit, hd⟩,
      fun ⟨hr, h0, hcode, _, hd⟩ => ⟨⟨hr, hov, h0, hcode⟩, hd⟩⟩
  · rw [hwritten hr, unstuff_cons, if_neg hrest]
    simp only [List.append_assoc]

end

theorem cobsDecodeLoop_ok (src : List UInt8) : ∀ r : CobsDecodeResult, r.outLen ≤ r.dst.length →
    LoopOk src r := by
  induction hn : src.length using Nat.strongRecOn generalizing src with
  | ind n ih =>
    intro r h
    rcases src with _ | ⟨code, src⟩
    · exact loopOk_nil r
    by_cases hc : code = 0
    · subst hc
      refine loopOk_of_not ?_ fun hd => hd.nonzero List.mem_cons_self
      rw [cobsDecodeLoop, if_pos rfl]
      simp [CobsDecodeResult.ok]
    rw [List.length_cons] at hn
    have hdrop : (src.drop (blockLen code src)).length < n := by rw [List.length_drop]; omega
    rcases lt_or_ge (r.dst.length - r.outLen) (blockLen code src) with hov | hov
    · exact loopOk_block hc h hov
    by_cases hrest : src.drop (blockLen code src) = []
    · exact loopOk_last hc h hov hrest
    by_cases hfit : blockLen code src + (if blockLen code src = 0xFE then 0 else 1) ≤
        r.dst.length - r.outLen
    · exact loopOk_more hc h hrest hfit fun r' => ih _ hdrop _ rfl r'
    · have hfe : blockLen code src ≠ 0xFE := fun hfe => hfit (by rw [if_pos hfe]; exact hov)
      rw [if_neg hfe] at hfit
      exact loopOk_noZero hc h (by omega) hrest hfe

/-- **Any destination**: the status is `COBS_DECODE_OK` exactly for whole blocks without zeros
    whose bytes fit; these are then at the start of the destination.  In any case nothing is
    written behind the bytes that are counted, and these are inside. -/
theorem cobsDecode_any (dst src : List UInt8) :
    ((cobsDecode dst src).ok = true ↔ Decodable src dst.length) ∧
      let r := cobsDecode dst src
      (r.ok = true → r.outLen = (Stuffing.unstuff src).length ∧
        r.dst = Stuffing.unstuff src ++ dst.drop (Stuffing.unstuff src).length) ∧
        r.outLen ≤ dst.length ∧ r.dst.length = dst.length ∧
        r.dst.drop r.outLen = dst.drop r.outLen := by
  have hstart : (⟨0, false, false, false, dst⟩ : CobsDecodeResult).outLen ≤
      (⟨0, false, false, false, dst⟩ : CobsDecodeResult).dst.length := Nat.zero_le _
  obtain ⟨hok, hout⟩ := cobsDecodeLoop_ok src _ hstart
  have hin := cobsDecodeLoop_inside src _ hstart
  refine ⟨hok.trans (and_iff_right rfl), ?_⟩
  intro r
  have hle : r.outLen ≤ r.dst.length := hin.inside
  refine ⟨fun hr => ?_, hin.length ▸ hin.inside, hin.length, hin.rest⟩
  have htake : r.dst.take r.outLen = Stuffing.unstuff src := hout hr
  have hlen : r.outLen = (Stuffing.unstuff src).length := by
    rw [← htake, List.length_take, min_eq_left hle]
  refine ⟨hlen, ?_⟩
  rw [← hlen, ← htake]
  exact (List.take_append_drop r.outLen r.dst).symm.trans (congrArg _ hin.rest)

/-! ## Buffer sizes -/

/-- `COBS_ENCODE_DST_BUF_LEN_MAX` -/
def cobsEncodeDstBufLenMax (srcLen : ℕ) : ℕ := srcLen + (srcLen + 253) / 254

/-- `COBS_DECODE_DST_BUF_LEN_MAX` -/
def cobsDecodeDstBufLenMax (srcLen : ℕ) : ℕ := if srcLen = 0 then 0 else srcLen - 1

theorem zero_notMem_replicate (n : ℕ) : (0 : UInt8) ∉ List.replicate n 1 := fun h =>
  absurd (List.eq_of_mem_replicate h) (by decide)

/-- **The space that is always enough** for the stuffed form of `n` bytes: no bytes need one
    more than the macro says. -/
theorem encodeBufLen_iff (n m : ℕ) :
    (∀ dst src : List UInt8, dst.length = m → src.length = n →
      (cobsEncode dst src).outBufferOverflow = false) ↔ max 1 (cobsEncodeDstBufLenMax n) ≤ m := by
  constructor
  · intro h
    have hno := h (List.replicate m 0) (List.replicate n 1) List.length_replicate
      List.length_replicate
    rwa [← Bool.not_eq_true, encode_overflow_iff, not_lt,
      Stuffing.length_stuff_nonzero (zero_notMem_replicate n), List.length_replicate,
      List.length_replicate] at hno
  · rintro hm dst src rfl rfl
    rw [← Bool.not_eq_true, encode_overflow_iff, not_lt]
    exact (Stuffing.length_stuff_le src).trans hm

/-- The loop stays inside if the output has space for all bytes of the input but one. -/
theorem cobsDecodeLoop_room (src : List UInt8) : ∀ r : CobsDecodeResult,
    r.outLen ≤ r.dst.length → src.length ≤ r.dst.length - r.outLen + 1 →
    r.outBufferOverflow = false → (cobsDecodeLoop src r).outBufferOverflow = false := by
  induction hn : src.length using Nat.strongRecOn generalizing src with
  | ind n ih =>
    intro r h hroom hov
    rcases src with _ | ⟨code, src⟩
    · rwa [cobsDecodeLoop]
    by_cases hc : code = 0
    · rwa [hc, cobsDecodeLoop, if_pos rfl]
    rw [List.length_cons] at hn
    have hbl := blockLen_le code src
    have hlen : copyLen r code src = blockLen code src := min_eq_left (by omega)
    have hdrop : (src.drop (blockLen code src)).length = src.length - blockLen code src :=
      List.length_drop
    have hdst := @length_dst_copy r code src h
    have hpos : (r.copy code src).outLen = r.outLen + blockLen code src := by
      rw [CobsDecodeResult.copy, hlen]
    have hflag : (r.copy code src).outBufferOverflow = false := by
      rw [CobsDecodeResult.copy, hov, Bool.false_or, decide_eq_false_iff_not]
      omega
    rw [cobsDecodeLoop_turn hc, hlen]
    split_ifs with hrest hfe hfull
    · exact hflag
    · have := List.length_pos_iff.2 hrest
      omega
    · refine ih _ (by omega) _ rfl _ (zero_inside (not_le.1 hfull)).inside ?_ hflag
      rw [CobsDecodeResult.length_dst_zero, CobsDecodeResult.outLen_zero]
      omega
    · exact ih _ (by omega) _ rfl _ (copy_inside h).inside (by omega) hflag

/-- Blocks without bytes stand for zeros, all but the last. -/
theorem cobsDecodeLoop_empty_blocks {k : ℕ} : ∀ {r : CobsDecodeResult},
    r.dst.length - r.outLen < k →
    (cobsDecodeLoop (List.replicate (k + 1) 1) r).outBufferOverflow = true := by
  induction k with
  | zero => intro r h; omega
  | succ k ih =>
    intro r h
    have hlen : copyLen r 1 (List.replicate (k + 1) 1) = 0 := by simp [copyLen, blockLen]
    have hpos : (r.copy 1 (List.replicate (k + 1) 1)).outLen = r.outLen := by
      rw [CobsDecodeResult.copy, hlen, Nat.add_zero]
    have hdst : (r.copy 1 (List.replicate (k + 1) 1)).dst = r.dst := by
      rw [CobsDecodeResult.copy, hlen, List.take_zero, List.append_nil, Nat.add_zero,
        List.take_append_drop]
    rw [List.replicate_succ, cobsDecodeLoop_turn (by decide), hlen, List.drop_zero,
      if_neg (by simp), if_pos (by decide), hpos, hdst]
    split_ifs with hfull
    · rfl
    · refine ih ?_
      rw [CobsDecodeResult.length_dst_zero, CobsDecodeResult.outLen_zero, hpos, hdst]
      omega

/-- **The space that is always enough** to decode `n` bytes, whatever they are. -/
theorem decodeBufLen_iff (n m : ℕ) :
    (∀ dst src : List UInt8, dst.length = m → src.length = n →
      (cobsDecode dst src).outBufferOverflow = false) ↔ cobsDecodeDstBufLenMax n ≤ m := by
  rw [cobsDecodeDstBufLenMax]
  constructor
  · intro h
    rcases n with _ | k
    · exact Nat.zero_le _
    rw [if_neg (Nat.succ_ne_zero k), Nat.add_sub_cancel]
    by_contra hm
    have hov := @cobsDecodeLoop_empty_blocks k ⟨0, false, false, false, List.replicate m 0⟩
      (by simpa using hm)
    exact absurd (hov.symm.trans (h (List.replicate m 0) (List.replicate (k + 1) 1)
      List.length_replicate List.length_replicate)) Bool.false_ne_true.symm
  · rintro hm dst src rfl rfl
    refine cobsDecodeLoop_room src _ (Nat.zero_le _) ?_ rfl
    dsimp only
    split_ifs at hm <;> omega

/-- **`COBS_ENCODE_DST_BUF_LEN_MAX` and `COBS_DECODE_DST_BUF_LEN_MAX` are exact**: with as much
    space no input of the length overflows, and with less some input does; but for no bytes at
    all the encoder needs one byte. -/
theorem bufLen_iff (n m : ℕ) :
    ((∀ dst src : List UInt8, dst.length = m → src.length = n →
        (cobsEncode dst src).outBufferOverflow = false) ↔
      if n = 0 then 1 ≤ m else cobsEncodeDstBufLenMax n ≤ m) ∧
    ((∀ dst src : List UInt8, dst.length = m → src.length = n →
        (cobsDecode dst src).outBufferOverflow = false) ↔ cobsDecodeDstBufLenMax n ≤ m) := by
  refine ⟨?_, decodeBufLen_iff n m⟩
  rw [encodeBufLen_iff, cobsEncodeDstBufLenMax]
  split_ifs <;> omega

end PacketSerial
