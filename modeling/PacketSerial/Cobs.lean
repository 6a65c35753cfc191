/-
  The COBS codec (`lib/cobs-c-0.5.0`).

  The destination is a byte list of fixed length, and the write pointers are
  offsets into it.  The null pointer checks are left out: the callers pass arrays.

  * `cobsEncode_eq`: where its result fits, `cobs_encode` writes `Stuffing.stuff`;
  * `cobsDecode_bounds`: with an output array as long as the input, `cobs_decode`
    stays inside it, whatever the input is, and leaves a byte of it;
  * `cobsDecode_eq`: on input without zeros it writes `Stuffing.unstuff`, and its status
    says whether the blocks are complete.
-/
import PacketSerial.Lib.Stuffing

namespace PacketSerial

/-! ## Encoding -/

/-- `cobs_encode_result`, and what the destination holds afterwards. -/
structure CobsEncodeResult where
  outLen : ℕ
  /-- `COBS_ENCODE_OUT_BUFFER_OVERFLOW` is set in `status` -/
  outBufferOverflow : Bool
  dst : List UInt8
deriving DecidableEq, Repr

/-- The local variables of `cobs_encode`: `code` and `write` are the offsets
    `dst_code_write_ptr` and `dst_write_ptr`. -/
structure EncodeState where
  dst : List UInt8
  code : ℕ
  write : ℕ
  searchLen : UInt8
  outBufferOverflow : Bool

/-- The loop of `cobs_encode`; it is left when no source bytes remain. -/
def cobsEncodeLoop : List UInt8 → EncodeState → EncodeState
  | [], s => s
  | srcByte :: src, s =>
    if s.write ≥ s.dst.length then { s with outBufferOverflow := true }
    else if srcByte = 0 then
      cobsEncodeLoop src { s with
        dst := s.dst.set s.code s.searchLen, code := s.write, write := s.write + 1, searchLen := 1 }
    else
      let s := { s with
        dst := s.dst.set s.write srcByte, write := s.write + 1, searchLen := s.searchLen + 1 }
      if src ≠ [] ∧ s.searchLen = 0xFF then
        cobsEncodeLoop src { s with
          dst := s.dst.set s.code s.searchLen, code := s.write, write := s.write + 1, searchLen := 1 }
      else cobsEncodeLoop src s

/-- `cobs_encode` -/
def cobsEncode (dst src : List UInt8) : CobsEncodeResult :=
  let s := cobsEncodeLoop src ⟨dst, 0, 1, 1, false⟩
  if s.code ≥ s.dst.length then ⟨s.dst.length, true, s.dst⟩
  else ⟨s.write, s.outBufferOverflow, s.dst.set s.code s.searchLen⟩

/-- A byte written behind a prefix. -/
theorem set_append_cons (pre post : List UInt8) (a b : UInt8) :
    (pre ++ a :: post).set pre.length b = pre ++ b :: post := by
  rw [List.set_append_right _ _ le_rfl]; simp

/-- The loop has ended well: closing the last block leaves `out` in the destination. -/
structure EncodeDone (s : EncodeState) (out post : List UInt8) : Prop where
  code_lt : s.code < s.dst.length
  fits : s.outBufferOverflow = false
  write : s.write = out.length
  close : s.dst.set s.code s.searchLen = out ++ post

/-- The state with an open block: `pre` are the blocks before it, `x` stands where its
    code is due, `acc` are its bytes so far and `room` is still free. -/
def openBlock (pre : List UInt8) (x : UInt8) (acc room : List UInt8) : EncodeState :=
  ⟨pre ++ x :: (acc ++ room), pre.length, pre.length + 1 + acc.length,
    UInt8.ofNat (acc.length + 1), false⟩

section
variable {pre acc room src : List UInt8} {x y z b : UInt8}

theorem openBlock_space : ¬ (openBlock pre x acc (y :: room)).write ≥
    (openBlock pre x acc (y :: room)).dst.length := by
  simp only [openBlock, List.length_append, List.length_cons]; omega

theorem openBlock_set (c : UInt8) : (openBlock pre x acc room).dst.set pre.length c =
    pre ++ c :: (acc ++ room) := set_append_cons _ _ _ _

theorem openBlock_set_write : (openBlock pre x acc (y :: room)).dst.set
    (pre.length + 1 + acc.length) b = pre ++ x :: (acc ++ b :: room) := by
  simp [openBlock, add_comm, add_left_comm]

/-- A zero ends the block. -/
theorem cobsEncodeLoop_zero : cobsEncodeLoop (0 :: src) (openBlock pre x acc (y :: room)) =
    cobsEncodeLoop src (openBlock (pre ++ UInt8.ofNat (acc.length + 1) :: acc) y [] room) := by
  rw [cobsEncodeLoop, if_neg openBlock_space, if_pos rfl]
  congr 1
  refine (EncodeState.mk.injEq ..).mpr ⟨(openBlock_set _).trans (by simp [openBlock]), ?_, ?_, rfl, rfl⟩ <;>
    simp [openBlock] <;> omega

theorem searchLen_succ (n : ℕ) : UInt8.ofNat (n + 1) + 1 = UInt8.ofNat (n + 1 + 1) := by
  rw [UInt8.ofNat_add (n + 1) 1]; rfl

/-- A byte joins the block. -/
theorem cobsEncodeLoop_byte (hb : b ≠ 0) (hf : ¬ (src ≠ [] ∧ acc.length + 2 = 255))
    (hacc : acc.length < 254) :
    cobsEncodeLoop (b :: src) (openBlock pre x acc (y :: room)) =
      cobsEncodeLoop src (openBlock pre x (acc ++ [b]) room) := by
  have hf' : ¬ (src ≠ [] ∧ UInt8.ofNat (acc.length + 1) + 1 = 0xFF) := by
    rintro ⟨hs, he⟩
    rw [searchLen_succ] at he
    have := congrArg UInt8.toNat he
    rw [UInt8.toNat_ofNat'] at this
    exact hf ⟨hs, by simpa [Nat.mod_eq_of_lt (show acc.length + 1 + 1 < 256 by omega)] using this⟩
  rw [cobsEncodeLoop, if_neg openBlock_space, if_neg hb]
  refine (if_neg hf').trans ?_
  congr 1
  refine (EncodeState.mk.injEq ..).mpr
    ⟨openBlock_set_write.trans (by simp), rfl, ?_, ?_, rfl⟩
  · simp [openBlock]; omega
  · simp [openBlock]

/-- A byte fills the block. -/
theorem cobsEncodeLoop_full (hb : b ≠ 0) (hs : src ≠ []) (hacc : acc.length + 2 = 255) :
    cobsEncodeLoop (b :: src) (openBlock pre x acc (y :: z :: room)) =
      cobsEncodeLoop src (openBlock (pre ++ 255 :: (acc ++ [b])) z [] room) := by
  have hc : UInt8.ofNat (acc.length + 1) + 1 = 0xFF := by
    rw [searchLen_succ, show acc.length + 1 + 1 = 255 by omega]; rfl
  rw [cobsEncodeLoop, if_neg openBlock_space, if_neg hb]
  refine (if_pos ⟨hs, hc⟩).trans ?_
  congr 1
  refine (EncodeState.mk.injEq ..).mpr ⟨?_, ?_, ?_, rfl, rfl⟩
  · refine (congrArg (List.set · pre.length (UInt8.ofNat (acc.length + 1) + 1))
      openBlock_set_write).trans ?_
    rw [set_append_cons, hc]; simp
  · simp [openBlock]; omega
  · simp [openBlock]; omega

end

theorem cobsEncodeLoop_eq {src : List UInt8} : ∀ {pre acc room : List UInt8} {x : UInt8},
    acc.length < 254 ∨ acc.length = 254 ∧ src = [] →
    (Stuffing.stuffFrom acc src).length ≤ 1 + acc.length + room.length →
    EncodeDone (cobsEncodeLoop src (openBlock pre x acc room)) (pre ++ Stuffing.stuffFrom acc src)
      (room.drop ((Stuffing.stuffFrom acc src).length - (acc.length + 1))) := by
  induction src with
  | nil =>
    intro pre acc room x h hroom
    constructor <;> simp [cobsEncodeLoop, Stuffing.stuffFrom, openBlock]
    omega
  | cons b src ih =>
    intro pre acc room x h hroom
    have hacc : acc.length < 254 := h.resolve_right fun h => by simp at h
    have hge := @Stuffing.le_length_stuffFrom (b :: src) acc
    have hge' := @Stuffing.le_length_stuffFrom src []
    rw [List.length_cons] at hge
    rw [List.length_nil] at hge'
    obtain ⟨y, room, rfl⟩ : ∃ y r, room = y :: r :=
      List.exists_cons_of_ne_nil fun h => by rw [h, List.length_nil] at hroom; omega
    rw [List.length_cons] at hroom
    by_cases hb : b = 0
    · subst hb
      rw [cobsEncodeLoop_zero]
      rw [Stuffing.stuffFrom, if_pos rfl, List.length_cons, List.length_append] at hroom ⊢
      have hd := @ih (pre ++ UInt8.ofNat (acc.length + 1) :: acc) [] room y (Or.inl (by simp))
        (by simp only [List.length_nil]; omega)
      rw [show acc.length + (Stuffing.stuffFrom [] src).length + 1 - (acc.length + 1) =
        ((Stuffing.stuffFrom [] src).length - (0 + 1)) + 1 by omega, List.drop_succ_cons]
      simpa using hd
    by_cases hf : src ≠ [] ∧ acc.length + 2 = 255
    · rw [Stuffing.stuffFrom, if_neg hb, if_pos hf, List.length_cons, List.length_append,
        List.length_cons] at hroom ⊢
      obtain ⟨z, room, rfl⟩ : ∃ z r, room = z :: r :=
        List.exists_cons_of_ne_nil fun h => by rw [h, List.length_nil] at hroom; omega
      rw [List.length_cons] at hroom
      rw [cobsEncodeLoop_full hb hf.1 hf.2]
      have hd := @ih (pre ++ 255 :: (acc ++ [b])) [] room z (Or.inl (by simp))
        (by simp only [List.length_nil]; omega)
      rw [show acc.length + ((Stuffing.stuffFrom [] src).length + 1) + 1 - (acc.length + 1) =
        ((Stuffing.stuffFrom [] src).length - (0 + 1)) + 1 + 1 by omega, List.drop_succ_cons,
        List.drop_succ_cons]
      simpa using hd
    · rw [cobsEncodeLoop_byte hb hf hacc]
      rw [Stuffing.stuffFrom, if_neg hb, if_neg hf] at hroom hge ⊢
      have hcase : (acc ++ [b]).length < 254 ∨ (acc ++ [b]).length = 254 ∧ src = [] := by
        rw [List.length_append, List.length_singleton]
        by_cases hs : src = []
        · simp only [hs, and_true]; omega
        · left
          have : acc.length + 2 ≠ 255 := fun h => hf ⟨hs, h⟩
          omega
      have hd := @ih pre (acc ++ [b]) room x hcase
        (by rw [List.length_append, List.length_singleton]; omega)
      rw [List.length_append, List.length_singleton] at hd
      rw [show (Stuffing.stuffFrom (acc ++ [b]) src).length - (acc.length + 1) =
        (Stuffing.stuffFrom (acc ++ [b]) src).length - (acc.length + 1 + 1) + 1 by omega,
        List.drop_succ_cons]
      exact hd

/-- **Where the result fits, `cobs_encode` writes the stuffed form.** -/
theorem cobsEncode_eq {dst src : List UInt8} (h : (Stuffing.stuff src).length ≤ dst.length) :
    cobsEncode dst src = ⟨(Stuffing.stuff src).length, false,
      Stuffing.stuff src ++ dst.drop (Stuffing.stuff src).length⟩ := by
  have hge := @Stuffing.le_length_stuffFrom src []
  rw [List.length_nil] at hge
  obtain ⟨x, room, rfl⟩ : ∃ x r, dst = x :: r :=
    List.exists_cons_of_ne_nil fun hd => by
      rw [hd, List.length_nil, Stuffing.stuff] at h; omega
  rw [List.length_cons, Stuffing.stuff] at h
  have hd := @cobsEncodeLoop_eq src [] [] room x (Or.inl (by simp))
    (by simp only [List.length_nil]; omega)
  rw [show (Stuffing.stuffFrom [] src).length - (([] : List UInt8).length + 1) =
    (Stuffing.stuffFrom [] src).length - 1 by simp] at hd
  obtain ⟨k, hk⟩ := Nat.exists_eq_add_one_of_ne_zero
    (show (Stuffing.stuffFrom [] src).length ≠ 0 by omega)
  have hs : openBlock [] x [] room = ⟨x :: room, 0, 1, 1, false⟩ := rfl
  rw [hs] at hd
  simp only [cobsEncode]
  rw [if_neg (by simpa using hd.code_lt), hd.write, hd.fits, hd.close]
  simp [Stuffing.stuff, hk]

/-! ## Decoding -/

/-- `cobs_decode_result`, and what the destination holds afterwards.  The Booleans are
    the bits of `status`. -/
structure CobsDecodeResult where
  outLen : ℕ
  outBufferOverflow : Bool
  zeroByteInInput : Bool
  inputTooShort : Bool
  dst : List UInt8
deriving DecidableEq, Repr

/-- `status == COBS_DECODE_OK` -/
def CobsDecodeResult.ok (r : CobsDecodeResult) : Bool :=
  !r.outBufferOverflow && !r.zeroByteInInput && !r.inputTooShort

/-- The loop of `cobs_decode`; `r.outLen` is the offset `dst_write_ptr`. -/
def cobsDecodeLoop : List UInt8 → CobsDecodeResult → CobsDecodeResult
  | [], r => r
  | code :: src, r =>
    if code = 0 then { r with zeroByteInInput := true }
    else
      let lenCode := code.toNat - 1
      -- against the remaining input bytes
      let inputTooShort := r.inputTooShort || decide (lenCode > src.length)
      let lenCode := if lenCode > src.length then src.length else lenCode
      -- against the remaining output space
      let room := r.dst.length - r.outLen
      let outBufferOverflow := r.outBufferOverflow || decide (lenCode > room)
      let lenCode := if lenCode > room then room else lenCode
      let block := src.take lenCode
      let rest := src.drop lenCode
      let r : CobsDecodeResult :=
        { outLen := r.outLen + lenCode
          outBufferOverflow := outBufferOverflow
          zeroByteInInput := r.zeroByteInInput || block.contains 0
          inputTooShort := inputTooShort
          dst := r.dst.take r.outLen ++ block ++ r.dst.drop (r.outLen + lenCode) }
      if rest = [] then r
      else if lenCode ≠ 0xFE then
        if r.outLen ≥ r.dst.length then { r with outBufferOverflow := true }
        else cobsDecodeLoop rest { r with outLen := r.outLen + 1, dst := r.dst.set r.outLen 0 }
      else cobsDecodeLoop rest r
termination_by src => src.length
decreasing_by
  all_goals simp only [List.length_drop, List.length_cons]; omega

/-- `cobs_decode` -/
def cobsDecode (dst src : List UInt8) : CobsDecodeResult :=
  cobsDecodeLoop src ⟨0, false, false, false, dst⟩

/-- The block that the next code of the input announces. -/
def blockLen (code : UInt8) (src : List UInt8) : ℕ := min (code.toNat - 1) src.length

/-- The result after that block, when there is room for it. -/
def CobsDecodeResult.block (r : CobsDecodeResult) (code : UInt8) (src : List UInt8) :
    CobsDecodeResult where
  outLen := r.outLen + blockLen code src
  outBufferOverflow := r.outBufferOverflow
  zeroByteInInput := r.zeroByteInInput || (src.take (blockLen code src)).contains 0
  inputTooShort := r.inputTooShort || decide (code.toNat - 1 > src.length)
  dst := r.dst.take r.outLen ++ src.take (blockLen code src) ++
    r.dst.drop (r.outLen + blockLen code src)

/-- The result after a zero is added, when there is room for it. -/
def CobsDecodeResult.zero (r : CobsDecodeResult) : CobsDecodeResult :=
  { r with outLen := r.outLen + 1, dst := r.dst.set r.outLen 0 }

/-- The bytes written so far. -/
def CobsDecodeResult.out (r : CobsDecodeResult) : List UInt8 := r.dst.take r.outLen

theorem blockLen_le (code : UInt8) (src : List UInt8) : blockLen code src ≤ src.length :=
  min_le_right _ _

theorem take_succ_set {l : List UInt8} {k : ℕ} (h : k < l.length) (b : UInt8) :
    (l.set k b).take (k + 1) = l.take k ++ [b] := by
  rw [List.take_succ_eq_append_getElem (by simpa using h), List.getElem_set_self,
    List.take_set_of_le le_rfl]

namespace CobsDecodeResult
variable {r : CobsDecodeResult} {code : UInt8} {src : List UInt8}

@[simp] theorem outLen_block : (r.block code src).outLen = r.outLen + blockLen code src := rfl

@[simp] theorem outLen_zero : r.zero.outLen = r.outLen + 1 := rfl

@[simp] theorem length_dst_zero : r.zero.dst.length = r.dst.length := by simp [zero]

theorem length_dst_block (r : CobsDecodeResult) (code : UInt8) (src : List UInt8)
    (hroom : src.length < r.dst.length - r.outLen) :
    (r.block code src).dst.length = r.dst.length := by
  have := blockLen_le code src
  simp only [block, List.length_append, List.length_take, List.length_drop]; omega

theorem out_block (r : CobsDecodeResult) (code : UInt8) (src : List UInt8)
    (hroom : src.length < r.dst.length - r.outLen) :
    (r.block code src).out = r.out ++ src.take (blockLen code src) := by
  have hle := blockLen_le code src
  have hl : (r.dst.take r.outLen ++ src.take (blockLen code src)).length =
      r.outLen + blockLen code src := by
    simp only [List.length_append, List.length_take]; omega
  simp only [out, block]
  rw [← hl, List.take_left]

/-- What stands behind the block stays. -/
theorem drop_block (r : CobsDecodeResult) (code : UInt8) (src : List UInt8)
    (hroom : src.length < r.dst.length - r.outLen) {k : ℕ}
    (hk : r.outLen + blockLen code src ≤ k) : (r.block code src).dst.drop k = r.dst.drop k := by
  have hle := blockLen_le code src
  have hpre : (r.dst.take r.outLen ++ src.take (blockLen code src)).length =
      r.outLen + blockLen code src := by
    simp only [List.length_append, List.length_take]; omega
  simp only [block]
  rw [List.drop_append, List.drop_of_length_le (by omega), List.nil_append, List.drop_drop]
  congr 1
  omega

theorem drop_zero {k : ℕ} (hk : r.outLen < k) : r.zero.dst.drop k = r.dst.drop k :=
  List.drop_set_of_lt hk

/-- A block without zeros is well formed if it is all there. -/
theorem ok_block (r : CobsDecodeResult) (code : UInt8) (h0 : 0 ∉ src) :
    (r.block code src).ok = true ↔ r.ok = true ∧ code.toNat - 1 ≤ src.length := by
  have hz : (src.take (blockLen code src)).contains 0 = false := by
    rw [← Bool.not_eq_true, List.contains_iff_mem]
    exact fun h => h0 (List.mem_of_mem_take h)
  simp only [ok, block, hz, Bool.or_false, Bool.not_or, Bool.and_eq_true, Bool.not_eq_true',
    decide_eq_false_iff_not, not_lt, gt_iff_lt]
  tauto

theorem out_zero (h : r.outLen < r.dst.length) : r.zero.out = r.out ++ [0] := take_succ_set h 0

end CobsDecodeResult

/-- One turn of the loop, when the output has room for the rest of the input: neither
    test for an overflow of the output can succeed. -/
theorem cobsDecodeLoop_cons {code : UInt8} {src : List UInt8} {r : CobsDecodeResult}
    (hc : code ≠ 0) (hroom : src.length < r.dst.length - r.outLen) :
    cobsDecodeLoop (code :: src) r =
      if src.drop (blockLen code src) = [] then r.block code src
      else if blockLen code src ≠ 0xFE then
        cobsDecodeLoop (src.drop (blockLen code src)) (r.block code src).zero
      else cobsDecodeLoop (src.drop (blockLen code src)) (r.block code src) := by
  have hle := blockLen_le code src
  have hin : (if code.toNat - 1 > src.length then src.length else code.toNat - 1) =
      blockLen code src := by
    rw [blockLen]; split_ifs <;> omega
  have hout : ¬ blockLen code src > r.dst.length - r.outLen := by omega
  have hzero : ¬ r.outLen + blockLen code src ≥ (r.block code src).dst.length := by
    rw [CobsDecodeResult.length_dst_block _ _ _ hroom]; omega
  rw [cobsDecodeLoop, if_neg hc]
  simp only [hin, if_neg hout, decide_eq_false hout, Bool.or_false]
  exact if_congr Iff.rfl rfl (if_congr Iff.rfl (if_neg hzero) rfl)

/-- **Induction on the blocks**, when the output has room for the rest of the input: `out` is
    what the loop makes of the blocks from `r` on. -/
theorem cobsDecodeLoop_induction
    {motive : List UInt8 → CobsDecodeResult → CobsDecodeResult → Prop}
    (nil : ∀ r, motive [] r r)
    (zeroCode : ∀ src r, src.length < r.dst.length - r.outLen →
      motive (0 :: src) r { r with zeroByteInInput := true })
    (last : ∀ code src r, code ≠ 0 → src.length < r.dst.length - r.outLen →
      src.drop (blockLen code src) = [] → motive (code :: src) r (r.block code src))
    (more : ∀ code src r out, code ≠ 0 → src.length < r.dst.length - r.outLen →
      src.drop (blockLen code src) ≠ [] → blockLen code src ≠ 0xFE →
      motive (src.drop (blockLen code src)) (r.block code src).zero out →
      motive (code :: src) r out)
    (full : ∀ code src r out, code ≠ 0 → src.length < r.dst.length - r.outLen →
      src.drop (blockLen code src) ≠ [] → blockLen code src = 0xFE →
      motive (src.drop (blockLen code src)) (r.block code src) out → motive (code :: src) r out)
    (src : List UInt8) : ∀ r : CobsDecodeResult, src.length ≤ r.dst.length - r.outLen →
    motive src r (cobsDecodeLoop src r) := by
  induction hn : src.length using Nat.strongRecOn generalizing src with
  | ind n ih =>
    intro r hroom
    rcases src with _ | ⟨code, src⟩
    · rw [cobsDecodeLoop]
      exact nil r
    rw [List.length_cons] at hn
    subst hn
    by_cases hc : code = 0
    · rw [hc, cobsDecodeLoop, if_pos rfl]
      exact zeroCode src r (by omega)
    have hle := blockLen_le code src
    have hlen := r.length_dst_block code src (by omega)
    have hdrop : (src.drop (blockLen code src)).length = src.length - blockLen code src :=
      List.length_drop
    rw [cobsDecodeLoop_cons hc (by omega)]
    split_ifs with hrest hfe
    · exact last code src r hc (by omega) hrest
    · have hpos := List.length_pos_iff.2 hrest
      refine more code src r _ hc (by omega) hrest hfe (ih _ (by omega) _ rfl _ ?_)
      simp only [CobsDecodeResult.length_dst_zero, CobsDecodeResult.outLen_zero,
        CobsDecodeResult.outLen_block]
      omega
    · refine full code src r _ hc (by omega) hrest (not_not.1 hfe) (ih _ (by omega) _ rfl _ ?_)
      simp only [CobsDecodeResult.outLen_block]
      omega

/-- The loop does not get ahead of its input: as long as there is as much room in the
    output as input left, it stays inside and leaves one byte. -/
theorem cobsDecodeLoop_bounds (src : List UInt8) (r : CobsDecodeResult)
    (hroom : src.length ≤ r.dst.length - r.outLen) :
    r.outBufferOverflow = false → src ≠ [] →
    (cobsDecodeLoop src r).outBufferOverflow = false ∧
      (cobsDecodeLoop src r).dst.length = r.dst.length ∧
      (cobsDecodeLoop src r).outLen < r.dst.length := by
  refine cobsDecodeLoop_induction (motive := fun src r out => r.outBufferOverflow = false →
    src ≠ [] → out.outBufferOverflow = false ∧ out.dst.length = r.dst.length ∧
      out.outLen < r.dst.length) ?_ ?_ ?_ ?_ ?_ src r hroom
  · intro r _ hne
    exact absurd rfl hne
  · intro src r hroom hov _
    exact ⟨hov, rfl, by dsimp only; omega⟩
  · intro code src r _ hroom _ hov _
    have hle := blockLen_le code src
    exact ⟨hov, r.length_dst_block code src hroom, by rw [CobsDecodeResult.outLen_block]; omega⟩
  · intro code src r out _ hroom hrest _ ih hov _
    have := ih hov hrest
    rwa [CobsDecodeResult.length_dst_zero, r.length_dst_block code src hroom] at this
  · intro code src r out _ hroom hrest _ ih hov _
    have := ih hov hrest
    rwa [r.length_dst_block code src hroom] at this

/-- **With an output as long as the input, `cobs_decode` stays inside it** and writes at
    least one byte less. -/
theorem cobsDecode_bounds {dst src : List UInt8} (h : dst.length = src.length) :
    (cobsDecode dst src).outBufferOverflow = false ∧
      (cobsDecode dst src).dst.length = dst.length ∧
      (cobsDecode dst src).outLen ≤ src.length - 1 := by
  by_cases hne : src = []
  · subst hne; simp [cobsDecode, cobsDecodeLoop]
  · have hpos := List.length_pos_iff.2 hne
    obtain ⟨hov, hlen, hout⟩ :=
      cobsDecodeLoop_bounds src ⟨0, false, false, false, dst⟩ (by simp [h]) rfl hne
    refine ⟨hov, hlen, ?_⟩
    dsimp only at hout
    rw [cobsDecode]; omega

/-- `Stuffing.unstuff`, by the block of the decoder. -/
theorem unstuff_cons (code : UInt8) (src : List UInt8) :
    Stuffing.unstuff (code :: src) = src.take (blockLen code src) ++
      if src.drop (blockLen code src) = [] then []
      else (if code = 255 then [] else [0]) ++ Stuffing.unstuff (src.drop (blockLen code src)) := by
  have htake : src.take (code.toNat - 1) = src.take (blockLen code src) := by
    rw [blockLen, List.take_eq_take_iff]; omega
  have hdrop : src.drop (code.toNat - 1) = src.drop (blockLen code src) := by
    rw [blockLen]
    rcases le_total (code.toNat - 1) src.length with h | h
    · rw [min_eq_left h]
    · rw [min_eq_right h, List.drop_of_length_le h, List.drop_length]
  rw [Stuffing.unstuff, htake, hdrop]

/-- A block before the end is whole, so that its code tells whether it is full. -/
theorem blockLen_eq_full {code : UInt8} {src : List UInt8} (hc : code ≠ 0)
    (hrest : src.drop (blockLen code src) ≠ []) : blockLen code src = 0xFE ↔ code = 255 := by
  have hpos := List.length_pos_iff.2 hrest
  have hdrop : (src.drop (blockLen code src)).length = src.length - blockLen code src :=
    List.length_drop
  have hbl : blockLen code src = code.toNat - 1 := by rw [blockLen] at hpos hdrop ⊢; omega
  have hc0 : code.toNat ≠ 0 := fun h => hc (UInt8.toNat_inj.1 h)
  rw [hbl, ← UInt8.toNat_inj]
  simp only [UInt8.reduceToNat]
  omega

/-- What the loop writes is the unstuffed input. -/
theorem cobsDecodeLoop_eq (src : List UInt8) (r : CobsDecodeResult)
    (hroom : src.length ≤ r.dst.length - r.outLen) : 0 ∉ src →
    (cobsDecodeLoop src r).outLen = r.outLen + (Stuffing.unstuff src).length ∧
      (cobsDecodeLoop src r).out = r.out ++ Stuffing.unstuff src := by
  refine cobsDecodeLoop_induction (motive := fun src r out => 0 ∉ src →
    out.outLen = r.outLen + (Stuffing.unstuff src).length ∧
      out.out = r.out ++ Stuffing.unstuff src) ?_ ?_ ?_ ?_ ?_ src r hroom
  · intro r _
    simp [Stuffing.unstuff]
  · intro src r _ h0
    exact absurd List.mem_cons_self h0
  · intro code src r _ hroom hrest _
    rw [unstuff_cons, if_pos hrest, List.append_nil, r.out_block code src hroom,
      CobsDecodeResult.outLen_block, List.length_take, min_eq_left (blockLen_le code src)]
    exact ⟨rfl, rfl⟩
  · intro code src r out hc hroom hrest hfe ih h0
    rw [List.mem_cons, not_or] at h0
    have hpos := List.length_pos_iff.2 hrest
    rw [List.length_drop] at hpos
    have hlt : (r.block code src).outLen < (r.block code src).dst.length := by
      rw [r.length_dst_block code src hroom, CobsDecodeResult.outLen_block]
      omega
    obtain ⟨hlen, hout⟩ := ih fun h => h0.2 (List.mem_of_mem_drop h)
    rw [unstuff_cons, if_neg hrest, if_neg fun h => hfe ((blockLen_eq_full hc hrest).2 h), hlen, hout,
      CobsDecodeResult.out_zero hlt, r.out_block code src hroom, CobsDecodeResult.outLen_zero,
      CobsDecodeResult.outLen_block]
    simp only [List.length_append, List.length_take, List.length_singleton, List.append_assoc]
    refine ⟨by omega, trivial⟩
  · intro code src r out hc hroom hrest hfe ih h0
    rw [List.mem_cons, not_or] at h0
    have hle := blockLen_le code src
    obtain ⟨hlen, hout⟩ := ih fun h => h0.2 (List.mem_of_mem_drop h)
    rw [unstuff_cons, if_neg hrest, if_pos ((blockLen_eq_full hc hrest).1 hfe), hlen, hout,
      r.out_block code src hroom, CobsDecodeResult.outLen_block]
    simp only [List.length_append, List.length_take, List.append_assoc, List.nil_append]
    refine ⟨by omega, trivial⟩

/-- `Stuffing.Complete`, by the block of the decoder. -/
theorem complete_cons_iff {code : UInt8} {src : List UInt8} :
    Stuffing.Complete (code :: src) ↔
      code.toNat - 1 ≤ src.length ∧ Stuffing.Complete (src.drop (blockLen code src)) := by
  rw [Stuffing.complete_cons]
  refine and_congr_right fun hle => ?_
  rw [blockLen, min_eq_left hle]

theorem ok_complete_cons (r : CobsDecodeResult) (code : UInt8) {src : List UInt8}
    (h0 : 0 ∉ src) :
    r.ok = true ∧ Stuffing.Complete (code :: src) ↔
      (r.block code src).ok = true ∧ Stuffing.Complete (src.drop (blockLen code src)) := by
  rw [complete_cons_iff, ← and_assoc, ← r.ok_block code h0]

/-- What the loop does not write stays, and its status tells whether the blocks are whole. -/
theorem cobsDecodeLoop_rest (src : List UInt8) (r : CobsDecodeResult)
    (hroom : src.length ≤ r.dst.length - r.outLen) : 0 ∉ src →
    (cobsDecodeLoop src r).dst.drop (cobsDecodeLoop src r).outLen =
        r.dst.drop (cobsDecodeLoop src r).outLen ∧
      r.outLen ≤ (cobsDecodeLoop src r).outLen ∧
      ((cobsDecodeLoop src r).ok = true ↔ r.ok = true ∧ Stuffing.Complete src) := by
  refine cobsDecodeLoop_induction (motive := fun src r out => 0 ∉ src →
    out.dst.drop out.outLen = r.dst.drop out.outLen ∧ r.outLen ≤ out.outLen ∧
      (out.ok = true ↔ r.ok = true ∧ Stuffing.Complete src)) ?_ ?_ ?_ ?_ ?_ src r hroom
  · intro r _
    simp
  · intro src r _ h0
    exact absurd List.mem_cons_self h0
  · intro code src r _ hroom hrest h0
    rw [List.mem_cons, not_or] at h0
    rw [ok_complete_cons r code h0.2, hrest]
    exact ⟨r.drop_block code src hroom le_rfl, Nat.le_add_right _ _, by simp⟩
  · intro code src r out _ hroom _ _ ih h0
    rw [List.mem_cons, not_or] at h0
    obtain ⟨hdrop, hge, hok⟩ := ih fun h => h0.2 (List.mem_of_mem_drop h)
    rw [CobsDecodeResult.outLen_zero, CobsDecodeResult.outLen_block] at hge
    rw [ok_complete_cons r code h0.2, hdrop,
      CobsDecodeResult.drop_zero (by rw [CobsDecodeResult.outLen_block]; omega),
      r.drop_block code src hroom (by omega)]
    exact ⟨rfl, by omega, hok⟩
  · intro code src r out _ hroom _ _ ih h0
    rw [List.mem_cons, not_or] at h0
    obtain ⟨hdrop, hge, hok⟩ := ih fun h => h0.2 (List.mem_of_mem_drop h)
    rw [CobsDecodeResult.outLen_block] at hge
    rw [ok_complete_cons r code h0.2, hdrop,
      r.drop_block code src hroom (by omega)]
    exact ⟨rfl, by omega, hok⟩

/-- **On input without zeros, `cobs_decode` writes the unstuffed input**, and leaves what the
    destination held after it; the status is `COBS_DECODE_OK` exactly for whole blocks. -/
theorem cobsDecode_eq {dst src : List UInt8} (h : dst.length = src.length) (h0 : 0 ∉ src) :
    (cobsDecode dst src).outLen = (Stuffing.unstuff src).length ∧
      (cobsDecode dst src).dst =
        Stuffing.unstuff src ++ dst.drop (Stuffing.unstuff src).length ∧
      ((cobsDecode dst src).ok = true ↔ Stuffing.Complete src) := by
  let r : CobsDecodeResult := ⟨0, false, false, false, dst⟩
  obtain ⟨hlen, hout⟩ := cobsDecodeLoop_eq src r (by simp [r, h]) h0
  obtain ⟨hdrop, -, hok⟩ := cobsDecodeLoop_rest src r (by simp [r, h]) h0
  rw [show r.out = [] from rfl, List.nil_append] at hout
  rw [show r.outLen = 0 from rfl, zero_add] at hlen
  refine ⟨hlen, ?_, hok.trans (and_iff_right rfl)⟩
  have hsplit := List.take_append_drop (cobsDecodeLoop src r).outLen (cobsDecodeLoop src r).dst
  rw [hdrop, ← CobsDecodeResult.out, hout, hlen] at hsplit
  exact hsplit.symm

end PacketSerial
