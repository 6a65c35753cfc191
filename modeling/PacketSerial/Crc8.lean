/-
  The check byte of a packet (`lib/crc8`, and `calculate_crc` of `PacketSerial.c`).

  * `calculateCrc_eq`: `calculate_crc` goes over the bytes of the buffer, but its index is an
    `int`, and it does not get further than 2^31 bytes;
  * `crc8Traditional_eq`: the implementation of `Crc8` that is compiled does what the
    traditional one does, which has a register of twice its size.
-/
import PacketSerial.Integers

namespace PacketSerial

/-- One turn of the loop of `Crc8`, for one bit. -/
def crc8Shift (data : UInt8) : UInt8 :=
  if data &&& 0x80 ≠ 0 then (data <<< 1) ^^^ 0x07 else data <<< 1

/-- `Crc8` -/
def crc8 (inCrc inData : UInt8) : UInt8 := crc8Shift^[8] (inCrc ^^^ inData)

/-- The loop of `calculate_crc`, from the index `i` on, with at most `turns` turns.  The
    comparison is one of `size_t`.  The run of the model ends where `buffer[i]` is outside of the
    buffer: behind it, or in front of it where `i` has overflowed. -/
def calculateCrcLoop (buffer : List UInt8) (size : ℕ) : ℕ → ℤ → UInt8 → UInt8
  | 0, _, crc => crc
  | turns + 1, i, crc =>
    if (i % 2 ^ 64).toNat < size then
      match if 0 ≤ i then buffer[i.toNat]? else none with
      | some b => calculateCrcLoop buffer size turns (intAdd i 1) (crc8 crc b)
      | none => crc
    else crc

/-- `calculate_crc`; every turn looks at another byte of the buffer. -/
def calculateCrc (buffer : List UInt8) (size : ℕ) : UInt8 :=
  calculateCrcLoop buffer size buffer.length 0 0

/-- The check byte of the packet in `test_process_dummy_packet`. -/
example : calculateCrc [0x09, 0x12, 0x07, 0x0A, 0x05, 0x68, 0x65, 0x6C, 0x6C, 0x6F] 10 = 0x63 := by
  decide +kernel

/-! ## The index -/

/-- With an index that has overflowed, nothing is read any more. -/
theorem calculateCrcLoop_neg {buffer : List UInt8} {size turns : ℕ} {i : ℤ} (h : i < 0)
    (crc : UInt8) : calculateCrcLoop buffer size turns i crc = crc := by
  cases turns with
  | zero => rfl
  | succ turns =>
    rw [calculateCrcLoop, if_neg (not_le.2 h)]
    split_ifs <;> rfl

/-- From the last index on. -/
theorem intAdd_last : intAdd 2147483647 1 = -2147483648 := by decide

theorem calculateCrcLoop_eq {buffer : List UInt8} {size turns : ℕ} :
    ∀ {i : ℕ}, i < 2 ^ 31 → i + turns = buffer.length → ∀ crc : UInt8,
    calculateCrcLoop buffer size turns i crc =
      ((buffer.drop i).take (min size (2 ^ 31) - i)).foldl crc8 crc := by
  induction turns with
  | zero =>
    intro i _ hlen crc
    rw [calculateCrcLoop, List.drop_of_length_le (by omega), List.take_nil, List.foldl_nil]
  | succ turns ih =>
    intro i hi hlen crc
    have hlt : i < buffer.length := by omega
    rw [calculateCrcLoop, sizeOfIndex (by omega), if_pos (Int.natCast_nonneg i), Int.toNat_natCast,
      List.getElem?_eq_getElem hlt, List.drop_eq_getElem_cons hlt]
    dsimp only
    by_cases hsize : i < size
    · have htake : min size (2 ^ 31) - i = min size (2 ^ 31) - (i + 1) + 1 := by omega
      rw [if_pos hsize, htake, List.take_succ_cons, List.foldl_cons]
      rcases Nat.lt_or_ge (i + 1) (2 ^ 31) with hnext | hlast
      · have hadd : intAdd (i : ℤ) 1 = ((i + 1 : ℕ) : ℤ) := intAdd_of_lt (by omega) (by omega)
        rw [hadd, ih hnext (by omega)]
      · have hi31 : (i : ℤ) = 2147483647 := by omega
        have hend : min size (2 ^ 31) - (i + 1) = 0 := by omega
        rw [hi31, intAdd_last, calculateCrcLoop_neg (by decide), hend, List.take_zero,
          List.foldl_nil]
    · have hend : min size (2 ^ 31) - i = 0 := by omega
      rw [if_neg hsize, hend, List.take_zero, List.foldl_nil]

/-- **`calculate_crc`** goes over the first `size` bytes, or over the first 2^31. -/
theorem calculateCrc_eq (buffer : List UInt8) (size : ℕ) :
    calculateCrc buffer size = (buffer.take (min size (2 ^ 31))).foldl crc8 0 := by
  have h := @calculateCrcLoop_eq buffer size buffer.length 0 (by omega) (by omega) 0
  rwa [Nat.cast_zero, List.drop_zero, Nat.sub_zero] at h

theorem calculateCrc_of_le {size : ℕ} (h : size ≤ 2 ^ 31) (buffer : List UInt8) :
    calculateCrc buffer size = (buffer.take size).foldl crc8 0 := by
  rw [calculateCrc_eq, min_eq_left h]

/-! ## The traditional implementation -/

/-- One turn of its loop, with `POLYNOMIAL` for the bit that leaves. -/
def crc8TraditionalShift (data : UInt16) : UInt16 :=
  (if data &&& 0x8000 ≠ 0 then data ^^^ ((0x1070 : UInt16) <<< 3) else data) <<< 1

/-- `Crc8`, as it is without the optimization for 8 bit CPUs. -/
def crc8Traditional (inCrc inData : UInt8) : UInt8 :=
  (crc8TraditionalShift^[8] ((inCrc ^^^ inData).toUInt16 <<< 8) >>> 8).toUInt8

/-- The register of the optimized loop is the upper half of the other, whose lower half
    stays zero. -/
theorem crc8TraditionalShift_upper (data : UInt8) :
    crc8TraditionalShift (data.toUInt16 <<< 8) = (crc8Shift data).toUInt16 <<< 8 := by
  have h : ∀ x : Fin 256, crc8TraditionalShift ((UInt8.ofNat x).toUInt16 <<< 8) =
      (crc8Shift (UInt8.ofNat x)).toUInt16 <<< 8 := by
    decide +kernel
  have hd := h ⟨data.toNat, data.toNat_lt⟩
  rwa [UInt8.ofNat_toNat] at hd

/-- **The two implementations agree.** -/
theorem crc8Traditional_eq (inCrc inData : UInt8) :
    crc8Traditional inCrc inData = crc8 inCrc inData := by
  have hrun : ∀ n (data : UInt8), crc8TraditionalShift^[n] (data.toUInt16 <<< 8) =
      (crc8Shift^[n] data).toUInt16 <<< 8 := by
    intro n
    induction n with
    | zero => exact fun _ => rfl
    | succ n ih =>
      intro data
      rw [Function.iterate_succ_apply, crc8TraditionalShift_upper, ih, Function.iterate_succ_apply]
  have hupper : ∀ data : UInt8, ((data.toUInt16 <<< 8) >>> 8).toUInt8 = data := by
    intro data
    rw [← UInt8.toNat_inj, UInt16.toNat_toUInt8, UInt16.toNat_shiftRight, UInt16.toNat_shiftLeft,
      UInt8.toNat_toUInt16, show (8 : UInt16).toNat % 16 = 8 from rfl, Nat.shiftLeft_eq,
      Nat.shiftRight_eq_div_pow]
    have hlt := data.toNat_lt
    omega
  rw [crc8Traditional, hrun, hupper, crc8]

end PacketSerial
