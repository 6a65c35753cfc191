/-
  What the check byte of a packet detects.

  `Crc8` is the remainder modulo the polynomial of its header, `x^8 + x^2 + x + 1`
  (`generator`): a byte string has the check byte 0 when the generator divides its
  polynomial (`foldl_crc8_eq_iff`).  The generator has the root 1 and a constant
  term, and the order of `x` modulo it is 127.

  * `calculateCrc_ne`: so every odd number of wrong bits is detected, every burst of
    up to 8 bits, and every pair of bits less than 127 positions apart;
  * `crcDetects_iff`: in buffers of up to 2^31 bytes.  In longer ones, `calculate_crc` does not
    see what is behind the first 2^31;
  * `two_flips_detected_iff`: a packet with its check byte has up to 128 bits, so
    that in the longest one a single pair of wrong bits, the first and the last, is
    not detected.
-/
import PacketSerial.Frame
import PacketSerial.Lib.CyclicCode

namespace PacketSerial

open Polynomial CyclicCode

/-! ## The generator -/

/-- CRC-8 is defined to be x^8 + x^2 + x + 1. -/
noncomputable def generator : (ZMod 2)[X] := X ^ 8 + X ^ 2 + X + 1

theorem natDegree_generator : generator.natDegree = 8 := by
  unfold generator; compute_degree!

theorem generator_coeff_zero : generator.coeff 0 ≠ 0 := by
  simp [generator, coeff_X_pow]

theorem generator_ne_zero : generator ≠ 0 := fun h => generator_coeff_zero (by rw [h, coeff_zero])

theorem generator_isRoot_one : generator.IsRoot 1 := by
  rw [IsRoot, generator]
  simp only [eval_add, eval_pow, eval_X, eval_one, one_pow]
  decide

/-- The class of a polynomial modulo the generator. -/
noncomputable def residue : (ZMod 2)[X] →+* AdjoinRoot generator := AdjoinRoot.mk generator

theorem residue_eq_iff {p q : (ZMod 2)[X]} : residue p = residue q ↔ generator ∣ p + q := by
  rw [← CharTwo.sub_eq_add]; exact AdjoinRoot.mk_eq_mk

theorem residue_generator : residue generator = 0 := AdjoinRoot.mk_self

/-- Each power is the square of the one before, and `r ^ 8` is reduced where it comes up
    again. -/
theorem pow_128_eq {R : Type} [CommRing R] {r : R} (h2 : (2 : R) = 0)
    (h8 : r ^ 8 + r ^ 2 + r + 1 = 0) : r ^ 128 = r := by
  have h16 : r ^ 16 = r ^ 4 + r ^ 2 + 1 := by
    linear_combination (r ^ 8 - r ^ 2 - r - 1) * h8 + (r ^ 3 + r ^ 2 + r) * h2
  have h32 : r ^ 32 = r ^ 4 + r ^ 2 + r := by
    linear_combination (r ^ 16 + r ^ 4 + r ^ 2 + 1) * h16 + h8 + (r ^ 6 + r ^ 4 - r) * h2
  have h64 : r ^ 64 = r ^ 4 + r + 1 := by
    linear_combination (r ^ 32 + r ^ 4 + r ^ 2 + r) * h32 + h8 +
      (r ^ 6 + r ^ 5 + r ^ 3 - r - 1) * h2
  linear_combination (r ^ 64 + r ^ 4 + r + 1) * h64 + h8 + (r ^ 5 + r ^ 4) * h2

/-- `X` can be cancelled modulo the generator. -/
theorem generator_dvd_of_pow {n : ℕ} (h : residue X ^ (n + 1) = residue X) :
    generator ∣ X ^ n - 1 := by
  have hmul : (X : (ZMod 2)[X]) ^ 1 * (X ^ n - 1) = X ^ (n + 1) + X := by
    rw [mul_sub, ← pow_add, mul_one, pow_one, add_comm 1 n, CharTwo.sub_eq_add]
  rw [← dvd_X_pow_mul_iff generator_coeff_zero (k := 1), hmul, ← residue_eq_iff, map_pow, h]

theorem generator_dvd_X_pow : generator ∣ X ^ 127 - 1 := by
  have h2 : (2 : AdjoinRoot generator) = 0 := by
    rw [← map_ofNat residue 2, show (2 : (ZMod 2)[X]) = 0 from CharTwo.two_eq_zero, map_zero]
  have h8 : residue X ^ 8 + residue X ^ 2 + residue X + 1 = 0 := by
    have h : residue (X ^ 8 + X ^ 2 + X + 1) = 0 := residue_generator
    simpa only [map_add, map_pow, map_one] using h
  exact generator_dvd_of_pow (pow_128_eq h2 h8)

theorem generator_not_dvd : ¬ generator ∣ X - 1 := by
  intro h
  refine X_sub_C_ne_zero (1 : ZMod 2) (eq_zero_of_dvd_of_natDegree_lt h ?_)
  rw [natDegree_generator, natDegree_X_sub_C]
  decide

/-- The order of `X` modulo the generator is 127. -/
theorem generator_dvd_pair_iff {i j : ℕ} (hij : i < j) :
    generator ∣ poly {i, j} ↔ 127 ∣ j - i :=
  dvd_pair_iff (by norm_num) generator_coeff_zero generator_dvd_X_pow generator_not_dvd hij

/-! ## The loop of `Crc8` -/

/-- One turn multiplies by `X`, and takes the generator off where a bit leaves. -/
theorem bytePoly_crc8Shift (data : UInt8) : bytePoly (crc8Shift data) =
    X * bytePoly data + if data.toNat.testBit 7 then generator else 0 := by
  have h : ∀ x : Fin 256, byteBits (crc8Shift (UInt8.ofNat x)) =
      symmDiff ((byteBits (UInt8.ofNat x)).image (· + 1))
        (if (UInt8.ofNat x).toNat.testBit 7 then {0, 1, 2, 8} else ∅) := by
    decide +kernel
  have hd := h ⟨data.toNat, data.toNat_lt⟩
  rw [UInt8.ofNat_toNat] at hd
  rw [bytePoly, hd, poly_symmDiff, poly_image_add, pow_one]
  refine congrArg (X * bytePoly data + ·) ?_
  split_ifs
  · simp [poly, generator]; ring
  · rfl

theorem residue_crc8Shift (data : UInt8) :
    residue (bytePoly (crc8Shift data)) = residue X * residue (bytePoly data) := by
  rw [bytePoly_crc8Shift, map_add, map_mul]
  split_ifs
  · rw [residue_generator, add_zero]
  · rw [map_zero, add_zero]

theorem residue_crc8Shift_iterate (n : ℕ) (data : UInt8) :
    residue (bytePoly (crc8Shift^[n] data)) = residue X ^ n * residue (bytePoly data) := by
  induction n with
  | zero => rw [Function.iterate_zero, id, pow_zero, one_mul]
  | succ n ih => rw [Function.iterate_succ_apply', residue_crc8Shift, ih, ← mul_assoc, ← pow_succ']

/-- A byte is added to the register and moves it by eight powers. -/
theorem residue_crc8 (inCrc inData : UInt8) : residue (bytePoly (crc8 inCrc inData)) =
    residue X ^ 8 * (residue (bytePoly inCrc) + residue (bytePoly inData)) := by
  rw [crc8, residue_crc8Shift_iterate, bytePoly_xor, map_add]

/-- **The register holds the remainder of the bytes that went through it.** -/
theorem residue_foldl_crc8 (buffer : List UInt8) : ∀ crc : UInt8,
    residue (bytePoly (buffer.foldl crc8 crc)) =
      residue (X ^ (8 * buffer.length) * bytePoly crc + X ^ 8 * bytesPoly buffer) := by
  induction buffer with
  | nil => intro crc; simp [bytesPoly]
  | cons b buffer ih =>
    intro crc
    rw [List.foldl_cons, ih, bytesPoly, List.length_cons]
    simp only [map_add, map_mul, map_pow, residue_crc8, mul_add, pow_add, mul_one]
    ring

/-- The register determines the residue, and the residue the register. -/
theorem residue_bytePoly_injective : Function.Injective fun b => residue (bytePoly b) := by
  intro a b h
  have hd := residue_eq_iff.1 h
  rw [← bytePoly_xor] at hd
  have hdeg := degree_bytePoly_lt (a ^^^ b)
  rw [show (8 : WithBot ℕ) = generator.degree by
    rw [degree_eq_natDegree generator_ne_zero, natDegree_generator]; rfl] at hdeg
  have hz := eq_zero_of_dvd_of_degree_lt hd hdeg
  rw [bytePoly_xor, CharTwo.add_eq_zero] at hz
  exact bytePoly_injective hz

/-- A register compared with the check byte of a byte string. -/
theorem foldl_crc8_eq_iff {buffer : List UInt8} {crc : UInt8} :
    buffer.foldl crc8 0 = crc ↔ generator ∣ bytesPoly (buffer ++ [crc]) := by
  have h0 : bytePoly 0 = 0 := by rw [bytePoly, show byteBits 0 = ∅ by decide, poly_empty]
  have hword : bytesPoly (buffer ++ [crc]) = X ^ 8 * bytesPoly buffer + bytePoly crc := by
    rw [bytesPoly_append]; simp [bytesPoly]
  rw [← residue_bytePoly_injective.eq_iff]
  rw [residue_foldl_crc8, residue_eq_iff, h0, mul_zero, zero_add, hword]

/-- What `calculate_crc` reads of a buffer that is given whole. -/
theorem calculateCrc_length {a : List UInt8} {n : ℕ} (ha : a.length = n) :
    calculateCrc a n = (a.take (2 ^ 31)).foldl crc8 0 := by
  have htake : a.take (min n (2 ^ 31)) = a.take (2 ^ 31) := List.take_eq_take_iff.2 (by omega)
  rw [calculateCrc_eq, htake]

/-- **Two byte strings of one length have the same check byte** when the generator
    divides the polynomial of their differences, in what is read of them. -/
theorem calculateCrc_eq_iff {a b : List UInt8} {n : ℕ} (ha : a.length = n) (hb : b.length = n) :
    calculateCrc a n = calculateCrc b n ↔
      generator ∣ bytesPoly (a.take (2 ^ 31)) + bytesPoly (b.take (2 ^ 31)) := by
  have hlen : (a.take (2 ^ 31)).length = (b.take (2 ^ 31)).length := by
    rw [List.length_take, List.length_take, ha, hb]
  rw [calculateCrc_length ha, calculateCrc_length hb, ← residue_bytePoly_injective.eq_iff]
  rw [residue_foldl_crc8, residue_foldl_crc8, hlen, residue_eq_iff, add_add_add_comm,
    CharTwo.add_self_eq_zero, zero_add, ← mul_add, dvd_X_pow_mul_iff generator_coeff_zero]

/-- **The check byte is the remainder** of the bytes, moved up by its eight bits, modulo the
    generator; and the traditional implementation comes to the same. -/
theorem calculateCrc_remainder (buffer : List UInt8) {size : ℕ} (h : size ≤ 2 ^ 31) :
    bytePoly (calculateCrc buffer size) =
        (X ^ 8 * bytesPoly (buffer.take size)) %ₘ generator ∧
      (buffer.take size).foldl crc8Traditional 0 = calculateCrc buffer size := by
  have hcrc := calculateCrc_of_le h buffer
  have h0 : bytePoly 0 = 0 := by rw [bytePoly, show byteBits 0 = ∅ by decide, poly_empty]
  constructor
  · have hres := residue_foldl_crc8 (buffer.take size) 0
    rw [h0, mul_zero, zero_add] at hres
    obtain ⟨q, hq⟩ := residue_eq_iff.1 hres
    have hmonic : generator.Monic := by unfold generator; monicity!
    refine ((div_modByMonic_unique q _ hmonic ⟨?_, ?_⟩).2).symm
    · rw [← hq, hcrc, ← add_assoc, CharTwo.add_self_eq_zero, zero_add]
    · rw [degree_eq_natDegree generator_ne_zero, natDegree_generator]
      exact degree_bytePoly_lt _
  · rw [hcrc, funext₂ crc8Traditional_eq]

/-- The five bytes of a message, in a buffer of eight. -/
theorem calculateCrc_remainder_hello :
    bytePoly (calculateCrc [104, 101, 108, 108, 111, 0, 0, 0] 5) =
        (X ^ 8 * bytesPoly [104, 101, 108, 108, 111]) %ₘ generator ∧
      [104, 101, 108, 108, 111].foldl crc8Traditional 0 = 146 :=
  have h := @calculateCrc_remainder [104, 101, 108, 108, 111, 0, 0, 0] 5 (by decide)
  ⟨h.1, h.2.trans (by decide +kernel)⟩

/-! ## Wrong bits -/

/-- The kinds of damage that the check byte is meant for: an odd number of wrong bits,
    wrong bits within 8 consecutive ones, or two less than 127 positions apart. -/
def Detectable (s : Finset ℕ) : Prop :=
  Odd s.card ∨ (s.Nonempty ∧ ∃ k, ∀ i ∈ s, k ≤ i ∧ i < k + 8) ∨
    ∃ i j, i < j ∧ j - i < 127 ∧ s = {i, j}

/-- The positions are counted from the other end in the polynomial. -/
theorem generator_not_dvd_image {s : Finset ℕ} {n : ℕ} (hs : ∀ i ∈ s, i < n) (h : Detectable s) :
    ¬ generator ∣ poly (s.image fun i => n - 1 - i) := by
  rcases h with hodd | ⟨hne, k, hk⟩ | ⟨i, j, hij, hlt, rfl⟩
  · intro hd
    have heven := even_card_of_dvd generator_isRoot_one hd
    rw [Finset.card_image_of_injOn] at heven
    · exact (Nat.not_even_iff_odd.2 hodd) heven
    · intro i hi j hj hij
      have := hs i hi
      have := hs j hj
      dsimp only at hij
      omega
  · -- the window may reach over the end, where there are no positions
    rw [← dvd_X_pow_mul_iff generator_coeff_zero (k := 8), ← poly_image_add, Finset.image_image]
    refine not_dvd_of_window generator_coeff_zero (k := n - k) (hne.image _) fun e he => ?_
    obtain ⟨i, hi, rfl⟩ := Finset.mem_image.1 he
    have := hs i hi
    have := hk i hi
    simp only [natDegree_generator, Function.comp_apply]
    omega
  · have := hs i (by simp)
    have := hs j (by simp)
    rw [Finset.image_insert, Finset.image_singleton, Finset.pair_comm,
      generator_dvd_pair_iff (by omega)]
    intro hd
    have := Nat.le_of_dvd (by omega) hd
    omega

/-- **What the check byte detects**, in byte strings of up to 2^31 bytes. -/
theorem calculateCrc_ne {n : ℕ} (hn : n ≤ 2 ^ 31) {a b : List UInt8} (ha : a.length = n)
    (hb : b.length = n) (h : Detectable (differences a b)) :
    calculateCrc a n ≠ calculateCrc b n := by
  rw [ne_eq, calculateCrc_eq_iff ha hb, List.take_of_length_le (by omega),
    List.take_of_length_le (by omega), bytesPoly_add (ha.trans hb.symm)]
  refine generator_not_dvd_image (fun i hi => ?_) h
  exact Finset.mem_range.1 (Finset.mem_filter.1 hi).1

/-- What is behind the first 2^31 bytes is not looked at. -/
theorem calculateCrc_flipBit {n i : ℕ} {a : List UInt8} (ha : a.length = n) (hi : 2 ^ 34 ≤ i) :
    calculateCrc (flipBit a i) n = calculateCrc a n := by
  have htake : (flipBit a i).take (2 ^ 31) = a.take (2 ^ 31) := by
    rw [flipBit, List.take_modify]
    exact List.modify_eq_self (by rw [List.length_take]; omega)
  rw [calculateCrc_length ((length_flipBit a i).trans ha), calculateCrc_length ha, htake]

/-- Damage of these kinds is detected in every buffer of `n` bytes. -/
def CrcDetects (n : ℕ) : Prop :=
  ∀ a b : List UInt8, a.length = n → b.length = n → Detectable (differences a b) →
    calculateCrc a n ≠ calculateCrc b n

/-- A single wrong bit in the byte that is not read any more. -/
theorem not_crcDetects {n : ℕ} (hn : 2 ^ 31 < n) : ¬ CrcDetects n := by
  intro h
  have ha : (List.replicate n (0 : UInt8)).length = n := List.length_replicate
  have hdiff := @differences_flipBit (List.replicate n 0) (2 ^ 34) (by omega)
  refine h (List.replicate n 0) (flipBit (List.replicate n 0) (2 ^ 34)) ha
    ((length_flipBit _ _).trans ha) ?_ (calculateCrc_flipBit ha le_rfl).symm
  rw [hdiff]
  exact Or.inl (by rw [Finset.card_singleton]; exact odd_one)

/-- **What the check byte detects**: all damage of these kinds in buffers of up to 2^31 bytes,
    and in a longer one what the generator does not divide in the first 2^31 bytes. -/
theorem crcDetects_iff (n : ℕ) :
    (CrcDetects n ↔ n ≤ 2 ^ 31) ∧
      ∀ a b : List UInt8, a.length = n → b.length = n →
        (calculateCrc a n ≠ calculateCrc b n ↔
          ¬ generator ∣ bytesPoly (a.take (2 ^ 31)) + bytesPoly (b.take (2 ^ 31))) := by
  refine ⟨⟨fun h => ?_, fun hn a b ha hb => calculateCrc_ne hn ha hb⟩, fun a b ha hb =>
    not_congr (calculateCrc_eq_iff ha hb)⟩
  by_contra hn
  exact not_crcDetects (not_le.1 hn) h

/-- The two strings of `test_crc8`. -/
theorem crcDetects_iff_test : calculateCrc [0x74, 0x65, 0x73, 0x74] 4 ≠
    calculateCrc [0x74, 0x65, 0x73, 0x73] 4 :=
  (crcDetects_iff 4).1.2 (by decide) _ _ rfl rfl (Or.inl (by decide))

/-- Two buffers of 2^31 + 1 bytes: zeros, and zeros with a one in the last byte. -/
theorem lastBit_undetected :
    let a := List.replicate (2 ^ 31 + 1) (0 : UInt8)
    let b := flipBit a (2 ^ 34)
    a.length = 2 ^ 31 + 1 ∧ b.length = 2 ^ 31 + 1 ∧ differences a b = {2 ^ 34} ∧
      calculateCrc a (2 ^ 31 + 1) = calculateCrc b (2 ^ 31 + 1) ∧ ¬ CrcDetects (2 ^ 31 + 1) := by
  have ha : (List.replicate (2 ^ 31 + 1) (0 : UInt8)).length = 2 ^ 31 + 1 := List.length_replicate
  exact ⟨ha, (length_flipBit _ _).trans ha, differences_flipBit (by omega),
    (calculateCrc_flipBit ha le_rfl).symm, not_crcDetects (by omega)⟩

/-- Two bits of a word that has its check byte at the end. -/
theorem two_flips_eq_iff {data : List UInt8} {i j : ℕ} (hij : i < j)
    (hj : j < 8 * (data.length + 1)) {body : List UInt8} {check : UInt8}
    (hword : flipBit (flipBit (data ++ [data.foldl crc8 0]) i) j = body ++ [check]) :
    body.foldl crc8 0 = check ↔ 127 ∣ j - i := by
  have hlen : (data ++ [data.foldl crc8 0]).length = data.length + 1 := by simp
  have hvalid : generator ∣ bytesPoly (data ++ [data.foldl crc8 0]) := foldl_crc8_eq_iff.1 rfl
  rw [foldl_crc8_eq_iff, ← hword, bytesPoly_flipBit (by rw [length_flipBit]; omega),
    bytesPoly_flipBit (by omega), length_flipBit, hlen, add_assoc, dvd_add_right hvalid,
    ← poly_pair (by omega), Finset.pair_comm, generator_dvd_pair_iff (by omega)]
  refine iff_of_eq (congrArg _ ?_)
  omega

/-- The bytes that the check byte is about, and the check byte. -/
def Packet.checked (packet : Packet) : List UInt8 := packet.data.bytes ++ [packet.crc]

theorem checked_buildPacket {data : List UInt8} (h : data.length ≤ 16) (sequenceNumber : UInt8)
    (flag : PacketFlag) : (buildPacket data data.length sequenceNumber flag).checked =
      data ++ [data.foldl crc8 0] := by
  have hb : (BytesArray.ofList data : BytesArray 16).bytes = data := BytesArray.bytes_ofList h
  have hcrc : calculateCrc data data.length = data.foldl crc8 0 := by
    rw [calculateCrc_of_le (by omega), List.take_length]
  simp only [Packet.checked, buildPacket, List.take_length, hb, hcrc]

/-- **Two wrong bits in a packet are detected**, unless it carries 15 bytes and they are
    the first bit of its data and the last bit of its check byte. -/
theorem two_flips_detected_iff {data : List UInt8} (h1 : 1 ≤ data.length)
    (h15 : data.length ≤ 15) (sequenceNumber : UInt8) (flag : PacketFlag) {i j : ℕ} (hij : i < j)
    (hj : j < 8 * (data.length + 1)) {data' : List UInt8} {crc' : UInt8}
    (hflips : flipBit (flipBit (buildPacket data data.length sequenceNumber flag).checked i) j =
      data' ++ [crc']) :
    crc' ≠ calculateCrc data' data'.length ↔ ¬ (data.length = 15 ∧ i = 0 ∧ j = 127) := by
  rw [checked_buildPacket (by omega)] at hflips
  have hlen : data'.length ≤ 2 ^ 31 := by
    have h := congrArg List.length hflips
    simp only [length_flipBit, List.length_append, List.length_singleton] at h
    omega
  rw [ne_eq, not_iff_not, eq_comm, calculateCrc_of_le hlen, List.take_length,
    two_flips_eq_iff hij hj hflips]
  constructor
  · rintro ⟨k, hk⟩
    omega
  · rintro ⟨-, rfl, rfl⟩
    exact dvd_rfl

theorem two_flips_detected_iff_hello :
    flipBit (flipBit (buildPacket [104, 101, 108, 108, 111] 5 0 .firstLast).checked 0) 47 =
        [232, 101, 108, 108, 111] ++ [147] ∧
      (147 : UInt8) ≠ calculateCrc [232, 101, 108, 108, 111] 5 := by
  have hflips : flipBit (flipBit (buildPacket [104, 101, 108, 108, 111] 5 0 .firstLast).checked 0)
      47 = [232, 101, 108, 108, 111] ++ [147] := by decide +kernel
  exact ⟨hflips, (@two_flips_detected_iff [104, 101, 108, 108, 111] (by decide) (by decide) 0
    .firstLast 0 47 (by decide) (by decide) _ _ hflips).2 (by decide)⟩

/-- A full packet: with its first and its last bit turned over it still checks. -/
theorem fullPacket_unprotected :
    let packet := buildPacket ((List.range 15).map UInt8.ofNat) 15 0 .first
    let data' := 128 :: (List.range' 1 14).map UInt8.ofNat
    flipBit (flipBit packet.checked 0) 127 = data' ++ [21] ∧
      data' ≠ packet.data.bytes ∧ 21 ≠ packet.crc ∧ calculateCrc data' 15 = 21 := by
  decide +kernel

end PacketSerial
