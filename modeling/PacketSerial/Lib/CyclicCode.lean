/-
  Cyclic redundancy checks, as polynomials over the field of two elements.

  A set of bit positions is the polynomial with these exponents (`poly`).  What a
  channel changes in a word is such a set, and the change escapes a check with the
  generator `g` when `g` divides its polynomial.

  * `even_card_of_dvd`: with the root 1, only changes of an even number of bits do;
  * `not_dvd_of_window`: no change within as many bits as the degree of `g` does;
  * `dvd_pair_iff`: a change of two bits does when the order of `X` divides their
    distance;
  * `bytesPoly`: the polynomial of a byte string, its first bit the highest power, and
    `bytesPoly_add`: two strings of one length differ by the polynomial of their
    differences.
-/
import Mathlib.Algebra.CharP.Two
import Mathlib.RingTheory.AdjoinRoot
import Mathlib.Tactic

namespace CyclicCode

open Polynomial

/-- The polynomial whose exponents are the positions in `s`. -/
noncomputable def poly (s : Finset ℕ) : (ZMod 2)[X] := ∑ i ∈ s, X ^ i

theorem coeff_poly (s : Finset ℕ) (n : ℕ) : (poly s).coeff n = if n ∈ s then 1 else 0 := by
  simp [poly, coeff_X_pow]

@[simp] theorem poly_empty : poly ∅ = 0 := rfl

theorem poly_injective : Function.Injective poly := by
  intro s t h
  ext n
  have hn := congrArg (coeff · n) h
  simp only [coeff_poly] at hn
  by_cases hs : n ∈ s <;> by_cases ht : n ∈ t <;> simp_all

/-- Changes add up. -/
theorem poly_symmDiff (s t : Finset ℕ) : poly (symmDiff s t) = poly s + poly t := by
  ext n
  rw [coeff_add, coeff_poly, coeff_poly, coeff_poly]
  by_cases hs : n ∈ s <;> by_cases ht : n ∈ t <;>
    simp [Finset.mem_symmDiff, hs, ht, CharTwo.add_self_eq_zero]

theorem degree_poly_lt {s : Finset ℕ} {n : ℕ} (h : ∀ i ∈ s, i < n) : (poly s).degree < n := by
  rw [degree_lt_iff_coeff_zero]
  intro i hi
  rw [coeff_poly, if_neg fun hm => absurd (h i hm) (by omega)]

/-- Positions moved up. -/
theorem poly_image_add (s : Finset ℕ) (k : ℕ) : poly (s.image (· + k)) = X ^ k * poly s := by
  rw [poly, poly, Finset.sum_image fun i _ j _ h => Nat.add_right_cancel h, Finset.mul_sum]
  exact Finset.sum_congr rfl fun i _ => by rw [← pow_add, add_comm]

/-- Two positions. -/
theorem poly_pair {i j : ℕ} (h : i ≠ j) : poly {i, j} = X ^ i + X ^ j := Finset.sum_pair h

/-! ## Changes that escape -/

section
variable {g : (ZMod 2)[X]} {s : Finset ℕ}

theorem eval_one_poly (s : Finset ℕ) : (poly s).eval 1 = s.card := by
  simp [poly, eval_finsetSum]

/-- **An odd number of changes does not escape** a generator with the root 1. -/
theorem even_card_of_dvd (hg : g.IsRoot 1) (h : g ∣ poly s) : Even s.card := by
  obtain ⟨q, hq⟩ := h
  have hroot : (poly s).eval 1 = 0 := by rw [hq, eval_mul, hg.eq_zero, zero_mul]
  rw [eval_one_poly, ZMod.natCast_eq_zero_iff] at hroot
  exact even_iff_two_dvd.2 hroot

/-- A generator with a constant term has no power of `X` in it. -/
theorem dvd_X_pow_mul_iff (h0 : g.coeff 0 ≠ 0) {k : ℕ} {p : (ZMod 2)[X]} :
    g ∣ X ^ k * p ↔ g ∣ p := by
  refine ⟨fun h => ?_, fun h => h.mul_left _⟩
  have hcop : IsCoprime g (X ^ k) := by
    refine IsCoprime.pow_right (((prime_X.coprime_iff_not_dvd).2 ?_).symm)
    rwa [X_dvd_iff]
  exact hcop.dvd_of_dvd_mul_left h

/-- **Changes within a window of the degree of `g` do not escape.** -/
theorem not_dvd_of_window (h0 : g.coeff 0 ≠ 0) {k : ℕ} (hne : s.Nonempty)
    (hs : ∀ i ∈ s, k ≤ i ∧ i < k + g.natDegree) : ¬ g ∣ poly s := by
  -- the window is moved to the exponents below the degree
  let t := s.image (· - k)
  have hst : t.image (· + k) = s := by
    rw [Finset.image_image]
    refine (Finset.image_congr fun i hi => ?_).trans Finset.image_id
    exact Nat.sub_add_cancel (hs i hi).1
  rw [← hst, poly_image_add, dvd_X_pow_mul_iff h0]
  have hdeg : (poly t).degree < g.natDegree := by
    refine degree_poly_lt fun i hi => ?_
    obtain ⟨j, hj, rfl⟩ := Finset.mem_image.1 hi
    have := hs j hj
    omega
  have hg : g ≠ 0 := fun h => h0 (by rw [h, coeff_zero])
  have ht : poly t ≠ 0 := by
    rw [← poly_empty]
    exact fun h => (hne.image _).ne_empty (poly_injective h)
  intro hd
  rw [← degree_eq_natDegree hg] at hdeg
  exact ht (eq_zero_of_dvd_of_degree_lt hd hdeg)

/-- **Two changes escape when the order of `X` divides their distance**; here it is a
    prime. -/
theorem dvd_pair_iff {n : ℕ} (hn : n.Prime) (h0 : g.coeff 0 ≠ 0) (hX : g ∣ X ^ n - 1)
    (h1 : ¬ g ∣ X - 1) {i j : ℕ} (hij : i < j) : g ∣ poly {i, j} ↔ n ∣ j - i := by
  have hroot : ∀ d, AdjoinRoot.root g ^ d = 1 ↔ g ∣ X ^ d - 1 := by
    intro d
    rw [← AdjoinRoot.mk_eq_zero, map_sub, map_pow, map_one, AdjoinRoot.mk_X, sub_eq_zero]
  have hord : orderOf (AdjoinRoot.root g) = n := by
    have := Fact.mk hn
    refine orderOf_eq_prime ((hroot n).2 hX) fun h => h1 ?_
    have := (hroot 1).1 (by rw [pow_one]; exact h)
    rwa [pow_one] at this
  have hsplit : poly {i, j} = X ^ i * (X ^ (j - i) - 1) := by
    rw [poly_pair hij.ne, mul_sub, ← pow_add, Nat.add_sub_cancel' hij.le, mul_one,
      CharTwo.sub_eq_add, add_comm]
  rw [hsplit, dvd_X_pow_mul_iff h0, ← hroot, ← orderOf_dvd_iff_pow_eq_one, hord]

end

/-! ## Byte strings -/

/-- The bits of a byte, by their weight. -/
def byteBits (b : UInt8) : Finset ℕ := (Finset.range 8).filter fun i => b.toNat.testBit i

noncomputable def bytePoly (b : UInt8) : (ZMod 2)[X] := poly (byteBits b)

/-- The polynomial of a byte string. -/
noncomputable def bytesPoly : List UInt8 → (ZMod 2)[X]
  | [] => 0
  | b :: l => X ^ (8 * l.length) * bytePoly b + bytesPoly l

/-- Bit `i` of a byte string, from the first byte on and in it from the highest bit. -/
def bitAt (l : List UInt8) (i : ℕ) : Bool := (l.getD (i / 8) 0).toNat.testBit (7 - i % 8)

/-- Where two byte strings differ. -/
def differences (a b : List UInt8) : Finset ℕ :=
  (Finset.range (8 * a.length)).filter fun i => bitAt a i ≠ bitAt b i

theorem testBit_toNat {b : UInt8} {i : ℕ} (h : b.toNat.testBit i = true) : i < 8 := by
  by_contra hi
  have := Nat.pow_le_pow_right (n := 2) (by omega) (not_lt.1 hi)
  rw [Nat.testBit_lt_two_pow (by have := b.toNat_lt; omega)] at h
  cases h

theorem mem_byteBits {b : UInt8} {i : ℕ} : i ∈ byteBits b ↔ b.toNat.testBit i = true := by
  rw [byteBits, Finset.mem_filter, Finset.mem_range]
  exact and_iff_right_of_imp testBit_toNat

theorem byteBits_injective : Function.Injective byteBits := by
  intro a b h
  refine UInt8.toNat_inj.1 (Nat.eq_of_testBit_eq fun i => ?_)
  have := Finset.ext_iff.1 h i
  rwa [mem_byteBits, mem_byteBits, Bool.coe_iff_coe] at this

theorem byteBits_xor (a b : UInt8) : byteBits (a ^^^ b) = symmDiff (byteBits a) (byteBits b) := by
  ext i
  rw [Finset.mem_symmDiff, mem_byteBits, mem_byteBits, mem_byteBits, UInt8.toNat_xor,
    Nat.testBit_xor]
  cases a.toNat.testBit i <;> cases b.toNat.testBit i <;> simp

theorem bytePoly_injective : Function.Injective bytePoly :=
  poly_injective.comp byteBits_injective

theorem bytePoly_xor (a b : UInt8) : bytePoly (a ^^^ b) = bytePoly a + bytePoly b := by
  rw [bytePoly, byteBits_xor, poly_symmDiff]; rfl

theorem degree_bytePoly_lt (b : UInt8) : (bytePoly b).degree < 8 :=
  degree_poly_lt fun _ hi => testBit_toNat (mem_byteBits.1 hi)

theorem bytesPoly_append (a b : List UInt8) :
    bytesPoly (a ++ b) = X ^ (8 * b.length) * bytesPoly a + bytesPoly b := by
  induction a with
  | nil => simp [bytesPoly]
  | cons x a ih =>
    rw [List.cons_append, bytesPoly, bytesPoly, ih, List.length_append, mul_add 8, pow_add]
    ring

/-- The coefficients are the bits, the first one at the highest power. -/
theorem coeff_bytesPoly (l : List UInt8) (n : ℕ) : (bytesPoly l).coeff n =
    if n < 8 * l.length ∧ bitAt l (8 * l.length - 1 - n) = true then 1 else 0 := by
  induction l with
  | nil => simp [bytesPoly]
  | cons b l ih =>
    rw [bytesPoly, coeff_add, coeff_X_pow_mul', ih, bytePoly, coeff_poly, List.length_cons]
    by_cases hn : 8 * l.length ≤ n
    · -- a bit of the first byte, if any
      rw [if_pos hn, if_neg (c := n < 8 * l.length ∧ _) fun h => absurd h.1 (not_lt.2 hn), add_zero]
      refine if_congr ?_ rfl rfl
      rw [mem_byteBits]
      constructor
      · intro h
        have h8 := testBit_toNat h
        refine ⟨by omega, ?_⟩
        rw [bitAt, show (8 * (l.length + 1) - 1 - n) / 8 = 0 by omega,
          show 7 - (8 * (l.length + 1) - 1 - n) % 8 = n - 8 * l.length by omega]
        exact h
      · rintro ⟨hlt, h⟩
        rwa [bitAt, show (8 * (l.length + 1) - 1 - n) / 8 = 0 by omega,
          show 7 - (8 * (l.length + 1) - 1 - n) % 8 = n - 8 * l.length by omega] at h
    · -- a bit of the rest
      rw [if_neg hn, zero_add]
      refine if_congr ?_ rfl rfl
      rw [bitAt, bitAt, show (8 * (l.length + 1) - 1 - n) / 8 =
        (8 * l.length - 1 - n) / 8 + 1 by omega, List.getD_cons_succ,
        show (8 * (l.length + 1) - 1 - n) % 8 = (8 * l.length - 1 - n) % 8 by omega]
      exact and_congr_left fun _ => by omega

/-- **Two strings of one length differ by the polynomial of their differences.** -/
theorem bytesPoly_add {a b : List UInt8} (h : a.length = b.length) :
    bytesPoly a + bytesPoly b = poly ((differences a b).image fun i => 8 * a.length - 1 - i) := by
  ext n
  rw [coeff_add, coeff_bytesPoly, coeff_bytesPoly, coeff_poly, ← h]
  have hmem : n ∈ (differences a b).image (fun i => 8 * a.length - 1 - i) ↔
      n < 8 * a.length ∧ bitAt a (8 * a.length - 1 - n) ≠ bitAt b (8 * a.length - 1 - n) := by
    simp only [differences, Finset.mem_image, Finset.mem_filter, Finset.mem_range]
    constructor
    · rintro ⟨i, ⟨hi, hne⟩, rfl⟩
      rw [show 8 * a.length - 1 - (8 * a.length - 1 - i) = i by omega]
      exact ⟨by omega, hne⟩
    · rintro ⟨hn, hne⟩
      exact ⟨_, ⟨by omega, hne⟩, by omega⟩
  rw [if_congr hmem rfl rfl]
  by_cases hn : n < 8 * a.length
  · simp only [hn, true_and]
    cases bitAt a (8 * a.length - 1 - n) <;> cases bitAt b (8 * a.length - 1 - n) <;>
      simp [CharTwo.add_self_eq_zero]
  · simp [hn]

/-- Bit `i` of a byte string turned over. -/
def flipBit (l : List UInt8) (i : ℕ) : List UInt8 :=
  l.modify (i / 8) fun b => b ^^^ (0x80 >>> UInt8.ofNat (i % 8))

@[simp] theorem length_flipBit (l : List UInt8) (i : ℕ) : (flipBit l i).length = l.length := by
  simp [flipBit]

theorem testBit_shiftRight_0x80 {i j : ℕ} (hi : i < 8) (hj : j < 8) :
    ((0x80 : UInt8) >>> UInt8.ofNat i).toNat.testBit (7 - j) = decide (i = j) := by
  have h : ∀ x y : Fin 8, ((0x80 : UInt8) >>> UInt8.ofNat x).toNat.testBit (7 - y) =
      decide (x.val = y.val) := by decide +kernel
  exact h ⟨i, hi⟩ ⟨j, hj⟩

theorem bitAt_flipBit {l : List UInt8} {i : ℕ} (hi : i < 8 * l.length) (j : ℕ) :
    bitAt (flipBit l i) j = (bitAt l j ^^ decide (i = j)) := by
  rw [bitAt, bitAt, flipBit, List.getD_eq_getElem?_getD, List.getElem?_modify,
    List.getD_eq_getElem?_getD]
  by_cases hb : i / 8 = j / 8
  · have hlt : j / 8 < l.length := by omega
    simp only [hb, if_true, List.getElem?_eq_getElem hlt, Option.map_eq_map,
      Option.map_some, Option.getD_some,
      UInt8.toNat_xor, Nat.testBit_xor]
    rw [testBit_shiftRight_0x80 (Nat.mod_lt _ (by omega)) (Nat.mod_lt _ (by omega))]
    rw [decide_eq_decide.2 (show i % 8 = j % 8 ↔ i = j by omega)]
  · have hne : i ≠ j := fun h => hb (h ▸ rfl)
    simp [hb, hne]

theorem differences_flipBit {l : List UInt8} {i : ℕ} (hi : i < 8 * l.length) :
    differences l (flipBit l i) = {i} := by
  ext j
  rw [differences, Finset.mem_filter, Finset.mem_range, bitAt_flipBit hi, Finset.mem_singleton]
  constructor
  · rintro ⟨-, hne⟩
    by_contra h
    rw [decide_eq_false (Ne.symm h)] at hne
    simp at hne
  · rintro rfl
    simp [hi]

theorem bytesPoly_flipBit {l : List UInt8} {i : ℕ} (hi : i < 8 * l.length) :
    bytesPoly (flipBit l i) = bytesPoly l + X ^ (8 * l.length - 1 - i) := by
  have h := bytesPoly_add (length_flipBit l i).symm
  rw [differences_flipBit hi, Finset.image_singleton, poly, Finset.sum_singleton] at h
  rw [← h, ← add_assoc, CharTwo.add_self_eq_zero, zero_add]

end CyclicCode
