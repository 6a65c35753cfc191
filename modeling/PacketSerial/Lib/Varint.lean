/-
  Base-128 numerals (varints), low group first: seven bits of the number in each
  byte, and the top bit set on every byte but the last.

  * `encode n`: the shortest numeral of `n`;
  * `encode_eq_append`: all bytes but the last have the top bit set;
  * `Numeral l n`: `l` is a numeral of `n`, the shortest or one with zeros on top;
  * `length_encode_le`: `k` bytes are enough for the numbers below `2 ^ (7 * k)`;
  * `or_shiftLeft_group`: what a decoder does with one group, as arithmetic.
-/
import Mathlib.Tactic

namespace Varint

/-! ## The two parts of a byte -/

theorem toNat_and_0x7F (b : UInt8) : (b &&& 0x7F).toNat = b.toNat % 128 := by
  rw [UInt8.toNat_and]
  exact Nat.and_two_pow_sub_one_eq_mod b.toNat 7

theorem toNat_and_0x80 (b : UInt8) : (b &&& 0x80).toNat = b.toNat / 128 * 128 := by
  have h : ∀ x : Fin 256, x.val &&& 128 = x.val / 128 * 128 := by decide +kernel
  rw [UInt8.toNat_and]
  exact h ⟨b.toNat, b.toNat_lt⟩

/-- The top bit, read with a mask. -/
theorem and_0x80_ne_zero {b : UInt8} : b &&& 0x80 ≠ 0 ↔ 128 ≤ b.toNat := by
  rw [← not_lt, ne_eq, not_iff_not, ← UInt8.toNat_inj, toNat_and_0x80]
  simp only [UInt8.toNat_ofNat, Nat.reducePow, Nat.reduceMod]
  omega

/-- A group of seven bits joined on top of the `k` bits read so far. -/
theorem or_shiftLeft_group {r g k : ℕ} (hr : r < 2 ^ k) : r ||| g <<< k = r + g * 2 ^ k := by
  rw [Nat.shiftLeft_eq, Nat.or_comm, mul_comm, ← Nat.two_pow_add_eq_or_of_lt hr, add_comm]

/-! ## Numerals -/

/-- The shortest numeral of `n`. -/
def encode (n : ℕ) : List UInt8 :=
  if n < 128 then [UInt8.ofNat n] else UInt8.ofNat (n % 128 + 128) :: encode (n / 128)

theorem encode_of_lt {n : ℕ} (h : n < 128) : encode n = [UInt8.ofNat n] := by
  rw [encode, if_pos h]

theorem encode_of_ge {n : ℕ} (h : 128 ≤ n) :
    encode n = UInt8.ofNat (n % 128 + 128) :: encode (n / 128) := by
  rw [encode, if_neg (by omega)]

/-- Induction along the groups of a number. -/
theorem group_induction {P : ℕ → Prop} (last : ∀ n, n < 128 → P n)
    (more : ∀ n, 128 ≤ n → P (n / 128) → P n) (n : ℕ) : P n := by
  induction n using Nat.strongRecOn with
  | ind n ih =>
    by_cases h : n < 128
    · exact last n h
    · exact more n (by omega) (ih _ (by omega))

theorem encode_ne_nil (n : ℕ) : encode n ≠ [] := by
  rw [encode]; split <;> simp

theorem length_encode_pos (n : ℕ) : 0 < (encode n).length :=
  List.length_pos_iff.2 (encode_ne_nil n)

theorem length_encode_le {k n : ℕ} (hk : 0 < k) (h : n < 2 ^ (7 * k)) : (encode n).length ≤ k := by
  induction k generalizing n with
  | zero => omega
  | succ k ih =>
    by_cases hn : n < 128
    · rw [encode_of_lt hn]; simp
    · rw [encode_of_ge (by omega), List.length_cons]
      rcases Nat.eq_zero_or_pos k with rfl | hk'
      · omega
      · have : n / 128 < 2 ^ (7 * k) := by
          rw [show 7 * (k + 1) = 7 * k + 7 by ring, pow_add] at h
          omega
        exact Nat.succ_le_succ (ih hk' this)

/-- Every byte but the last has its top bit set; the last does not. -/
theorem encode_eq_append (n : ℕ) : ∃ init last, encode n = init ++ [last] ∧
    (∀ b ∈ init, 128 ≤ b.toNat) ∧ last.toNat < 128 := by
  induction n using group_induction with
  | last n h => exact ⟨[], UInt8.ofNat n, encode_of_lt h, by simp, by simp; omega⟩
  | more n h ih =>
    obtain ⟨init, last, he, hi, hl⟩ := ih
    refine ⟨UInt8.ofNat (n % 128 + 128) :: init, last, by rw [encode_of_ge h, he]; rfl, ?_, hl⟩
    intro b hb
    rcases List.mem_cons.1 hb with rfl | hb
    · simp; omega
    · exact hi b hb

/-- `l` is a numeral of `n`. -/
inductive Numeral : List UInt8 → ℕ → Prop
  | last {b : UInt8} : b.toNat < 128 → Numeral [b] b.toNat
  | more {b : UInt8} {l : List UInt8} {n : ℕ} : 128 ≤ b.toNat → Numeral l n →
      Numeral (b :: l) (b.toNat % 128 + 128 * n)

theorem Numeral.length_pos {l : List UInt8} {n : ℕ} (h : Numeral l n) : 0 < l.length := by
  cases h <;> simp

theorem numeral_encode (n : ℕ) : Numeral (encode n) n := by
  induction n using group_induction with
  | last n h =>
    have hb : (UInt8.ofNat n).toNat = n := by rw [UInt8.toNat_ofNat']; omega
    have hlast := Numeral.last (b := UInt8.ofNat n) (by omega)
    rwa [hb, ← encode_of_lt h] at hlast
  | more n h ih =>
    have hb : (UInt8.ofNat (n % 128 + 128)).toNat = n % 128 + 128 := by
      rw [UInt8.toNat_ofNat']; omega
    have hmore := Numeral.more (b := UInt8.ofNat (n % 128 + 128)) (by omega) ih
    rwa [hb, ← encode_of_ge h, show (n % 128 + 128) % 128 + 128 * (n / 128) = n by omega] at hmore

end Varint
