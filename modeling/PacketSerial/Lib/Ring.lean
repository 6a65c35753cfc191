/-
  Searches around a ring.

  * `next n q`: the position after `q` among `n`; the first one comes after the last;
  * `search step found stop`: `do { if (found) return true; step } while (!stop)`;
  * `search_around`: where the states are one for each position, and the search stops where
    it started, it finds a position if there is one, wherever it starts.
-/
import Mathlib.Tactic

namespace Ring

variable {σ : Type*}

/-- The position after `q`. -/
def next (n q : ℕ) : ℕ := if q + 1 = n then 0 else q + 1

/-- At most `fuel` turns. -/
def search (step : σ → σ) (found stop : σ → Bool) : ℕ → σ → Bool × σ
  | 0, s => (false, s)
  | fuel + 1, s =>
    if found s then (true, s)
    else if stop (step s) then (false, step s)
    else search step found stop fuel (step s)

/-- The position `j` after `start`. -/
def after (n start j : ℕ) : ℕ := (start + j) % n

variable {n start : ℕ}

theorem after_lt (h : start < n) (j : ℕ) : after n start j < n :=
  Nat.mod_lt _ ((Nat.zero_le start).trans_lt h)

theorem after_zero (h : start < n) : after n start 0 = start := Nat.mod_eq_of_lt h

theorem next_after (h : start < n) (j : ℕ) : next n (after n start j) = after n start (j + 1) := by
  have hlt := after_lt h j
  have hmod : after n start (j + 1) = (after n start j + 1) % n := by
    rw [after, after, ← Nat.add_assoc, Nat.mod_add_mod]
  rw [hmod, next]
  split_ifs with hlast
  · rw [hlast, Nat.mod_self]
  · exact (Nat.mod_eq_of_lt (by omega)).symm

/-- The first position that is met again is the first one. -/
theorem after_eq_start {j : ℕ} (h : start < n) (hj : j ≤ n) (hpos : 0 < j) :
    after n start j = start ↔ j = n := by
  constructor
  · intro he
    by_contra hne
    rcases lt_or_ge (start + j) n with hlt | hge
    · rw [after, Nat.mod_eq_of_lt hlt] at he
      omega
    · rw [after, Nat.mod_eq_sub_mod hge, Nat.mod_eq_of_lt (by omega)] at he
      omega
  · rintro rfl
    rw [after, Nat.add_mod_right, Nat.mod_eq_of_lt h]

/-- Every position is met. -/
theorem exists_after {q : ℕ} (h : start < n) (hq : q < n) : ∃ j < n, after n start j = q := by
  rcases le_or_gt start q with hle | hgt
  · refine ⟨q - start, by omega, ?_⟩
    rw [after, Nat.add_sub_cancel' hle, Nat.mod_eq_of_lt hq]
  · refine ⟨q + n - start, by omega, ?_⟩
    rw [after, show start + (q + n - start) = q + n by omega, Nat.add_mod_right,
      Nat.mod_eq_of_lt hq]

/-- **A search around the ring** ends at a position that it looks for, or has seen all of them
    and is back at the start. -/
theorem search_around {step : σ → σ} {found stop : σ → Bool} {place : ℕ → σ} (h : start < n)
    (hstep : ∀ q < n, step (place q) = place (next n q))
    (hstop : ∀ q < n, stop (place q) = true ↔ q = start) :
    (∃ q < n, search step found stop n (place start) = (true, place q) ∧
        found (place q) = true) ∨
      search step found stop n (place start) = (false, place start) ∧
        ∀ q < n, found (place q) = false := by
  -- `j` positions have been seen, none of them looked for
  have hrun : ∀ k j, k + j = n → 0 < k → (∀ i < j, found (place (after n start i)) = false) →
      (∃ q < n, search step found stop k (place (after n start j)) = (true, place q) ∧
          found (place q) = true) ∨
        search step found stop k (place (after n start j)) = (false, place start) ∧
          ∀ q < n, found (place q) = false := by
    intro k
    induction k with
    | zero => intro j _ hk; omega
    | succ k ih =>
      intro j hj _ hseen
      rw [search, hstep _ (after_lt h j), next_after h]
      cases hf : found (place (after n start j)) with
      | true => exact Or.inl ⟨_, after_lt h j, rfl, hf⟩
      | false =>
        have hseen' : ∀ i < j + 1, found (place (after n start i)) = false := by
          intro i hi
          rcases Nat.lt_succ_iff_lt_or_eq.1 hi with hi | rfl
          · exact hseen i hi
          · exact hf
        have hiff : stop (place (after n start (j + 1))) = true ↔ j + 1 = n :=
          (hstop _ (after_lt h _)).trans (after_eq_start h (by omega) (Nat.succ_pos j))
        rw [if_neg Bool.false_ne_true]
        by_cases hlast : j + 1 = n
        · rw [if_pos (hiff.2 hlast), (after_eq_start h hlast.le (Nat.succ_pos j)).2 hlast]
          refine Or.inr ⟨rfl, fun q hq => ?_⟩
          obtain ⟨i, hi, rfl⟩ := exists_after h hq
          exact hseen' i (by omega)
        · rw [if_neg fun hs => hlast (hiff.1 hs)]
          exact ih (j + 1) (by omega) (by omega) hseen'
  have hstart := hrun n 0 (Nat.add_zero n) ((Nat.zero_le start).trans_lt h)
    fun i hi => absurd hi (Nat.not_lt_zero i)
  rwa [after_zero h] at hstart

end Ring
