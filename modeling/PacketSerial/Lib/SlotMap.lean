/-
  Finite maps kept in a table of slots: each slot is free, or holds a key and its value.

  * `add`: the operation of a map of bounded capacity, which keeps what it has;
  * `Represents s m`: the slots `s` hold the map `m`, no key twice;
  * `Represents.insert`, `Represents.card_eq`: a new key goes to a free slot, and there
    are as many slots in use as keys;
  * `Represents.full_iff`: so there is a free slot as long as the capacity is not reached.
-/
import Mathlib.Data.Finmap
import Mathlib.Data.Fintype.Card

namespace SlotMap

variable {κ ν : Type*} [DecidableEq κ] {n : ℕ}

/-- Add a key to a map of at most `capacity` keys; the Boolean tells whether it was added. -/
def add (capacity : ℕ) (m : Finmap fun _ : κ => ν) (k : κ) (v : ν) :
    Bool × Finmap fun _ : κ => ν :=
  if k ∉ m ∧ m.keys.card < capacity then (true, m.insert k v) else (false, m)

/-- The slots hold the map, and no key stands in two of them. -/
structure Represents (s : Fin n → Option (κ × ν)) (m : Finmap fun _ : κ => ν) : Prop where
  lookup : ∀ k v, m.lookup k = some v ↔ ∃ i, s i = some (k, v)
  distinct : ∀ i j k v w, s i = some (k, v) → s j = some (k, w) → i = j

theorem represents_empty : Represents (fun _ : Fin n => (none : Option (κ × ν))) ∅ where
  lookup k v := by simp
  distinct i j k v w h := by cases h

section
variable {s : Fin n → Option (κ × ν)} {m : Finmap fun _ : κ => ν}

theorem Represents.mem_iff (h : Represents s m) {k : κ} : k ∈ m ↔ ∃ i v, s i = some (k, v) := by
  rw [Finmap.mem_iff, exists_comm]
  exact exists_congr fun v => h.lookup k v

/-- A new key goes to a free slot. -/
theorem Represents.insert (h : Represents s m) {i : Fin n} {k : κ} (v : ν) (hi : s i = none)
    (hk : k ∉ m) : Represents (Function.update s i (some (k, v))) (m.insert k v) := by
  have hnew : ∀ j w, s j ≠ some (k, w) := fun j w hj => hk (h.mem_iff.2 ⟨j, w, hj⟩)
  constructor
  · intro a w
    by_cases ha : a = k
    · subst ha
      rw [Finmap.lookup_insert]
      constructor
      · rintro ⟨⟩
        exact ⟨i, Function.update_self i _ s⟩
      · rintro ⟨j, hj⟩
        by_cases hji : j = i
        · rw [hji, Function.update_self] at hj
          cases hj
          rfl
        · rw [Function.update_of_ne hji] at hj
          exact absurd hj (hnew j w)
    · rw [Finmap.lookup_insert_of_ne _ ha, h.lookup]
      constructor
      · rintro ⟨j, hj⟩
        have hji : j ≠ i := by
          rintro rfl
          rw [hi] at hj
          cases hj
        exact ⟨j, by rw [Function.update_of_ne hji, hj]⟩
      · rintro ⟨j, hj⟩
        by_cases hji : j = i
        · rw [hji, Function.update_self] at hj
          cases hj
          exact absurd rfl ha
        · rw [Function.update_of_ne hji] at hj
          exact ⟨j, hj⟩
  · intro j j' a w w' hj hj'
    by_cases hji : j = i <;> by_cases hji' : j' = i
    · rw [hji, hji']
    · rw [hji, Function.update_self] at hj
      cases hj
      rw [Function.update_of_ne hji'] at hj'
      exact absurd hj' (hnew j' w')
    · rw [hji', Function.update_self] at hj'
      cases hj'
      rw [Function.update_of_ne hji] at hj
      exact absurd hj (hnew j w)
    · rw [Function.update_of_ne hji] at hj
      rw [Function.update_of_ne hji'] at hj'
      exact h.distinct j j' a w w' hj hj'

/-- **There are as many slots in use as keys.** -/
theorem Represents.card_eq (h : Represents s m) :
    (Finset.univ.filter fun i => (s i).isSome).card = m.keys.card := by
  refine Finset.card_bij (fun i hi => ((s i).get (Finset.mem_filter.1 hi).2).1) ?_ ?_ ?_
  · intro i hi
    obtain ⟨⟨k, v⟩, hk⟩ := Option.isSome_iff_exists.1 (Finset.mem_filter.1 hi).2
    rw [Finmap.mem_keys, h.mem_iff]
    exact ⟨i, v, by simp [hk]⟩
  · intro i hi j hj hij
    obtain ⟨⟨k, v⟩, hk⟩ := Option.isSome_iff_exists.1 (Finset.mem_filter.1 hi).2
    obtain ⟨⟨l, w⟩, hl⟩ := Option.isSome_iff_exists.1 (Finset.mem_filter.1 hj).2
    simp only [hk, hl, Option.get_some] at hij
    subst hij
    exact h.distinct i j k v w hk hl
  · intro k hk
    rw [Finmap.mem_keys, h.mem_iff] at hk
    obtain ⟨i, v, hi⟩ := hk
    exact ⟨i, by simp [hi], by simp [hi]⟩

theorem Represents.card_le (h : Represents s m) : m.keys.card ≤ n := by
  rw [← h.card_eq]
  exact (Finset.card_le_univ _).trans (Fintype.card_fin n).le

/-- **A slot is free as long as the capacity is not reached.** -/
theorem Represents.full_iff (h : Represents s m) : (∀ i, s i ≠ none) ↔ ¬ m.keys.card < n := by
  have hle := h.card_le
  have hfull : (∀ i, s i ≠ none) ↔ (Finset.univ.filter fun i => (s i).isSome) = Finset.univ := by
    simp [Finset.filter_eq_self, Option.isSome_iff_ne_none]
  rw [hfull, ← Finset.card_eq_iff_eq_univ, h.card_eq, Fintype.card_fin]
  omega

end

end SlotMap
