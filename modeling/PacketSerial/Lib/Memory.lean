/-
  Writes into memory at signed offsets, in the order in which a program makes them.

  The memory is a function of the offset, so that a write past either end of an array is
  a write like any other; whether it stays inside is a statement about the write.

  * `Write.Within`: the write stays inside an array of a size;
  * `writeAll`: the memory after some writes;
  * `writeAll_of_untouched`: it is the same where none of them goes;
  * `Holds`: a list stands in memory at an offset;
  * `Consecutive`: the writes go one behind the other, and make up a list.
-/
import Mathlib.Tactic

namespace Memory

variable {α : Type*}

/-- Some values, written from an offset on. -/
structure Write (α : Type*) where
  offset : ℤ
  data : List α
deriving DecidableEq, Repr

namespace Write

/-- It stays inside an array of this size. -/
def Within (w : Write α) (size : ℕ) : Prop := 0 ≤ w.offset ∧ w.offset + w.data.length ≤ size

instance (w : Write α) (size : ℕ) : Decidable (w.Within size) :=
  inferInstanceAs (Decidable (_ ∧ _))

/-- It writes to this place. -/
def Touches (w : Write α) (x : ℤ) : Prop := w.offset ≤ x ∧ x < w.offset + w.data.length

/-- The memory after the write. -/
def apply (mem : ℤ → α) (w : Write α) (x : ℤ) : α :=
  if w.offset ≤ x then (w.data[(x - w.offset).toNat]?).getD (mem x) else mem x

theorem apply_of_not_touches {mem : ℤ → α} {w : Write α} {x : ℤ} (h : ¬ w.Touches x) :
    w.apply mem x = mem x := by
  rw [apply]
  split_ifs with hx
  · have hlen : w.data.length ≤ (x - w.offset).toNat := by
      have hge : w.offset + w.data.length ≤ x := by
        by_contra hlt
        exact h ⟨hx, not_le.1 hlt⟩
      omega
    rw [List.getElem?_eq_none hlen, Option.getD_none]
  · rfl

theorem apply_offset_add (mem : ℤ → α) (w : Write α) {i : ℕ} (h : i < w.data.length) :
    w.apply mem (w.offset + i) = w.data[i] := by
  have hi : (w.offset + i - w.offset).toNat = i := by omega
  rw [apply, if_pos (by omega), hi, List.getElem?_eq_getElem h, Option.getD_some]

end Write

/-- The memory after some writes. -/
def writeAll (mem : ℤ → α) (ws : List (Write α)) : ℤ → α := ws.foldl Write.apply mem

@[simp] theorem writeAll_cons (mem : ℤ → α) (w : Write α) (ws : List (Write α)) :
    writeAll mem (w :: ws) = writeAll (w.apply mem) ws := rfl

/-- What no write touches stays as it is. -/
theorem writeAll_of_untouched {ws : List (Write α)} {x : ℤ} :
    ∀ {mem : ℤ → α}, (∀ w ∈ ws, ¬ w.Touches x) → writeAll mem ws x = mem x := by
  induction ws with
  | nil => intro mem _; rfl
  | cons w ws ih =>
    intro mem h
    rw [List.forall_mem_cons] at h
    rw [writeAll_cons, ih h.2, Write.apply_of_not_touches h.1]

/-! ## Lists in memory -/

/-- The list stands in memory from an offset on. -/
def Holds (mem : ℤ → α) (offset : ℤ) (l : List α) : Prop :=
  ∀ (i : ℕ) (h : i < l.length), mem (offset + i) = l[i]

theorem holds_apply (mem : ℤ → α) (w : Write α) : Holds (w.apply mem) w.offset w.data :=
  fun _ h => w.apply_offset_add mem h

theorem Holds.append {mem : ℤ → α} {offset : ℤ} {l l' : List α} (h : Holds mem offset l)
    (h' : Holds mem (offset + l.length) l') : Holds mem offset (l ++ l') := by
  intro i hi
  rw [List.length_append] at hi
  rcases lt_or_ge i l.length with hlt | hge
  · rw [List.getElem_append_left hlt]
    exact h i hlt
  · have hi' := h' (i - l.length) (by omega)
    rw [show offset + l.length + ((i - l.length : ℕ) : ℤ) = offset + i by omega] at hi'
    rw [List.getElem_append_right hge]
    exact hi'

theorem Holds.left {mem : ℤ → α} {offset : ℤ} {l l' : List α} (h : Holds mem offset (l ++ l')) :
    Holds mem offset l := by
  intro i hi
  rw [h i (by rw [List.length_append]; omega), List.getElem_append_left hi]

/-- A list stays in memory under writes behind it. -/
theorem Holds.writeAll {mem : ℤ → α} {offset : ℤ} {l : List α} {ws : List (Write α)}
    (h : Holds mem offset l) (hws : ∀ w ∈ ws, offset + l.length ≤ w.offset) :
    Holds (writeAll mem ws) offset l := by
  intro i hi
  refine (writeAll_of_untouched fun w hw ht => ?_).trans (h i hi)
  have := hws w hw
  have := ht.1
  omega

/-! ## One write behind the other -/

/-- Each write starts where the one before it ends, the first at the offset; together they
    write the list. -/
inductive Consecutive : ℤ → List (Write α) → List α → Prop
  | nil {offset : ℤ} : Consecutive offset [] []
  | cons {offset : ℤ} {data l : List α} {ws : List (Write α)} :
      Consecutive (offset + data.length) ws l →
      Consecutive offset (⟨offset, data⟩ :: ws) (data ++ l)

namespace Consecutive
variable {offset : ℤ} {ws ws' : List (Write α)} {l l' : List α}

theorem single (offset : ℤ) (data : List α) : Consecutive offset [⟨offset, data⟩] data := by
  have h : Consecutive offset [⟨offset, data⟩] (data ++ []) := .cons .nil
  rwa [List.append_nil] at h

theorem append (h : Consecutive offset ws l) :
    Consecutive (offset + l.length) ws' l' → Consecutive offset (ws ++ ws') (l ++ l') := by
  induction h with
  | nil =>
    intro h'
    rwa [List.length_nil, Nat.cast_zero, add_zero] at h'
  | cons _ ih =>
    intro h'
    rw [List.length_append, Nat.cast_add, ← add_assoc] at h'
    rw [List.cons_append, List.append_assoc]
    exact .cons (ih h')

/-- No write leaves the place of the list. -/
theorem bounds (h : Consecutive offset ws l) :
    ∀ w ∈ ws, offset ≤ w.offset ∧ w.offset + w.data.length ≤ offset + l.length := by
  induction h with
  | nil => exact fun w hw => absurd hw List.not_mem_nil
  | @cons offset data l ws _ ih =>
    rw [List.forall_mem_cons, List.length_append, Nat.cast_add]
    dsimp only
    refine ⟨⟨le_rfl, by omega⟩, fun w hw => ?_⟩
    have hw := ih w hw
    omega

/-- After them, the list stands there. -/
theorem holds (h : Consecutive offset ws l) : ∀ mem, Holds (writeAll mem ws) offset l := by
  induction h with
  | nil => exact fun mem i hi => absurd hi (Nat.not_lt_zero i)
  | @cons offset data l ws h ih =>
    intro mem
    rw [writeAll_cons]
    have hdata := (holds_apply mem ⟨offset, data⟩).writeAll fun w hw => (h.bounds w hw).1
    exact hdata.append (ih _)

/-- Around it, nothing changes. -/
theorem writeAll_outside (h : Consecutive offset ws l) (mem : ℤ → α) {x : ℤ}
    (hx : x < offset ∨ offset + l.length ≤ x) : writeAll mem ws x = mem x := by
  refine writeAll_of_untouched fun w hw ht => ?_
  have hw := h.bounds w hw
  have := ht.1
  have := ht.2
  omega

end Consecutive

end Memory
