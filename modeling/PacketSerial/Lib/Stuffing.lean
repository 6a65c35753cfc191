/-
  Consistent overhead byte stuffing, on lists of bytes.

  The stuffed form of a byte list has no zero byte in it, so that a zero can end
  it on the line.  It is a sequence of blocks: a code byte `c`, then `c - 1`
  nonzero bytes.  A block stands for its bytes and, unless it is the last one or
  has the full length (code 255), for a zero after them.

  * `stuff`, `unstuff`: the two directions;
  * `unstuff_stuff`: every byte list comes back;
  * `zero_notMem_stuff`: no zero in the stuffed form;
  * `length_stuff`: one byte more, for up to 254 bytes;
  * `complete_iff`: what short sequences of whole blocks are: the stuffed forms.
-/
import Mathlib.Tactic

namespace Stuffing

/-- Stuff `src` after the nonzero bytes `acc` of an open block. -/
def stuffFrom (acc : List UInt8) : List UInt8 → List UInt8
  | [] => UInt8.ofNat (acc.length + 1) :: acc
  | b :: src =>
    if b = 0 then UInt8.ofNat (acc.length + 1) :: (acc ++ stuffFrom [] src)
    else if src ≠ [] ∧ acc.length + 2 = 255 then 255 :: (acc ++ b :: stuffFrom [] src)
    else stuffFrom (acc ++ [b]) src

def stuff (src : List UInt8) : List UInt8 := stuffFrom [] src

/-- What a sequence of blocks stands for. -/
def unstuff : List UInt8 → List UInt8
  | [] => []
  | c :: src =>
    let rest := src.drop (c.toNat - 1)
    src.take (c.toNat - 1) ++
      (if rest = [] then [] else (if c = 255 then [] else [0]) ++ unstuff rest)
termination_by l => l.length
decreasing_by simp only [List.length_drop, List.length_cons]; omega

/-- A block of `acc` followed by more blocks. -/
theorem unstuff_block {acc rest : List UInt8} (hacc : acc.length < 254) (hr : rest ≠ []) :
    unstuff (UInt8.ofNat (acc.length + 1) :: (acc ++ rest)) = acc ++ 0 :: unstuff rest := by
  have hc : (UInt8.ofNat (acc.length + 1)).toNat = acc.length + 1 := by
    rw [UInt8.toNat_ofNat']; omega
  have hne : UInt8.ofNat (acc.length + 1) ≠ 255 := fun h => by
    rw [h] at hc; simp at hc; omega
  rw [unstuff, hc, if_neg hne]
  simp [hr]

/-- A last block of `acc`. -/
theorem unstuff_last {acc : List UInt8} (hacc : acc.length ≤ 254) :
    unstuff (UInt8.ofNat (acc.length + 1) :: acc) = acc := by
  have hc : (UInt8.ofNat (acc.length + 1)).toNat = acc.length + 1 := by
    rw [UInt8.toNat_ofNat']; omega
  rw [unstuff, hc]
  simp

/-- A full block followed by more blocks. -/
theorem unstuff_full {acc rest : List UInt8} (hacc : acc.length = 254) (hr : rest ≠ []) :
    unstuff (255 :: (acc ++ rest)) = acc ++ unstuff rest := by
  rw [unstuff, show (255 : UInt8).toNat - 1 = acc.length by rw [hacc]; rfl]
  simp [hr]

theorem stuffFrom_ne_nil (acc src : List UInt8) : stuffFrom acc src ≠ [] := by
  induction src generalizing acc with
  | nil => simp [stuffFrom]
  | cons b src ih => rw [stuffFrom]; split_ifs <;> simp [ih]

/-- The last two bytes of a short list come through, with a code in the place of a zero. -/
theorem stuffFrom_last_two {t f : UInt8} (ht : t ≠ 0) {src : List UInt8} : ∀ {acc : List UInt8},
    acc.length + src.length + 2 < 254 →
    ∃ pre, stuffFrom acc (src ++ [t, f]) = pre ++ [t, if f = 0 then 1 else f] := by
  induction src with
  | nil =>
    intro acc h
    rw [List.length_nil] at h
    rw [List.nil_append, stuffFrom, if_neg ht, if_neg (by omega), stuffFrom]
    by_cases hf : f = 0
    · refine ⟨UInt8.ofNat ((acc ++ [t]).length + 1) :: acc, ?_⟩
      rw [if_pos hf, if_pos hf]
      simp [stuffFrom]
    · refine ⟨UInt8.ofNat ((acc ++ [t] ++ [f]).length + 1) :: acc, ?_⟩
      rw [if_neg hf, if_neg hf, if_neg (by simp)]
      simp [stuffFrom]
  | cons b src ih =>
    intro acc h
    rw [List.length_cons] at h
    rw [List.cons_append, stuffFrom]
    by_cases hb : b = 0
    · obtain ⟨pre, hpre⟩ := @ih [] (by rw [List.length_nil]; omega)
      refine ⟨UInt8.ofNat (acc.length + 1) :: (acc ++ pre), ?_⟩
      rw [if_pos hb, hpre, List.cons_append, List.append_assoc]
    · rw [if_neg hb, if_neg (by omega)]
      exact ih (by rw [List.length_append, List.length_singleton]; omega)

theorem unstuff_stuffFrom {src : List UInt8} : ∀ {acc : List UInt8},
    acc.length < 254 ∨ acc.length = 254 ∧ src = [] → unstuff (stuffFrom acc src) = acc ++ src := by
  induction src with
  | nil => intro acc h; rw [stuffFrom, unstuff_last (by omega), List.append_nil]
  | cons b src ih =>
    intro acc h
    have hacc : acc.length < 254 := h.resolve_right fun h => by simp at h
    rw [stuffFrom]
    split_ifs with hb hf
    · rw [unstuff_block hacc (stuffFrom_ne_nil _ _), ih (Or.inl (by simp)), hb]; rfl
    · have hfull : (acc ++ [b]).length = 254 := by simp; omega
      rw [show acc ++ b :: stuffFrom [] src = (acc ++ [b]) ++ stuffFrom [] src by simp,
        unstuff_full hfull (stuffFrom_ne_nil _ _), ih (Or.inl (by simp))]
      simp
    · rw [ih, List.append_assoc]; · rfl
      rw [List.length_append, List.length_singleton]
      by_cases hs : src = []
      · subst hs; simp; omega
      · left; simp only [ne_eq, hs, not_false_eq_true, true_and] at hf; omega

/-- **Every byte list comes back from its stuffed form.** -/
theorem unstuff_stuff (src : List UInt8) : unstuff (stuff src) = src :=
  unstuff_stuffFrom (Or.inl (by simp))

theorem zero_notMem_stuffFrom {src : List UInt8} : ∀ {acc : List UInt8}, 0 ∉ acc →
    acc.length < 254 ∨ acc.length = 254 ∧ src = [] → 0 ∉ stuffFrom acc src := by
  have hcode : ∀ n, n < 255 → UInt8.ofNat (n + 1) ≠ 0 := fun n hn h => by
    have := congrArg UInt8.toNat h
    rw [UInt8.toNat_ofNat'] at this
    simp at this; omega
  induction src with
  | nil =>
    intro acc h0 h
    rw [stuffFrom, List.mem_cons, not_or]
    exact ⟨(hcode _ (by omega)).symm, h0⟩
  | cons b src ih =>
    intro acc h0 h
    have hacc : acc.length < 254 := h.resolve_right fun h => by simp at h
    rw [stuffFrom]
    split_ifs with hb hf
    · simp only [List.mem_cons, List.mem_append, not_or]
      exact ⟨(hcode _ (by omega)).symm, h0, ih (by simp) (Or.inl (by simp))⟩
    · simp only [List.mem_cons, List.mem_append, not_or]
      exact ⟨by decide, h0, Ne.symm hb, ih (by simp) (Or.inl (by simp))⟩
    · refine ih (by simp [h0, Ne.symm hb]) ?_
      rw [List.length_append, List.length_singleton]
      by_cases hs : src = []
      · subst hs; simp; omega
      · left; simp only [ne_eq, hs, not_false_eq_true, true_and] at hf; omega

/-- **No zero in the stuffed form.** -/
theorem zero_notMem_stuff (src : List UInt8) : 0 ∉ stuff src :=
  zero_notMem_stuffFrom (by simp) (Or.inl (by simp))

theorem length_stuffFrom {src : List UInt8} : ∀ {acc : List UInt8},
    acc.length + src.length ≤ 254 → (stuffFrom acc src).length = acc.length + src.length + 1 := by
  induction src with
  | nil => intro acc _; simp [stuffFrom]
  | cons b src ih =>
    intro acc h
    rw [List.length_cons] at h
    rw [stuffFrom]
    split_ifs with hb hf
    · rw [List.length_cons, List.length_append, ih (by simp; omega)]
      simp only [List.length_nil, List.length_cons]; omega
    · have := List.length_pos_iff.2 hf.1; omega
    · rw [ih (by simp; omega)]; simp only [List.length_append, List.length_cons, List.length_nil]; omega

/-- At least one byte more. -/
theorem le_length_stuffFrom {src : List UInt8} : ∀ {acc : List UInt8},
    acc.length + src.length + 1 ≤ (stuffFrom acc src).length := by
  induction src with
  | nil => intro acc; simp [stuffFrom]
  | cons b src ih =>
    intro acc
    have h₀ := @ih []
    have h₁ := @ih (acc ++ [b])
    simp only [List.length_append, List.length_cons, List.length_nil] at h₀ h₁
    rw [stuffFrom]
    split_ifs <;> simp only [List.length_cons, List.length_append] <;> omega

/-- One byte more, for up to 254 bytes. -/
theorem length_stuff {src : List UInt8} (h : src.length ≤ 254) :
    (stuff src).length = src.length + 1 := by
  rw [stuff, length_stuffFrom (by simpa using h)]; simp

/-- The block that a byte has joined is still open, or it is the last one. -/
theorem joined {acc src : List UInt8} {b : UInt8} (hacc : acc.length < 254)
    (hf : ¬ (src ≠ [] ∧ acc.length + 2 = 255)) :
    (acc ++ [b]).length < 254 ∨ (acc ++ [b]).length = 254 ∧ src = [] := by
  rw [List.length_append, List.length_singleton]
  by_cases hs : src = []
  · simp only [hs, and_true]; omega
  · left
    have hlen : acc.length + 2 ≠ 255 := fun h => hf ⟨hs, h⟩
    omega

/-- **The overhead is one byte for every 254 begun**, and one for no bytes at all. -/
theorem length_stuffFrom_le {src : List UInt8} : ∀ {acc : List UInt8},
    acc.length < 254 ∨ acc.length = 254 ∧ src = [] →
    (stuffFrom acc src).length ≤
      max 1 (acc.length + src.length + (acc.length + src.length + 253) / 254) := by
  induction src with
  | nil =>
    intro acc h
    rw [stuffFrom, List.length_cons, List.length_nil]
    omega
  | cons b src ih =>
    intro acc h
    have hacc : acc.length < 254 := h.resolve_right fun h => by simp at h
    have hrest := @ih [] (Or.inl (by simp))
    rw [List.length_nil, Nat.zero_add] at hrest
    rw [stuffFrom, List.length_cons]
    split_ifs with hb hf
    · rw [List.length_cons, List.length_append]
      omega
    · have hpos := List.length_pos_iff.2 hf.1
      rw [List.length_cons, List.length_append, List.length_cons]
      omega
    · have hjoin := @ih (acc ++ [b]) (joined hacc hf)
      rw [List.length_append, List.length_singleton] at hjoin
      omega

theorem length_stuff_le (src : List UInt8) :
    (stuff src).length ≤ max 1 (src.length + (src.length + 253) / 254) := by
  have := @length_stuffFrom_le src [] (Or.inl (by simp))
  rwa [List.length_nil, Nat.zero_add] at this

/-- Bytes without a zero need all of it. -/
theorem length_stuffFrom_nonzero {src : List UInt8} (h0 : 0 ∉ src) : ∀ {acc : List UInt8},
    acc.length < 254 ∨ acc.length = 254 ∧ src = [] →
    (stuffFrom acc src).length =
      max 1 (acc.length + src.length + (acc.length + src.length + 253) / 254) := by
  induction src with
  | nil =>
    intro acc h
    rw [stuffFrom, List.length_cons, List.length_nil]
    omega
  | cons b src ih =>
    intro acc h
    have hacc : acc.length < 254 := h.resolve_right fun h => by simp at h
    rw [List.mem_cons, not_or] at h0
    rw [stuffFrom, if_neg (Ne.symm h0.1), List.length_cons]
    split_ifs with hf
    · have hpos := List.length_pos_iff.2 hf.1
      have hrest := @ih h0.2 [] (Or.inl (by simp))
      rw [List.length_nil, Nat.zero_add] at hrest
      rw [List.length_cons, List.length_append, List.length_cons]
      omega
    · have hjoin := @ih h0.2 (acc ++ [b]) (joined hacc hf)
      rw [List.length_append, List.length_singleton] at hjoin
      omega

theorem length_stuff_nonzero {src : List UInt8} (h0 : 0 ∉ src) :
    (stuff src).length = max 1 (src.length + (src.length + 253) / 254) := by
  have := @length_stuffFrom_nonzero src h0 [] (Or.inl (by simp))
  rwa [List.length_nil, Nat.zero_add] at this

/-! ## Sequences of blocks -/

/-- One byte less, for up to 254 bytes, whole blocks or not. -/
theorem length_unstuff {src : List UInt8} (hne : src ≠ []) (h : src.length ≤ 254) :
    (unstuff src).length + 1 = src.length := by
  induction hn : src.length using Nat.strongRecOn generalizing src with
  | ind n ih =>
    obtain ⟨c, src, rfl⟩ := List.exists_cons_of_ne_nil hne
    rw [List.length_cons] at h hn
    rw [unstuff]
    have hdrop : (src.drop (c.toNat - 1)).length = src.length - (c.toNat - 1) := List.length_drop
    by_cases hr : src.drop (c.toNat - 1) = []
    · have hlen := List.length_eq_zero_iff.2 hr
      simp only [if_pos hr, List.append_nil, List.length_take]
      omega
    · have hpos := List.length_pos_iff.2 hr
      have hc : c ≠ 255 := by
        rintro rfl
        simp only [UInt8.reduceToNat] at hdrop hpos
        omega
      have := ih _ (by omega) hr (by omega) rfl
      simp only [if_neg hr, if_neg hc, List.length_append, List.length_take, List.length_singleton]
      omega

/-- Every block is as long as its code says. -/
def Complete : List UInt8 → Prop
  | [] => True
  | c :: src => c.toNat - 1 ≤ src.length ∧ Complete (src.drop (c.toNat - 1))
termination_by l => l.length
decreasing_by simp only [List.length_drop, List.length_cons]; omega

@[simp] theorem complete_nil : Complete [] := by rw [Complete]; trivial

theorem complete_cons {c : UInt8} {src : List UInt8} :
    Complete (c :: src) ↔ c.toNat - 1 ≤ src.length ∧ Complete (src.drop (c.toNat - 1)) := by
  rw [Complete]

theorem complete_block {acc rest : List UInt8} (hacc : acc.length ≤ 254) :
    Complete (UInt8.ofNat (acc.length + 1) :: (acc ++ rest)) ↔ Complete rest := by
  have hc : (UInt8.ofNat (acc.length + 1)).toNat - 1 = acc.length := by
    rw [UInt8.toNat_ofNat']; omega
  rw [complete_cons, hc]
  simp

theorem complete_stuffFrom {src : List UInt8} : ∀ {acc : List UInt8},
    acc.length < 254 ∨ acc.length = 254 ∧ src = [] → Complete (stuffFrom acc src) := by
  induction src with
  | nil =>
    intro acc h
    have hb := @complete_block acc [] (by omega)
    rw [List.append_nil] at hb
    rw [stuffFrom, hb]
    exact complete_nil
  | cons b src ih =>
    intro acc h
    have hacc : acc.length < 254 := h.resolve_right fun h => by simp at h
    rw [stuffFrom]
    split_ifs with hb hf
    · rw [complete_block (by omega)]
      exact ih (Or.inl (by simp))
    · have hfull : (acc ++ [b]).length = 254 := by simp; omega
      have hcode : (255 : UInt8) = UInt8.ofNat ((acc ++ [b]).length + 1) := by rw [hfull]; rfl
      rw [show acc ++ b :: stuffFrom [] src = (acc ++ [b]) ++ stuffFrom [] src by simp, hcode,
        complete_block hfull.le]
      exact ih (Or.inl (by simp))
    · refine ih ?_
      rw [List.length_append, List.length_singleton]
      by_cases hs : src = []
      · subst hs; simp; omega
      · left; simp only [ne_eq, hs, not_false_eq_true, true_and] at hf; omega

/-- Bytes that are not zero join the open block. -/
theorem stuffFrom_append {block src : List UInt8} (h0 : 0 ∉ block) : ∀ {acc : List UInt8},
    acc.length + block.length < 254 →
    stuffFrom acc (block ++ src) = stuffFrom (acc ++ block) src := by
  induction block with
  | nil => intro acc _; simp
  | cons b block ih =>
    intro acc h
    rw [List.mem_cons, not_or] at h0
    rw [List.length_cons] at h
    rw [List.cons_append, stuffFrom, if_neg (Ne.symm h0.1), if_neg (by omega),
      ih h0.2 (by rw [List.length_append, List.length_singleton]; omega)]
    simp

/-- **Short sequences of whole blocks are stuffed forms.** -/
theorem stuff_unstuff {src : List UInt8} (hc : Complete src) (hne : src ≠ []) (h0 : 0 ∉ src)
    (h : src.length ≤ 254) : stuff (unstuff src) = src := by
  induction hn : src.length using Nat.strongRecOn generalizing src with
  | ind n ih =>
    obtain ⟨c, src, rfl⟩ := List.exists_cons_of_ne_nil hne
    rw [complete_cons] at hc
    rw [List.length_cons] at h hn
    rw [List.mem_cons, not_or] at h0
    obtain ⟨hle, hrest⟩ := hc
    have hcode : UInt8.ofNat ((src.take (c.toNat - 1)).length + 1) = c := by
      have hpos : c.toNat ≠ 0 := fun h => h0.1 (UInt8.toNat_inj.1 h.symm)
      rw [List.length_take, min_eq_left hle, Nat.sub_add_cancel (by omega), UInt8.ofNat_toNat]
    have hblock : 0 ∉ src.take (c.toNat - 1) := fun h => h0.2 (List.mem_of_mem_take h)
    have hlen : (src.take (c.toNat - 1)).length < 254 := by
      rw [List.length_take]; omega
    rw [unstuff, stuff]
    by_cases hr : src.drop (c.toNat - 1) = []
    · have hsrc := List.take_append_drop (c.toNat - 1) src
      rw [hr, List.append_nil] at hsrc
      rw [if_pos hr, stuffFrom_append hblock (by simpa using hlen), List.nil_append, stuffFrom,
        hcode, hsrc]
    · have hpos := List.length_pos_iff.2 hr
      rw [List.length_drop] at hpos
      have h255 : c ≠ 255 := by
        rintro rfl
        simp only [UInt8.reduceToNat] at hpos
        omega
      have hrec := ih _ (by rw [List.length_drop]; omega) hrest hr
        (fun h => h0.2 (List.mem_of_mem_drop h)) (by rw [List.length_drop]; omega) rfl
      rw [if_neg hr, if_neg h255, stuffFrom_append hblock (by simpa using hlen), List.nil_append,
        List.singleton_append, stuffFrom, if_pos rfl, hcode, ← stuff, hrec, List.take_append_drop]

theorem complete_iff {src : List UInt8} (hne : src ≠ []) (h0 : 0 ∉ src) (h : src.length ≤ 254) :
    Complete src ↔ ∃ x, src = stuff x := by
  constructor
  · intro hc
    exact ⟨unstuff src, (stuff_unstuff hc hne h0 h).symm⟩
  · rintro ⟨x, rfl⟩
    exact complete_stuffFrom (Or.inl (by simp))

end Stuffing
