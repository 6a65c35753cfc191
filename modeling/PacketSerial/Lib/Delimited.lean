/-
  Chunks of a stream whose frames end in a delimiter.

  A frame is a list whose only delimiter is its last item.  The stream of some frames
  arrives in chunks; a chunk stays within its frame when it has no delimiter before
  its last item.

  * `exists_division`: chunks that stay within their frames are a division of each
    frame, one after the other;
  * `exists_division_part`: so are the chunks read so far, up to a part of the frame that
    comes next;
  * `upTo`: what is read of a stream without reading over the first delimiter;
  * `cut`: what stands between the delimiters of a stream, and what comes after the last.
-/
import Mathlib.Data.List.Forall2
import Mathlib.Tactic

namespace Delimited

variable {α γ : Type*} (z : α)

/-- The only delimiter of the frame is its last item. -/
def IsFrame (frame : List α) : Prop := ∃ b, frame = b ++ [z] ∧ z ∉ b

/-- The chunk has no delimiter before its last item. -/
def Within (chunk : List α) : Prop := z ∉ chunk.dropLast

instance [DecidableEq α] (chunk : List α) : Decidable (Within z chunk) :=
  inferInstanceAs (Decidable (z ∉ chunk.dropLast))

variable {z} {items : γ → List α}

/-- The chunks at the start of a stream that make up its first frame. -/
theorem exists_frame {frame rest : List α} (hframe : IsFrame z frame) :
    ∀ {cs : List γ}, (∀ c ∈ cs, items c ≠ []) → (∀ c ∈ cs, Within z (items c)) →
    cs.flatMap items = frame ++ rest →
    ∃ cs₁ cs₂, cs = cs₁ ++ cs₂ ∧ cs₁.flatMap items = frame ∧ cs₂.flatMap items = rest := by
  obtain ⟨b, rfl, hb⟩ := hframe
  intro cs
  induction cs generalizing b with
  | nil => intro _ _ h; simp at h
  | cons c cs ih =>
    intro hne hw h
    rw [List.flatMap_cons, List.append_assoc] at h
    rcases List.append_eq_append_iff.1 h with ⟨b', rfl, hr⟩ | ⟨r, hr, hrest⟩
    · -- the chunk is a part of the frame
      rw [List.mem_append, not_or] at hb
      obtain ⟨cs₁, cs₂, rfl, h₁, h₂⟩ := ih b' hb.2
        (fun d hd => hne d (List.mem_cons_of_mem _ hd))
        (fun d hd => hw d (List.mem_cons_of_mem _ hd)) (by rw [hr, List.append_assoc])
      exact ⟨c :: cs₁, cs₂, rfl, by rw [List.flatMap_cons, h₁, List.append_assoc], h₂⟩
    · rcases List.eq_nil_or_concat' r with rfl | ⟨r, x, rfl⟩
      · -- the chunk ends before the delimiter
        rw [List.append_nil] at hr
        obtain ⟨cs₁, cs₂, rfl, h₁, h₂⟩ := ih [] (by simp)
          (fun d hd => hne d (List.mem_cons_of_mem _ hd))
          (fun d hd => hw d (List.mem_cons_of_mem _ hd))
          (by simpa using hrest.symm)
        exact ⟨c :: cs₁, cs₂, rfl, by rw [List.flatMap_cons, h₁, hr, List.nil_append], h₂⟩
      · -- the chunk ends the frame
        have hr0 : r = [] := by
          rcases r with _ | ⟨y, r⟩
          · rfl
          · rw [List.singleton_append, List.cons_append, List.cons_append,
              List.cons.injEq] at hrest
            have hmem : z ∈ (items c).dropLast := by
              rw [hr, ← hrest.1, ← List.append_assoc, List.dropLast_concat]; simp
            exact absurd hmem (hw c List.mem_cons_self)
        subst hr0
        rw [List.nil_append, List.singleton_append, List.singleton_append,
          List.cons.injEq] at hrest
        exact ⟨[c], cs, rfl, by rw [List.flatMap_singleton, hr, hrest.1, List.nil_append],
          hrest.2.symm⟩

/-- **Chunks that stay within their frames divide each frame.** -/
theorem exists_division : ∀ {frames : List (List α)} {cs : List γ},
    (∀ frame ∈ frames, IsFrame z frame) → (∀ c ∈ cs, items c ≠ []) →
    (∀ c ∈ cs, Within z (items c)) → cs.flatMap items = frames.flatten →
    ∃ css : List (List γ), css.flatten = cs ∧
      List.Forall₂ (fun g frame => g.flatMap items = frame) css frames
  | [], cs, _, hne, _, h => by
    rw [List.flatten_nil, List.flatMap_eq_nil_iff] at h
    refine ⟨[], ?_, .nil⟩
    rcases cs with _ | ⟨c, cs⟩
    · rfl
    · exact absurd (h c List.mem_cons_self) (hne c List.mem_cons_self)
  | frame :: frames, cs, hf, hne, hw, h => by
    obtain ⟨cs₁, cs₂, rfl, h₁, h₂⟩ :=
      exists_frame (hf frame List.mem_cons_self) hne hw (h.trans List.flatten_cons)
    have hf₂ : ∀ g ∈ frames, IsFrame z g := fun g hg => hf g (List.mem_cons_of_mem _ hg)
    have hne₂ : ∀ c ∈ cs₂, items c ≠ [] := fun c hc => hne c (List.mem_append_right _ hc)
    have hw₂ : ∀ c ∈ cs₂, Within z (items c) := fun c hc => hw c (List.mem_append_right _ hc)
    obtain ⟨css, rfl, hcss⟩ := exists_division hf₂ hne₂ hw₂ h₂
    exact ⟨cs₁ :: css, List.flatten_cons, .cons h₁ hcss⟩

/-- **The chunks read so far divide some frames**, and what is left of them is a part of the
    next one. -/
theorem exists_division_part : ∀ {frames : List (List α)} {cs : List γ} {rest : List α},
    (∀ frame ∈ frames, IsFrame z frame) → (∀ c ∈ cs, items c ≠ []) →
    (∀ c ∈ cs, Within z (items c)) → cs.flatMap items ++ rest = frames.flatten →
    ∃ (css : List (List γ)) (part : List γ) (frames₁ frames₂ : List (List α)),
      cs = css.flatten ++ part ∧ frames = frames₁ ++ frames₂ ∧
      List.Forall₂ (fun g frame => g.flatMap items = frame) css frames₁ ∧
      z ∉ part.flatMap items ∧ part.flatMap items ++ rest = frames₂.flatten
  | [], cs, rest, _, hne, _, h => by
    rw [List.flatten_nil, List.append_eq_nil_iff, List.flatMap_eq_nil_iff] at h
    have hcs : cs = [] := by
      rcases cs with _ | ⟨c, cs⟩
      · rfl
      · exact absurd (h.1 c List.mem_cons_self) (hne c List.mem_cons_self)
    subst hcs
    exact ⟨[], [], [], [], rfl, rfl, .nil, by simp, by simp [h.2]⟩
  | frame :: frames, cs, rest, hf, hne, hw, h => by
    have hframe := hf frame List.mem_cons_self
    rw [List.flatten_cons] at h
    by_cases hz : z ∈ cs.flatMap items
    · -- the first frame has been read
      obtain ⟨b, rfl, hb⟩ := hframe
      obtain ⟨read, hread, hrest⟩ : ∃ read, cs.flatMap items = (b ++ [z]) ++ read ∧
          read ++ rest = frames.flatten := by
        rcases List.append_eq_append_iff.1 h with ⟨a, ha, hr⟩ | ⟨a, ha, hr⟩
        · rcases List.eq_nil_or_concat' a with rfl | ⟨a, x, rfl⟩
          · rw [List.append_nil] at ha
            exact ⟨[], by rw [← ha, List.append_nil], by simpa using hr⟩
          · rw [← List.append_assoc] at ha
            obtain ⟨hba, -⟩ := List.append_inj' ha rfl
            exact absurd (hba ▸ List.mem_append_left a hz) hb
        · exact ⟨a, ha, hr.symm⟩
      obtain ⟨cs₁, cs₂, rfl, h₁, h₂⟩ := exists_frame ⟨b, rfl, hb⟩ hne hw hread
      obtain ⟨css, part, frames₁, frames₂, rfl, rfl, hcss, hpart, hlast⟩ :=
        exists_division_part (fun g hg => hf g (List.mem_cons_of_mem _ hg))
          (fun c hc => hne c (List.mem_append_right _ hc))
          (fun c hc => hw c (List.mem_append_right _ hc)) (h₂ ▸ hrest)
      exact ⟨cs₁ :: css, part, (b ++ [z]) :: frames₁, frames₂, by simp, rfl, .cons h₁ hcss,
        hpart, hlast⟩
    · exact ⟨[], cs, [], frame :: frames, rfl, rfl, .nil, hz, h⟩

/-! ## Reading up to a delimiter -/

section
variable [DecidableEq α] (z)

/-- The items up to the first delimiter, which is the last of them if there is one. -/
def upTo : List α → List α
  | [] => []
  | x :: xs => if x = z then [x] else x :: upTo xs

theorem upTo_prefix : ∀ xs : List α, upTo z xs <+: xs
  | [] => List.prefix_refl _
  | x :: xs => by
    rw [upTo]
    split_ifs
    · exact List.prefix_append [x] xs
    · exact (List.cons_prefix_cons).2 ⟨rfl, upTo_prefix xs⟩

theorem within_upTo : ∀ xs : List α, Within z (upTo z xs)
  | [] => by simp [upTo, Within]
  | x :: xs => by
    rw [upTo]
    split_ifs with hx
    · simp [Within]
    · have ih := within_upTo xs
      rcases h : upTo z xs with _ | ⟨y, ys⟩
      · simp [Within]
      · rw [h, Within] at ih
        rw [Within, List.dropLast_cons_cons, List.mem_cons, not_or]
        exact ⟨fun hz => hx hz.symm, ih⟩

theorem upTo_ne_nil {xs : List α} (h : xs ≠ []) : upTo z xs ≠ [] := by
  rcases xs with _ | ⟨x, xs⟩
  · exact absurd rfl h
  · rw [upTo]; split_ifs <;> exact List.cons_ne_nil _ _

/-! ## Between the delimiters -/

/-- The items in front of each delimiter, `pre` in front of the first, and those after the
    last. -/
def cut : List α → List α → List (List α) × List α
  | pre, [] => ([], pre)
  | pre, x :: xs =>
    if x = z then
      let r := cut [] xs
      (pre :: r.1, r.2)
    else cut (pre ++ [x]) xs

variable {z}

theorem cut_append {rest : List α} : ∀ {pre b : List α}, z ∉ b →
    cut z pre (b ++ rest) = cut z (pre ++ b) rest
  | pre, [], _ => by rw [List.nil_append, List.append_nil]
  | pre, x :: b, h => by
    rw [List.mem_cons, not_or] at h
    rw [List.cons_append, cut, if_neg (Ne.symm h.1), cut_append h.2, List.append_assoc]
    rfl

theorem cut_cons (pre rest : List α) :
    cut z pre (z :: rest) = (pre :: (cut z [] rest).1, (cut z [] rest).2) := if_pos rfl

theorem cut_stream {part : List α} (hpart : z ∉ part) : ∀ {bs : List (List α)},
    (∀ b ∈ bs, z ∉ b) → cut z [] (bs.flatMap (· ++ [z]) ++ part) = (bs, part)
  | [], _ => by
    have h := @cut_append _ z _ [] [] part hpart
    rw [List.append_nil] at h
    exact h
  | b :: bs, h => by
    rw [List.forall_mem_cons] at h
    rw [List.flatMap_cons, List.append_assoc, List.append_assoc, cut_append h.1,
      List.singleton_append, cut_cons, cut_stream hpart h.2]
    rfl

end

end Delimited
