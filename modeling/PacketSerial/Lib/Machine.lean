/-
  Deterministic machines with outputs, and the induction rules for their runs.

  * `run step s is` feeds the inputs `is` to a machine from `s`; it returns the
    outputs, in order, and the last state;
  * `Along step P s is`: every step of that run satisfies `P`, a condition on
    the state before the step and the input;
  * `run_invariant`: what every step preserves holds at the end of a run;
  * `exists_last`: what a run brings about is the work of one of its steps, and kept by all
    later ones;
  * `run_simulates`: a run of one machine follows a run of another when single
    steps do, as long as the steps of the second satisfy `P`;
  * `run_refines`: the same where the inputs of the second are what the steps of the
    first mean to it (`meanings`), and these satisfy a condition of their own.
-/
import Mathlib.Data.List.Forall2
import Mathlib.Data.List.Induction

namespace Machine

variable {σ ι ω : Type*}

/-- The outputs of a machine on the inputs `is`, and the state it ends in. -/
def run (step : σ → ι → ω × σ) : σ → List ι → List ω × σ
  | s, [] => ([], s)
  | s, i :: is =>
    let r := step s i
    let t := run step r.2 is
    (r.1 :: t.1, t.2)

/-- Every step of the run satisfies `P`. -/
def Along (step : σ → ι → ω × σ) (P : σ → ι → Prop) : σ → List ι → Prop
  | _, [] => True
  | s, i :: is => P s i ∧ Along step P (step s i).2 is

instance decidableAlong (step : σ → ι → ω × σ) (P : σ → ι → Prop) [∀ s i, Decidable (P s i)] :
    ∀ (s : σ) (is : List ι), Decidable (Along step P s is)
  | _, [] => .isTrue trivial
  | s, i :: is =>
    have := decidableAlong step P (step s i).2 is
    inferInstanceAs (Decidable (_ ∧ _))

section
variable (step : σ → ι → ω × σ)

@[simp] theorem run_nil (s : σ) : run step s [] = ([], s) := rfl

@[simp] theorem run_cons (s : σ) (i : ι) (is : List ι) :
    run step s (i :: is) =
      ((step s i).1 :: (run step (step s i).2 is).1, (run step (step s i).2 is).2) := rfl

theorem run_append (s : σ) (is js : List ι) :
    run step s (is ++ js) =
      ((run step s is).1 ++ (run step (run step s is).2 js).1,
        (run step (run step s is).2 js).2) := by
  induction is generalizing s with
  | nil => rfl
  | cons i is ih => simp [ih]

theorem run_concat (s : σ) (is : List ι) (i : ι) :
    run step s (is ++ [i]) =
      ((run step s is).1 ++ [(step (run step s is).2 i).1], (step (run step s is).2 i).2) := by
  rw [run_append]; rfl

/-- A run over groups of inputs is a run of the machine whose inputs are the groups. -/
theorem run_flatten (s : σ) (iss : List (List ι)) :
    run step s iss.flatten = ((run (run step) s iss).1.flatten, (run (run step) s iss).2) := by
  induction iss generalizing s with
  | nil => rfl
  | cons is iss ih => rw [List.flatten_cons, run_append, ih]; rfl

theorem along_append {P : σ → ι → Prop} (s : σ) (is js : List ι) :
    Along step P s (is ++ js) ↔ Along step P s is ∧ Along step P (run step s is).2 js := by
  induction is generalizing s with
  | nil => simp [Along]
  | cons i is ih => simp [Along, ih, and_assoc]

theorem along_of {P : σ → ι → Prop} (h : ∀ s i, P s i) :
    ∀ {is : List ι} {s : σ}, Along step P s is
  | [], _ => trivial
  | _ :: _, _ => ⟨h _ _, along_of h⟩

/-- A condition on the inputs alone. -/
theorem along_of_forall {Q : ι → Prop} :
    ∀ {is : List ι} {s : σ}, (∀ i ∈ is, Q i) → Along step (fun _ => Q) s is
  | [], _, _ => trivial
  | _ :: _, _, h => ⟨h _ List.mem_cons_self, along_of_forall fun _ hi =>
      h _ (List.mem_cons_of_mem _ hi)⟩

end

/-! ## Invariants -/

section
variable {step : σ → ι → ω × σ} {Inv : σ → Prop}

theorem run_invariant (h : ∀ s i, Inv s → Inv (step s i).2) :
    ∀ {is : List ι} {s : σ}, Inv s → Inv (run step s is).2
  | [], _, hs => hs
  | i :: is, s, hs => by rw [run_cons]; exact run_invariant h (h s i hs)

/-- What the steps with a condition preserve holds after a run of such steps. -/
theorem run_invariant_along {Q : σ → ι → Prop} (h : ∀ s i, Inv s → Q s i → Inv (step s i).2) :
    ∀ {is : List ι} {s : σ}, Inv s → Along step Q s is → Inv (run step s is).2
  | [], _, hs, _ => hs
  | i :: is, s, hs, hq => by
    rw [run_cons]
    exact run_invariant_along h (h s i hs hq.1) hq.2

/-- What all inputs but some preserve holds as long as none of these comes. -/
theorem run_invariant_until {Q : ι → Prop} (h : ∀ s i, Inv s → Q i → Inv (step s i).2)
    {is : List ι} {s : σ} (hs : Inv s) (hq : ∀ i ∈ is, Q i) : Inv (run step s is).2 :=
  run_invariant_along h hs (along_of_forall step hq)

/-- Every output of a run is that of a step from a state with the invariant. -/
theorem run_outputs {O : ω → Prop} (h : ∀ s i, Inv s → Inv (step s i).2)
    (ho : ∀ s i, Inv s → O (step s i).1) :
    ∀ {is : List ι} {s : σ}, Inv s → ∀ o ∈ (run step s is).1, O o
  | [], _, _, o, hm => by simp at hm
  | i :: is, s, hs, o, hm => by
    rcases List.mem_cons.1 hm with rfl | hm
    · exact ho s i hs
    · exact run_outputs h ho (h s i hs) o hm

end

/-- What holds after a run, and did not before, has been brought about by a step, and been
    kept by all steps since. -/
theorem exists_last {step : σ → ι → ω × σ} {Inv P : σ → Prop} {Keeps : ι → Prop}
    {Q Sets : σ → ι → Prop} (hinv : ∀ s i, Inv s → Q s i → Inv (step s i).2)
    (h : ∀ s i, Inv s → Q s i → P (step s i).2 → P s ∧ Keeps i ∨ Sets s i) {s : σ} (hs : Inv s)
    (h0 : ¬ P s) {is : List ι} (hq : Along step Q s is) (hp : P (run step s is).2) :
    ∃ before i after, is = before ++ i :: after ∧ Sets (run step s before).2 i ∧
      ∀ j ∈ after, Keeps j := by
  induction is using List.reverseRecOn with
  | nil => exact absurd hp h0
  | append_singleton is i ih =>
    rw [along_append] at hq
    rw [run_concat] at hp
    rcases h _ i (run_invariant_along hinv hs hq.1) hq.2.1 hp with ⟨hp', hkeeps⟩ | hsets
    · obtain ⟨before, i', after, rfl, hsets, hafter⟩ := ih hq.1 hp'
      refine ⟨before, i', after ++ [i], by simp, hsets, ?_⟩
      rw [List.forall_mem_append, List.forall_mem_singleton]
      exact ⟨hafter, hkeeps⟩
    · exact ⟨is, i, [], rfl, hsets, by simp⟩

/-! ## Simulation -/

variable {τ κ ν : Type*}

/-- A run follows the run of another machine, step by step. -/
theorem run_simulates {step : σ → ι → ω × σ} {step' : τ → κ → ν × τ}
    {R : σ → τ → Prop} {Q : ι → κ → Prop} {O : ω → ν → Prop} {P : τ → κ → Prop}
    (h : ∀ s t i k, R s t → Q i k → P t k →
      O (step s i).1 (step' t k).1 ∧ R (step s i).2 (step' t k).2) :
    ∀ {is : List ι} {ks : List κ}, List.Forall₂ Q is ks → ∀ {s : σ} {t : τ}, R s t →
      Along step' P t ks →
      List.Forall₂ O (run step s is).1 (run step' t ks).1 ∧
        R (run step s is).2 (run step' t ks).2
  | [], [], .nil, _, _, hR, _ => ⟨.nil, hR⟩
  | i :: _, k :: _, .cons hQ hs, s, t, hR, ⟨hP, hA⟩ => by
    obtain ⟨ho, hR'⟩ := h s t i k hR hQ hP
    obtain ⟨hos, hR''⟩ := run_simulates h hs hR' hA
    exact ⟨.cons ho hos, hR''⟩

/-- What the steps of a run mean to another machine, when each step means one input. -/
def meanings (step : σ → ι → ω × σ) (meaning : σ → ι → κ) : σ → List ι → List κ
  | _, [] => []
  | s, i :: is => meaning s i :: meanings step meaning (step s i).2 is

theorem meanings_append {step : σ → ι → ω × σ} {meaning : σ → ι → κ} (s : σ) (is js : List ι) :
    meanings step meaning s (is ++ js) =
      meanings step meaning s is ++ meanings step meaning (run step s is).2 js := by
  induction is generalizing s with
  | nil => rfl
  | cons i is ih => rw [List.cons_append, meanings, ih, run_cons]; rfl

/-- A run follows the run of another machine on what its steps mean, as long as both satisfy
    their conditions. -/
theorem run_refines {step : σ → ι → ω × σ} {step' : τ → κ → ν × τ} {meaning : σ → ι → κ}
    {R : σ → τ → Prop} {Q : σ → ι → Prop} {O : ω → ν → Prop} {P : τ → κ → Prop}
    (h : ∀ s t i, R s t → Q s i → P t (meaning s i) →
      O (step s i).1 (step' t (meaning s i)).1 ∧ R (step s i).2 (step' t (meaning s i)).2) :
    ∀ {is : List ι} {s : σ} {t : τ}, R s t → Along step Q s is →
      Along step' P t (meanings step meaning s is) →
      List.Forall₂ O (run step s is).1 (run step' t (meanings step meaning s is)).1 ∧
        R (run step s is).2 (run step' t (meanings step meaning s is)).2
  | [], _, _, hR, _, _ => ⟨.nil, hR⟩
  | i :: _, s, t, hR, ⟨hQ, hQs⟩, ⟨hP, hA⟩ => by
    obtain ⟨ho, hR'⟩ := h s t i hR hQ hP
    obtain ⟨hos, hR''⟩ := run_refines h hR' hQs hA
    exact ⟨.cons ho hos, hR''⟩

/-! ## Lists of outputs -/

theorem forall₂_trans {α β γ : Type*} {R : α → β → Prop} {S : β → γ → Prop} {T : α → γ → Prop}
    (h : ∀ a b c, R a b → S b c → T a c) : ∀ {as : List α} {bs : List β} {cs : List γ},
    List.Forall₂ R as bs → List.Forall₂ S bs cs → List.Forall₂ T as cs
  | [], [], [], .nil, .nil => .nil
  | _ :: _, _ :: _, _ :: _, .cons hr hrs, .cons hs hss =>
    .cons (h _ _ _ hr hs) (forall₂_trans h hrs hss)

theorem forall₂_forall {α β : Type*} {R : α → β → Prop} {P : α → Prop} {Q : β → Prop}
    (h : ∀ a b, R a b → (P a ↔ Q b)) : ∀ {as : List α} {bs : List β}, List.Forall₂ R as bs →
    ((∀ a ∈ as, P a) ↔ ∀ b ∈ bs, Q b)
  | [], [], .nil => by simp
  | _ :: _, _ :: _, .cons hr hrs => by
    rw [List.forall_mem_cons, List.forall_mem_cons, h _ _ hr, forall₂_forall h hrs]

theorem forall₂_left {α β : Type*} {R : α → β → Prop} {P : α → Prop} (h : ∀ a b, R a b → P a) :
    ∀ {as : List α} {bs : List β}, List.Forall₂ R as bs → ∀ a ∈ as, P a
  | [], [], .nil, a, ha => by simp at ha
  | _ :: _, _ :: _, .cons hr hrs, a, ha => by
    rcases List.mem_cons.1 ha with rfl | ha
    · exact h _ _ hr
    · exact forall₂_left h hrs a ha

end Machine
