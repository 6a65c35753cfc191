/-
  Sequences of partial steps, and steps that commute.

  * `run step is`: the steps of the items `is`, one after the other, as long as none fails;
  * `Commute f g`: the two steps have the same effect in either order;
  * `run_partition`: items that commute with all others can be moved to the front;
  * `run_by_key`: so where items with different keys commute, a sequence does what the items
    of each key do among themselves, key after key.
-/
import Mathlib.Tactic

namespace Steps

variable {σ ι κ : Type*}

/-- Either order has the same effect. -/
def Commute (f g : σ → Option σ) : Prop := ∀ d, (f d).bind g = (g d).bind f

/-- The steps of the items, one after the other. -/
def run (step : ι → σ → Option σ) : List ι → σ → Option σ
  | [], d => some d
  | i :: is, d => (step i d).bind (run step is)

variable {step : ι → σ → Option σ}

theorem Commute.symm {f g : σ → Option σ} (h : Commute f g) : Commute g f := fun d => (h d).symm

@[simp] theorem run_cons (i : ι) (is : List ι) (d : σ) :
    run step (i :: is) d = (step i d).bind (run step is) := rfl

theorem Commute.some (f : σ → Option σ) : Commute some f :=
  fun d => (Option.bind_some d f).trans (Option.bind_fun_some (f d)).symm

theorem Commute.bind {f g h : σ → Option σ} (hg : Commute f g) (hh : Commute f h) :
    Commute f fun d => (g d).bind h := fun d => by
  calc (f d).bind (fun d => (g d).bind h)
      = ((f d).bind g).bind h := (Option.bind_assoc _ _ _).symm
    _ = ((g d).bind f).bind h := by rw [hg d]
    _ = (g d).bind fun d' => (f d').bind h := Option.bind_assoc _ _ _
    _ = (g d).bind fun d' => (h d').bind f := congrArg _ (funext hh)
    _ = ((g d).bind h).bind f := (Option.bind_assoc _ _ _).symm

/-- A step that commutes with all items commutes with the sequence. -/
theorem commute_run {f : σ → Option σ} : ∀ {is : List ι}, (∀ i ∈ is, Commute f (step i)) →
    Commute f (run step is)
  | [], _ => (Commute.some f).symm
  | _ :: _, h => by
    rw [List.forall_mem_cons] at h
    exact h.1.bind (commute_run h.2)

/-- Sequences of the same steps are the same. -/
theorem run_congr {step' : ι → σ → Option σ} : ∀ {is : List ι}, (∀ i ∈ is, step i = step' i) →
    run step is = run step' is
  | [], _ => rfl
  | i :: is, h => by
    rw [List.forall_mem_cons] at h
    funext d
    rw [run_cons, run_cons, h.1, run_congr h.2]

/-- Steps that do nothing. -/
theorem run_some : ∀ {is : List ι}, (∀ i ∈ is, step i = some) → run step is = some
  | [], _ => rfl
  | i :: is, h => by
    rw [List.forall_mem_cons] at h
    funext d
    rw [run_cons, h.1, Option.bind_some, run_some h.2]

/-- **Items that commute with all others can be moved to the front.** -/
theorem run_partition (p : ι → Bool) : ∀ {is : List ι}, (∀ i ∈ is, ∀ j ∈ is, p i = true →
    p j = false → Commute (step i) (step j)) → ∀ d : σ,
    run step is d = (run step (is.filter p) d).bind (run step (is.filter fun i => !p i))
  | [], _, d => rfl
  | i :: is, h, d => by
    have ih := run_partition p fun a ha b hb =>
      h a (List.mem_cons_of_mem _ ha) b (List.mem_cons_of_mem _ hb)
    rw [run_cons, show run step is = _ from funext ih]
    cases hp : p i with
    | true =>
      rw [List.filter_cons_of_pos hp, List.filter_cons_of_neg (by simp [hp]), run_cons,
        Option.bind_assoc]
    | false =>
      -- the item is moved behind those in front
      have hcomm : Commute (step i) (run step (is.filter p)) := by
        refine commute_run fun j hj => ?_
        obtain ⟨hmem, hpj⟩ := List.mem_filter.1 hj
        exact (h j (List.mem_cons_of_mem _ hmem) i List.mem_cons_self hpj hp).symm
      rw [List.filter_cons_of_neg (by simp [hp]), List.filter_cons_of_pos (by simp [hp]),
        ← Option.bind_assoc, hcomm d, Option.bind_assoc]
      rfl

variable [DecidableEq κ] (key : ι → κ)

/-- **Where items with different keys commute**, and those with other keys than `ks` do nothing,
    a sequence does what the items of each key do, key after key. -/
theorem run_by_key : ∀ {ks : List κ}, ks.Nodup → ∀ {is : List ι},
    (∀ i ∈ is, ∀ j ∈ is, key i ≠ key j → Commute (step i) (step j)) →
    (∀ i ∈ is, key i ∉ ks → step i = some) → ∀ d : σ,
    run step is d = run (fun k => run step (is.filter fun i => key i = k)) ks d
  | [], _, is, _, hrest, d => by
    rw [run_some fun i hi => hrest i hi List.not_mem_nil]
    rfl
  | k :: ks, hnodup, is, hcomm, hrest, d => by
    rw [List.nodup_cons] at hnodup
    have hpart : run step is d = _ := run_partition (fun i => decide (key i = k))
      (fun i hi j hj hik hjk => hcomm i hi j hj fun he =>
        of_decide_eq_false hjk (he ▸ of_decide_eq_true hik)) d
    have hrest' : ∀ i ∈ is.filter (fun i => !decide (key i = k)), key i ∉ ks → step i = some := by
      intro i hi hik
      obtain ⟨hmem, hne⟩ := List.mem_filter.1 hi
      refine hrest i hmem fun hin => ?_
      rcases List.mem_cons.1 hin with he | hin
      · simp [he] at hne
      · exact hik hin
    rw [hpart, run_cons]
    refine congrArg (Option.bind _) (funext fun d' => ?_)
    rw [run_by_key hnodup.2 (fun i hi j hj => hcomm i (List.mem_of_mem_filter hi) j
      (List.mem_of_mem_filter hj)) hrest' d']
    -- the items of the other keys are all still there
    refine congrFun (run_congr fun k' hk' => congrArg (run step) ?_) d'
    rw [List.filter_filter]
    refine List.filter_congr fun i _ => ?_
    by_cases hik : key i = k'
    · have hne : key i ≠ k := fun he => hnodup.1 (he ▸ hik ▸ hk')
      simp only [hik, decide_true, Bool.true_and, Bool.not_eq_true', decide_eq_false_iff_not]
      exact hik ▸ hne
    · simp [hik]

end Steps
