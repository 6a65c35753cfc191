/-
  Reassembly of messages from fragments.

  A stream of fragments carries messages: each fragment has data (`data`), and
  some fragments are the last of their message (`isEnd`).  The assembler keeps
  what it has of the current message; at an end fragment it delivers the message
  and starts over.

  * `openRun l`: the fragments of `l` since the last end fragment;
  * `lastRun l`: the fragments of the message the last fragment of `l` belongs to;
  * `run_state`: over any stream, the assembler holds the data of the open run;
  * `Fits cap l`: no run of `l` carries more than `cap` items; `fits_iff_along` says
    it step by step;
  * `IsMessage m`: only the last fragment of `m` is an end fragment.  `run_messages`: of
    a stream of messages, the assembler delivers each; `exists_messages`: a part of such a
    stream is some of the messages, and a part of the next one.
-/
import Mathlib.Data.List.DropRight
import Mathlib.Data.List.ReduceOption
import Mathlib.Tactic
import PacketSerial.Lib.Machine

namespace Reassembly

variable {α β : Type*} (isEnd : α → Bool) (data : α → List β)

/-- The fragments since the last end fragment. -/
def openRun (l : List α) : List α := l.rtakeWhile fun a => !isEnd a

/-- The fragments up to the last one of `l`, since the end fragment before it. -/
def lastRun (l : List α) : List α := openRun isEnd l.dropLast ++ l.getLast?.toList

/-- One fragment: the message it completes, if any, and the data kept. -/
def step (held : List β) (a : α) : Option (List β) × List β :=
  if isEnd a then (some (held ++ data a), []) else (none, held ++ data a)

/-- Every run of `l` fits into `cap` items. -/
def Fits (cap : ℕ) (l : List α) : Prop :=
  ∀ l', l' <+: l → ((lastRun isEnd l').flatMap data).length ≤ cap

@[simp] theorem openRun_nil : openRun isEnd ([] : List α) = [] := by simp [openRun]

theorem openRun_concat (l : List α) (a : α) :
    openRun isEnd (l ++ [a]) = if isEnd a then [] else openRun isEnd l ++ [a] := by
  rw [openRun, List.rtakeWhile_concat]
  cases isEnd a <;> rfl

@[simp] theorem lastRun_nil : lastRun isEnd ([] : List α) = [] := by simp [lastRun]

@[simp] theorem lastRun_concat (l : List α) (a : α) :
    lastRun isEnd (l ++ [a]) = openRun isEnd l ++ [a] := by simp [lastRun]

/-- Only the last fragment of a run can be an end fragment. -/
theorem isEnd_of_mem_openRun {l : List α} {a : α} (h : a ∈ openRun isEnd l) : isEnd a = false := by
  simpa using List.mem_rtakeWhile_imp h

/-- The open run starts the stream, or follows an end fragment. -/
theorem exists_openRun (l : List α) : ∃ pre, l = pre ++ openRun isEnd l ∧
    (pre = [] ∨ ∃ pre' a, pre = pre' ++ [a] ∧ isEnd a = true) := by
  induction l using List.reverseRecOn with
  | nil => exact ⟨[], rfl, Or.inl rfl⟩
  | append_singleton l a ih =>
    rw [openRun_concat]
    cases ha : isEnd a with
    | true => exact ⟨l ++ [a], by simp, Or.inr ⟨l, a, rfl, ha⟩⟩
    | false =>
      obtain ⟨pre, hl, hpre⟩ := ih
      refine ⟨pre, ?_, hpre⟩
      rw [if_neg Bool.false_ne_true, ← List.append_assoc, ← hl]

theorem fits_concat {cap : ℕ} {l : List α} {a : α} :
    Fits isEnd data cap (l ++ [a]) ↔
      Fits isEnd data cap l ∧ ((openRun isEnd l ++ [a]).flatMap data).length ≤ cap := by
  constructor
  · intro h
    exact ⟨fun l' hl => h l' (hl.trans (List.prefix_append _ _)), by
      simpa using h _ (List.prefix_refl _)⟩
  · rintro ⟨h, ha⟩ l' hl
    rcases List.prefix_concat_iff.1 hl with rfl | hl
    · simpa using ha
    · exact h l' hl

/-! ## Runs of the assembler -/

/-- **The assembler holds the data of the open run.** -/
theorem run_state (l : List α) :
    (Machine.run (step isEnd data) [] l).2 = (openRun isEnd l).flatMap data := by
  induction l using List.reverseRecOn with
  | nil => simp
  | append_singleton l a ih =>
    rw [Machine.run_concat, openRun_concat]
    simp only [step, ih]
    cases isEnd a <;> simp

/-- A stream that fits is one whose runs fit at every step of the assembler. -/
theorem fits_iff_along {cap : ℕ} (l : List α) :
    Fits isEnd data cap l ↔
      Machine.Along (step isEnd data) (fun held a => (held ++ data a).length ≤ cap) [] l := by
  induction l using List.reverseRecOn with
  | nil => simp [Fits, Machine.Along]
  | append_singleton l a ih =>
    rw [fits_concat, Machine.along_append, ih, run_state]
    simp [Machine.Along]

/-! ## Messages -/

/-- Only the last fragment is an end fragment. -/
structure IsMessage (m : List α) : Prop where
  ends : ∃ body last, m = body ++ [last] ∧ isEnd last = true ∧ ∀ a ∈ body, isEnd a = false

/-- What the assembler delivers. -/
def delivered (held : List β) (l : List α) : List (List β) :=
  (Machine.run (step isEnd data) held l).1.reduceOption

variable {isEnd data}

theorem delivered_append (held : List β) (l l' : List α) :
    delivered isEnd data held (l ++ l') = delivered isEnd data held l ++
      delivered isEnd data (Machine.run (step isEnd data) held l).2 l' := by
  rw [delivered, Machine.run_append, List.reduceOption_append]
  rfl

/-- Without an end fragment, nothing is delivered and all data is kept. -/
theorem run_body : ∀ {body : List α} {held : List β}, (∀ a ∈ body, isEnd a = false) →
    delivered isEnd data held body = [] ∧
      (Machine.run (step isEnd data) held body).2 = held ++ body.flatMap data
  | [], held, _ => ⟨rfl, (List.append_nil _).symm⟩
  | a :: body, held, h => by
    rw [List.forall_mem_cons] at h
    have hs : step isEnd data held a = (none, held ++ data a) := by simp [step, h.1]
    obtain ⟨hd, hr⟩ := @run_body body (held ++ data a) h.2
    rw [delivered] at hd
    refine ⟨?_, ?_⟩
    · rw [delivered, Machine.run_cons, hs]
      exact hd
    · rw [Machine.run_cons, hs, List.flatMap_cons, ← List.append_assoc]
      exact hr

/-- What is held comes in front of the message. -/
theorem run_message {m : List α} (h : IsMessage isEnd m) (held : List β) :
    delivered isEnd data held m = [held ++ m.flatMap data] ∧
      (Machine.run (step isEnd data) held m).2 = [] := by
  obtain ⟨body, last, rfl, hlast, hbody⟩ := h.ends
  obtain ⟨hd, hr⟩ := @run_body _ _ isEnd data _ held hbody
  have hs : ∀ held, step isEnd data held last = (some (held ++ data last), []) :=
    fun held => by simp [step, hlast]
  refine ⟨?_, ?_⟩
  · rw [delivered_append, hd, hr, List.flatMap_append, List.flatMap_singleton, List.nil_append,
      delivered, Machine.run_cons, hs, ← List.append_assoc]
    rfl
  · rw [Machine.run_concat, hr, hs]

/-- **The assembler delivers each message of a stream**, and ends with nothing kept. -/
theorem run_messages : ∀ {ms : List (List α)}, (∀ m ∈ ms, IsMessage isEnd m) →
    delivered isEnd data [] ms.flatten = ms.map (·.flatMap data) ∧
      (Machine.run (step isEnd data) [] ms.flatten).2 = []
  | [], _ => ⟨rfl, rfl⟩
  | m :: ms, h => by
    rw [List.forall_mem_cons] at h
    obtain ⟨hd, hr⟩ := @run_message _ _ isEnd data _ h.1 []
    obtain ⟨hds, hrs⟩ := run_messages h.2
    rw [List.flatten_cons, delivered_append, hd, hr, hds, Machine.run_append, hr, hrs]
    exact ⟨rfl, rfl⟩

/-- There is room for the data of the fragment, and what it completes satisfies `T`. -/
def Met (isEnd : α → Bool) (data : α → List β) (cap : ℕ) (T : List β → Prop) (held : List β)
    (a : α) : Prop :=
  (held ++ data a).length ≤ cap ∧ (isEnd a = true → T (held ++ data a))

/-- Messages that fit and satisfy `T` do so at every step of the assembler. -/
theorem along_message {cap : ℕ} {T : List β → Prop} {last : α} (hlast : isEnd last = true) :
    ∀ {body : List α} {held : List β}, (∀ a ∈ body, isEnd a = false) →
    (held ++ (body ++ [last]).flatMap data).length ≤ cap →
    T (held ++ (body ++ [last]).flatMap data) →
    Machine.Along (step isEnd data) (Met isEnd data cap T) held (body ++ [last])
  | [], held, _, hcap, hT => by
    rw [List.nil_append, List.flatMap_singleton] at hcap hT
    exact ⟨⟨hcap, fun _ => hT⟩, trivial⟩
  | a :: body, held, hbody, hcap, hT => by
    rw [List.forall_mem_cons] at hbody
    rw [List.cons_append, List.flatMap_cons, ← List.append_assoc] at hcap hT
    have hs : (step isEnd data held a).2 = held ++ data a := by simp [step, hbody.1]
    have hlen : (held ++ data a).length ≤ cap := by
      rw [List.length_append] at hcap
      omega
    refine ⟨⟨hlen, fun h => absurd (hbody.1.symm.trans h) Bool.false_ne_true⟩, ?_⟩
    rw [hs]
    exact along_message hlast hbody.2 hcap hT

theorem along_messages {cap : ℕ} {T : List β → Prop} : ∀ {ms : List (List α)},
    (∀ m ∈ ms, IsMessage isEnd m) →
    (∀ m ∈ ms, (m.flatMap data).length ≤ cap ∧ T (m.flatMap data)) →
    Machine.Along (step isEnd data) (Met isEnd data cap T) [] ms.flatten
  | [], _, _ => trivial
  | m :: ms, h, hmet => by
    rw [List.forall_mem_cons] at h hmet
    rw [List.flatten_cons, Machine.along_append, (run_message h.1 []).2]
    obtain ⟨⟨body, last, rfl, hlast, hbody⟩, hms⟩ := h
    exact ⟨along_message hlast hbody hmet.1.1 hmet.1.2, along_messages hms hmet.2⟩

/-- A part of a stream of messages: some of them, and a part of the next one. -/
theorem exists_messages : ∀ {ms : List (List α)} {l : List α}, (∀ m ∈ ms, IsMessage isEnd m) →
    l <+: ms.flatten →
    ∃ k ≤ ms.length, ∃ part, l = (ms.take k).flatten ++ part ∧ (∀ a ∈ part, isEnd a = false)
  | [], l, _, hl => by
    rw [List.flatten_nil, List.prefix_nil] at hl
    exact ⟨0, le_rfl, [], by simp [hl], by simp⟩
  | m :: ms, l, h, hl => by
    rw [List.forall_mem_cons] at h
    obtain ⟨⟨body, last, rfl, -, hbody⟩, hms⟩ := h
    obtain ⟨t, ht⟩ := hl
    rw [List.flatten_cons] at ht
    rcases List.append_eq_append_iff.1 ht with ⟨t', hm, -⟩ | ⟨l', rfl, hl'⟩
    · rcases List.prefix_concat_iff.1 ⟨t', hm.symm⟩ with rfl | hl
      · exact ⟨1, by simp, [], by simp, by simp⟩
      · exact ⟨0, Nat.zero_le _, l, by simp, fun a ha => hbody a (hl.subset ha)⟩
    · obtain ⟨k, hk, part, rfl, hpart⟩ := exists_messages hms ⟨t, hl'.symm⟩
      exact ⟨k + 1, Nat.succ_le_succ hk, part, by simp, hpart⟩

end Reassembly
