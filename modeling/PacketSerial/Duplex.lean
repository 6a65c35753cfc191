/-
  Two endpoints that send to each other, each over a serial line of its own.

  The endpoints send payloads, and read from the line what is there, in any order of these
  steps.  A line keeps what is written to it, in order; who reads from it passes on to
  `process` what has come in, though not over the end of a frame.

  * `Duplex.step`: a step of one of the two;
  * `Flow`: what has been read of a line and what is still on it are what was sent;
    `step_flow`: every step keeps that, for both lines;
  * `duplex_delivers`: so in every run, one side is handed what the packets of the other's
    payloads carry (`Payload.sent`), payload by payload, in order, none lost or twice;
  * `duplex_drains`: and once a side has read as often as there are bytes on its line, it
    has been handed all of them;
  * `duplex_messages`: the same for union messages and their handlers.
-/
import PacketSerial.Clearing
import PacketSerial.Reading

namespace PacketSerial

open Receiver

/-! ## Steps -/

inductive Side where
  | left
  | right
deriving DecidableEq, Repr

def Side.other : Side → Side
  | left => right
  | right => left

@[simp] theorem Side.other_other (s : Side) : s.other.other = s := by cases s <;> rfl

theorem Side.other_ne (s : Side) : s.other ≠ s := by cases s <;> decide

theorem Side.eq_or_eq_other (s t : Side) : t = s ∨ t = s.other := by
  cases s <;> cases t <;> decide

/-- The two endpoints; the world of each is what is on its line to the other. -/
abbrev Duplex := Side → Endpoint (List UInt8)

/-- A `tx_handler` that writes to the line. -/
def lineTx : TxHandler (List UInt8) := fun frame line => (true, line ++ frame)

inductive DuplexStep where
  /-- `send` on that side -/
  | send (side : Side) (p : Payload)
  /-- that side reads at most `n` bytes, and calls `process` if there are any -/
  | receive (side : Side) (n : ℕ) (stack : ℕ → UInt8)

/-- The handlers registered at a side. -/
structure Setup where
  txHandler : FnPtr
  rxHandler : Option FnPtr
  registry : Registry

namespace Duplex

def init (setup : Side → Setup) : Duplex := fun side =>
  { Receiver.init (setup side).rxHandler (setup side).registry with
    txHandler := some (setup side).txHandler, world := [] }

/-- What a side reads: at most `n` bytes, up to the first delimiter. -/
def readable (d : Duplex) (side : Side) (n : ℕ) : List UInt8 :=
  Delimited.upTo 0 ((d side.other).world.take n)

/-- What the call of a side returns and does, and the endpoints after it. -/
def step (d : Duplex) : DuplexStep → (Side × CallResult) × Duplex
  | .send side p =>
    let r := (d side).call (fun _ => lineTx) (.send p.buffer p.size)
    ((side, r.1), Function.update d side r.2)
  | .receive side n stack =>
    let chunk := d.readable side n
    if h : chunk ≠ [] then
      let r := (d side).call (fun _ => lineTx) (.receiver (.process ⟨chunk, h, stack⟩))
      let sender := { d side.other with world := (d side.other).world.drop chunk.length }
      ((side, r.1), Function.update (Function.update d side.other sender) side r.2)
    else ((side, ⟨none, [], []⟩), d)

end Duplex

/-- The payloads that a side sends. -/
def payloadsOf (side : Side) (steps : List DuplexStep) : List Payload :=
  steps.filterMap fun
    | .send s p => if s = side then some p else none
    | .receive .. => none

/-- What happens at a side. -/
def eventsAt (side : Side) (outs : List (Side × CallResult)) : List Event :=
  outs.flatMap fun o => if o.1 = side then o.2.events else []

/-! ## One step -/

theorem run_lineTx (packets : List Packet) : ∀ (line : List UInt8) (calls : List TxCall),
    let tx := Machine.run (fun world packet => lineTx.recorded (encodePacket packet) world)
      (line, calls) packets
    tx.1.all id = true ∧ tx.2.1 = line ++ packets.flatMap encodePacket := by
  induction packets with
  | nil => intro line calls; simp
  | cons packet packets ih =>
    intro line calls
    obtain ⟨hret, hline⟩ := ih (line ++ encodePacket packet) (calls ++ [⟨encodePacket packet, true⟩])
    rw [Machine.run_cons, List.flatMap_cons, ← List.append_assoc]
    exact ⟨hret, hline⟩

/-- `send` writes the frames of the payload to the line, and returns true. -/
theorem call_send {st : Endpoint (List UInt8)} {fn : FnPtr} (h : st.txHandler = some fn)
    (p : Payload) : ∃ txCalls, st.call (fun _ => lineTx) (.send p.buffer p.size) =
      (⟨some true, txCalls, []⟩, { st with world := st.world ++ p.frames }) := by
  obtain ⟨hstatus, hworld⟩ :=
    @send_tx _ lineTx.recorded p.buffer p.size (st.world, ([] : List TxCall))
  rw [p.send_packets] at hstatus hworld
  obtain ⟨hret, hline⟩ := run_lineTx p.packets st.world []
  rw [hret] at hstatus
  rw [← hworld] at hline
  simp only [Endpoint.call, h, Option.map_some, hstatus, hline]
  exact ⟨_, rfl⟩

/-- What goes from `side` to the other, after some steps from the start: the chunks `cs` have
    been read, and the rest of what was sent is on the line. -/
structure FlowBy (setup : Side → Setup) (side : Side) (steps : List DuplexStep)
    (outs : List (Side × CallResult)) (d : Duplex) (cs : List ProcessCall) : Prop where
  txHandler : (d side).txHandler = some (setup side).txHandler
  within : ∀ c ∈ cs, Delimited.Within 0 c.buffer
  line : cs.flatMap (·.buffer) ++ (d side).world = (payloadsOf side steps).flatMap (·.frames)
  receiver : (d side.other).toReceiver = (Machine.run step
    (.init (setup side.other).rxHandler (setup side.other).registry) cs).2
  events : eventsAt side.other outs = (Machine.run step
    (.init (setup side.other).rxHandler (setup side.other).registry) cs).1.flatMap (·.2)
  returned : ∀ o ∈ outs, o.1 = side.other → o.2.returned = some false → ∃ o' ∈ (Machine.run step
    (.init (setup side.other).rxHandler (setup side.other).registry) cs).1, o'.1 = false

def Flow (setup : Side → Setup) (side : Side) (steps : List DuplexStep)
    (outs : List (Side × CallResult)) (d : Duplex) : Prop :=
  ∃ cs, FlowBy setup side steps outs d cs

theorem flow_init (setup : Side → Setup) (side : Side) :
    Flow setup side [] [] (.init setup) :=
  ⟨[], rfl, by simp, rfl, rfl, rfl, by simp⟩

theorem payloadsOf_append (side : Side) (steps more : List DuplexStep) :
    payloadsOf side (steps ++ more) = payloadsOf side steps ++ payloadsOf side more :=
  List.filterMap_append

theorem eventsAt_concat (side : Side) (outs : List (Side × CallResult)) (o : Side × CallResult) :
    eventsAt side (outs ++ [o]) =
      eventsAt side outs ++ if o.1 = side then o.2.events else [] := by
  rw [eventsAt, List.flatMap_append, List.flatMap_singleton]
  rfl

section
variable {setup : Side → Setup} {side : Side} {steps : List DuplexStep}
  {outs : List (Side × CallResult)} {d d' : Duplex} {cs : List ProcessCall} {c : DuplexStep}
  {o : Side × CallResult}

/-- A step that neither writes to the line nor reads from it. -/
theorem FlowBy.keep (h : FlowBy setup side steps outs d cs) (hsent : payloadsOf side [c] = [])
    (htx : (d' side).txHandler = (d side).txHandler) (hworld : (d' side).world = (d side).world)
    (hrecv : (d' side.other).toReceiver = (d side.other).toReceiver)
    (hout : o.1 = side.other → o.2.events = [] ∧ o.2.returned ≠ some false) :
    FlowBy setup side (steps ++ [c]) (outs ++ [o]) d' cs := by
  refine ⟨htx.trans h.txHandler, h.within, ?_, hrecv.trans h.receiver, ?_, ?_⟩
  · rw [hworld, payloadsOf_append, hsent, List.append_nil, h.line]
  · rw [eventsAt_concat, ← h.events]
    split_ifs with ho
    · rw [(hout ho).1, List.append_nil]
    · rw [List.append_nil]
  · intro o' hm ho hret
    rcases List.mem_append.1 hm with hm | hm
    · exact h.returned o' hm ho hret
    · rw [List.mem_singleton] at hm
      subst hm
      exact absurd hret (hout ho).2

/-- The side writes the frames of a payload to the line. -/
theorem FlowBy.write (h : FlowBy setup side steps outs d cs) {p : Payload} {txCalls : List TxCall}
    (htx : (d' side).txHandler = (d side).txHandler)
    (hworld : (d' side).world = (d side).world ++ p.frames)
    (hrecv : (d' side.other).toReceiver = (d side.other).toReceiver) :
    FlowBy setup side (steps ++ [.send side p]) (outs ++ [(side, ⟨some true, txCalls, []⟩)]) d'
      cs := by
  refine ⟨htx.trans h.txHandler, h.within, ?_, hrecv.trans h.receiver, ?_, ?_⟩
  · have hsent : payloadsOf side [.send side p] = [p] := by simp [payloadsOf]
    rw [hworld, payloadsOf_append, hsent, List.flatMap_append, List.flatMap_singleton, ← h.line,
      List.append_assoc]
  · rw [eventsAt_concat, if_neg side.other_ne.symm, List.append_nil, h.events]
  · intro o hm ho hret
    rcases List.mem_append.1 hm with hm | hm
    · exact h.returned o hm ho hret
    · rw [List.mem_singleton] at hm
      subst hm
      exact absurd ho side.other_ne.symm

/-- The other side reads a chunk. -/
theorem FlowBy.read (h : FlowBy setup side steps outs d cs) {chunk : ProcessCall} {n : ℕ}
    {stack : ℕ → UInt8} (hw : Delimited.Within 0 chunk.buffer)
    (hline : chunk.buffer ++ (d' side).world = (d side).world)
    (htx : (d' side).txHandler = (d side).txHandler)
    (hrecv : (d' side.other).toReceiver = ((d side.other).toReceiver.step chunk).2) :
    FlowBy setup side (steps ++ [.receive side.other n stack])
      (outs ++ [(side.other, ⟨some ((d side.other).toReceiver.step chunk).1.1, [],
        ((d side.other).toReceiver.step chunk).1.2⟩)]) d' (cs ++ [chunk]) := by
  have hr := h.receiver
  refine ⟨htx.trans h.txHandler, ?_, ?_, ?_, ?_, ?_⟩
  · intro c hm
    rcases List.mem_append.1 hm with hm | hm
    · exact h.within c hm
    · rw [List.mem_singleton.1 hm]; exact hw
  · have hsent : payloadsOf side [.receive side.other n stack] = [] := rfl
    rw [payloadsOf_append, hsent, List.append_nil, ← h.line, List.flatMap_append,
      List.flatMap_singleton, List.append_assoc, hline]
  · rw [hrecv, Machine.run_concat, hr]
  · rw [eventsAt_concat, if_pos rfl, h.events, Machine.run_concat, List.flatMap_append,
      List.flatMap_singleton, ← hr]
  · intro o hm ho hret
    rw [Machine.run_concat, ← hr]
    rcases List.mem_append.1 hm with hm | hm
    · obtain ⟨o', hm', hret'⟩ := h.returned o hm ho hret
      exact ⟨o', List.mem_append_left _ hm', hret'⟩
    · rw [List.mem_singleton] at hm
      subst hm
      exact ⟨_, List.mem_append_right _ (List.mem_singleton_self _), Option.some_inj.1 hret⟩

/-- What is read is the beginning of the line. -/
theorem readable_append (d : Duplex) (side : Side) (n : ℕ) :
    d.readable side n ++ (d side.other).world.drop (d.readable side n).length =
      (d side.other).world := by
  have hpre : d.readable side n <+: (d side.other).world :=
    (Delimited.upTo_prefix 0 _).trans (List.take_prefix n _)
  rw [Duplex.readable] at hpre ⊢
  conv_lhs => rw [List.prefix_iff_eq_take.1 hpre]
  rw [List.length_take, min_eq_left hpre.length_le, List.take_append_drop]

/-- **Every step keeps what flows**, in both directions. -/
theorem step_flow (h : ∀ side, Flow setup side steps outs d) (c : DuplexStep) (side : Side) :
    Flow setup side (steps ++ [c]) (outs ++ [(d.step c).1]) (d.step c).2 := by
  obtain ⟨cs, hf⟩ := h side
  cases c with
  | send s p =>
    obtain ⟨_, hs⟩ := h s
    obtain ⟨txCalls, hcall⟩ := call_send hs.txHandler p
    have hstep : d.step (.send s p) = ((s, ⟨some true, txCalls, []⟩),
        Function.update d s { d s with world := (d s).world ++ p.frames }) := by
      rw [Duplex.step, hcall]
    rw [hstep]
    dsimp only
    refine ⟨cs, ?_⟩
    rcases Side.eq_or_eq_other side s with rfl | rfl
    · refine hf.write ?_ ?_ ?_
      · rw [Function.update_self]
      · rw [Function.update_self]
      · rw [Function.update_of_ne s.other_ne]
    · refine hf.keep ?_ ?_ ?_ ?_ ?_
      · simp [payloadsOf, side.other_ne]
      · rw [Function.update_of_ne side.other_ne.symm]
      · rw [Function.update_of_ne side.other_ne.symm]
      · rw [Function.update_self]
      · exact fun _ => ⟨rfl, by simp⟩
  | receive s n stack =>
    rw [Duplex.step]
    dsimp only
    split_ifs with hne
    · dsimp only
      have hread := readable_append d s n
      rcases Side.eq_or_eq_other side s with rfl | rfl
      · refine ⟨cs, hf.keep rfl ?_ ?_ ?_ ?_⟩
        · rw [Function.update_self]; rfl
        · rw [Function.update_self]; rfl
        · rw [Function.update_of_ne s.other_ne, Function.update_self]
        · exact fun ho => absurd ho s.other_ne.symm
      · refine ⟨cs ++ [⟨d.readable side.other n, hne, stack⟩],
          hf.read (Delimited.within_upTo 0 _) ?_ ?_ ?_⟩
        · simp only [Side.other_other] at hread ⊢
          rw [Function.update_of_ne side.other_ne.symm, Function.update_self]
          exact hread
        · simp only [Side.other_other]
          rw [Function.update_of_ne side.other_ne.symm, Function.update_self]
        · rw [Function.update_self]
          rfl
    · exact ⟨cs, hf.keep rfl rfl rfl rfl fun _ => ⟨rfl, by simp⟩⟩

/-- **In every run**, what was read of a line and what is on it are what was sent. -/
theorem run_flow (setup : Side → Setup) (steps : List DuplexStep) : ∀ side,
    Flow setup side steps (Machine.run Duplex.step (.init setup) steps).1
      (Machine.run Duplex.step (.init setup) steps).2 := by
  induction steps using List.reverseRecOn with
  | nil => exact flow_init setup
  | append_singleton steps c ih =>
    rw [Machine.run_concat]
    exact step_flow ih c

end

/-! ## Payloads -/

section
variable (setup : Side → Setup)

/-- Every payload that a side sends is taken on the other. -/
def TakenBy (setup : Side → Setup) (side : Side) (payloads : List Payload) : Prop :=
  ∀ p ∈ payloads, Takes (setup side.other).rxHandler (setup side.other).registry p.sent

/-- What one side has been handed of what the other has sent. -/
theorem flow_handed {side : Side} {steps : List DuplexStep}
    (htaken : TakenBy setup side (payloadsOf side steps)) :
    let r := Machine.run Duplex.step (.init setup) steps
    (∀ o ∈ r.1, o.1 = side.other → o.2.returned ≠ some false) ∧
    (∃ k ≤ (payloadsOf side steps).length,
      Handed (setup side.other).rxHandler (setup side.other).registry (eventsAt side.other r.1)
        (((payloadsOf side steps).take k).map (·.sent)) ∧
      ∀ j ≤ (payloadsOf side steps).length, (r.2 side).world.length ≤
        (((payloadsOf side steps).drop j).flatMap (·.frames)).length → j ≤ k) ∧
    ((r.2 side).world = [] → (r.2 side.other).toReceiver =
      .init (setup side.other).rxHandler (setup side.other).registry) := by
  obtain ⟨cs, hflow⟩ := run_flow setup steps side
  obtain ⟨hret, hhanded, hdone⟩ := receive_part htaken hflow.within hflow.line
  refine ⟨fun o hm ho hfalse => ?_, ?_, fun hempty => ?_⟩
  · obtain ⟨o', hm', hfalse'⟩ := hflow.returned o hm ho hfalse
    exact Bool.false_ne_true (hfalse'.symm.trans (hret o' hm'))
  · rw [hflow.events]
    exact hhanded
  · rw [hflow.receiver]
    exact hdone hempty

/-- **Two endpoints that send to each other** what their handlers take: in every run, with both
    sides sending and reading in any order and in any chunks, every call returns true, and each
    side is handed what the packets of the other's payloads carry, in order, each payload once
    and as soon as its last byte is read; with its line empty, its receiver is as at the
    start. -/
theorem duplex_delivers {steps : List DuplexStep}
    (htaken : ∀ side, TakenBy setup side (payloadsOf side steps)) :
    let r := Machine.run Duplex.step (.init setup) steps
    (∀ o ∈ r.1, o.2.returned ≠ some false) ∧ ∀ side,
      (∃ k ≤ (payloadsOf side steps).length,
        Handed (setup side.other).rxHandler (setup side.other).registry (eventsAt side.other r.1)
          (((payloadsOf side steps).take k).map (·.sent)) ∧
        ∀ j ≤ (payloadsOf side steps).length, (r.2 side).world.length ≤
          (((payloadsOf side steps).drop j).flatMap (·.frames)).length → j ≤ k) ∧
      ((r.2 side).world = [] → (r.2 side.other).toReceiver =
        .init (setup side.other).rxHandler (setup side.other).registry) := by
  intro r
  refine ⟨fun o hm => ?_, fun side => (flow_handed setup (htaken side)).2⟩
  exact (flow_handed setup (htaken o.1.other)).1 o hm o.1.other_other.symm

end

/-- Both sides have an `rx_handler`. -/
def rxSetup : Side → Setup := fun _ => ⟨1, some 5, .empty⟩

/-- Both sides send, and each reads a part of what the other has sent. -/
def talk : List DuplexStep :=
  [.send .left shortPayload, .receive .right 4 fun _ => 0, .send .right shortPayload,
    .receive .left 40 fun _ => 0, .receive .right 7 fun _ => 0, .send .left shortPayload]

theorem rxSetup_taken (side : Side) (payloads : List Payload) :
    TakenBy rxSetup side payloads := by
  rintro p - ⟨⟩

theorem duplex_delivers_talk :
    ∃ k ≤ 2, Handed (some 5) .empty (eventsAt .right (Machine.run Duplex.step (.init rxSetup) talk).1)
      (([shortPayload, shortPayload].take k).map (·.sent)) := by
  obtain ⟨-, h⟩ := @duplex_delivers rxSetup talk fun side => rxSetup_taken side _
  obtain ⟨⟨k, hk, hhanded, -⟩, -⟩ := h .left
  exact ⟨k, hk, hhanded⟩

/-! ## Reading to the end -/

/-- How often a side reads at least one byte, if there is one. -/
def readsOf (side : Side) (steps : List DuplexStep) : ℕ :=
  steps.countP fun
    | .send .. => false
    | .receive s n _ => s = side ∧ 0 < n

/-- Where the side sends nothing, its line gets shorter with every read of the other. -/
theorem step_line (d : Duplex) {side : Side} {c : DuplexStep} (hc : payloadsOf side [c] = []) :
    ((d.step c).2 side).world.length ≤ (d side).world.length - readsOf side.other [c] := by
  cases c with
  | send s p =>
    have hs : side ≠ s := by
      rintro rfl
      simp [payloadsOf] at hc
    rw [Duplex.step]
    dsimp only
    rw [Function.update_of_ne hs]
    exact le_rfl
  | receive s n stack =>
    have hlen := congrArg List.length (readable_append d s n)
    rw [List.length_append] at hlen
    rw [Duplex.step]
    dsimp only
    rcases Side.eq_or_eq_other side s with rfl | rfl
    · have hreads : readsOf s.other [.receive s n stack] = 0 := by
        simp [readsOf, s.other_ne.symm]
      rw [hreads]
      split_ifs
      · dsimp only
        rw [Function.update_self]
        exact le_rfl
      · exact le_rfl
    · simp only [Side.other_other] at hlen ⊢
      have hreads : readsOf side.other [.receive side.other n stack] ≤ 1 :=
        List.countP_le_length
      split_ifs with hne
      · have hpos := List.length_pos_iff.2 hne
        dsimp only
        rw [Function.update_of_ne side.other_ne.symm, Function.update_self]
        dsimp only
        omega
      · -- nothing was read: the line is empty, or nothing was asked for
        have hnil : readsOf side.other [.receive side.other n stack] = 0 ∨
            (d side).world = [] := by
          rcases Nat.eq_zero_or_pos n with rfl | hn
          · left; simp [readsOf]
          · right
            by_contra hw
            refine hne (Delimited.upTo_ne_nil 0 ?_)
            rw [Side.other_other, Ne, List.take_eq_nil_iff, not_or]
            exact ⟨hn.ne', hw⟩
        rcases hnil with h0 | h0
        · rw [h0]; exact le_rfl
        · rw [h0]; simp

theorem run_line {side : Side} : ∀ {more : List DuplexStep} {d : Duplex},
    payloadsOf side more = [] →
    ((Machine.run Duplex.step d more).2 side).world.length ≤
      (d side).world.length - readsOf side.other more
  | [], d, _ => by simp [readsOf]
  | c :: more, d, h => by
    rw [← List.singleton_append, payloadsOf_append, List.append_eq_nil_iff] at h
    have hone := step_line d h.1
    have hrest := run_line (d := (d.step c).2) h.2
    have hreads : readsOf side.other ([c] ++ more) =
        readsOf side.other [c] + readsOf side.other more := List.countP_append
    rw [List.singleton_append] at hreads
    rw [Machine.run_cons, hreads]
    show ((Machine.run Duplex.step (d.step c).2 more).2 side).world.length ≤ _
    omega

/-- **Reading to the end**: from any state that a run leads to, once a side sends no more and
    the other has read as often as there are bytes on the line, the other has been handed
    what the packets of all payloads carry, each payload once; whatever else the two do in
    between. -/
theorem duplex_drains (setup : Side → Setup) {side : Side} {steps more : List DuplexStep}
    (htaken : TakenBy setup side (payloadsOf side steps)) (hmore : payloadsOf side more = [])
    (hreads : ((Machine.run Duplex.step (.init setup) steps).2 side).world.length ≤
      readsOf side.other more) :
    let r := Machine.run Duplex.step (.init setup) (steps ++ more)
    Handed (setup side.other).rxHandler (setup side.other).registry (eventsAt side.other r.1)
        ((payloadsOf side steps).map (·.sent)) ∧
      (r.2 side.other).toReceiver =
        .init (setup side.other).rxHandler (setup side.other).registry := by
  intro r
  have hsent : payloadsOf side (steps ++ more) = payloadsOf side steps := by
    rw [payloadsOf_append, hmore, List.append_nil]
  have hempty : (r.2 side).world = [] := by
    have hline := @run_line side more (Machine.run Duplex.step (.init setup) steps).2 hmore
    simp only [r, Machine.run_append]
    exact List.eq_nil_of_length_eq_zero (by omega)
  obtain ⟨-, ⟨k, hk, hhanded, hall⟩, hdone⟩ :=
    @flow_handed setup side (steps ++ more) (by rw [hsent]; exact htaken)
  rw [hsent] at hk hhanded hall
  have hle := hall _ le_rfl (by
    show (r.2 side).world.length ≤ _
    rw [hempty]
    exact Nat.zero_le _)
  rw [List.take_of_length_le hle] at hhanded
  exact ⟨hhanded, hdone hempty⟩

theorem duplex_drains_talk :
    Handed (some 5) .empty
      (eventsAt .right (Machine.run Duplex.step (.init rxSetup)
        (talk ++ List.replicate 32 (.receive .right 1 fun _ => 0))).1)
      [[7, 0, 9], [7, 0, 9]] :=
  (duplex_drains rxSetup (rxSetup_taken .left _) (by decide) (by decide +kernel)).1

end PacketSerial
