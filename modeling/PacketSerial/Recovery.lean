/-
  After a delimiter: when the receiver takes the next frame.

  A delimiter brings `p_rx_buffer` back to the start, and `rx_buffer_remaining` only
  when the frame it ends was parsed.

  * `step_cases`: what a call does to the staging variables;
  * `run_starves`: every frame that is not parsed takes its bytes from the space that
    is left, for good;
  * `frame_accepted_iff`: after a delimiter that was not dropped in the middle of a
    frame, the next frame is accepted if and only if it fits into that space.
-/
import PacketSerial.Cutting

namespace PacketSerial

open Receiver

/-! ## Calls -/

/-- **What a call does to the staging variables**: it is dropped, or its bytes are
    staged, or it ends a frame. -/
theorem step_cases {st : Receiver} (h : StagingInv st) (c : ProcessCall) :
    (st.rxBufferRemaining < c.buffer.length ∧ st.step c = ((false, []), st)) ∨
    ((c.buffer.length : ℤ) ≤ st.rxBufferRemaining ∧ c.buffer.getLast? ≠ some 0 ∧
      st.step c = ((true, [.strncpy st.pRxBuffer c.buffer.length]), st.stage c.buffer)) ∨
    ((c.buffer.length : ℤ) ≤ st.rxBufferRemaining ∧ c.buffer.getLast? = some 0 ∧
      (st.step c).2.pRxBuffer = 0 ∧ (st.step c).2.rxBufferRemaining =
        if (st.step c).1.1 then (rxBufferSize : ℤ)
        else st.rxBufferRemaining - c.buffer.length) := by
  have hrem := remainingSize_eq h
  by_cases hlen : (c.buffer.length : ℤ) ≤ st.rxBufferRemaining
  · have hp := process_accept h hlen c.stack
    by_cases hlast : c.buffer.getLast? = some 0
    · refine Or.inr (Or.inr ⟨hlen, hlast, ?_, ?_⟩)
      · rw [step, hp, if_pos hlast]; rfl
      · rw [step, hp, if_pos hlast, receiveMessage]
        dsimp only
        cases ((st.stage c.buffer).parseStaged c.stack).1.1 <;> rfl
    · rw [if_neg hlast] at hp
      exact Or.inr (Or.inl ⟨hlen, hlast, hp⟩)
  · refine Or.inl ⟨by omega, ?_⟩
    rw [step, process, if_pos (by omega)]

/-- After a delimiter that was not dropped in the middle of a frame, the pointer is at
    the start. -/
theorem pointer_of_delimiter {st : Receiver} (h : StagingInv st) {c : ProcessCall}
    (hlast : c.buffer.getLast? = some 0)
    (hroom : c.buffer.length ≤ st.remainingSize ∨ st.pRxBuffer = 0) :
    (st.step c).2.pRxBuffer = 0 := by
  have hrem := remainingSize_eq h
  rcases step_cases h c with ⟨hlen, hstep⟩ | ⟨-, hnot, -⟩ | ⟨-, -, hptr, -⟩
  · rw [hstep]
    exact hroom.resolve_left (by omega)
  · exact absurd hlast hnot
  · exact hptr

/-- The call finds space for its bytes, and no frame is parsed. -/
def Unparsed (st : Receiver) (c : ProcessCall) : Prop :=
  (c.buffer.length : ℤ) ≤ st.rxBufferRemaining ∧
    (c.buffer.getLast? = some 0 → (st.step c).1.1 = false)

/-- **Frames that are not parsed take their bytes from the space that is left**, and
    nothing but a frame that is parsed gives them back. -/
theorem run_starves : ∀ {cs : List ProcessCall} {st : Receiver}, StagingInv st →
    Machine.Along step Unparsed st cs →
    (Machine.run step st cs).2.rxBufferRemaining =
      st.rxBufferRemaining - (cs.flatMap (·.buffer)).length
  | [], _, _, _ => by simp
  | c :: cs, st, h, ⟨hun, hrest⟩ => by
    have ih := run_starves (step_inv h c).1 hrest
    have hstep : (st.step c).2.rxBufferRemaining = st.rxBufferRemaining - c.buffer.length := by
      rcases step_cases h c with ⟨hlen, -⟩ | ⟨-, -, hstep⟩ | ⟨-, hz, -, hrem⟩
      · exact absurd hun.1 (by omega)
      · rw [hstep]; rfl
      · rw [hrem, hun.2 hz]; rfl
    rw [Machine.run_cons, List.flatMap_cons, List.length_append, ih, hstep]
    push_cast
    omega

/-! ## Frames -/

/-- Calls that return true, of which only the last may end a frame, were given the
    space for all their bytes. -/
theorem length_le_of_returns : ∀ {cs : List ProcessCall} {st : Receiver}, StagingInv st →
    (∀ c ∈ cs.dropLast, c.buffer.getLast? ≠ some 0) →
    (∀ o ∈ (Machine.run step st cs).1, o.1 = true) →
    ((cs.flatMap (·.buffer)).length : ℤ) ≤ st.rxBufferRemaining
  | [], st, h, _, _ => h.remaining_nonneg
  | c :: cs, st, h, hlast, hret => by
    rw [Machine.run_cons, List.forall_mem_cons] at hret
    rw [List.flatMap_cons, List.length_append]
    rcases step_cases h c with ⟨-, hstep⟩ | ⟨hlen, hnot, hstep⟩ | ⟨hlen, hz, -, -⟩
    · rw [hstep] at hret
      exact absurd hret.1 Bool.false_ne_true
    · rw [hstep] at hret
      have hlast' : ∀ d ∈ cs.dropLast, d.buffer.getLast? ≠ some 0 := fun d hd => by
        refine hlast d ?_
        rcases cs with _ | ⟨e, cs⟩
        · simp at hd
        · exact List.mem_cons_of_mem _ hd
      have ih := length_le_of_returns (stage_inv h hlen) hlast' hret.2
      simp only [stage] at ih
      push_cast
      omega
    · rcases cs with _ | ⟨d, cs⟩
      · simpa using hlen
      · exact absurd hz (hlast c (by simp))

/-- **When a frame is accepted after a delimiter.**  Whatever was fed before, if the last
    call brought a delimiter, and was not dropped in the middle of a frame, then a frame
    that does not end a message is accepted byte by byte, and its data appended, if and
    only if it is no longer than what `rx_buffer_remaining` says. -/
theorem frame_accepted_iff (rxHandler : Option FnPtr) (registry : Registry)
    (cs : List ProcessCall) {c : ProcessCall} (hlast : c.buffer.getLast? = some 0)
    (hroom : let st := (Machine.run step (.init rxHandler registry) cs).2
      c.buffer.length ≤ st.remainingSize ∨ st.pRxBuffer = 0)
    {packet : Packet} (hp : packet.WF) (hnot : packet.isLast = false) :
    let st := (Machine.run step (.init rxHandler registry) (cs ++ [c])).2
    let r := Machine.run step st (ProcessCall.byteAtATime (encodePacket packet))
    ((∀ o ∈ r.1, o.1 = true) ∧ r.2.toPacketStore = st.append packet) ↔
      ((encodePacket packet).length : ℤ) ≤ st.rxBufferRemaining := by
  intro st r
  have hinv : StagingInv st := (staging_inBounds rxHandler registry (cs ++ [c])).1
  have hptr : st.pRxBuffer = 0 := by
    have hinv' := (staging_inBounds rxHandler registry cs).1
    have hptr := pointer_of_delimiter hinv' hlast hroom
    simpa only [st, Machine.run_concat] using hptr
  constructor
  · rintro ⟨hret, -⟩
    have hlen := length_le_of_returns hinv ?_ hret
    · rwa [ProcessCall.flatMap_byteAtATime] at hlen
    · rw [encodePacket_eq hp, Packet.frame, ProcessCall.byteAtATime, List.map_append,
        List.map_singleton, List.dropLast_concat]
      intro d hd hz
      obtain ⟨b, hb, rfl⟩ := List.mem_map.1 hd
      rw [List.getLast?_singleton, Option.some_inj] at hz
      exact Packet.zero_notMem_stuff (hz ▸ hb)
  · intro hlen
    have hstore := storePacket_notLast st.toPacketStore hnot
    have hacc : Accepts st.toPacketStore packet := by rw [Accepts, hstore]
    rw [encodePacket_eq hp] at hlen
    have hcs : (ProcessCall.byteAtATime (encodePacket packet)).flatMap (·.buffer) =
        packet.frame := by
      rw [ProcessCall.flatMap_byteAtATime, encodePacket_eq hp]
    have hfed := feed_frame hp hinv hptr hlen hcs
    exact ⟨hfed.returns_true hacc, hfed.store.trans (congrArg (·.2) hstore)⟩

/-- The shortest frame there is, which ends no message. -/
def emptyPacket : Packet := buildPacket [] 0 0 .cont

/-- Twenty-two empty frames, which are not parsed, leave the space that this frame
    needs. -/
theorem frame_accepted_iff_emptyFrames :
    let st := (Machine.run step (.init (some 5) .empty)
      (ProcessCall.byteAtATime (List.replicate 22 0))).2
    ∀ o ∈ (Machine.run step st (ProcessCall.byteAtATime (encodePacket emptyPacket))).1,
      o.1 = true :=
  ((frame_accepted_iff (some 5) .empty (ProcessCall.byteAtATime (List.replicate 21 0))
    (c := ⟨[0], List.cons_ne_nil _ _, fun _ => 0⟩) rfl (by decide +kernel)
    (buildPacket_wf [] 0 0 .cont) (by decide)).2 (by decide +kernel)).1

/-- The state after some chunks. -/
def receiverAfter (chunks : List (List UInt8)) : Receiver :=
  (Machine.run step (.init (some 5) .empty) (chunks.flatMap ProcessCall.whole)).2

/-- After one more, there is too little space, for good; and after a frame whose end was
    dropped, the next one is taken for its end. -/
theorem frame_rejected_after_delimiter :
    (∀ n ∈ [23, 33, 40], (receiverAfter (List.replicate n [0])).pRxBuffer = 0 ∧
      ∃ o ∈ (Machine.run step (receiverAfter (List.replicate n [0]))
        (ProcessCall.byteAtATime (encodePacket emptyPacket))).1, o.1 = false) ∧
    (encodePacket emptyPacket).length ≤
        (receiverAfter [List.replicate 10 1, List.replicate 23 1 ++ [0]]).rxBufferRemaining ∧
      ∃ o ∈ (Machine.run step (receiverAfter [List.replicate 10 1, List.replicate 23 1 ++ [0]])
        (ProcessCall.byteAtATime (encodePacket emptyPacket))).1, o.1 = false := by
  decide +kernel

end PacketSerial
