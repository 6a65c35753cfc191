/-
  `reset_rx_buffer`, called between any other calls of the receiver.

  * `ReceiverCall`: the calls that change the receiver's static variables;
  * `ResetsReception`: what `reset_rx_buffer` is for: whatever comes next is received as
    from the start;
  * `resetsReception_iff`: it does that where nothing of a frame is staged; it puts the
    count back and clears the buffer, but leaves the write pointer where it is.
-/
import PacketSerial.Staging

namespace PacketSerial

open Receiver

/-- A call into the library on the receiving side. -/
inductive ReceiverCall where
  | process (c : ProcessCall)
  | resetRxBuffer
  | resetPacketBuffer
  | registerRxHandler (handler : Option FnPtr)
  | addHandler (type : Option FieldsPtr) (callback : FnPtr)
  | clearHandlers

/-- What a call returns, if that is a `bool`, and does. -/
def Receiver.call (st : Receiver) : ReceiverCall → Option (Bool × List Event) × Receiver
  | .process c => let r := st.step c; (some r.1, r.2)
  | .resetRxBuffer => (none, st.resetRxBuffer)
  | .resetPacketBuffer => (none, { st with toPacketStore := st.resetPacketBuffer })
  | .registerRxHandler handler => (none, { st with rxHandler := handler })
  | .addHandler type callback =>
    let r := st.registry.addHandler type callback
    (some (r.1, []), { st with registry := r.2 })
  | .clearHandlers => (none, { st with registry := st.registry.clearHandlers })

/-- The staging variables as at the start of the program, and the others as they are. -/
def Receiver.restarted (st : Receiver) : Receiver :=
  { Receiver.init st.rxHandler st.registry with toPacketStore := st.toPacketStore }

/-- After `reset_rx_buffer`, every sequence of calls of `process` returns and does the same
    as from the start, copies into `rx_buffer` included, and stays inside its buffers. -/
structure ResetsReception (st : Receiver) : Prop where
  same : ∀ cs, (Machine.run step st.resetRxBuffer cs).1 = (Machine.run step st.restarted cs).1
  inBounds : ∀ cs, ∀ o ∈ (Machine.run step st.resetRxBuffer cs).1, ∀ e ∈ o.2, e.InBounds

theorem resetRxBuffer_eq {st : Receiver} (h : st.pRxBuffer = 0) :
    st.resetRxBuffer = st.restarted := by
  obtain ⟨store, rxBuffer, pRxBuffer, rxBufferRemaining⟩ := st
  cases h
  rfl

theorem stagingInv_restarted (st : Receiver) : StagingInv st.restarted :=
  ⟨by simp [restarted, init], by simp [restarted, init]⟩

/-- A call with one byte shows where the write pointer is. -/
theorem process_resetRxBuffer (st : Receiver) (stack : ℕ → UInt8) :
    (st.resetRxBuffer.process stack [1]).1 = (true, [.strncpy st.pRxBuffer 1]) := rfl

/-- **`reset_rx_buffer` resets reception** where the write pointer is at the start already,
    and only there, in every state that any calls lead to. -/
theorem resetsReception_iff (rxHandler : Option FnPtr) (registry : Registry)
    (calls : List ReceiverCall) :
    let st := (Machine.run Receiver.call (.init rxHandler registry) calls).2
    ResetsReception st ↔ st.pRxBuffer = 0 := by
  intro st
  constructor
  · intro h
    have hone := h.same [⟨[1], List.cons_ne_nil _ _, fun _ => 0⟩]
    simp only [Machine.run_cons, Machine.run_nil, step, process_resetRxBuffer] at hone
    have hstart : (st.restarted.process (fun _ => 0) [1]).1 = (true, [.strncpy 0 1]) := rfl
    rw [hstart] at hone
    simpa using hone
  · intro h
    refine ⟨fun cs => by rw [resetRxBuffer_eq h], fun cs => ?_⟩
    rw [resetRxBuffer_eq h]
    exact (run_inBounds (stagingInv_restarted st) cs).2

/-- One byte of a frame, a reset, and then a whole frame's worth of bytes: the last of them
    is written behind the end of `rx_buffer`. -/
theorem resetMidFrame_overflows :
    let st := (Machine.run Receiver.call (.init none .empty)
      [.process ⟨[1], List.cons_ne_nil _ _, fun _ => 0⟩]).2
    let r := st.resetRxBuffer.process (fun _ => 0) (List.replicate 32 1 ++ [0])
    Event.strncpy 1 33 ∈ r.1.2 ∧ ¬ (Event.strncpy 1 33).InBounds := by
  refine ⟨by decide +kernel, ?_⟩
  simp [Event.InBounds, rxBufferSize, Packet.size]

end PacketSerial
