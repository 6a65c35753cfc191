/-
  The library from outside: what its calls return and hand on, said without frames that come in,
  arrays and slots.

  * `Library`: the handlers, those of messages by their types, the bytes of the message that is
    open, and the world; `Library.step` is what an action does with them;
  * `Endpoint.meaning`: the action that a call is; for `process`, the packet it decodes;
  * `Implements`: the static variables hold the state of the library;
  * `run_implements`: every run of calls, on any bytes, returns, transmits and hands on what the
    library does, and writes inside its buffers, as long as the messages fit and the calls are
    made as they are meant to be (`CallMet`);
  * `called_registered`: in such a run, whatever is called has been registered, and not been
    replaced or cleared since.
-/
import PacketSerial.Clearing
import PacketSerial.Handlers
import PacketSerial.Reading

namespace PacketSerial

open Receiver

/-! ## The library -/

/-- What is handed on: a buffer to `rx_handler`, or a stream to the handler of a message. -/
inductive Handover where
  | rxHandler (handler : FnPtr) (buffer : List UInt8)
  | message (call : Call)
deriving DecidableEq

/-- What can be seen of a call: what it returns, if that is a `bool`, the calls of `tx_handler`
    and what is handed on. -/
structure Outcome where
  returned : Option Bool
  txCalls : List TxCall
  handed : List Handover

/-- What the library keeps, and the world that `tx_handler` may change. -/
structure Library (σ : Type) where
  txHandler : Option FnPtr
  rxHandler : Option FnPtr
  handlers : HandlerMap
  held : List UInt8
  world : σ

/-- What a call means to it. -/
inductive Action where
  | registerTxHandler (handler : Option FnPtr)
  | registerRxHandler (handler : Option FnPtr)
  | registry (c : RegistryCall)
  | send (payload : List UInt8)
  | dropMessage
  | packet (packet : Packet)
  /-- bytes that complete no packet, and whether they are kept for one -/
  | bytes (kept : Bool)
  | idle

/-- The packets of a payload. -/
def payloadPackets (payload : List UInt8) : List Packet :=
  (List.range (totalChunks payload.length)).map (sentPacket payload payload.length)

/-- The call for the message in a buffer: of the handler for its first member. -/
def HandlerMap.dispatch (m : HandlerMap) (buffer : List UInt8) : List Call :=
  (((messageOf buffer buffer.length true).map decodeUnionmessageType).bind fun r =>
    r.1.bind fun type => (m.lookup type).map fun callback => ⟨callback, r.2, some type⟩).toList

namespace Library

/-- The state at the start of the program. -/
def init {σ : Type} (world : σ) : Library σ := ⟨none, none, ∅, [], world⟩

/-- What is done with a buffer that holds a whole message. -/
def handOn (rxHandler : Option FnPtr) (handlers : HandlerMap) (buffer : List UInt8) :
    List Handover :=
  match rxHandler with
  | some handler => [.rxHandler handler buffer]
  | none => (handlers.dispatch buffer).map .message

section
variable {σ : Type}

/-- A frame goes to `tx_handler`. -/
def transmit (handler : TxHandler σ) (world : σ) (frame : List UInt8) : TxCall × σ :=
  (⟨frame, (handler frame world).1⟩, (handler frame world).2)

/-- What an action returns, transmits and hands on, and does; `code` is what the pointers of
    `register_tx_handler` point to. -/
def step (code : FnPtr → TxHandler σ) (l : Library σ) : Action → Outcome × Library σ
  | .registerTxHandler handler => (⟨none, [], []⟩, { l with txHandler := handler })
  | .registerRxHandler handler => (⟨none, [], []⟩, { l with rxHandler := handler })
  | .registry c => (⟨(l.handlers.call c).1, [], []⟩, { l with handlers := (l.handlers.call c).2 })
  | .send payload =>
    match l.txHandler with
    | none => (⟨some payload.isEmpty, [], []⟩, l)
    | some handler =>
      let tx := Machine.run (transmit (code handler)) l.world
        ((payloadPackets payload).map Packet.frame)
      (⟨some (tx.1.all (·.result)), tx.1, []⟩, { l with world := tx.2 })
  | .dropMessage => (⟨none, [], []⟩, { l with held := [] })
  | .packet packet =>
    match assemble l.held packet with
    | (none, held) => (⟨some true, [], []⟩, { l with held := held })
    | (some data, held) =>
      let handed := handOn l.rxHandler l.handlers (padded data)
      (⟨some (handed ≠ []), [], handed⟩, { l with held := held })
  | .bytes kept => (⟨some kept, [], []⟩, l)
  | .idle => (⟨none, [], []⟩, l)

/-- The message that the packet is of fits into `packet_buffer`. -/
def Fits (l : Library σ) : Action → Prop
  | .packet packet => (l.held ++ packet.bytes).length ≤ packetBufferSize
  | _ => True

instance (l : Library σ) : ∀ a, Decidable (l.Fits a)
  | .packet _ => inferInstanceAs (Decidable (_ ≤ _))
  | .registerTxHandler _ | .registerRxHandler _ | .registry _ | .send _ | .dropMessage | .bytes _
  | .idle => .isTrue trivial

end

end Library

/-! ## Calls -/

/-- The packet that a call of `process` decodes. -/
def Receiver.decodedPacket (st : Receiver) (c : ProcessCall) : Option Packet :=
  if c.buffer.length ≤ st.remainingSize ∧ c.buffer.getLast? = some 0 then
    (st.stage c.buffer).parsedPacket c.stack
  else none

theorem decodes_iff {st : Receiver} {c : ProcessCall} {packet : Packet} :
    st.Decodes c packet ↔ st.decodedPacket c = some packet := by
  unfold Receiver.decodedPacket
  constructor
  · rintro ⟨hroom, hdelim, hparsed⟩
    rw [if_pos ⟨hroom, hdelim⟩, hparsed]
  · intro h
    split_ifs at h with hc
    exact ⟨hc.1, hc.2, h⟩

/-- The bytes of a call are kept for a packet that later ones complete. -/
def Receiver.keeps (st : Receiver) (c : ProcessCall) : Bool :=
  c.buffer.length ≤ st.remainingSize ∧ c.buffer.getLast? ≠ some 0

/-- The action that a call on the receiving side is. -/
def Receiver.meaning (st : Receiver) : ReceiverCall → Action
  | .process c => (st.decodedPacket c).elim (.bytes (st.keeps c)) .packet
  | .resetRxBuffer => .idle
  | .resetPacketBuffer => .dropMessage
  | .registerRxHandler handler => .registerRxHandler handler
  | .addHandler type callback =>
    type.elim .idle fun type => .registry (.addHandler type callback)
  | .clearHandlers => .registry .clearHandlers

/-- The action that a call is. -/
def Endpoint.meaning {σ : Type} (st : Endpoint σ) : EndpointCall → Action
  | .receiver c => st.toReceiver.meaning c
  | .registerTxHandler handler => .registerTxHandler handler
  | .clearHandlers => .registerTxHandler none
  | .send buffer size => .send (buffer.take size)

/-- How the calls are meant to be made: `send` on a buffer that has the payload, of less than
    2 GiB; `add_handler` for the type of a message; and `reset_rx_buffer` where nothing of a frame
    is staged. -/
def CallMet {σ : Type} (st : Endpoint σ) : EndpointCall → Prop
  | .send buffer size => size ≤ buffer.length ∧ size < 2 ^ 31
  | .receiver (.addHandler type _) => type ≠ none
  | .receiver .resetRxBuffer => st.pRxBuffer = 0
  | _ => True

instance {σ : Type} (st : Endpoint σ) : ∀ c, Decidable (CallMet st c)
  | .send _ _ => inferInstanceAs (Decidable (_ ∧ _))
  | .receiver (.addHandler _ _) => inferInstanceAs (Decidable (_ ≠ _))
  | .receiver .resetRxBuffer => inferInstanceAs (Decidable (_ = _))
  | .registerTxHandler _ | .clearHandlers | .receiver (.process _) | .receiver .resetPacketBuffer
  | .receiver (.registerRxHandler _) | .receiver .clearHandlers => .isTrue trivial

/-- What is handed on in some events. -/
def handovers (events : List Event) : List Handover :=
  events.filterMap fun
    | .rxHandler handler buffer => some (.rxHandler handler buffer.bytes)
    | .call call => some (.message call)
    | _ => none

def CallResult.outcome (r : CallResult) : Outcome := ⟨r.returned, r.txCalls, handovers r.events⟩

/-- The copies of a call stay inside `rx_buffer`, `decoded_data_array` and `packet_buffer`. -/
def CallResult.InBounds (r : CallResult) : Prop := ∀ e ∈ r.events, e.InBounds ∧ e.CopyInBounds

/-- The variables of `packet_parser` hold the state of the library. -/
structure Stores {σ : Type} (st : PacketStore) (l : Library σ) : Prop where
  rxHandler : st.rxHandler = l.rxHandler
  registry : st.registry.Refines l.handlers
  held : HeldBy st l.held

/-- The static variables hold the state of the library; those of `process` are in order. -/
structure Implements {σ : Type} (st : Endpoint σ) (l : Library σ) : Prop
    extends Stores st.toPacketStore l where
  txHandler : st.txHandler = l.txHandler
  world : st.world = l.world
  staging : StagingInv st.toReceiver

/-! ## Packets -/

/-- **A message is handed to the handler that the map has** for its first member. -/
theorem Registry.Refines.unmarshal_eq {reg : Registry} {m : HandlerMap} (h : reg.Refines m)
    (buffer : List UInt8) :
    unmarshal reg buffer buffer.length true =
      (decide (m.dispatch buffer ≠ []), m.dispatch buffer) := by
  rw [unmarshal, unmarshalWith_eq, HandlerMap.dispatch]
  rcases messageOf buffer buffer.length true with _ | msg
  · rfl
  rw [Option.map_some, Option.bind_some, Option.elim_some,
    PacketSerial.unmarshalLookupCallback]
  rcases decodeUnionmessageType msg with ⟨_ | type, rest⟩
  · -- no member: the type is `NULL`
    rw [h.findHandler_null]
    rfl
  · rw [Option.bind_some, ← h.lookup_eq, Registry.lookup]
    dsimp only
    rcases reg.findHandler (some type) with _ | idx <;> rfl

theorem handovers_call (calls : List Call) :
    handovers (calls.map .call) = calls.map .message := by
  rw [handovers, List.filterMap_map]
  exact congrFun List.filterMap_eq_map calls

theorem handovers_storeEvents (outs : List (Bool × List Event)) :
    handovers (storeEvents outs) = handovers (outs.flatMap (·.2)) :=
  filterMap_storeEvents (fun e he => by cases e <;> first | rfl | cases he) outs

/-- A last packet completes a message, which is handed on. -/
theorem storePacket_handOn {st : PacketStore} {m : HandlerMap} (h : st.registry.Refines m)
    {packet : Packet} (hl : packet.isLast = true) :
    let handed := Library.handOn st.rxHandler m (st.append packet).packetBuffer.bytes
    (st.storePacket packet).1.1 = decide (handed ≠ []) ∧
      handovers (st.storePacket packet).1.2 = handed := by
  rcases hrx : st.rxHandler with _ | handler
  · have hun := h.unmarshal_eq (st.append packet).packetBuffer.bytes
    rw [Buffer.length_bytes] at hun
    rw [storePacket_union hl hrx, hun]
    refine ⟨?_, handovers_call _⟩
    simp only [Library.handOn, ne_eq, List.map_eq_nil_iff]
  · rw [storePacket_rx hl hrx]
    exact ⟨rfl, rfl⟩

section
variable {σ : Type} {code : FnPtr → TxHandler σ}

/-- **A packet is stored as the library does it.** -/
theorem storePacket_implements {st : PacketStore} {l : Library σ} (h : Stores st l)
    {packet : Packet} (hfits : l.Fits (.packet packet)) :
    let o := l.step code (.packet packet)
    o.1 = ⟨some (st.storePacket packet).1.1, [], handovers (st.storePacket packet).1.2⟩ ∧
      Stores (st.storePacket packet).2 o.2 ∧ o.2.txHandler = l.txHandler ∧
      o.2.world = l.world := by
  have hbytes := (append_holds h.held hfits).bytes
  have hstores : Stores (st.storePacket packet).2
      { l with held := (assemble l.held packet).2 } :=
    ⟨(storePacket_rxHandler _ _).trans h.rxHandler, by rw [storePacket_registry]; exact h.registry,
      storePacket_holds h.held hfits⟩
  dsimp only
  rw [Library.step]
  cases hl : packet.isLast with
  | false =>
    have hassemble : assemble l.held packet = (none, l.held ++ packet.bytes) := by
      simp [assemble, Reassembly.step, hl]
    rw [hassemble] at hstores ⊢
    rw [storePacket_notLast st hl] at hstores ⊢
    exact ⟨rfl, hstores, rfl, rfl⟩
  | true =>
    have hassemble : assemble l.held packet = (some (l.held ++ packet.bytes), []) := by
      simp [assemble, Reassembly.step, hl]
    obtain ⟨hret, hhanded⟩ := storePacket_handOn h.registry hl
    rw [h.rxHandler, hbytes] at hret hhanded
    rw [hassemble] at hstores ⊢
    exact ⟨by rw [hret, hhanded], hstores, rfl, rfl⟩

/-- A call of `process` that decodes no packet returns true if its bytes are kept. -/
theorem step_returned {st : Receiver} {c : ProcessCall} (h : st.decodedPacket c = none) :
    (st.step c).1.1 = st.keeps c := by
  rw [step, process, Receiver.keeps]
  rw [Receiver.decodedPacket] at h
  split_ifs with hover hlast
  · rw [decide_eq_false fun hkeep => absurd hkeep.1 (not_le.2 hover)]
  · rw [if_pos ⟨not_lt.1 hover, hlast⟩] at h
    have hparse := parseStaged_eq (st.stage c.buffer) c.stack
    rw [h] at hparse
    rw [decide_eq_false fun hkeep => hkeep.2 hlast]
    exact congrArg (·.1.1) hparse
  · rw [decide_eq_true ⟨not_lt.1 hover, hlast⟩]

/-! ## Payloads -/

theorem payloadPackets_take {buffer : List UInt8} {size : ℕ} (hle : size ≤ buffer.length)
    (h : size < 2 ^ 31) : payloadPackets (buffer.take size) =
      (List.range (totalChunks size)).map (sentPacket buffer size) := by
  rw [payloadPackets, List.length_take, min_eq_left hle]
  refine List.map_congr_left fun i hi => ?_
  exact sentPacket_take h (List.mem_range.1 hi)

/-- The calls of a handler that are written down are those of the library. -/
theorem recorded_run_eq (handler : TxHandler σ) {packets : List Packet}
    (hwf : ∀ packet ∈ packets, packet.WF) (world : σ) (calls : List TxCall) :
    let tx := Machine.run (Library.transmit handler) world (packets.map Packet.frame)
    Machine.run (fun world packet => handler.recorded (encodePacket packet) world) (world, calls)
      packets = (tx.1.map (·.result), (tx.2, calls ++ tx.1)) := by
  induction packets generalizing world calls with
  | nil => simp
  | cons packet packets ih =>
    rw [List.forall_mem_cons] at hwf
    have htail := ih hwf.2 (handler packet.frame world).2
      (calls ++ [⟨packet.frame, (handler packet.frame world).1⟩])
    dsimp only at htail ⊢
    rw [Machine.run_cons, encodePacket_eq hwf.1, TxHandler.recorded]
    dsimp only
    rw [htail, List.append_assoc]
    rfl

/-- **`send` transmits what the library does.** -/
theorem send_implements {st : Endpoint σ} {l : Library σ} (h : Implements st l)
    {buffer : List UInt8} {size : ℕ} (hmet : CallMet st (.send buffer size)) :
    let r := st.call code (.send buffer size)
    let o := l.step code (.send (buffer.take size))
    r.1.outcome = o.1 ∧ Implements r.2 o.2 := by
  obtain ⟨hle, hsize⟩ := hmet
  dsimp only
  rw [Library.step, ← h.txHandler]
  rcases htx : st.txHandler with _ | handler
  · have hempty : decide (totalChunks size = 0) = (buffer.take size).isEmpty := by
      rw [Bool.eq_iff_iff, decide_eq_true_iff, List.isEmpty_iff, ← List.length_eq_zero_iff,
        List.length_take, min_eq_left hle, totalChunks_eq hsize, dataChunkSize_eq]
      omega
    have hsend : st.txHandler.map (fun h => (code h).recorded) = none := by rw [htx]; rfl
    refine ⟨by rw [call_send_none htx, hempty]; rfl, ?_⟩
    rw [Endpoint.call, hsend, send_none_world]
    exact h
  · have hwf : ∀ packet ∈ payloadPackets (buffer.take size), packet.WF := map_sentPacket_wf _
    have hsend : st.txHandler.map (fun h => (code h).recorded) = some (code handler).recorded := by
      rw [htx]; rfl
    obtain ⟨hret, hworld⟩ :=
      @send_tx _ (code handler).recorded buffer size (st.world, ([] : List TxCall))
    rw [send_packets hsize, ← payloadPackets_take hle hsize, recorded_run_eq _ hwf, h.world]
      at hret hworld
    rw [List.all_map] at hret
    rw [List.nil_append] at hworld
    rw [Endpoint.call, hsend, h.world]
    dsimp only
    rw [hret, hworld]
    exact ⟨rfl, ⟨h.rxHandler, h.registry, h.held⟩, htx, rfl, h.staging⟩

/-! ## Runs -/

/-- **`process` stores the packet that it decodes**, and writes inside its buffers. -/
theorem process_implements {st : Endpoint σ} {l : Library σ} (h : Implements st l)
    (c : ProcessCall) (hfits : l.Fits (st.meaning (.receiver (.process c)))) :
    let r := st.call code (.receiver (.process c))
    let o := l.step code (st.meaning (.receiver (.process c)))
    (r.1.outcome = o.1 ∧ r.1.InBounds) ∧ Implements r.2 o.2 := by
  obtain ⟨hstaging, hin⟩ := step_inv h.staging c
  have hevents := handovers_storeEvents [(st.toReceiver.step c).1]
  have hcopies := copyInBounds_storeEvents [(st.toReceiver.step c).1]
  rw [List.flatMap_singleton] at hevents
  rw [List.forall_mem_singleton] at hcopies
  dsimp only
  rw [Endpoint.meaning, Receiver.meaning] at hfits ⊢
  rcases hd : st.toReceiver.decodedPacket c with _ | packet <;> rw [hd] at hfits
  · obtain ⟨hnone, hstore⟩ := step_not_decodes fun packet hp => by
      rw [decodes_iff, hd] at hp
      cases hp
    rw [hnone] at hevents hcopies
    have hret := step_returned hd
    have hstores : Stores (st.toReceiver.step c).2.toPacketStore l := by
      rw [hstore]
      exact h.toStores
    refine ⟨⟨?_, fun e he => ⟨hin e he, hcopies.2 (fun _ hm => absurd hm List.not_mem_nil) e he⟩⟩,
      ⟨hstores, h.txHandler, h.world, hstaging⟩⟩
    change Outcome.mk (some (st.toReceiver.step c).1.1) [] (handovers (st.toReceiver.step c).1.2) =
      Outcome.mk (some (st.toReceiver.keeps c)) [] []
    rw [hret, ← hevents]
    rfl
  · obtain ⟨hret, hstored, hstore⟩ := step_decodes (decodes_iff.2 hd)
    obtain ⟨hout, hstores, htx, hworld⟩ :=
      @storePacket_implements σ code _ _ h.toStores packet hfits
    rw [hstored] at hevents hcopies
    rw [← hstore] at hstores
    refine ⟨⟨?_, fun e he => ⟨hin e he, hcopies.2 ?_ e he⟩⟩,
      ⟨hstores, h.txHandler.trans htx.symm, h.world.trans hworld.symm, hstaging⟩⟩
    · rw [Option.elim_some, hout, ← hret, hevents]
      rfl
    · exact (storePacket_copyInBounds h.held.offset packet).2 hfits

/-- **A call does what the library does.** -/
theorem call_implements (st : Endpoint σ) (l : Library σ) (c : EndpointCall)
    (h : Implements st l) (hmet : CallMet st c) (hfits : l.Fits (st.meaning c)) :
    let r := st.call code c
    let o := l.step code (st.meaning c)
    (r.1.outcome = o.1 ∧ r.1.InBounds) ∧ Implements r.2 o.2 := by
  have hsilent : ∀ returned txCalls, (⟨returned, txCalls, []⟩ : CallResult).InBounds :=
    fun _ _ _ hm => absurd hm List.not_mem_nil
  cases c with
  | registerTxHandler handler =>
    exact ⟨⟨rfl, hsilent _ _⟩, ⟨h.rxHandler, h.registry, h.held⟩, rfl, h.world, h.staging⟩
  | clearHandlers =>
    exact ⟨⟨rfl, hsilent _ _⟩, ⟨h.rxHandler, h.registry, h.held⟩, rfl, h.world, h.staging⟩
  | send buffer size =>
    obtain ⟨hout, himpl⟩ := @send_implements σ code _ _ h _ _ hmet
    exact ⟨⟨hout, hsilent _ _⟩, himpl⟩
  | receiver c =>
    cases c with
    | process c => exact process_implements h c hfits
    | resetRxBuffer =>
      have hstaging : StagingInv st.toReceiver.resetRxBuffer := by
        rw [resetRxBuffer_eq hmet]
        exact stagingInv_restarted _
      exact ⟨⟨rfl, hsilent _ _⟩, h.toStores, h.txHandler, h.world, hstaging⟩
    | resetPacketBuffer =>
      exact ⟨⟨rfl, hsilent _ _⟩, ⟨h.rxHandler, h.registry, reset_holds _⟩, h.txHandler, h.world,
        h.staging.1, h.staging.2⟩
    | registerRxHandler handler =>
      exact ⟨⟨rfl, hsilent _ _⟩, ⟨rfl, h.registry, h.held.offset, h.held.bytes⟩, h.txHandler,
        h.world, h.staging.1, h.staging.2⟩
    | addHandler type callback =>
      cases type with
      | none => exact absurd rfl hmet
      | some type =>
        obtain ⟨hret, hreg⟩ := h.registry.call (.addHandler type callback)
        refine ⟨⟨?_, hsilent _ _⟩, ⟨h.rxHandler, hreg, h.held.offset, h.held.bytes⟩,
          h.txHandler, h.world, h.staging.1, h.staging.2⟩
        exact congrArg (Outcome.mk · [] []) hret
    | clearHandlers =>
      exact ⟨⟨rfl, hsilent _ _⟩, ⟨h.rxHandler, Registry.refines_empty, h.held.offset,
        h.held.bytes⟩, h.txHandler, h.world, h.staging.1, h.staging.2⟩

/-- The actions that the calls are. -/
def Endpoint.meanings (code : FnPtr → TxHandler σ) (st : Endpoint σ) (calls : List EndpointCall) :
    List Action :=
  Machine.meanings (Endpoint.call code) Endpoint.meaning st calls

theorem implements_init (world : σ) : Implements (Endpoint.init world) (.init world) :=
  ⟨⟨rfl, Registry.refines_empty, heldBy_init none .empty⟩, rfl, rfl,
    stagingInv_init none .empty⟩

/-- The runs that `Library` describes: the calls are made as they are meant to be, and no message
    is longer than `packet_buffer`. -/
structure RunMet (code : FnPtr → TxHandler σ) (world : σ) (calls : List EndpointCall) : Prop where
  met : Machine.Along (Endpoint.call code) CallMet (.init world) calls
  fits : Machine.Along (Library.step code) Library.Fits (.init world)
    (Endpoint.meanings code (.init world) calls)

theorem RunMet.refines {world : σ} {calls : List EndpointCall} (h : RunMet code world calls) :
    let r := Machine.run (Endpoint.call code) (.init world) calls
    let t := Machine.run (Library.step code) (.init world)
      (Endpoint.meanings code (.init world) calls)
    List.Forall₂ (fun result outcome => result.outcome = outcome ∧ result.InBounds) r.1 t.1 ∧
      Implements r.2 t.2 :=
  Machine.run_refines call_implements (implements_init world) h.met h.fits

/-- So are all calls but the last. -/
theorem RunMet.init {world : σ} {calls : List EndpointCall} {c : EndpointCall}
    (h : RunMet code world (calls ++ [c])) : RunMet code world calls := by
  obtain ⟨hmet, hfits⟩ := h
  rw [Endpoint.meanings, Machine.meanings_append, Machine.along_append] at hfits
  rw [Machine.along_append] at hmet
  exact ⟨hmet.1, hfits.1⟩

/-- **Every run of the library**: in any calls, on any bytes, each call returns, transmits and
    hands on what `Library` does, the static variables hold its state, and no copy leaves its
    buffer. -/
theorem run_implements (code : FnPtr → TxHandler σ) (world : σ) {calls : List EndpointCall}
    (h : RunMet code world calls) :
    let r := Machine.run (Endpoint.call code) (.init world) calls
    let t := Machine.run (Library.step code) (.init world)
      (Endpoint.meanings code (.init world) calls)
    r.1.map CallResult.outcome = t.1 ∧ Implements r.2 t.2 ∧ ∀ result ∈ r.1, result.InBounds := by
  obtain ⟨hsteps, himpl⟩ := h.refines
  refine ⟨?_, himpl, Machine.forall₂_left (fun _ _ hr => hr.2) hsteps⟩
  rw [← List.forall₂_eq_eq_eq, List.forall₂_map_left_iff]
  exact hsteps.imp fun _ _ hr => hr.1

end

/-- Handlers of all kinds, a payload of two packets, and a message. -/
def registerAndDeliver : List EndpointCall :=
  [.receiver (.addHandler (some .timeMsg) 3), .receiver (.registerRxHandler (some 5)),
    .registerTxHandler (some 7), .send fullPayload 20, deliver]

theorem registerAndDeliver_met :
    RunMet (fun _ _ world => (true, world)) () registerAndDeliver :=
  ⟨by decide +kernel, by decide +kernel⟩

theorem run_implements_registerAndDeliver :
    let code : FnPtr → TxHandler Unit := fun _ _ world => (true, world)
    let r := Machine.run (Endpoint.call code) (.init ()) registerAndDeliver
    let t := Machine.run (Library.step code) (.init ())
      (Endpoint.meanings code (.init ()) registerAndDeliver)
    r.1.map CallResult.outcome = t.1 ∧ Implements r.2 t.2 ∧ ∀ result ∈ r.1, result.InBounds :=
  run_implements _ () registerAndDeliver_met

/-! ## Registrations -/

section
variable {σ : Type} {code : FnPtr → TxHandler σ}

/-- What is found after `add_handler` was there before, or is what it has added. -/
theorem addHandler_lookup {reg : Registry} {m : HandlerMap} (h : reg.Refines m)
    {type type' : FieldsPtr} {callback callback' : FnPtr}
    (hl : (reg.addHandler (some type') callback').2.lookup (some type) = some callback) :
    reg.lookup (some type) = some callback ∨
      type' = type ∧ callback' = callback ∧ (reg.addHandler (some type') callback').1 = true := by
  by_cases hnew : type' ∉ m ∧ m.keys.card < protobuffMaxHandlers
  · obtain ⟨hret, hreg⟩ := h.addHandler_new callback' hnew.1 hnew.2
    rw [hreg.lookup_eq] at hl
    by_cases ht : type' = type
    · subst ht
      rw [Finmap.lookup_insert, Option.some_inj] at hl
      exact Or.inr ⟨rfl, hl, hret⟩
    · rw [Finmap.lookup_insert_of_ne _ (Ne.symm ht), ← h.lookup_eq] at hl
      exact Or.inl hl
  · rw [h.addHandler_refused callback' hnew] at hl
    exact Or.inl hl

theorem lookup_empty (type : FieldsPtr) : Registry.empty.lookup (some type) = none := by
  rw [Registry.refines_empty.lookup_eq, Finmap.lookup_empty]

/-- The message handlers after a call. -/
theorem call_registry (st : Endpoint σ) (c : EndpointCall) :
    (st.call code c).2.registry =
      match c with
      | .receiver (.addHandler type callback) => (st.registry.addHandler type callback).2
      | .receiver .clearHandlers => .empty
      | _ => st.registry := by
  cases c with
  | receiver c =>
    cases c with
    | process c =>
      rcases step_store_cases st.toReceiver c with ⟨packet, -, hst⟩ | ⟨-, hst⟩
      · exact (congrArg (·.registry) hst).trans (storePacket_registry _ _)
      · exact congrArg (·.registry) hst
    | _ => rfl
  | _ => rfl

theorem call_refines (st : Endpoint σ) (c : EndpointCall) (h : ∃ m, st.registry.Refines m)
    (hmet : CallMet st c) : ∃ m, (st.call code c).2.registry.Refines m := by
  obtain ⟨m, hm⟩ := h
  rw [call_registry]
  split
  · next type callback =>
    cases type with
    | none => exact absurd rfl hmet
    | some type => exact ⟨_, (hm.call (.addHandler type callback)).2⟩
  · exact ⟨∅, Registry.refines_empty⟩
  · exact ⟨m, hm⟩

/-- **A handler that is found has been added**, and none have been cleared since. -/
theorem lookup_added (world : σ) {calls : List EndpointCall}
    (hmet : Machine.Along (Endpoint.call code) CallMet (.init world) calls) {type : FieldsPtr}
    {callback : FnPtr}
    (h : (Machine.run (Endpoint.call code) (.init world) calls).2.registry.lookup (some type) =
      some callback) :
    ∃ before after, calls = before ++ .receiver (.addHandler (some type) callback) :: after ∧
      ((Machine.run (Endpoint.call code) (.init world) before).2.registry.addHandler (some type)
        callback).1 = true ∧ .receiver .clearHandlers ∉ after := by
  have hstep : ∀ (st : Endpoint σ) c, (∃ m, st.registry.Refines m) → CallMet st c →
      (st.call code c).2.registry.lookup (some type) = some callback →
      st.registry.lookup (some type) = some callback ∧ c ≠ .receiver .clearHandlers ∨
        c = .receiver (.addHandler (some type) callback) ∧
          (st.registry.addHandler (some type) callback).1 = true := by
    rintro st c ⟨m, hm⟩ hmet hl
    rw [call_registry] at hl
    split at hl
    · next type' callback' =>
      cases type' with
      | none => exact absurd rfl hmet
      | some type' =>
        rcases addHandler_lookup hm hl with hl | ⟨rfl, rfl, hadded⟩
        · exact Or.inl ⟨hl, by simp⟩
        · exact Or.inr ⟨rfl, hadded⟩
    · rw [lookup_empty] at hl
      cases hl
    · next hno => exact Or.inl ⟨hl, fun hc => hno hc⟩
  have hinit : (Endpoint.init world).registry.lookup (some type) ≠ some callback := by
    rw [show (Endpoint.init world).registry = .empty from rfl, lookup_empty]
    exact nofun
  obtain ⟨before, _, after, hcalls, ⟨rfl, hadded⟩, hafter⟩ :=
    Machine.exists_last (P := fun st : Endpoint σ => st.registry.lookup (some type) = some callback)
      call_refines hstep ⟨∅, Registry.refines_empty⟩ hinit hmet h
  exact ⟨before, after, hcalls, hadded, fun hm => hafter _ hm rfl⟩

/-- An `rx_handler` that is there is the one registered last. -/
theorem rxHandler_registered (world : σ) {calls : List EndpointCall} {handler : FnPtr}
    (h : (Machine.run (Endpoint.call code) (.init world) calls).2.rxHandler = some handler) :
    ∃ before after, calls = before ++ .receiver (.registerRxHandler (some handler)) :: after ∧
      ∀ handler', .receiver (.registerRxHandler handler') ∉ after := by
  have hstep : ∀ (st : Endpoint σ) c, True → True → (st.call code c).2.rxHandler = some handler →
      st.rxHandler = some handler ∧ (∀ handler', c ≠ .receiver (.registerRxHandler handler')) ∨
        c = .receiver (.registerRxHandler (some handler)) := by
    intro st c _ _ hh
    by_cases hc : ∃ handler', c = .receiver (.registerRxHandler handler')
    · obtain ⟨handler', rfl⟩ := hc
      exact Or.inr (by rw [show handler' = some handler from hh])
    · rw [call_rxHandler (not_exists.1 hc)] at hh
      exact Or.inl ⟨hh, not_exists.1 hc⟩
  obtain ⟨before, _, after, hcalls, rfl, hafter⟩ :=
    Machine.exists_last (P := fun st : Endpoint σ => st.rxHandler = some handler)
      (fun _ _ _ _ => trivial) hstep trivial (fun hinit => by cases hinit)
      (Machine.along_of _ fun _ _ => trivial) h
  exact ⟨before, after, hcalls, fun handler' hm => hafter _ hm handler' rfl⟩

/-- A `tx_handler` that is there is the one registered last. -/
theorem txHandler_registered (world : σ) {calls : List EndpointCall} {handler : FnPtr}
    (h : (Machine.run (Endpoint.call code) (.init world) calls).2.txHandler = some handler) :
    ∃ before after, calls = before ++ .registerTxHandler (some handler) :: after ∧
      .clearHandlers ∉ after ∧ ∀ handler', .registerTxHandler handler' ∉ after := by
  have hstep : ∀ (st : Endpoint σ) c, True → True → (st.call code c).2.txHandler = some handler →
      st.txHandler = some handler ∧
          (c ≠ .clearHandlers ∧ ∀ handler', c ≠ .registerTxHandler handler') ∨
        c = .registerTxHandler (some handler) := by
    intro st c _ _ hh
    cases c with
    | registerTxHandler handler' => exact Or.inr (by rw [show handler' = some handler from hh])
    | clearHandlers => cases hh
    | send buffer size => exact Or.inl ⟨hh, by simp⟩
    | receiver c => exact Or.inl ⟨hh, by simp⟩
  obtain ⟨before, _, after, hcalls, rfl, hafter⟩ :=
    Machine.exists_last (P := fun st : Endpoint σ => st.txHandler = some handler)
      (fun _ _ _ _ => trivial) hstep trivial (fun hinit => by cases hinit)
      (Machine.along_of _ fun _ _ => trivial) h
  exact ⟨before, after, hcalls, fun hm => (hafter _ hm).1 rfl,
    fun handler' hm => (hafter _ hm).2 handler' rfl⟩

/-- What a call hands on goes to the handlers that it finds. -/
theorem call_handovers (st : Endpoint σ) (c : EndpointCall) {m : HandlerMap}
    (hm : st.registry.Refines m) {o : Handover} (ho : o ∈ handovers (st.call code c).1.events) :
    ∃ buffer, o ∈ Library.handOn st.rxHandler m buffer := by
  rcases c with handler | _ | ⟨buffer, size⟩ | c
  iterate 3 exact absurd ho List.not_mem_nil
  cases c with
  | process c =>
    have hevents := handovers_storeEvents [(st.toReceiver.step c).1]
    rw [List.flatMap_singleton] at hevents
    change o ∈ handovers (st.toReceiver.step c).1.2 at ho
    rw [← hevents] at ho
    rcases step_store_cases st.toReceiver c with ⟨packet, hstored, -⟩ | ⟨hnone, -⟩
    · rw [hstored] at ho
      cases hl : packet.isLast with
      | false =>
        rw [storePacket_notLast _ hl] at ho
        exact absurd ho List.not_mem_nil
      | true =>
        rw [(storePacket_handOn hm hl).2] at ho
        exact ⟨_, ho⟩
    · rw [hnone] at ho
      exact absurd ho List.not_mem_nil
  | _ => exact absurd ho List.not_mem_nil

theorem mem_dispatch {m : HandlerMap} {buffer : List UInt8} {call : Call}
    (h : call ∈ m.dispatch buffer) :
    ∃ type, call.type = some type ∧ m.lookup type = some call.callback := by
  rw [HandlerMap.dispatch, Option.mem_toList, Option.bind_eq_some_iff] at h
  obtain ⟨r, -, h⟩ := h
  obtain ⟨type, -, h⟩ := Option.bind_eq_some_iff.1 h
  obtain ⟨callback, hl, rfl⟩ := Option.map_eq_some_iff.1 h
  exact ⟨type, rfl, hl⟩

theorem mem_handOn_rxHandler {rxHandler : Option FnPtr} {m : HandlerMap} {buffer data : List UInt8}
    {handler : FnPtr} (h : .rxHandler handler data ∈ Library.handOn rxHandler m buffer) :
    rxHandler = some handler := by
  cases rxHandler with
  | none =>
    obtain ⟨_, -, hcall⟩ := List.mem_map.1 h
    cases hcall
  | some handler' =>
    cases List.mem_singleton.1 h
    rfl

theorem mem_handOn_message {rxHandler : Option FnPtr} {m : HandlerMap} {buffer : List UInt8}
    {call : Call} (h : .message call ∈ Library.handOn rxHandler m buffer) :
    rxHandler = none ∧ call ∈ m.dispatch buffer := by
  cases rxHandler with
  | none =>
    obtain ⟨_, hm, hcall⟩ := List.mem_map.1 h
    cases hcall
    exact ⟨rfl, hm⟩
  | some handler' => cases List.mem_singleton.1 h

/-- **Whatever is called has been registered**, and not been replaced or cleared since: in any
    calls, on any bytes, as long as the messages fit and the calls are made as they are meant to
    be. -/
theorem called_registered (code : FnPtr → TxHandler σ) (world : σ) {calls : List EndpointCall}
    {c : EndpointCall} (h : RunMet code world (calls ++ [c])) :
    let run := Machine.run (Endpoint.call code) (.init world)
    let r := ((run calls).2.call code c).1
    (∀ call, .message call ∈ handovers r.events → ∃ type before after, call.type = some type ∧
      calls = before ++ .receiver (.addHandler (some type) call.callback) :: after ∧
      ((run before).2.registry.addHandler (some type) call.callback).1 = true ∧
      .receiver .clearHandlers ∉ after) ∧
    (∀ handler buffer, .rxHandler handler buffer ∈ handovers r.events → ∃ before after,
      calls = before ++ .receiver (.registerRxHandler (some handler)) :: after ∧
      ∀ handler', .receiver (.registerRxHandler handler') ∉ after) ∧
    (r.txCalls ≠ [] → ∃ handler before after,
      calls = before ++ .registerTxHandler (some handler) :: after ∧ .clearHandlers ∉ after ∧
      ∀ handler', .registerTxHandler handler' ∉ after) := by
  intro run r
  have hinit := h.init
  have hm := hinit.refines.2.registry
  refine ⟨fun call hcall => ?_, fun handler buffer hhandler => ?_, fun htx => ?_⟩
  · obtain ⟨buffer, ho⟩ := call_handovers _ c hm hcall
    obtain ⟨type, htype, hl⟩ := mem_dispatch (mem_handOn_message ho).2
    rw [← hm.lookup_eq] at hl
    obtain ⟨before, after, hcalls, hadded, hafter⟩ := lookup_added world hinit.met hl
    exact ⟨type, before, after, htype, hcalls, hadded, hafter⟩
  · obtain ⟨_, ho⟩ := call_handovers _ c hm hhandler
    exact rxHandler_registered world (mem_handOn_rxHandler ho)
  · rcases htxh : (run calls).2.txHandler with _ | handler
    · refine absurd ?_ htx
      cases c with
      | send buffer size => exact congrArg (·.txCalls) (call_send_none htxh buffer size)
      | _ => rfl
    · exact ⟨handler, txHandler_registered world htxh⟩

end

theorem called_registered_registerAndDeliver :
    let run := Machine.run (Endpoint.call fun _ _ world => (true, world)) (.init ())
    let r := ((run registerAndDeliver).2.call (fun _ _ world => (true, world)) deliver).1
    ∀ handler buffer, .rxHandler handler buffer ∈ handovers r.events → ∃ before after,
      registerAndDeliver = before ++ .receiver (.registerRxHandler (some handler)) :: after ∧
      ∀ handler', .receiver (.registerRxHandler handler') ∉ after :=
  (called_registered (fun _ _ world => (true, world)) ()
    ⟨by decide +kernel, by decide +kernel⟩).2.1

end PacketSerial
