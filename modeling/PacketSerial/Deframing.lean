/-
  What `process` makes of a message that has come in, whatever bytes it has.

  `decoded_data_array` is as long as the staged message, and `cobs_decode` writes one
  byte less; the parser is given all of it.

  * `dst_decodeStaged`: the array: the bytes decoded, and one byte that was there before;
  * `packetOf_append`: the parser gets to that byte where the length in front of the
    packet counts it in;
  * `observed_process`: so the message is received from these bytes;
  * `onlyReceivedBytes_iff`: when that byte makes no difference;
  * `illFormedRejected_iff`: the status of `cobs_decode` is not looked at; when a message
    that is not well formed is rejected all the same.
-/
import PacketSerial.Staging

namespace PacketSerial

/-! ## Packets in decoded bytes -/

/-- The packet that `explicit_unmarshal` finds with `packet_parser`, if there is one. -/
def packetOf (stream : PbIstream) : Option Packet :=
  (pbMakeStringSubstream stream).1.bind fun substream =>
    pbDecode Packet.fields substream Packet.initZero

/-- What `packet_parser` does when it has decoded a packet, or failed to. -/
def PacketStore.receive (st : PacketStore) : Option Packet → (Bool × List Event) × PacketStore
  | some packet => st.storePacket packet
  | none => ((false, []), st)

/-- A packet has bytes. -/
theorem pbDecode_packet_nil : pbDecode Packet.fields [] Packet.initZero = none := by decide

/-- **The last byte is read where the length counts it in**, and nothing else can tell
    what it is. -/
theorem packetOf_append (out : List UInt8) (j : UInt8) :
    packetOf (out ++ [j]) =
      match pbDecodeVarint32 out with
      | (none, _) => none
      | (some size, w) =>
        if size ≤ w.length then pbDecode Packet.fields (w.take size) Packet.initZero
        else if size = w.length + 1 then pbDecode Packet.fields (w ++ [j]) Packet.initZero
        else none := by
  rw [packetOf, pbMakeStringSubstream]
  rcases hout : pbDecodeVarint32 out with ⟨_ | size, w⟩
  · -- the length takes the last byte, so that nothing is left for the packet
    rcases hlast : pbDecodeVarint32 (out ++ [j]) with ⟨_ | size, rest⟩
    · rfl
    · obtain rfl := pbDecodeVarint32_last (by rw [hout]) hlast
      simp only [pbRead, List.length_nil]
      split_ifs with hsize
      · rfl
      · rw [List.take_nil]
        exact pbDecode_packet_nil
  · rw [pbDecodeVarint32_append hout]
    simp only [pbRead, List.length_append, List.length_singleton]
    rcases Nat.lt_trichotomy size (w.length + 1) with hsize | hsize | hsize
    · rw [if_neg (by omega), if_pos (by omega),
        List.take_append_of_le_length (by omega)]
      rfl
    · rw [if_neg (by omega), if_neg (by omega), if_pos hsize, hsize,
        List.take_of_length_le (by simp)]
      rfl
    · rw [if_pos (by omega), if_neg (by omega), if_neg (by omega)]
      rfl

namespace Receiver

/-! ## Decoding -/

/-- The packet that `packet_parser` decodes from the staging buffer. -/
def parsedPacket (st : Receiver) (stack : ℕ → UInt8) : Option Packet :=
  unmarshalWith (st.decodeStaged stack).dst st.rxBuffer.strlen true none fun stream =>
    pbDecode Packet.fields stream Packet.initZero

theorem parsedPacket_packetOf (st : Receiver) (stack : ℕ → UInt8) :
    st.parsedPacket stack = packetOf ((st.decodeStaged stack).dst.take st.rxBuffer.strlen) := by
  rw [parsedPacket, unmarshalWith_eq, messageOf, if_pos rfl, packetOf]
  cases (pbMakeStringSubstream ((st.decodeStaged stack).dst.take st.rxBuffer.strlen)).1 <;> rfl

theorem parseStaged_eq (st : Receiver) (stack : ℕ → UInt8) :
    st.parseStaged stack = st.receive (st.parsedPacket stack) := by
  rw [parseStaged, parsedPacket, unmarshalWith_eq, unmarshalWith_eq]
  rcases messageOf (st.decodeStaged stack).dst st.rxBuffer.strlen true with _ | substream
  · rfl
  · rw [Option.elim_some, Option.elim_some, PacketStore.packetParser]
    rcases pbDecode Packet.fields substream Packet.initZero with _ | packet <;> rfl

/-- The message in the staging buffer. -/
def staged (st : Receiver) : List UInt8 := cstr st.rxBuffer.bytes

/-- What `cobs_decode` writes for it. -/
def decoded (st : Receiver) : List UInt8 := Stuffing.unstuff st.staged

theorem length_staged (st : Receiver) : st.staged.length ≤ 254 := by
  have := (cstr_length_le st.rxBuffer.bytes).trans st.rxBuffer.length_bytes.le
  simp only [rxBufferSize, Packet.size] at this
  rw [staged]; omega

theorem length_decoded_le (st : Receiver) : st.decoded.length ≤ st.staged.length - 1 := by
  by_cases h : st.staged = []
  · rw [decoded, h, Stuffing.unstuff]
    exact Nat.zero_le _
  · have hlen := Stuffing.length_unstuff h st.length_staged
    rw [decoded]
    omega

theorem decodeStaged_eq (st : Receiver) (stack : ℕ → UInt8) :
    st.decodeStaged stack = cobsDecode (decodedDataArray stack st.staged.length) st.staged := by
  rw [decodeStaged, Buffer.strlen, take_cstr_length, staged]

theorem length_decodedDataArray (stack : ℕ → UInt8) (n : ℕ) :
    (decodedDataArray stack n).length = n := by
  rw [decodedDataArray, List.length_map, List.length_range]

/-- **The array after `cobs_decode`**: all of it but the last byte is written. -/
theorem dst_decodeStaged {st : Receiver} (stack : ℕ → UInt8) (h : st.staged ≠ []) :
    (st.decodeStaged stack).dst = st.decoded ++ [stack st.decoded.length] := by
  have hlen := Stuffing.length_unstuff h st.length_staged
  obtain ⟨-, hdst, -⟩ := @cobsDecode_eq (decodedDataArray stack st.staged.length) st.staged
    (length_decodedDataArray _ _) (zero_notMem_cstr _)
  have hdrop : (decodedDataArray stack st.staged.length).drop st.decoded.length =
      [stack st.decoded.length] := by
    rw [decodedDataArray, ← hlen, List.range_succ, List.map_append,
      List.drop_append_of_le_length (by simp [decoded]), List.drop_of_length_le (by simp [decoded])]
    rfl
  rw [decodeStaged_eq, hdst, ← decoded, hdrop]

/-- **The status of `cobs_decode`** is `COBS_DECODE_OK` exactly for the stuffed forms, and
    for no bytes. -/
theorem decodeStaged_ok_iff (st : Receiver) (stack : ℕ → UInt8) :
    (st.decodeStaged stack).ok = true ↔ st.staged = [] ∨ ∃ x, st.staged = Stuffing.stuff x := by
  obtain ⟨-, -, hok⟩ := @cobsDecode_eq (decodedDataArray stack st.staged.length) st.staged
    (length_decodedDataArray _ _) (zero_notMem_cstr _)
  rw [decodeStaged_eq, hok]
  by_cases h : st.staged = []
  · rw [h]
    exact iff_of_true Stuffing.complete_nil (Or.inl rfl)
  · rw [or_iff_right h]
    exact Stuffing.complete_iff h (zero_notMem_cstr _) st.length_staged

/-- **What the parser gets**: the bytes decoded, and a byte that was there before. -/
theorem parsedPacket_eq (st : Receiver) (stack : ℕ → UInt8) :
    st.parsedPacket stack = packetOf (st.decoded ++ [stack st.decoded.length]) := by
  rw [parsedPacket_packetOf]
  by_cases h : st.staged = []
  · -- without a message there is no array
    have hstr : st.rxBuffer.strlen = 0 := by rw [Buffer.strlen, ← staged, h]; rfl
    have hdec : st.decoded = [] := by rw [decoded, h, Stuffing.unstuff]
    rw [hstr, List.take_zero, hdec, packetOf_append]
    rfl
  · have hlen := Stuffing.length_unstuff h st.length_staged
    rw [dst_decodeStaged stack h, List.take_of_length_le]
    rw [List.length_append, List.length_singleton, decoded, hlen]
    exact le_rfl

/-- The receiver after a message, accepted or not. -/
def afterMessage (st : Receiver) (accepted : Bool) (store : PacketStore) : Receiver :=
  let st' := { st with toPacketStore := store }
  { (if accepted then st'.resetRxBuffer else st') with pRxBuffer := 0 }

@[simp] theorem toPacketStore_afterMessage (st : Receiver) (accepted : Bool)
    (store : PacketStore) : (st.afterMessage accepted store).toPacketStore = store := by
  cases accepted <;> rfl

end Receiver

/-! ## What can be observed -/

/-- The call of a handler. -/
def Event.isHandlerCall : Event → Bool
  | .rxHandler .. | .call .. => true
  | _ => false

/-- What can be told of a call: the value returned, the handlers called, the state left. -/
def observed {σ : Type} (r : (Bool × List Event) × σ) : Bool × List Event × σ :=
  (r.1.1, r.1.2.filter (·.isHandlerCall), r.2)

namespace PacketStore

/-- `unmarshal`, with the data of the packet appended. -/
def dispatch (st : PacketStore) (packet : Packet) : Bool × List Call :=
  PacketSerial.unmarshal st.registry (st.append packet).packetBuffer.bytes packetBufferSize true

/-- The packet is a last one, no handler takes the message, and nothing was there to be
    cleared afterwards. -/
def Refuses (st : PacketStore) (packet : Packet) : Prop :=
  packet.isLast = true ∧ st.rxHandler = none ∧ st.dispatch packet = (false, []) ∧
    st.packetBuffer = .zero packetBufferSize ∧ st.packetBufferOffset = 0

/-- Two results of the decoder that `packet_parser` makes no difference between. -/
def SameEffect (st : PacketStore) : Option Packet → Option Packet → Prop
  | none, none => True
  | none, some packet => st.Refuses packet
  | some packet, none => st.Refuses packet
  | some packet, some packet' =>
    packet.isLast = packet'.isLast ∧
      if packet.isLast then
        match st.rxHandler with
        | some _ => (st.append packet).packetBuffer = (st.append packet').packetBuffer
        | none => st.dispatch packet = st.dispatch packet'
      else st.append packet = st.append packet'

theorem resetPacketBuffer_eq_self {st : PacketStore} :
    st.resetPacketBuffer = st ↔
      st.packetBuffer = .zero packetBufferSize ∧ st.packetBufferOffset = 0 := by
  obtain ⟨buffer, offset, handler, registry⟩ := st
  simp only [resetPacketBuffer, mk.injEq, and_true]
  tauto

theorem observed_none (st : PacketStore) : observed (st.receive none) = (false, [], st) := rfl

theorem observed_notLast (st : PacketStore) {packet : Packet} (h : packet.isLast = false) :
    observed (st.receive (some packet)) = (true, [], st.append packet) := by
  rw [receive, storePacket_notLast st h]
  rfl

theorem observed_rx {st : PacketStore} {packet : Packet} {handler : FnPtr}
    (h : packet.isLast = true) (hh : st.rxHandler = some handler) :
    observed (st.receive (some packet)) =
      (true, [.rxHandler handler (st.append packet).packetBuffer], st.resetPacketBuffer) := by
  rw [receive, storePacket_rx h hh]
  rfl

theorem observed_union {st : PacketStore} {packet : Packet} (h : packet.isLast = true)
    (hh : st.rxHandler = none) :
    observed (st.receive (some packet)) =
      ((st.dispatch packet).1, (st.dispatch packet).2.map .call, st.resetPacketBuffer) := by
  rw [receive, storePacket_union h hh]
  have hcalls : ∀ calls : List Call,
      (calls.map Event.call).filter (·.isHandlerCall) = calls.map .call := by
    intro calls
    rw [List.filter_eq_self]
    rintro e he
    obtain ⟨c, -, rfl⟩ := List.mem_map.1 he
    rfl
  exact Prod.ext rfl (Prod.ext (hcalls _) rfl)

/-- `unmarshal` calls one handler, or returns false. -/
theorem dispatch_cases (st : PacketStore) (packet : Packet) :
    st.dispatch packet = (false, []) ∨ ∃ call, st.dispatch packet = (true, [call]) := by
  rw [dispatch, PacketSerial.unmarshal, unmarshalWith_eq]
  rcases messageOf (st.append packet).packetBuffer.bytes packetBufferSize true with _ | msg
  · exact Or.inl rfl
  · rw [Option.elim_some, unmarshalLookupCallback]
    split
    · exact Or.inr ⟨_, rfl⟩
    · exact Or.inl rfl

/-- **A packet that leaves no trace** is refused. -/
theorem refuses_iff (st : PacketStore) (packet : Packet) :
    observed (st.receive (some packet)) = (false, [], st) ↔ st.Refuses packet := by
  cases hl : packet.isLast with
  | false => simp [observed_notLast st hl, Refuses, hl]
  | true =>
    rcases hh : st.rxHandler with _ | handler
    · rw [observed_union hl hh, Refuses, ← resetPacketBuffer_eq_self]
      rcases st.dispatch_cases packet with h | ⟨call, h⟩ <;> simp [h, hl, hh]
    · simp [observed_rx hl hh, Refuses, hh]

/-- **`SameEffect` is what can be observed.** -/
theorem observed_receive_iff (st : PacketStore) (r r' : Option Packet) :
    observed (st.receive r) = observed (st.receive r') ↔ st.SameEffect r r' := by
  rcases r with _ | packet <;> rcases r' with _ | packet'
  · simp [SameEffect]
  · rw [observed_none, eq_comm, refuses_iff]
    rfl
  · rw [observed_none, refuses_iff]
    rfl
  · rw [SameEffect]
    cases hl : packet.isLast <;> cases hl' : packet'.isLast
    · simp [observed_notLast st hl, observed_notLast st hl']
    · rw [observed_notLast st hl]
      rcases hh : st.rxHandler with _ | handler
      · rw [observed_union hl' hh]
        rcases st.dispatch_cases packet' with h | ⟨call, h⟩ <;> simp [h]
      · simp [observed_rx hl' hh]
    · rw [observed_notLast st hl']
      rcases hh : st.rxHandler with _ | handler
      · rw [observed_union hl hh]
        rcases st.dispatch_cases packet with h | ⟨call, h⟩ <;> simp [h]
      · simp [observed_rx hl hh]
    · rcases hh : st.rxHandler with _ | handler
      · rw [observed_union hl hh, observed_union hl' hh]
        have hinj : Function.Injective (List.map Event.call) :=
          List.map_injective_iff.2 fun c c' h => by cases h; rfl
        simp [Prod.ext_iff, hinj.eq_iff]
      · simp [observed_rx hl hh, observed_rx hl' hh]

end PacketStore

open Receiver

/-- A call that completes a message, for which there is room. -/
theorem observed_process {st : Receiver} {body : List UInt8}
    (h : ¬ (body ++ [0]).length > st.remainingSize) (stack : ℕ → UInt8) :
    let st' := st.stage (body ++ [0])
    let r := observed (st'.receive (packetOf (st'.decoded ++ [stack st'.decoded.length])))
    observed (st.process stack (body ++ [0])) = (r.1, r.2.1, st'.afterMessage r.1 r.2.2) := by
  intro st' r
  have hlast : (body ++ [0]).getLast? = some (0 : UInt8) := by simp
  have hr : r = observed (st'.parseStaged stack) := by rw [parseStaged_eq, parsedPacket_eq]
  rw [process, if_neg h, if_pos hlast, hr]
  rfl

/-- A call for which there is no room. -/
theorem observed_process_full {st : Receiver} {body : List UInt8}
    (h : (body ++ [0]).length > st.remainingSize) (stack : ℕ → UInt8) :
    observed (st.process stack (body ++ [0])) = (false, [], st) := by
  rw [process, if_pos h]
  rfl

/-! ## The byte that is not received -/

/-- What can be told of the call does not depend on what the array held before. -/
def OnlyReceivedBytes (st : Receiver) (buffer : List UInt8) : Prop :=
  ∀ stack stack' : ℕ → UInt8,
    observed (st.process stack buffer) = observed (st.process stack' buffer)

/-- What the length counts in is decoded as a packet. -/
theorem packetOf_decoded {st : Receiver} {w : PbIstream}
    (hw : pbDecodeVarint32 st.decoded = (some (w.length + 1), w)) (j : UInt8) :
    packetOf (st.decoded ++ [j]) = pbDecode Packet.fields (w ++ [j]) Packet.initZero := by
  simp [packetOf_append, hw]

/-- The byte decides nothing where, wherever it is read, it has the same effect. -/
theorem onlyReceivedBytes_of_sameEffect {st : Receiver} {body : List UInt8}
    (h : ∀ w, pbDecodeVarint32 (st.stage (body ++ [0])).decoded = (some (w.length + 1), w) →
      ∀ j, st.SameEffect (pbDecode Packet.fields (w ++ [j]) Packet.initZero)
        (pbDecode Packet.fields (w ++ [0]) Packet.initZero)) :
    OnlyReceivedBytes st (body ++ [0]) := by
  intro stack stack'
  by_cases hfull : (body ++ [0]).length > st.remainingSize
  · rw [observed_process_full hfull, observed_process_full hfull]
  have heffect : ∀ j, observed ((st.stage (body ++ [0])).receive
        (packetOf ((st.stage (body ++ [0])).decoded ++ [j]))) =
      observed ((st.stage (body ++ [0])).receive
        (packetOf ((st.stage (body ++ [0])).decoded ++ [0]))) := by
    intro j
    rcases hout : pbDecodeVarint32 (st.stage (body ++ [0])).decoded with ⟨_ | size, w⟩
    · simp only [packetOf_append, hout]
    · by_cases hsize : size = w.length + 1
      · rw [hsize] at hout
        rw [packetOf_decoded hout, packetOf_decoded hout]
        exact (PacketStore.observed_receive_iff _ _ _).2 (h w hout j)
      · simp only [packetOf_append, hout, if_neg hsize]
  rw [observed_process hfull, observed_process hfull, heffect (stack _), heffect (stack' _)]

/-- **The array is given to the parser with one byte that nobody wrote.**  It makes no
    difference exactly where the chunk is dropped; or where the length in front of the
    packet does not count one byte more than is left, or where that byte, whatever it
    is, decides nothing about the packet that matters. -/
theorem onlyReceivedBytes_iff (st : Receiver) (body : List UInt8) :
    OnlyReceivedBytes st (body ++ [0]) ↔
      (body ++ [0]).length > st.remainingSize ∨
        ∀ w, pbDecodeVarint32 (st.stage (body ++ [0])).decoded = (some (w.length + 1), w) →
          ∀ j, st.SameEffect (pbDecode Packet.fields (w ++ [j]) Packet.initZero)
            (pbDecode Packet.fields (w ++ [0]) Packet.initZero) := by
  by_cases hfull : (body ++ [0]).length > st.remainingSize
  · refine iff_of_true (fun stack stack' => ?_) (Or.inl hfull)
    rw [observed_process_full hfull, observed_process_full hfull]
  rw [or_iff_right hfull]
  refine ⟨fun h w hw j => ?_, onlyReceivedBytes_of_sameEffect⟩
  have heq := h (fun _ => j) (fun _ => 0)
  rw [observed_process hfull, observed_process hfull, packetOf_decoded hw, packetOf_decoded hw]
    at heq
  simp only [Prod.mk.injEq] at heq
  obtain ⟨hret, hcalls, hstate⟩ := heq
  have hstore := congrArg Receiver.toPacketStore hstate
  rw [toPacketStore_afterMessage, toPacketStore_afterMessage] at hstore
  exact (PacketStore.observed_receive_iff _ _ _).1 (Prod.ext hret (Prod.ext hcalls hstore))

/-- A message whose length says ten where nine bytes follow. -/
def longPrefix : List UInt8 :=
  [0x0B, 0x0A, 0x0A, 0x01, 0x01, 0x10, 0x01, 0x18, 0x07, 0x20, 0x01]

theorem decoded_longPrefix : ((Receiver.init none .empty).stage (longPrefix ++ [0])).decoded =
    [0x0A, 0x0A, 0x01, 0x01, 0x10, 0x01, 0x18, 0x07, 0x20, 0x01] := by
  have hstaged : ((Receiver.init none .empty).stage (longPrefix ++ [0])).staged = longPrefix := by
    decide +kernel
  rw [decoded, hstaged, longPrefix, Stuffing.unstuff]
  rfl

/-- With a zero behind it, it is accepted; with another byte, it may not be. -/
theorem longPrefix_dependent :
    ¬ OnlyReceivedBytes (Receiver.init none .empty) (longPrefix ++ [0]) := by
  intro h
  have hroom : ¬ (longPrefix ++ [0]).length > (Receiver.init none .empty).remainingSize := by
    decide
  have heq := congrArg Prod.fst (h (fun _ => 0) (fun _ => 0x80))
  rw [observed_process hroom, observed_process hroom, decoded_longPrefix] at heq
  revert heq
  decide +kernel

/-! ## Messages that are not well formed -/

/-- The call has rejected its message: it returns false, calls no handler and leaves
    `packet_buffer` and `packet_buffer_offset` as they were. -/
structure Rejected (st : Receiver) (r : (Bool × List Event) × Receiver) : Prop where
  returns : r.1.1 = false
  calls : r.1.2.filter (·.isHandlerCall) = []
  buffer : r.2.packetBuffer = st.packetBuffer
  offset : r.2.packetBufferOffset = st.packetBufferOffset

/-- What a packet leaves alone. -/
theorem PacketStore.receive_static (st : PacketStore) (r : Option Packet) :
    (st.receive r).2.rxHandler = st.rxHandler ∧ (st.receive r).2.registry = st.registry := by
  rcases r with _ | packet
  · exact ⟨rfl, rfl⟩
  · rw [receive]
    rcases storePacket_cases st packet with ⟨-, h⟩ | ⟨-, handler, -, h⟩ | ⟨-, -, r, h⟩ <;>
      rw [h] <;> exact ⟨rfl, rfl⟩

/-- A message for which there is room is rejected where its packet is. -/
theorem rejected_iff {st : Receiver} {body : List UInt8}
    (h : ¬ (body ++ [0]).length > st.remainingSize) (stack : ℕ → UInt8) :
    Rejected st (st.process stack (body ++ [0])) ↔
      observed (st.toPacketStore.receive (packetOf ((st.stage (body ++ [0])).decoded ++
        [stack (st.stage (body ++ [0])).decoded.length]))) = (false, [], st.toPacketStore) := by
  obtain ⟨hhandler, hregistry⟩ := st.toPacketStore.receive_static
    (packetOf ((st.stage (body ++ [0])).decoded ++ [stack (st.stage (body ++ [0])).decoded.length]))
  set r := st.toPacketStore.receive (packetOf ((st.stage (body ++ [0])).decoded ++
    [stack (st.stage (body ++ [0])).decoded.length]))
  have hproc : observed (st.process stack (body ++ [0])) =
      ((observed r).1, (observed r).2.1,
        (st.stage (body ++ [0])).afterMessage (observed r).1 r.2) :=
    observed_process h stack
  have hret : (st.process stack (body ++ [0])).1.1 = (observed r).1 :=
    congrArg (fun o => o.1) hproc
  have hcalls : (st.process stack (body ++ [0])).1.2.filter (·.isHandlerCall) = (observed r).2.1 :=
    congrArg (fun o => o.2.1) hproc
  have hstore : (st.process stack (body ++ [0])).2.toPacketStore = r.2 := by
    rw [← toPacketStore_afterMessage (st.stage (body ++ [0])) (observed r).1 r.2]
    exact congrArg (fun o => o.2.2.toPacketStore) hproc
  constructor
  · intro hrej
    refine Prod.ext (hret ▸ hrej.returns) (Prod.ext (hcalls ▸ hrej.calls) ?_)
    have hbuf := hrej.buffer
    have hoff := hrej.offset
    rw [hstore] at hbuf hoff
    show r.2 = st.toPacketStore
    rcases hr2 : r.2 with ⟨buffer, offset, handler, registry⟩
    rw [hr2] at hbuf hoff hhandler hregistry
    rcases hs : st.toPacketStore with ⟨buffer', offset', handler', registry'⟩
    rw [hs] at hbuf hoff hhandler hregistry
    simp only at hbuf hoff hhandler hregistry
    rw [hbuf, hoff, hhandler, hregistry]
  · intro ho
    rw [ho] at hret hcalls
    have hsame : r.2 = st.toPacketStore := congrArg (fun o => o.2.2) ho
    exact ⟨hret, hcalls, by rw [hstore, hsame], by rw [hstore, hsame]⟩

/-- A call that completes a message that is not well formed rejects it. -/
def IllFormedRejected (st : Receiver) (stack : ℕ → UInt8) (buffer : List UInt8) : Prop :=
  ((st.stage buffer).decodeStaged stack).ok = false → Rejected st (st.process stack buffer)

/-- **The status of `cobs_decode` is not looked at.**  A message that is no encoding is
    rejected exactly where it is dropped; or where what was decoded of it, with the byte
    behind it, is no packet, or is one that leaves no trace. -/
theorem illFormedRejected_iff (st : Receiver) (stack : ℕ → UInt8) (body : List UInt8) :
    IllFormedRejected st stack (body ++ [0]) ↔
      ((st.stage (body ++ [0])).staged = [] ∨
          ∃ x, (st.stage (body ++ [0])).staged = Stuffing.stuff x) ∨
        (body ++ [0]).length > st.remainingSize ∨
          ∀ packet, packetOf ((st.stage (body ++ [0])).decoded ++
              [stack (st.stage (body ++ [0])).decoded.length]) = some packet →
            st.Refuses packet := by
  rw [IllFormedRejected, ← Bool.not_eq_true, decodeStaged_ok_iff, ← or_iff_not_imp_left]
  refine or_congr_right ?_
  by_cases hfull : (body ++ [0]).length > st.remainingSize
  · refine iff_of_true ?_ (Or.inl hfull)
    rw [process, if_pos hfull]
    exact ⟨rfl, rfl, rfl, rfl⟩
  rw [or_iff_right hfull, rejected_iff hfull]
  rcases packetOf ((st.stage (body ++ [0])).decoded ++
      [stack (st.stage (body ++ [0])).decoded.length]) with _ | packet
  · exact iff_of_true rfl fun packet h => by cases h
  · rw [PacketStore.refuses_iff]
    exact ⟨fun h packet' he => Option.some.inj he ▸ h, fun h => h packet rfl⟩

/-- A message whose only block says eleven bytes where ten follow. -/
def shortBlock : List UInt8 :=
  [0x0C, 0x09, 0x0A, 0x01, 0x01, 0x10, 0x01, 0x18, 0x07, 0x20, 0x01]

theorem staged_shortBlock :
    ((Receiver.init none .empty).stage (shortBlock ++ [0])).staged = shortBlock := by
  decide +kernel

theorem decodeStaged_shortBlock (stack : ℕ → UInt8) :
    (((Receiver.init none .empty).stage (shortBlock ++ [0])).decodeStaged stack).ok = false := by
  obtain ⟨-, -, hok⟩ := @cobsDecode_eq (decodedDataArray stack shortBlock.length) shortBlock
    (length_decodedDataArray _ _) (by decide)
  rw [← Bool.not_eq_true, decodeStaged_eq, staged_shortBlock, hok, shortBlock,
    Stuffing.complete_cons]
  exact fun h => absurd h.1 (by decide)

/-- It is no encoding, and is accepted. -/
theorem shortBlock_accepted :
    ¬ IllFormedRejected (Receiver.init none .empty) (fun _ => 0) (shortBlock ++ [0]) := by
  intro h
  have hrej := h (decodeStaged_shortBlock _)
  rw [rejected_iff (by decide), decoded, staged_shortBlock, shortBlock, Stuffing.unstuff] at hrej
  have hret := congrArg Prod.fst hrej
  revert hret
  decide +kernel

end PacketSerial
