/-
  Two endpoints that send union messages to each other.

  * `Mail`: a union message with one member; `Mail.payload` is what is sent of it;
  * `Mail.call`: the call that the receiver makes for it;
  * `duplex_messages`: in every run, each side calls the handlers of the messages that the
    other has sent, in order, each message once, and each that is not cut short is decoded
    as it was.
-/
import PacketSerial.Duplex

namespace PacketSerial

open Receiver

/-- A union message with one member. -/
structure Mail where
  message : UnionMessage
  member : Member
  wf : message.WF
  one : ∀ k : Member, k.has message = true ↔ k = member

namespace Mail
variable (mail : Mail)

theorem wf_member : mail.member.WF (mail.member.get mail.message) :=
  mail.wf _ ((mail.one _).2 rfl)

theorem length_delimit : 3 ≤ (delimit mail.message.wire).length ∧
    (delimit mail.message.wire).length ≤ 263 := by
  have hx := mail.member.length_wire mail.wf_member
  have hlen := @length_one mail.member _ hx
  rw [← UnionMessage.wire_of_one mail.one] at hlen
  omega

theorem marshal_eq : marshal mail.message UnionMessage.fields 300 true =
    ((delimit mail.message.wire).length, delimit mail.message.wire) := by
  have hlen := mail.length_delimit
  exact (marshal_delimited mail.wf 300).resolve_left fun h => absurd h.2 (by omega)

theorem one_le_marshal : 1 ≤ (marshal mail.message UnionMessage.fields 300 true).1 := by
  have := mail.length_delimit
  rw [marshal_eq]
  omega

theorem marshal_le : (marshal mail.message UnionMessage.fields 300 true).1 ≤ packetBufferSize := by
  have := mail.length_delimit
  rw [marshal_eq, packetBufferSize]
  omega

/-- The message, marshalled with its length in front into a buffer of 300 zeros. -/
def payload : Payload where
  buffer := ((Buffer.zero 300).memcpy 0 (marshal mail.message UnionMessage.fields 300 true).2).bytes
  size := (marshal mail.message UnionMessage.fields 300 true).1
  pos := mail.one_le_marshal
  le := mail.marshal_le
  within := by
    rw [Buffer.length_bytes]
    exact mail.marshal_le

/-- The message loses its last bytes: it is longer than one packet, and its last packet is
    empty. -/
def CutShort : Prop :=
  15 ∣ (delimit mail.message.wire).length ∧ 15 < (delimit mail.message.wire).length

theorem payload_sent : mail.payload.sent =
    (delimit mail.message.wire).take (sentSize (delimit mail.message.wire).length) := by
  have hlen := mail.length_delimit
  have hle : sentSize (delimit mail.message.wire).length ≤ (delimit mail.message.wire).length := by
    rw [sentSize_eq]; split_ifs <;> omega
  have h := (Buffer.zero 300).take_memcpy 0 (delimit mail.message.wire) (by omega)
  rw [zero_add, List.take_zero, List.nil_append] at h
  have h' := congrArg (List.take (sentSize (delimit mail.message.wire).length)) h
  rw [List.take_take, min_eq_left hle] at h'
  simp only [Payload.sent, payload, marshal_eq]
  exact h'

/-- The call of the handler `fn` for the message. -/
def call (fn : FnPtr) : Call :=
  ⟨fn, delimit (receivedMember mail.message mail.member), some mail.member.ptr⟩

/-- The receiver makes that call, and no other. -/
theorem unmarshal_payload {registry : Registry} {fn : FnPtr}
    (hreg : registry.lookup (some mail.member.ptr) = some fn) :
    unmarshal registry (padded mail.payload.sent) packetBufferSize true = (true, [mail.call fn]) := by
  have hpad := padded_sent mail.wf mail.one
  rw [mail.payload_sent, hpad]
  refine unmarshal_member hreg _ _ ?_
  rw [← hpad, ← mail.payload_sent]
  exact length_padded mail.payload.length_sent

/-- What `decode_union` makes of the stream of that call, unless the message is cut short. -/
theorem decodeUnion_call (hcut : ¬ mail.CutShort) (fn : FnPtr) (dest : mail.member.Struct) :
    ∃ d, (decodeUnion (mail.call fn).decodeStream mail.member.fields dest).1 = some d ∧
      mail.member.Same d (mail.member.get mail.message) := by
  obtain ⟨d, hd, hsame⟩ := decodeUnion_delimit mail.wf_member [] dest
  rw [List.append_nil] at hd
  refine ⟨d, ?_, hsame⟩
  rw [CutShort] at hcut
  rw [call, receivedMember, if_neg hcut]
  exact congrArg Prod.fst hd

end Mail

/-- The handlers at a side: no `rx_handler`, and one for each member. -/
structure MessageSetup where
  txHandler : FnPtr
  registry : Registry
  handlers : Member → FnPtr
  registered : ∀ k : Member, registry.lookup (some k.ptr) = some (handlers k)

/-- The same, as the handlers that an endpoint starts with. -/
def MessageSetup.toSetup (s : MessageSetup) : Setup := ⟨s.txHandler, none, s.registry⟩

theorem flatMap_calls (s : MessageSetup) (mails : List Mail) :
    ((mails.map (·.payload)).map (·.sent)).flatMap
        (fun data => (unmarshal s.registry (padded data) packetBufferSize true).2) =
      mails.map fun mail => mail.call (s.handlers mail.member) := by
  rw [List.map_map, List.flatMap_map]
  induction mails with
  | nil => rfl
  | cons mail mails ih =>
    rw [List.flatMap_cons, ih, Function.comp_apply,
      mail.unmarshal_payload (s.registered mail.member)]
    rfl

/-- **Two endpoints that send union messages to each other**: in every run, whatever the order
    of the steps and the chunks that are read, every call returns true, and each side calls
    the handlers of the messages that the other has sent, in order, each message once and as
    soon as its last byte is read; and unless it was cut short by `send`, a message is
    decoded as it was. -/
theorem duplex_messages (setup : Side → MessageSetup) {steps : List DuplexStep}
    {mails : Side → List Mail}
    (hmails : ∀ side, payloadsOf side steps = (mails side).map (·.payload)) :
    let r := Machine.run Duplex.step (.init fun side => (setup side).toSetup) steps
    (∀ o ∈ r.1, o.2.returned ≠ some false) ∧ ∀ side,
      (∃ k ≤ (mails side).length,
        handlerCalls (eventsAt side.other r.1) = ((mails side).take k).map (fun mail =>
          mail.call ((setup side.other).handlers mail.member)) ∧
        rxHandlerCalls (eventsAt side.other r.1) = [] ∧
        ∀ j ≤ (mails side).length, (r.2 side).world.length ≤
          (((mails side).drop j).flatMap (·.payload.frames)).length → j ≤ k) ∧
      ∀ mail ∈ mails side, ¬ mail.CutShort → ∀ fn dest,
        ∃ d, (decodeUnion (mail.call fn).decodeStream mail.member.fields dest).1 = some d ∧
          mail.member.Same d (mail.member.get mail.message) := by
  have htaken : ∀ side, TakenBy (fun side => (setup side).toSetup) side
      (payloadsOf side steps) := by
    intro side p hp _
    rw [hmails] at hp
    obtain ⟨mail, -, rfl⟩ := List.mem_map.1 hp
    exact congrArg (·.1) (mail.unmarshal_payload ((setup side.other).registered mail.member))
  obtain ⟨hret, hsides⟩ := duplex_delivers _ htaken
  refine ⟨hret, fun side => ⟨?_, fun mail _ hcut fn dest => mail.decodeUnion_call hcut fn dest⟩⟩
  obtain ⟨⟨k, hk, hhanded, hall⟩, -⟩ := hsides side
  rw [hmails, List.length_map] at hk hall
  refine ⟨k, hk, ?_, hhanded.rx, fun j hj hlen => hall j hj ?_⟩
  · have hunion := hhanded.union
    rw [hmails, ← List.map_take] at hunion
    exact hunion.trans ((if_pos rfl).trans (flatMap_calls (setup side.other) _))
  · rw [← List.map_drop, List.flatMap_map]
    exact hlen

def timeMail : Mail where
  message := timeMessage
  member := .time
  wf := by
    intro k hk
    cases k <;> first | exact absurd hk (by decide) | trivial
  one := by intro k; cases k <;> decide

/-- Both sides have seven handlers, each at the tag of its member. -/
def sevenSetup : Side → MessageSetup := fun _ =>
  ⟨1, sevenHandlers, Member.tag, fun k => by cases k <;> rfl⟩

/-- Both sides send the message, and each reads some of what the other has sent. -/
def timeTalk : List DuplexStep :=
  [.send .left timeMail.payload, .receive .right 9 fun _ => 0, .send .right timeMail.payload,
    .receive .left 50 fun _ => 0]

theorem duplex_messages_timeTalk :
    ∃ k ≤ 1, handlerCalls (eventsAt .right (Machine.run Duplex.step
        (.init fun side => (sevenSetup side).toSetup) timeTalk).1) =
      ([timeMail].take k).map fun mail => mail.call mail.member.tag := by
  obtain ⟨-, h⟩ := @duplex_messages sevenSetup timeTalk (fun _ => [timeMail])
    fun side => by cases side <;> rfl
  obtain ⟨⟨k, hk, hcalls, -⟩, -⟩ := h .left
  exact ⟨k, hk, hcalls⟩

end PacketSerial
