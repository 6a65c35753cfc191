/-
  `ProtoBuff.c`: marshalling of messages, the scan of a union message for its
  member, and the handlers registered for the members.

  Functions in the C code are pointers: a handler is a number (`FnPtr`), and a call
  of one is recorded as a `Call` with its arguments.

  * `lookup_addHandler`: a handler is found once it has been added;
  * `unmarshalLookupCallback_wire`: the scan finds the first member of a message;
  * `unmarshal_marshal`: a union message comes back through `unmarshal` and
    `decode_union` as it was given to `marshal`.
-/
import PacketSerial.MessageCodec

namespace PacketSerial

/-- An address of code; 0 is `NULL`. -/
abbrev FnPtr := ℕ

/-! ## Messages -/

/-- `(size_t)-1` -/
def sizeMax : ℕ := 2 ^ 64 - 1

/-- `marshal`: the size returned, and the bytes stored from the start of the buffer. -/
def marshal {σ : Type} (src : σ) (fields : List (PbField FieldsPtr σ)) (bufsize : ℕ)
    (delimited : Bool) : ℕ × List UInt8 :=
  let stream := pbOstreamFromBuffer bufsize
  let r := if delimited then pbEncodeSubmessage (pbEncode src fields) stream
    else pbEncode src fields stream
  if r.1 then (r.2.bytesWritten, r.2.out) else (sizeMax, r.2.out)

/-- The loop of `decode_unionmessage_type`, for at most `fuel - 1` fields. -/
def decodeUnionmessageTypeLoop : ℕ → PbIstream → Option FieldsPtr × PbIstream
  | 0, stream => (none, stream)
  | fuel + 1, stream =>
    match pbDecodeTag stream with
    | (none, _, stream) => (none, stream)
    | (some (wireType, tag), _, stream) =>
      let field := if wireType = .string then
          UnionMessage.fields.find? fun f => f.tag = tag ∧ f.type &&& 0x07 ≠ 0
        else none
      match field with
      | some f => (f.ptr, stream)
      -- the result of `pb_skip_field` is not looked at
      | none => decodeUnionmessageTypeLoop fuel (pbSkipField stream wireType).2

/-- `decode_unionmessage_type`: the table found, `none` for `NULL`, and the stream
    after its tag.  Every field takes a byte at least. -/
def decodeUnionmessageType (stream : PbIstream) : Option FieldsPtr × PbIstream :=
  decodeUnionmessageTypeLoop (stream.length + 1) stream

/-- `decode_union`: the struct decoded, `none` on failure, and the stream it leaves. -/
def decodeUnion {σ : Type} (stream : PbIstream) (fields : List (PbField FieldsPtr σ)) (dest : σ) :
    Option σ × PbIstream :=
  match pbMakeStringSubstream stream with
  | (none, stream) => (none, stream)
  | (some substream, stream) => (pbDecode fields substream dest, stream)

/-- `_unmarshal`, and `explicit_unmarshal`: `fail` is the result when the message is
    not all there.  (Closing a substream of a memory buffer cannot fail.) -/
def unmarshalWith {β : Type} (buf : List UInt8) (bufsize : ℕ) (delimited : Bool) (fail : β)
    (callback : PbIstream → β) : β :=
  let parentStream : PbIstream := buf.take bufsize
  if delimited then
    match pbMakeStringSubstream parentStream with
    | (none, _) => fail
    | (some subStream, _) => callback subStream
  else callback parentStream

/-! ## Handlers -/

/-- `PROTOBUFF_MAX_HANDLERS` -/
def protobuffMaxHandlers : ℕ := 16

structure Handler where
  type : Option FieldsPtr
  callback : FnPtr
deriving DecidableEq, Repr

/-- The static variables `handlers` and `handlers_usage_mask`. -/
structure Registry where
  handlers : Fin protobuffMaxHandlers → Handler
  handlersUsageMask : UInt32

def bitRead (value : UInt32) (bit : Fin protobuffMaxHandlers) : UInt32 :=
  (value >>> UInt32.ofNat bit) &&& 0x01

def bitSet (value : UInt32) (bit : Fin protobuffMaxHandlers) : UInt32 :=
  value ||| (1 <<< UInt32.ofNat bit)

namespace Registry

/-- The registry at the start, and after `clear_handlers`. -/
def empty : Registry := ⟨fun _ => ⟨none, 0⟩, 0⟩

/-- `find_handler`; `none` for -1. -/
def findHandler (reg : Registry) (type : Option FieldsPtr) : Option (Fin protobuffMaxHandlers) :=
  (List.finRange protobuffMaxHandlers).find? fun i =>
    bitRead reg.handlersUsageMask i = 1 ∧ (reg.handlers i).type = type

/-- `get_unused_idx`; the mask changes with it. -/
def getUnusedIdx (reg : Registry) : Option (Fin protobuffMaxHandlers) × Registry :=
  match (List.finRange protobuffMaxHandlers).find? fun i =>
      bitRead reg.handlersUsageMask i = 0 with
  | none => (none, reg)
  | some i => (some i, { reg with handlersUsageMask := bitSet reg.handlersUsageMask i })

/-- `add_handler` -/
def addHandler (reg : Registry) (type : Option FieldsPtr) (callback : FnPtr) : Bool × Registry :=
  match reg.findHandler type with
  | some _ => (false, reg)
  | none =>
    match reg.getUnusedIdx with
    | (some idx, reg) =>
      (true, { reg with handlers := Function.update reg.handlers idx ⟨type, callback⟩ })
    | (none, reg) => (false, reg)

/-- `clear_handlers` of `ProtoBuff` -/
def clearHandlers (_ : Registry) : Registry := empty

/-- The callback registered for a type. -/
def lookup (reg : Registry) (type : Option FieldsPtr) : Option FnPtr :=
  (reg.findHandler type).map fun i => (reg.handlers i).callback

end Registry

/-- A call of a handler. -/
structure Call where
  callback : FnPtr
  decodeStream : PbIstream
  type : Option FieldsPtr
deriving DecidableEq, Repr

/-- `_unmarshal_lookup_callback`: the value returned, and the calls made. -/
def unmarshalLookupCallback (reg : Registry) (decodeStream : PbIstream) : Bool × List Call :=
  let r := decodeUnionmessageType decodeStream
  match reg.findHandler r.1 with
  | some idx => (true, [⟨(reg.handlers idx).callback, r.2, r.1⟩])
  | none => (false, [])

/-- `unmarshal` -/
def unmarshal (reg : Registry) (buf : List UInt8) (bufsize : ℕ) (delimited : Bool) :
    Bool × List Call :=
  unmarshalWith buf bufsize delimited (false, []) (unmarshalLookupCallback reg)

/-- The message in the buffer; `none` where it is not all there. -/
def messageOf (buf : List UInt8) (bufsize : ℕ) (delimited : Bool) : Option PbIstream :=
  if delimited then (pbMakeStringSubstream (buf.take bufsize)).1 else some (buf.take bufsize)

/-- The callback gets the message. -/
theorem unmarshalWith_eq {β : Type} (buf : List UInt8) (bufsize : ℕ) (delimited : Bool) (fail : β)
    (callback : PbIstream → β) :
    unmarshalWith buf bufsize delimited fail callback =
      (messageOf buf bufsize delimited).elim fail callback := by
  cases delimited with
  | false => rfl
  | true =>
    rw [unmarshalWith, messageOf, if_pos rfl, if_pos rfl]
    rcases pbMakeStringSubstream (buf.take bufsize) with ⟨_ | msg, rest⟩ <;> rfl

/-- A message of usual length, with its length in front, or without it. -/
theorem messageOf_delimit {x : List UInt8} (h : x.length < 2 ^ 32) {rest : List UInt8}
    {bufsize : ℕ} (hlen : (delimit x ++ rest).length ≤ bufsize) :
    messageOf (delimit x ++ rest) bufsize true = some x := by
  rw [messageOf, if_pos rfl, List.take_of_length_le hlen, delimit, List.append_assoc,
    pbMakeStringSubstream_encode h]

theorem messageOf_plain (x : List UInt8) : messageOf x x.length false = some x := by
  simp [messageOf]

/-! ## The registry -/

theorem bitRead_eq (value : UInt32) (i : Fin protobuffMaxHandlers) :
    bitRead value i = if value.toNat.testBit i then 1 else 0 := by
  have hi : (UInt32.ofNat i).toNat % 32 = i := by
    have := i.isLt
    simp only [protobuffMaxHandlers] at this
    simp; omega
  rw [← UInt32.toNat_inj, bitRead, UInt32.toNat_and, UInt32.toNat_shiftRight, hi,
    Nat.testBit_eq_decide_div_mod_eq, Nat.shiftRight_eq_div_pow]
  simp
  split_ifs <;> simp <;> omega

theorem testBit_bitSet (value : UInt32) (i j : Fin protobuffMaxHandlers) :
    (bitSet value i).toNat.testBit j = (decide (i = j) || value.toNat.testBit j) := by
  have hlt := i.isLt
  simp only [protobuffMaxHandlers] at hlt
  have hi : (UInt32.ofNat i).toNat % 32 = i := by simp; omega
  have hpow : (1 <<< i.val) % 2 ^ 32 = 2 ^ i.val := by
    rw [Nat.shiftLeft_eq, one_mul, Nat.mod_eq_of_lt (Nat.pow_lt_pow_right (by omega) (by omega))]
  rw [bitSet, UInt32.toNat_or, Nat.testBit_or, UInt32.toNat_shiftLeft, hi,
    show (1 : UInt32).toNat = 1 from rfl, hpow, Nat.testBit_two_pow]
  simp [Fin.ext_iff, Bool.or_comm]

theorem find?_unique {α : Type} {l : List α} {p : α → Bool} {a : α} (hm : a ∈ l) (ha : p a = true)
    (h : ∀ b, p b = true → b = a) : l.find? p = some a := by
  rcases hf : l.find? p with _ | b
  · exact absurd ha (List.find?_eq_none.1 hf a hm)
  · rw [h b (List.find?_some hf)]

namespace Registry
variable {reg : Registry} {type : Option FieldsPtr}

/-- The slot `i` is in use. -/
def Used (reg : Registry) (i : Fin protobuffMaxHandlers) : Prop :=
  reg.handlersUsageMask.toNat.testBit i = true

theorem bitRead_eq_one {i : Fin protobuffMaxHandlers} :
    bitRead reg.handlersUsageMask i = 1 ↔ reg.Used i := by
  rw [bitRead_eq, Used]; split_ifs with h <;> simp [h]

theorem bitRead_eq_zero {i : Fin protobuffMaxHandlers} :
    bitRead reg.handlersUsageMask i = 0 ↔ ¬ reg.Used i := by
  rw [bitRead_eq, Used]; split_ifs with h <;> simp [h]

theorem findHandler_none (h : reg.findHandler type = none) (i : Fin protobuffMaxHandlers)
    (hu : reg.Used i) : (reg.handlers i).type ≠ type := by
  have := List.find?_eq_none.1 h i (List.mem_finRange i)
  rw [decide_eq_true_eq, bitRead_eq_one] at this
  exact fun ht => this ⟨hu, ht⟩

/-- Where only one slot has the type, it is found. -/
theorem findHandler_eq {i : Fin protobuffMaxHandlers} (hu : reg.Used i)
    (ht : (reg.handlers i).type = type)
    (h : ∀ j, reg.Used j → (reg.handlers j).type = type → j = i) :
    reg.findHandler type = some i := by
  refine find?_unique (List.mem_finRange i) ?_ fun j hj => ?_
  · rw [decide_eq_true_eq, bitRead_eq_one]; exact ⟨hu, ht⟩
  · rw [decide_eq_true_eq, bitRead_eq_one] at hj
    exact h j hj.1 hj.2

theorem getUnusedIdx_some {idx : Fin protobuffMaxHandlers} {reg' : Registry}
    (h : reg.getUnusedIdx = (some idx, reg')) :
    ¬ reg.Used idx ∧ reg'.handlers = reg.handlers ∧
      ∀ j, reg'.Used j ↔ idx = j ∨ reg.Used j := by
  unfold getUnusedIdx at h
  rcases hf : (List.finRange protobuffMaxHandlers).find? fun i =>
      bitRead reg.handlersUsageMask i = 0 with _ | i <;> rw [hf] at h
  · cases h
  cases h
  have := List.find?_some hf
  rw [decide_eq_true_eq, bitRead_eq_zero] at this
  exact ⟨this, rfl, fun j => by simp [Used, testBit_bitSet]⟩

/-- **A handler is found once it has been added.** -/
theorem lookup_addHandler {callback : FnPtr} (h : (reg.addHandler type callback).1 = true) :
    (reg.addHandler type callback).2.lookup type = some callback := by
  unfold addHandler at h ⊢
  rcases hf : reg.findHandler type with _ | i <;> rw [hf] at h
  · rcases hu : reg.getUnusedIdx with ⟨_ | idx, reg'⟩ <;> rw [hu] at h
    · cases h
    obtain ⟨-, hh, hused⟩ := getUnusedIdx_some hu
    have hfind : ({ reg' with
        handlers := Function.update reg'.handlers idx ⟨type, callback⟩ } : Registry).findHandler
          type = some idx := by
      refine findHandler_eq ((hused idx).2 (Or.inl rfl)) (by simp) fun j hj ht => ?_
      by_contra hne
      dsimp only at ht
      rw [Function.update_of_ne hne, hh] at ht
      exact findHandler_none hf j (((hused j).1 hj).resolve_left (Ne.symm hne)) ht
    simp [lookup, hfind]
  · cases h

end Registry

/-! ## Union messages -/

theorem marshal_undelimited {m : UnionMessage} (h : m.WF) (bufsize : ℕ) :
    (marshal m UnionMessage.fields bufsize false).1 = sizeMax ∧ bufsize < m.wire.length ∨
      marshal m UnionMessage.fields bufsize false = (m.wire.length, m.wire) := by
  obtain ⟨u, hu⟩ := UnionMessage.coded h
  have hw := (hu.writes UnionMessage.fields_wf.tag_lt).fromBuffer bufsize
  split_ifs at hw with hb
  · right; simp [marshal, hw]
  · left; exact ⟨by simp [marshal, hw], by omega⟩

theorem marshal_delimited {m : UnionMessage} (h : m.WF) (bufsize : ℕ) :
    (marshal m UnionMessage.fields bufsize true).1 = sizeMax ∧ bufsize < (delimit m.wire).length ∨
      marshal m UnionMessage.fields bufsize true = ((delimit m.wire).length, delimit m.wire) := by
  obtain ⟨u, hu⟩ := UnionMessage.coded h
  have hlen := UnionMessage.length_wire h
  have hw := (writes_pbEncodeSubmessage (hu.writes UnionMessage.fields_wf.tag_lt)
    (by omega)).fromBuffer bufsize
  change if (delimit m.wire).length ≤ bufsize then
    pbEncodeSubmessage (pbEncode m UnionMessage.fields) (pbOstreamFromBuffer bufsize) =
      (true, ⟨true, delimit m.wire, bufsize, (delimit m.wire).length⟩) else _ at hw
  split_ifs at hw with hb
  · right; simp [marshal, hw]
  · left; exact ⟨by simp [marshal, hw], by omega⟩

/-- The scan stops at a member's tag. -/
theorem decodeUnionmessageType_tag (k : Member) (stream : PbIstream) :
    decodeUnionmessageType (Varint.encode (8 * k.tag + 2) ++ stream) = (some k.ptr, stream) := by
  have htag : k.tag ≠ 0 ∧ k.tag < 8 := by cases k <;> decide
  have hfind : (UnionMessage.fields.find? fun f => f.tag = k.tag ∧ f.type &&& 0x07 ≠ 0).map
      (·.ptr) = some (some k.ptr) := by cases k <;> rfl
  obtain ⟨f, hf, hptr⟩ := Option.map_eq_some_iff.1 hfind
  rw [decodeUnionmessageType, decodeUnionmessageTypeLoop, pbDecodeTag_encode (by omega) (by omega)]
  rw [show (8 * k.tag + 2) % 8 = 2 by omega, show (8 * k.tag + 2) / 8 = k.tag by omega]
  simp only [WireType.ofNat, if_true, hf, hptr]

/-- `decode_union` reads the bytes that stand in the stream with their length in front. -/
theorem decodeUnion_append {σ : Type} (fields : List (PbField FieldsPtr σ)) {x : List UInt8}
    (h : x.length < 2 ^ 32) (rest : PbIstream) (dest : σ) :
    decodeUnion (delimit x ++ rest) fields dest = (pbDecode fields x dest, rest) := by
  rw [decodeUnion, delimit, List.append_assoc, pbMakeStringSubstream_encode h]

/-- So it reads a member that stands there. -/
theorem decodeUnion_delimit {k : Member} {s : k.Struct} (h : k.WF s) (rest : PbIstream)
    (dest : k.Struct) :
    ∃ d, decodeUnion (delimit (k.wire s) ++ rest) k.fields dest = (some d, rest) ∧
      k.Same d s := by
  obtain ⟨u, hu, hs⟩ := k.coded h
  have hlen := k.length_wire h
  refine ⟨_, ?_, hs dest⟩
  rw [decodeUnion_append _ (by omega), pbDecode, hu.reads k.fields_wf]

/-- The call of a handler for a member at the start of the stream, whatever bytes it is
    made of. -/
theorem unmarshalLookupCallback_member {k : Member} {reg : Registry} {fn : FnPtr}
    (hreg : reg.lookup (some k.ptr) = some fn) (x : List UInt8) (rest : PbIstream) :
    unmarshalLookupCallback reg (bytesWire k.tag x ++ rest) =
      (true, [⟨fn, delimit x ++ rest, some k.ptr⟩]) := by
  obtain ⟨idx, hidx, hfn⟩ := Option.map_eq_some_iff.1 hreg
  rw [bytesWire, fieldWire, unmarshalLookupCallback, List.append_assoc, decodeUnionmessageType_tag]
  simp only [hidx, hfn]

/-- The stream that a handler gets for the message `m`, and that `decode_union` reads. -/
theorem unmarshalLookupCallback_wire {m : UnionMessage} {k : Member} (hk : m.firstSet = some k)
    {reg : Registry} {fn : FnPtr} (hreg : reg.lookup (some k.ptr) = some fn)
    (trailing : PbIstream) :
    ∃ rest, unmarshalLookupCallback reg (m.wire ++ trailing) =
      (true, [⟨fn, delimit (k.wire (k.get m)) ++ rest, some k.ptr⟩]) := by
  obtain ⟨rest, hw⟩ := UnionMessage.wire_firstSet hk
  refine ⟨rest ++ trailing, ?_⟩
  rw [hw, List.append_assoc, unmarshalLookupCallback_member hreg]

/-- **Union round trip.**  What `marshal` wrote is handed by `unmarshal` to the handler
    of the set member with the lowest tag and to no other, and `decode_union` makes
    the same struct of the stream it hands over. -/
theorem unmarshal_marshal {m : UnionMessage} (hwf : m.WF) (hset : ∃ k : Member, k.has m = true)
    {reg : Registry} {fns : Member → FnPtr}
    (hreg : ∀ k : Member, reg.lookup (some k.ptr) = some (fns k)) {bufsize size : ℕ}
    {delimited : Bool} {out : List UInt8}
    (hm : marshal m UnionMessage.fields bufsize delimited = (size, out)) (hsize : size ≠ sizeMax) :
    out.length = size ∧ ∃ k : Member, k.has m = true ∧
      (∀ k' : Member, k'.has m = true → k.tag ≤ k'.tag) ∧ ∀ trailing, ∃ stream,
        unmarshal reg (out ++ trailing) (out ++ trailing).length delimited =
          (true, [⟨fns k, stream, some k.ptr⟩]) ∧
        ∀ dest : k.Struct, ∃ d, (decodeUnion stream k.fields dest).1 = some d ∧
          k.Same d (k.get m) := by
  obtain ⟨k, hk⟩ := UnionMessage.exists_firstSet hset
  obtain ⟨hhas, hmin⟩ := UnionMessage.firstSet_spec hk
  have hlen := UnionMessage.length_wire hwf
  -- a stream that starts with the member is read back
  have hread : ∀ trailing, ∃ stream,
      unmarshalLookupCallback reg (m.wire ++ trailing) =
        (true, [⟨fns k, stream, some k.ptr⟩]) ∧
      ∀ dest : k.Struct, ∃ d, (decodeUnion stream k.fields dest).1 = some d ∧
        k.Same d (k.get m) := by
    intro trailing
    obtain ⟨rest, hr⟩ := unmarshalLookupCallback_wire hk (hreg k) trailing
    refine ⟨_, hr, fun dest => ?_⟩
    obtain ⟨d, hd, hs⟩ := decodeUnion_delimit (hwf k hhas) rest dest
    exact ⟨d, congrArg Prod.fst hd, hs⟩
  cases delimited with
  | false =>
    rcases marshal_undelimited hwf bufsize with h | h
    · rw [hm] at h; exact absurd h.1 hsize
    · rw [hm] at h
      cases h
      refine ⟨rfl, k, hhas, hmin, fun trailing => ?_⟩
      obtain ⟨stream, hu, hd⟩ := hread trailing
      refine ⟨stream, ?_, hd⟩
      rw [unmarshal, unmarshalWith_eq, messageOf_plain]
      exact hu
  | true =>
    rcases marshal_delimited hwf bufsize with h | h
    · rw [hm] at h; exact absurd h.1 hsize
    · rw [hm] at h
      cases h
      refine ⟨rfl, k, hhas, hmin, fun trailing => ?_⟩
      obtain ⟨stream, hu, hd⟩ := hread []
      refine ⟨stream, ?_, hd⟩
      rw [unmarshal, unmarshalWith_eq, messageOf_delimit (by omega) le_rfl]
      rwa [List.append_nil] at hu

/-- Seven handlers, each at the tag of its member. -/
def sevenHandlers : Registry :=
  Member.all.foldl (fun reg k => (reg.addHandler (some k.ptr) k.tag).2) .empty

/-- A message with a `TimeMsg` in it. -/
def timeMessage : UnionMessage :=
  { UnionMessage.initZero with hasTime := true, time := ⟨7, 30, 300⟩ }

theorem unmarshal_marshal_timeMessage :
    ∃ k : Member, k.has timeMessage = true ∧ ∃ stream,
      unmarshal sevenHandlers ((marshal timeMessage UnionMessage.fields 300 true).2 ++ [1, 2])
          ((marshal timeMessage UnionMessage.fields 300 true).2 ++ [1, 2]).length true =
        (true, [⟨k.tag, stream, some k.ptr⟩]) := by
  have hwf : timeMessage.WF := by
    intro k hk
    cases k <;> first | exact absurd hk (by decide) | trivial
  obtain ⟨-, k, hk, -, h⟩ := unmarshal_marshal hwf ⟨.time, rfl⟩
    (fun k => by cases k <;> rfl : ∀ k : Member, sevenHandlers.lookup (some k.ptr) = some k.tag)
    (rfl : marshal timeMessage UnionMessage.fields 300 true = (_, _)) (by decide)
  obtain ⟨stream, hs, -⟩ := h [1, 2]
  exact ⟨k, hk, stream, hs⟩

end PacketSerial
