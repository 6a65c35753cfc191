/-
  `ProtoBuff.c` on buffers in memory: streams are pointers, and memory goes on past the end of
  a buffer.

  A handler gets a pointer to the stream, and leaves it wherever its code does; the substreams
  are closed behind it.

  * `marshal_inMemory`: `marshal` writes into its buffer what its model lists, and nothing
    else anywhere;
  * `unmarshal_inMemory`: `unmarshal` does what its model does, whatever the handlers leave, and
    their streams are inside of the buffer; so does `decode_union` on them;
  * `unmarshal_marshal_inMemory`: the one after the other;
  * `parseStaged_inMemory`: the parsing of what `process` has staged.
-/
import PacketSerial.Deframing
import PacketSerial.Marshalling
import PacketSerial.MessageTables
import PacketSerial.UnionLoop

namespace PacketSerial

open Memory PbBufStream PbBufOstream

/-! ## Marshalling -/

namespace PbBufOstream
variable {σ : Type} (t : PbBufTable FieldsPtr σ) (src : σ) (buf bufsize : ℕ) (delimited : Bool)

/-- `marshal` into the buffer at the address `buf`: the size returned, and what is written. -/
def marshal : ℕ × List (Write UInt8) :=
  let stream := fromBuffer buf bufsize
  let r := if delimited then pbEncodeSubmessage (pbEncode t src) stream else pbEncode t src stream
  if r.1 then (r.2.bytesWritten, r.2.writes) else (sizeMax, r.2.writes)

/-- The result of `marshal`, from that of a writer on the buffer. -/
theorem Stores.marshal {buf bufsize : ℕ} {r : Bool × PbBufOstream} {r' : Bool × PbOstream}
    (h : Stores (.fromBuffer buf bufsize) [] r r') :
    let x := if r.1 then (r.2.bytesWritten, r.2.writes) else (sizeMax, r.2.writes)
    let x' := if r'.1 then (r'.2.bytesWritten, r'.2.out) else (sizeMax, r'.2.out)
    x.1 = x'.1 ∧ x'.2.length ≤ bufsize ∧ Consecutive buf x.2 x'.2 := by
  obtain ⟨l, hl, rfl⟩ := h
  obtain ⟨ws, hws, hcons⟩ := hl.writes
  have hcount : r.2.bytesWritten = 0 + l.length := hl.counted rfl
  have hfits : r.2.bytesWritten ≤ bufsize := hl.fits rfl (Nat.zero_le bufsize)
  have hlen : l.length ≤ bufsize := by omega
  have hws : r.2.writes = ws := hws
  dsimp only
  rw [hws]
  split_ifs <;> exact ⟨rfl, hlen, hcons⟩

/-- `marshal` writes one byte behind the other, from the start of the buffer. -/
theorem marshal_stores :
    let r := marshal t src buf bufsize delimited
    let r' := PacketSerial.marshal src t.list bufsize delimited
    r.1 = r'.1 ∧ r'.2.length ≤ bufsize ∧ Consecutive buf r.2 r'.2 := by
  cases delimited with
  | false => exact (pbEncode_stores t src (.fromBuffer buf bufsize) []).marshal
  | true =>
    exact (pbEncodeSubmessage_stores (pbEncode_stores t src) (.fromBuffer buf bufsize) []).marshal

end PbBufOstream

/-- **`marshal` in memory**: it returns what its model does, all its writes stay inside of the
    buffer, and behind them stand there the bytes of the model, and around these nothing has
    changed. -/
theorem marshal_inMemory {σ : Type} (t : PbBufTable FieldsPtr σ) (src : σ) (buf bufsize : ℕ)
    (delimited : Bool) :
    let r := PbBufOstream.marshal t src buf bufsize delimited
    let r' := marshal src t.list bufsize delimited
    r.1 = r'.1 ∧
      (∀ w ∈ r.2, buf ≤ w.offset ∧ w.offset + w.data.length ≤ buf + bufsize) ∧
      ∀ mem, Holds (writeAll mem r.2) buf r'.2 ∧
        ∀ x : ℤ, x < buf ∨ buf + r'.2.length ≤ x → writeAll mem r.2 x = mem x := by
  intro r r'
  obtain ⟨hsize, hlen, hcons⟩ := PbBufOstream.marshal_stores t src buf bufsize delimited
  refine ⟨hsize, fun w hw => ?_, fun mem => ⟨hcons.holds mem, fun x hx => ?_⟩⟩
  · have hw := hcons.bounds w hw
    omega
  · exact hcons.writeAll_outside mem hx

/-! ## Unmarshalling -/

/-- A call of a handler, with the stream as it gets it. -/
structure BufCall where
  callback : FnPtr
  decodeStream : PbBufStream
  type : Option FieldsPtr
deriving DecidableEq, Repr

/-- The call, with the bytes that the handler can read. -/
def BufCall.call (mem : ℕ → UInt8) (c : BufCall) : Call :=
  ⟨c.callback, c.decodeStream.bytes mem, c.type⟩

namespace PbBufStream
variable (mem : ℕ → UInt8)

/-- The loop of `decode_unionmessage_type`, for at most `fuel - 1` fields. -/
def decodeUnionmessageTypeLoop : ℕ → PbBufStream → Option FieldsPtr × PbBufStream
  | 0, s => (none, s)
  | fuel + 1, s =>
    match s.pbDecodeTag mem with
    | (none, _, s) => (none, s)
    | (some (wireType, tag), _, s) =>
      match unionField wireType tag with
      | some f => (f.ptr, s)
      | none => decodeUnionmessageTypeLoop fuel (s.pbSkipField mem wireType).2

/-- `decode_unionmessage_type` -/
def decodeUnionmessageType (s : PbBufStream) : Option FieldsPtr × PbBufStream :=
  decodeUnionmessageTypeLoop mem (s.bytesLeft + 1) s

/-- `decode_union`; whether the substream can be closed is not looked at. -/
def decodeUnion {σ : Type} (t : PbBufTable FieldsPtr σ) (s : PbBufStream) (dest : σ) :
    Option σ × PbBufStream :=
  match s.pbMakeStringSubstream mem with
  | (none, s) => (none, s)
  | (some substream, s) =>
    let r := pbDecode mem t substream dest
    (r.1, (s.pbCloseStringSubstream r.2).2)

/-- `_unmarshal`, and `explicit_unmarshal`, of the buffer at the address `buf`: the value
    returned, and what the callback has done.  It leaves its stream somewhere. -/
def unmarshalWith {β : Type} (buf bufsize : ℕ) (delimited : Bool) (nothing : β)
    (callback : PbBufStream → (Bool × β) × PbBufStream) : Bool × β :=
  let parentStream : PbBufStream := ⟨buf, bufsize⟩
  if delimited then
    match parentStream.pbMakeStringSubstream mem with
    | (none, _) => (false, nothing)
    | (some subStream, parentStream) =>
      let r := callback subStream
      match parentStream.pbCloseStringSubstream r.2 with
      | (false, _) => (false, r.1.2)
      | (true, _) => r.1
  else (callback parentStream).1

/-- `_unmarshal_lookup_callback`; `code` is where a handler leaves its stream. -/
def unmarshalLookupCallback (reg : Registry)
    (code : FnPtr → PbBufStream → Option FieldsPtr → PbBufStream) (s : PbBufStream) :
    (Bool × List BufCall) × PbBufStream :=
  let r := s.decodeUnionmessageType mem
  match reg.findHandler r.1 with
  | some idx =>
    let callback := (reg.handlers idx).callback
    ((true, [⟨callback, r.2, r.1⟩]), code callback r.2 r.1)
  | none => ((false, []), r.2)

/-- `unmarshal` -/
def unmarshal (reg : Registry) (code : FnPtr → PbBufStream → Option FieldsPtr → PbBufStream)
    (buf bufsize : ℕ) (delimited : Bool) : Bool × List BufCall :=
  unmarshalWith mem buf bufsize delimited [] (unmarshalLookupCallback mem reg code)

/-- `packet_parser` -/
def packetParser (st : PacketStore) (s : PbBufStream) :
    (Bool × List Event × PacketStore) × PbBufStream :=
  match pbDecode mem Packet.table s .initZero with
  | (some packet, s) =>
    let r := st.storePacket packet
    ((r.1.1, r.1.2, r.2), s)
  | (none, s) => ((false, [], st), s)

/-! ## It comes to the same -/

section
variable {mem : ℕ → UInt8}

theorem decodeUnionmessageTypeLoop_eq (k : ℕ) : ∀ s : PbBufStream,
    let r := decodeUnionmessageTypeLoop mem k s
    PacketSerial.decodeUnionmessageTypeLoop k (s.bytes mem) = (r.1, r.2.bytes mem) ∧
      Within s r.2 := by
  induction k with
  | zero => exact fun s => ⟨rfl, .refl s⟩
  | succ k ih =>
    intro s
    rw [decodeUnionmessageTypeLoop, PacketSerial.decodeUnionmessageTypeLoop]
    rcases ht : s.pbDecodeTag mem with ⟨_ | ⟨wireType, tag⟩, eof, rest⟩ <;>
      obtain ⟨hw, hd⟩ := pbDecodeTag_within ht <;> rw [hd] <;> dsimp only
    · exact ⟨rfl, hw⟩
    · rcases hf : unionField wireType tag with _ | f <;> have hf' := hf <;>
        rw [unionField] at hf' <;> rw [hf']
      · rcases hs : rest.pbSkipField mem wireType with ⟨ok, after⟩
        obtain ⟨hw', hd'⟩ := pbSkipField_within hs
        dsimp only
        rw [hd']
        exact ⟨(ih after).1, (hw.trans hw').trans (ih after).2⟩
      · exact ⟨rfl, hw⟩

/-- The scan for a member. -/
theorem decodeUnionmessageType_inMemory (s : PbBufStream) :
    let r := s.decodeUnionmessageType mem
    PacketSerial.decodeUnionmessageType (s.bytes mem) = (r.1, r.2.bytes mem) ∧ Within s r.2 := by
  have h := @decodeUnionmessageTypeLoop_eq mem (s.bytesLeft + 1) s
  rw [PacketSerial.decodeUnionmessageType, length_bytes]
  exact h

/-- **`decode_union`** leaves the stream behind the member, whether that is decoded or not. -/
theorem decodeUnion_inMemory {σ : Type} (t : PbBufTable FieldsPtr σ) (s : PbBufStream) (dest : σ) :
    let r := s.decodeUnion mem t dest
    PacketSerial.decodeUnion (s.bytes mem) t.list dest = (r.1, r.2.bytes mem) ∧ Within s r.2 := by
  rw [decodeUnion, PacketSerial.decodeUnion]
  rcases hmake : s.pbMakeStringSubstream mem with ⟨_ | substream, s'⟩
  · obtain ⟨hlist, hw⟩ := pbMakeStringSubstream_none hmake
    rw [hlist]
    exact ⟨rfl, hw⟩
  · obtain ⟨hlist, hw, -⟩ := pbMakeStringSubstream_some hmake
    have hmsg := pbDecode_refines t mem substream dest
    rw [hlist]
    dsimp only
    rw [pbCloseStringSubstream_eq hmsg.within, hmsg.value]
    exact ⟨rfl, hw⟩

/-- A substream can be closed, wherever it has been left. -/
theorem pbCloseStringSubstream_fst (s substream : PbBufStream) :
    (s.pbCloseStringSubstream substream).1 = true := by
  rw [pbCloseStringSubstream]
  split_ifs
  · rfl
  · rw [pbSkip, if_neg (Nat.lt_irrefl _)]

section
variable {β γ : Type} {buf bufsize : ℕ} {delimited : Bool} {nothing : β}
  {callback : PbBufStream → (Bool × β) × PbBufStream}

/-- What a callback does that reads no more than the bytes of its stream. -/
theorem unmarshalWith_inMemory (f : β → γ) (g : PbIstream → Bool × γ)
    (h : ∀ s, Prod.map id f (callback s).1 = g (s.bytes mem)) :
    Prod.map id f (unmarshalWith mem buf bufsize delimited nothing callback) =
      PacketSerial.unmarshalWith (bytes mem ⟨buf, bufsize⟩) bufsize delimited (false, f nothing)
        g := by
  have htake : (bytes mem ⟨buf, bufsize⟩).take bufsize = bytes mem ⟨buf, bufsize⟩ :=
    List.take_of_length_le (length_bytes _ _).le
  rw [unmarshalWith, PacketSerial.unmarshalWith, htake]
  cases delimited with
  | false => exact h _
  | true =>
    dsimp only
    rw [if_pos rfl, if_pos rfl]
    rcases hmake : pbMakeStringSubstream mem ⟨buf, bufsize⟩ with ⟨_ | subStream, parentStream⟩
    · rw [(pbMakeStringSubstream_none hmake).1]
      rfl
    · have hclose := pbCloseStringSubstream_fst parentStream (callback subStream).2
      rw [(pbMakeStringSubstream_some hmake).1]
      dsimp only
      rcases hc : parentStream.pbCloseStringSubstream (callback subStream).2 with ⟨ok, s⟩
      rw [hc] at hclose
      cases hclose
      exact h subStream

/-- The callback gets a stream inside of the buffer. -/
theorem unmarshalWith_inside {p : β → Prop} (h0 : p nothing)
    (h : ∀ s : PbBufStream, buf ≤ s.state → s.stop ≤ buf + bufsize → p (callback s).1.2) :
    p (unmarshalWith mem buf bufsize delimited nothing callback).2 := by
  rw [unmarshalWith]
  cases delimited with
  | false => exact h ⟨buf, bufsize⟩ le_rfl le_rfl
  | true =>
    dsimp only
    rw [if_pos rfl]
    rcases hmake : pbMakeStringSubstream mem ⟨buf, bufsize⟩ with ⟨_ | subStream, parentStream⟩
    · exact h0
    · obtain ⟨-, hw, hstart⟩ := pbMakeStringSubstream_some hmake
      have hstop : subStream.stop + parentStream.bytesLeft = buf + bufsize := hw.stop
      have hp := h subStream hstart (by omega)
      dsimp only
      rcases parentStream.pbCloseStringSubstream (callback subStream).2 with ⟨_ | _, s⟩ <;> exact hp

end

end

end PbBufStream

/-- A handler gets a stream inside of the buffer, and `decode_union` stays inside of that. -/
structure BufCall.Inside (mem : ℕ → UInt8) (buf bufsize : ℕ) (c : BufCall) : Prop where
  start : buf ≤ c.decodeStream.state
  stop : c.decodeStream.stop ≤ buf + bufsize
  decodeUnion : ∀ (k : Member) (dest : k.Struct),
    let d := c.decodeStream.decodeUnion mem k.table dest
    PacketSerial.decodeUnion (c.call mem).decodeStream k.fields dest = (d.1, d.2.bytes mem) ∧
      Within c.decodeStream d.2

/-- What `unmarshal` returns and calls. -/
theorem unmarshal_calls (mem : ℕ → UInt8) (reg : Registry)
    (code : FnPtr → PbBufStream → Option FieldsPtr → PbBufStream) (buf bufsize : ℕ)
    (delimited : Bool) :
    unmarshal reg (bytes mem ⟨buf, bufsize⟩) bufsize delimited =
      Prod.map id (List.map (BufCall.call mem))
        (PbBufStream.unmarshal mem reg code buf bufsize delimited) := by
  have hcallback : ∀ s : PbBufStream, Prod.map id (List.map (BufCall.call mem))
      (PbBufStream.unmarshalLookupCallback mem reg code s).1 =
        unmarshalLookupCallback reg (s.bytes mem) := by
    intro s
    obtain ⟨hscan, -⟩ := @decodeUnionmessageType_inMemory mem s
    rw [PbBufStream.unmarshalLookupCallback, unmarshalLookupCallback, hscan]
    dsimp only
    rcases reg.findHandler (s.decodeUnionmessageType mem).1 with _ | idx <;> rfl
  have hr : Prod.map id (List.map (BufCall.call mem))
      (PbBufStream.unmarshal mem reg code buf bufsize delimited) = _ :=
    unmarshalWith_inMemory _ _ hcallback
  exact hr.symm

/-- **`unmarshal` in memory**, whatever the handlers do with their streams: it returns and calls
    what its model does on the bytes of the buffer, and no handler gets to see more. -/
theorem unmarshal_inMemory (mem : ℕ → UInt8) (reg : Registry)
    (code : FnPtr → PbBufStream → Option FieldsPtr → PbBufStream) (buf bufsize : ℕ)
    (delimited : Bool) :
    let r := PbBufStream.unmarshal mem reg code buf bufsize delimited
    unmarshal reg (bytes mem ⟨buf, bufsize⟩) bufsize delimited =
        (r.1, r.2.map (BufCall.call mem)) ∧
      ∀ c ∈ r.2, c.Inside mem buf bufsize := by
  intro r
  refine ⟨unmarshal_calls mem reg code buf bufsize delimited, ?_⟩
  refine unmarshalWith_inside (p := fun cs => ∀ c ∈ cs, BufCall.Inside mem buf bufsize c)
    (fun c hc => absurd hc List.not_mem_nil) fun s hstart hstop c hc => ?_
  obtain ⟨-, hw⟩ := @decodeUnionmessageType_inMemory mem s
  rw [PbBufStream.unmarshalLookupCallback] at hc
  rcases hf : reg.findHandler (s.decodeUnionmessageType mem).1 with _ | idx <;> rw [hf] at hc
  · exact absurd hc List.not_mem_nil
  · obtain rfl := List.mem_singleton.1 hc
    refine ⟨hstart.trans hw.start, hw.stop.trans_le hstop, fun k dest => ?_⟩
    rw [← k.list_table]
    exact decodeUnion_inMemory k.table _ dest

/-! ## The round trip -/

namespace PbBufStream

/-- What stands in memory is read there. -/
theorem bytes_of_holds {mem : ℤ → UInt8} {buf : ℕ} {l : List UInt8} (h : Holds mem buf l) :
    bytes (fun x => mem x) ⟨buf, l.length⟩ = l := by
  refine List.ext_getElem (length_bytes _ _) fun i _ hi => ?_
  rw [← h i hi]
  simp only [bytes, List.getElem_map, List.getElem_range'_1]
  rw [Nat.cast_add]

/-- And what follows it. -/
theorem bytes_append (mem : ℕ → UInt8) (state n n' : ℕ) :
    bytes mem ⟨state, n + n'⟩ = bytes mem ⟨state, n⟩ ++ bytes mem ⟨state + n, n'⟩ := by
  rw [bytes, bytes, bytes, ← List.map_append]
  exact congrArg _ List.range'_append_1.symm

end PbBufStream

/-- **The round trip in memory**: behind what `marshal` has written into a buffer, there may be
    anything.  `unmarshal` calls the handler of the set member with the lowest tag, and what
    `decode_union` then reads from memory is the struct of the message, unless one of its strings
    fills its array. -/
theorem unmarshal_marshal_inMemory {m : UnionMessage} (h : m.Bools) {k : Member}
    (hk : m.firstSet = some k) {reg : Registry} {fn : FnPtr}
    (hreg : reg.lookup (some k.ptr) = some fn) {buf bufsize size n : ℕ} {delimited : Bool}
    {ws : List (Write UInt8)}
    (hm : PbBufOstream.marshal UnionMessage.table m buf bufsize delimited = (size, ws))
    (hsize : size ≠ sizeMax) (hn : size ≤ n) (mem : ℤ → UInt8)
    (code : FnPtr → PbBufStream → Option FieldsPtr → PbBufStream) :
    let after : ℕ → UInt8 := fun x => writeAll mem ws x
    ∃ stream : PbBufStream,
      PbBufStream.unmarshal after reg code buf n delimited =
        (true, [⟨fn, stream, some k.ptr⟩]) ∧
      ∀ dest : k.Struct,
        let d := stream.decodeUnion after k.table dest
        (d.1 = none ↔ ¬ k.WF (k.get m)) ∧ ∀ d', d.1 = some d' → k.Same d' (k.get m) := by
  intro after
  obtain ⟨hret, -, hcons⟩ := PbBufOstream.marshal_stores UnionMessage.table m buf bufsize delimited
  have hlist := h.marshal_eq bufsize delimited
  rw [hm, UnionMessage.list_table] at hret hcons
  dsimp only at hret hcons hlist
  by_cases hfit : (m.marshalled delimited).length ≤ bufsize
  · rw [if_pos hfit] at hlist
    rw [hlist] at hret hcons
    have hret : size = (m.marshalled delimited).length := hret
    -- the message, and what follows it in the buffer
    obtain ⟨trailing, hbytes⟩ : ∃ trailing, bytes after ⟨buf, n⟩ =
        m.marshalled delimited ++ trailing := by
      obtain ⟨room, rfl⟩ := Nat.exists_eq_add_of_le (hret ▸ hn)
      rw [bytes_append]
      exact ⟨_, congrArg (· ++ _) (bytes_of_holds (hcons.holds mem))⟩
    have hlen : n = (m.marshalled delimited ++ trailing).length := by
      rw [← hbytes, length_bytes]
    obtain ⟨stream, hcall, hdecode⟩ := unmarshal_marshalled h hk hreg delimited trailing
    rw [← hlen, ← hbytes, unmarshal_calls after reg code buf n delimited] at hcall
    obtain ⟨hok, hcalls⟩ := Prod.ext_iff.1 hcall
    obtain ⟨c, hc, hcall⟩ := List.map_eq_singleton_iff.1 hcalls
    obtain ⟨callback, s, type⟩ := c
    rw [BufCall.call, Call.mk.injEq] at hcall
    obtain ⟨rfl, rfl, rfl⟩ := hcall
    refine ⟨s, Prod.ext hok hc, fun dest => ?_⟩
    have hunion := (@decodeUnion_inMemory after _ k.table s dest).1
    rw [k.list_table] at hunion
    have hdecode := hdecode dest
    rw [hunion] at hdecode
    exact hdecode
  · rw [if_neg hfit] at hlist
    exact absurd (hret.trans hlist) hsize

/-- `timeMessage` at the address 100, in a memory full of ones: all 300 bytes of the buffer are
    unmarshalled, of which the message takes ten. -/
theorem unmarshal_marshal_inMemory_timeMessage :
    let ws := (PbBufOstream.marshal UnionMessage.table timeMessage 100 300 true).2
    ∃ stream : PbBufStream,
      PbBufStream.unmarshal (fun x => writeAll (fun _ => 0xFF) ws x) sevenHandlers
          (fun _ stream _ => stream) 100 300 true =
        (true, [⟨5, stream, some .timeMsg⟩]) := by
  have hbools : timeMessage.Bools := by
    intro k hk
    cases k <;> first | exact absurd hk (by decide) | trivial
  obtain ⟨stream, hcall, -⟩ := unmarshal_marshal_inMemory hbools (k := .time) rfl
    (rfl : sevenHandlers.lookup (some .timeMsg) = some 5)
    (rfl : PbBufOstream.marshal UnionMessage.table timeMessage 100 300 true = (_, _))
    (by decide +kernel) (show _ ≤ 300 by decide +kernel) (fun _ => 0xFF) fun _ stream _ => stream
  exact ⟨stream, hcall⟩

/-! ## The staged message -/

/-- `cobs_decode` fills an array of `msg_size` bytes, and no more. -/
theorem length_dst_decodeStaged (st : Receiver) (stack : ℕ → UInt8) :
    (st.decodeStaged stack).dst.length = st.rxBuffer.strlen := by
  by_cases h : st.staged = []
  · have hlen : st.rxBuffer.strlen = st.staged.length := rfl
    rw [st.decodeStaged_eq, hlen, h, cobsDecode, cobsDecodeLoop]
    rfl
  · rw [st.dst_decodeStaged stack h, List.length_append, List.length_singleton]
    exact Stuffing.length_unstuff h st.length_staged

/-- **What `process` has staged is parsed in memory** as by the model, wherever
    `decoded_data_array` stands, and whatever there is around it. -/
theorem parseStaged_inMemory (st : Receiver) (stack : ℕ → UInt8) (mem : ℤ → UInt8) (buf : ℕ) :
    let decoded : ℕ → UInt8 := fun x => Write.apply mem ⟨buf, (st.decodeStaged stack).dst⟩ x
    let r := PbBufStream.unmarshalWith decoded buf st.rxBuffer.strlen true ([], st.toPacketStore)
      (packetParser decoded st.toPacketStore)
    st.parseStaged stack = ((r.1, r.2.1), r.2.2) := by
  intro decoded r
  have hbytes : bytes decoded ⟨buf, st.rxBuffer.strlen⟩ = (st.decodeStaged stack).dst := by
    rw [← length_dst_decodeStaged st stack]
    exact bytes_of_holds (holds_apply mem ⟨buf, (st.decodeStaged stack).dst⟩)
  let parser : PbIstream → Bool × List Event × PacketStore := fun msg =>
    let x := st.toPacketStore.packetParser msg
    (x.1.1, x.1.2, x.2)
  have hparser : ∀ s : PbBufStream,
      Prod.map id id (packetParser decoded st.toPacketStore s).1 = parser (s.bytes decoded) := by
    intro s
    have hmsg := pbDecode_refines Packet.table decoded s .initZero
    simp only [parser, packetParser, PacketStore.packetParser]
    rw [← Packet.list_table, ← hmsg.value]
    rcases PbBufStream.pbDecode decoded Packet.table s .initZero with ⟨_ | packet, s'⟩ <;> rfl
  have hr : Prod.map id id r = _ := unmarshalWith_inMemory id parser hparser
  rw [Prod.map_id, unmarshalWith_eq] at hr
  have hr : r = _ := hr
  rw [hr, Receiver.parseStaged, ← hbytes, unmarshalWith_eq]
  rcases messageOf (bytes decoded ⟨buf, st.rxBuffer.strlen⟩) st.rxBuffer.strlen true <;> rfl

end PacketSerial
