/-
  The messages as their fields: what the receiver makes of a message that any encoder of the
  format wrote, with fields in any order, numbers in more bytes than they need, and fields
  that the tables do not have.

  * `Packet.fields_separate`, `Member.fields_separate`: no two fields of a table have anything
    in common;
  * `unmarshal_decodes`: the handler of the first member is called, and `decode_union` does to
    its struct what the fields of the member say;
  * `decodeUnion_same_fields`: neither the order of different fields nor unknown ones matter.
-/
import PacketSerial.Handlers
import PacketSerial.Nanopb.Semantics

namespace PacketSerial

/-! ## The tables -/

theorem Packet.fields_separate : Separate Packet.fields := by
  simp [separate_iff, Packet.fields, PbMember.apart_iff]

theorem DeviceDescriptor.fields_separate : Separate DeviceDescriptor.fields := by
  simp [separate_iff, DeviceDescriptor.fields, PbMember.apart_iff]

theorem HIDReport.fields_separate : Separate HIDReport.fields := by
  simp [separate_iff, HIDReport.fields]

theorem InputReport.fields_separate : Separate InputReport.fields := by
  simp [separate_iff, InputReport.fields]

theorem SpeechSynthMsg.fields_separate : Separate SpeechSynthMsg.fields := by
  simp [separate_iff, SpeechSynthMsg.fields]

theorem TimeMsg.fields_separate : Separate TimeMsg.fields := by
  simp [separate_iff, TimeMsg.fields, PbMember.apart_iff]

theorem AlarmMsg.fields_separate : Separate AlarmMsg.fields := by
  simp [separate_iff, AlarmMsg.fields, PbMember.apart_iff]

theorem NeoPixelMsg.fields_separate : Separate NeoPixelMsg.fields := by
  simp [separate_iff, NeoPixelMsg.fields, PbMember.apart_iff]

theorem Member.fields_separate (k : Member) : Separate k.fields := by
  cases k with
  | deviceDescriptor => exact DeviceDescriptor.fields_separate
  | hidReport => exact HIDReport.fields_separate
  | inputReport => exact InputReport.fields_separate
  | speechSynth => exact SpeechSynthMsg.fields_separate
  | time => exact TimeMsg.fields_separate
  | alarm => exact AlarmMsg.fields_separate
  | neopixel => exact NeoPixelMsg.fields_separate

/-! ## Members -/

/-- A value with its length in front, which may be written in more bytes than it needs. -/
structure Delimited (w v : List UInt8) : Prop where
  exists_size : ∃ size, IsNumeral size w.length ∧ v = size ++ w
  lt : w.length < 2 ^ 32

theorem Delimited.substream {w v : List UInt8} (h : Delimited w v) (rest : PbIstream) :
    pbMakeStringSubstream (v ++ rest) = (some w, rest) := by
  obtain ⟨⟨size, hsize, rfl⟩, hlt⟩ := h
  rw [pbMakeStringSubstream, List.append_assoc,
    pbDecodeVarint32_numeral hsize.1 (hsize.2.trans (by omega)) hlt]
  simp [pbRead]

/-- The struct that the fields of a message make of one with its defaults. -/
def structOf {σ : Type} (fields : List (PbField FieldsPtr σ)) (ws : List WireField) (dest : σ) :
    Option σ :=
  if HasRequired fields ws then decodeFields fields ws (pbMessageSetToDefaults fields dest)
    else none

theorem pbDecode_wireBytes {σ : Type} {fields : List (PbField FieldsPtr σ)} (hwf : TableWF fields)
    (hs : Separate fields) {ws : List WireField} (ht : WellTyped fields ws) (dest : σ) :
    pbDecode fields (wireBytes ws) dest = structOf fields ws dest :=
  pbDecodeNoinit_wireBytes hwf hs.loc ht _

theorem decodeUnion_wireBytes (k : Member) {ws : List WireField} (ht : WellTyped k.fields ws)
    {v : List UInt8} (hv : Delimited (wireBytes ws) v) (rest : PbIstream) (dest : k.Struct) :
    decodeUnion (v ++ rest) k.fields dest = (structOf k.fields ws dest, rest) := by
  rw [decodeUnion, hv.substream]
  exact congrArg (·, rest) (pbDecode_wireBytes k.fields_wf k.fields_separate ht dest)

/-- **A message of any encoder is dispatched and decoded.**  The handler registered for its
    first member is called, and `decode_union` makes of the stream it gets what the fields of
    the member say. -/
theorem unmarshal_decodes (calls : List RegistryCall) {before after : List WireField}
    (hbefore : ∀ w ∈ before, w.member = none) {f : WireField} {k : Member}
    (hf : f.member = some k) {ws : List WireField} (ht : WellTyped k.fields ws)
    (hv : Delimited (wireBytes ws) f.value) {delimited : Bool} {buf : List UInt8}
    (hbuf : MessageEncoding (wireBytes (before ++ f :: after)) delimited buf) (dest : k.Struct) :
    let reg := (Machine.run Registry.call .empty calls).2
    match (Machine.run HandlerMap.call ∅ calls).2.lookup k.ptr with
    | none => unmarshal reg buf buf.length delimited = (false, [])
    | some callback => ∃ stream,
        unmarshal reg buf buf.length delimited = (true, [⟨callback, stream, some k.ptr⟩]) ∧
          (decodeUnion stream k.fields dest).1 = structOf k.fields ws dest := by
  intro reg
  obtain ⟨-, href⟩ := Registry.run_refines calls
  have hscan : ∀ m : HandlerMap, m.unmarshal (before ++ f :: after) = m.unmarshal (f :: after) := by
    intro m
    clear hbuf
    induction before with
    | nil => rfl
    | cons w before ih =>
      rw [List.forall_mem_cons] at hbefore
      rw [List.cons_append, HandlerMap.unmarshal, hbefore.1]
      exact ih hbefore.2
  have hun : unmarshal reg buf buf.length delimited =
      (Machine.run HandlerMap.call ∅ calls).2.unmarshal (f :: after) := by
    rw [unmarshal, unmarshalWith_eq, hbuf.messageOf, ← hscan]
    exact href.unmarshalLookupCallback _
  rw [HandlerMap.unmarshal, hf] at hun
  dsimp only at hun
  rcases hl : (Machine.run HandlerMap.call ∅ calls).2.lookup k.ptr with _ | callback <;>
    rw [hl] at hun
  · exact hun
  · exact ⟨_, hun, congrArg Prod.fst (decodeUnion_wireBytes k ht hv _ dest)⟩

/-- A field with a number of one or two bytes, of a tag below 16. -/
def shortField (tag n : Fin 16) (padded : Bool) (h : tag ≠ 0) : WireField where
  key := [UInt8.ofNat (8 * tag)]
  wireType := .varint
  tag := tag
  value := if padded then [UInt8.ofNat (128 + n), 0] else [UInt8.ofNat n]
  tag_pos := by omega
  tag_lt := by omega
  key_numeral := by
    have hb : (UInt8.ofNat (8 * tag)).toNat = 8 * tag + 0 := by
      rw [UInt8.toNat_ofNat']; omega
    refine ⟨?_, by simp⟩
    rw [show WireType.varint.code = 0 from rfl, ← hb]
    exact .last (by omega)
  complete := by
    have hb : (UInt8.ofNat n).toNat = n := by rw [UInt8.toNat_ofNat']; omega
    have hb' : (UInt8.ofNat (128 + n)).toNat = 128 + n := by rw [UInt8.toNat_ofNat']; omega
    cases padded with
    | false => exact .varint ⟨.last (by omega), by simp⟩ (by omega)
    | true =>
      refine .varint ⟨.more (by omega) (.last (by decide)), by simp⟩ ?_
      rw [hb']
      simp only [UInt8.toNat_ofNat]
      omega

/-- A `TimeMsg` from its end, with a number in more bytes than it needs and a field that
    `TimeMsg` does not have. -/
def strangeTime : List WireField :=
  [shortField 3 4 false (by decide), shortField 9 1 false (by decide),
    shortField 2 5 true (by decide), shortField 1 7 false (by decide)]

/-- A packet from its end, with a sequence number in two bytes, a field that `Packet` does not
    have, and its flag twice: the last one counts. -/
def strangePacket : List WireField :=
  [shortField 4 0 false (by decide), shortField 3 9 false (by decide),
    shortField 2 5 true (by decide), shortField 9 1 false (by decide),
    shortField 4 3 false (by decide),
    { key := [10]
      wireType := .string
      tag := 1
      value := [2, 104, 105]
      tag_pos := by decide
      tag_lt := by decide
      key_numeral := ⟨.last (b := 10) (by decide), by decide⟩
      complete := .string (s := [104, 105]) ⟨.last (b := 2) (by decide), by decide⟩ (by decide) }]

theorem strangeTime_wellTyped : WellTyped Member.time.fields strangeTime := by
  intro w hw i f hf
  simp only [strangeTime, List.mem_cons, List.not_mem_nil, or_false] at hw
  rcases hw with rfl | rfl | rfl | rfl <;> cases hf <;> rfl

def strangeTimeField : WireField where
  key := [42]
  wireType := .string
  tag := 5
  value := [9] ++ wireBytes strangeTime
  tag_pos := by decide
  tag_lt := by decide
  key_numeral := ⟨.last (b := 42) (by decide), by decide⟩
  complete := .string ⟨.last (b := 9) (by decide), by decide⟩ (by decide)

theorem unmarshal_decodes_strangeTime : ∃ stream,
    unmarshal (Machine.run Registry.call .empty [.addHandler .timeMsg 5]).2
        (wireBytes [shortField 8 1 false (by decide), strangeTimeField])
        (wireBytes [shortField 8 1 false (by decide), strangeTimeField]).length false =
      (true, [⟨5, stream, some .timeMsg⟩]) ∧
    (decodeUnion stream TimeMsg.fields ⟨0, 0, 0⟩).1 = some ⟨7, 5, 4⟩ := by
  exact @unmarshal_decodes [.addHandler .timeMsg 5] [shortField 8 1 false (by decide)] []
    (by decide) strangeTimeField .time (by decide) strangeTime strangeTime_wellTyped
    ⟨⟨[9], ⟨.last (b := 9) (by decide), by decide⟩, rfl⟩, by decide⟩ _ _ .plain ⟨0, 0, 0⟩

/-- **Neither the order of different fields nor unknown ones matter**: two encodings of a member
    in which each of its fields occurs the same are decoded to the same struct. -/
theorem decodeUnion_same_fields (k : Member) {ws ws' : List WireField}
    (ht : WellTyped k.fields ws) (ht' : WellTyped k.fields ws')
    (hsame : ∀ f ∈ k.fields,
      ws.filter (fun w => w.tag = f.tag) = ws'.filter fun w => w.tag = f.tag)
    {v v' : List UInt8} (hv : Delimited (wireBytes ws) v) (hv' : Delimited (wireBytes ws') v')
    (rest rest' : PbIstream) (dest : k.Struct) :
    (decodeUnion (v ++ rest) k.fields dest).1 = (decodeUnion (v' ++ rest') k.fields dest).1 := by
  rw [decodeUnion, decodeUnion, hv.substream, hv'.substream]
  exact decode_same_fields k.fields_wf k.fields_separate ht ht' hsame _

/-- The same in the order of the tags, without the field that it does not have. -/
theorem decodeUnion_same_fields_strangeTime :
    (decodeUnion ([9] ++ wireBytes strangeTime) TimeMsg.fields ⟨0, 0, 0⟩).1 =
      (decodeUnion ([7] ++ wireBytes [shortField 1 7 false (by decide),
        shortField 2 5 true (by decide), shortField 3 4 false (by decide)] ++ [1])
        TimeMsg.fields ⟨0, 0, 0⟩).1 := by
  have ht : WellTyped Member.time.fields [shortField 1 7 false (by decide),
      shortField 2 5 true (by decide), shortField 3 4 false (by decide)] := by
    intro w hw
    refine strangeTime_wellTyped w ?_
    simp only [strangeTime, List.mem_cons, List.not_mem_nil, or_false] at hw ⊢
    tauto
  have hsame : ∀ f ∈ Member.time.fields, strangeTime.filter (fun w => w.tag = f.tag) =
      [shortField 1 7 false (by decide), shortField 2 5 true (by decide),
        shortField 3 4 false (by decide)].filter fun w => w.tag = f.tag := by
    iterate 3 refine List.forall_mem_cons.2 ⟨rfl, ?_⟩
    exact fun f hf => absurd hf List.not_mem_nil
  exact decodeUnion_same_fields .time strangeTime_wellTyped ht hsame
    ⟨⟨[9], ⟨.last (b := 9) (by decide), by decide⟩, rfl⟩, by decide⟩
    ⟨⟨[7], ⟨.last (b := 7) (by decide), by decide⟩, rfl⟩, by decide⟩ [] [1] ⟨0, 0, 0⟩

end PacketSerial
