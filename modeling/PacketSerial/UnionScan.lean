/-
  The scan of a message for its first member (`decode_unionmessage_type`), on any bytes.

  * `scan_fields`: complete fields that are no members are skipped;
  * `scan_cases`: what the scan meets after them: the tag of a member, a field that is
    not well formed, or no tag at all;
  * `scan_end`: and it ends;
  * `wellFormedDispatch_iff`: the result of `pb_skip_field` is not looked at, so that a
    field that is not well formed does not end the scan; a handler is called for such a
    message where the scan finds one in what the skip leaves.
-/
import PacketSerial.Nanopb.Grammar
import PacketSerial.ProtoBuff

namespace PacketSerial

/-! ## The loop -/

/-- The member with this tag, for a field of the wire type of members. -/
def memberAt (wireType : WireType) (tag : ℕ) : Option Member :=
  if wireType = .string then Member.all.find? fun k => k.tag = tag else none

def WireField.member (f : WireField) : Option Member := memberAt f.wireType f.tag

theorem find?_unionFields (tag : ℕ) :
    UnionMessage.fields.find? (fun f => f.tag = tag ∧ f.type &&& 0x07 ≠ 0) =
      (Member.all.find? fun k => k.tag = tag).map Member.field := by
  have htype : ∀ k : Member, k.field.type &&& 0x07 ≠ 0 := by intro k; cases k <;> decide
  rw [unionMessage_fields, List.find?_map]
  congr 2
  funext k
  simp only [Function.comp_apply, htype k, ne_eq, not_false_eq_true, and_true]
  rfl

theorem memberAt_tag {wireType : WireType} {tag : ℕ} {k : Member}
    (h : memberAt wireType tag = some k) : wireType = .string ∧ tag = k.tag := by
  unfold memberAt at h
  split_ifs at h with hw
  have := List.find?_some h
  exact ⟨hw, (of_decide_eq_true this).symm⟩

/-- One turn of the loop. -/
theorem decodeUnionmessageTypeLoop_succ (fuel : ℕ) (stream : PbIstream) :
    decodeUnionmessageTypeLoop (fuel + 1) stream =
      match pbDecodeTag stream with
      | (none, _, rest) => (none, rest)
      | (some (wireType, tag), _, rest) =>
        match memberAt wireType tag with
        | some k => (some k.ptr, rest)
        | none => decodeUnionmessageTypeLoop fuel (pbSkipField rest wireType).2 := by
  rw [decodeUnionmessageTypeLoop]
  rcases pbDecodeTag stream with ⟨_ | ⟨wireType, tag⟩, eof, rest⟩
  · rfl
  · dsimp only
    by_cases hw : wireType = .string
    · rw [if_pos hw, find?_unionFields, memberAt, if_pos hw]
      cases List.find? (fun k => decide (k.tag = tag)) Member.all <;> rfl
    · rw [if_neg hw, memberAt, if_neg hw]

/-- **The loop never runs out of fuel**: every turn takes a byte at least. -/
theorem decodeUnionmessageTypeLoop_fuel : ∀ {k n : ℕ} {stream : PbIstream},
    stream.length < k → stream.length < n →
    decodeUnionmessageTypeLoop k stream = decodeUnionmessageTypeLoop n stream
  | 0, _, _, hk, _ => by omega
  | _, 0, _, _, hn => by omega
  | k + 1, n + 1, stream, hk, hn => by
    rw [decodeUnionmessageTypeLoop_succ, decodeUnionmessageTypeLoop_succ]
    rcases ht : pbDecodeTag stream with ⟨_ | ⟨wireType, tag⟩, eof, rest⟩
    · rfl
    · have hlt := pbDecodeTag_length ht
      have hle := (pbSkipField_suffix rest wireType).length_le
      dsimp only
      rcases memberAt wireType tag with _ | m
      · exact decodeUnionmessageTypeLoop_fuel (by omega) (by omega)
      · rfl

/-- The scan, one field at a time. -/
theorem decodeUnionmessageType_eq (stream : PbIstream) :
    decodeUnionmessageType stream =
      match pbDecodeTag stream with
      | (none, _, rest) => (none, rest)
      | (some (wireType, tag), _, rest) =>
        match memberAt wireType tag with
        | some k => (some k.ptr, rest)
        | none => decodeUnionmessageType (pbSkipField rest wireType).2 := by
  rw [decodeUnionmessageType, decodeUnionmessageTypeLoop_succ]
  rcases ht : pbDecodeTag stream with ⟨_ | ⟨wireType, tag⟩, eof, rest⟩
  · rfl
  · have hlt := pbDecodeTag_length ht
    have hle := (pbSkipField_suffix rest wireType).length_le
    dsimp only
    rcases memberAt wireType tag with _ | m
    · exact decodeUnionmessageTypeLoop_fuel (by omega) (by omega)
    · rfl

/-! ## Well-formed fields -/

@[simp] theorem decodeUnionmessageType_nil : decodeUnionmessageType [] = (none, []) := rfl

/-- A complete field that is no member is skipped. -/
theorem scan_field {f : WireField} (h : f.member = none) (rest : PbIstream) :
    decodeUnionmessageType (f.bytes ++ rest) = decodeUnionmessageType rest := by
  rw [decodeUnionmessageType_eq, WireField.bytes, List.append_assoc, f.decode_key]
  dsimp only
  rw [show memberAt f.wireType f.tag = none from h, f.skip_value]

theorem scan_fields {fs : List WireField} (h : ∀ f ∈ fs, f.member = none) (rest : PbIstream) :
    decodeUnionmessageType (wireBytes fs ++ rest) = decodeUnionmessageType rest := by
  induction fs with
  | nil => rfl
  | cons f fs ih =>
    rw [List.forall_mem_cons] at h
    rw [wireBytes_cons, List.append_assoc, scan_field h.1, ih h.2]

/-- A member ends the scan, at its value. -/
theorem scan_member {f : WireField} {k : Member} (h : f.member = some k) (rest : PbIstream) :
    decodeUnionmessageType (f.bytes ++ rest) = (some k.ptr, f.value ++ rest) := by
  rw [decodeUnionmessageType_eq, WireField.bytes, List.append_assoc, f.decode_key]
  dsimp only
  rw [show memberAt f.wireType f.tag = some k from h]

/-- The tag of the member `k` stands at the start of `q`. -/
def AtMember (q : PbIstream) (k : Member) : Prop := (pbDecodeTag q).1 = some (.string, k.tag)

theorem memberAt_member (k : Member) : memberAt .string k.tag = some k := by
  cases k <;> decide

theorem scan_atMember {q : PbIstream} {k : Member} (h : AtMember q k) :
    decodeUnionmessageType q = (some k.ptr, (pbDecodeTag q).2.2) := by
  rw [decodeUnionmessageType_eq]
  rcases ht : pbDecodeTag q with ⟨_ | ⟨wireType, tag⟩, eof, rest⟩
  · simp [AtMember, ht] at h
  · simp only [AtMember, ht, Option.some.injEq, Prod.mk.injEq] at h
    obtain ⟨rfl, rfl⟩ := h
    simp only [memberAt_member]

theorem scan_noTag {q : PbIstream} (h : (pbDecodeTag q).1 = none) :
    (decodeUnionmessageType q).1 = none := by
  rw [decodeUnionmessageType_eq]
  rcases ht : pbDecodeTag q with ⟨_ | r, eof, rest⟩
  · rfl
  · simp [ht] at h

/-- The scan goes from `q` to `q'` past a field that is no member. -/
def SkipsTo (q q' : PbIstream) : Prop :=
  ∃ wireType tag, (pbDecodeTag q).1 = some (wireType, tag) ∧ memberAt wireType tag = none ∧
    q' = (pbSkipField (pbDecodeTag q).2.2 wireType).2

theorem scan_skip {q q' : PbIstream} (h : SkipsTo q q') :
    decodeUnionmessageType q = decodeUnionmessageType q' := by
  obtain ⟨wireType, tag, ht, hm, rfl⟩ := h
  rw [decodeUnionmessageType_eq q]
  rcases hd : pbDecodeTag q with ⟨_ | r, eof, rest⟩ <;> rw [hd] at ht
  · cases ht
  · cases ht
    dsimp only
    rw [hm]

theorem scan_skips {q q' : PbIstream} (h : Relation.ReflTransGen SkipsTo q q') :
    decodeUnionmessageType q = decodeUnionmessageType q' := by
  induction h with
  | refl => rfl
  | tail _ hs ih => rw [ih, scan_skip hs]

/-- It takes a byte at least. -/
theorem SkipsTo.length_lt {q q' : PbIstream} (h : SkipsTo q q') : q'.length < q.length := by
  obtain ⟨wireType, tag, ht, -, rfl⟩ := h
  exact (pbSkipField_suffix _ wireType).length_le.trans_lt
    (pbDecodeTag_length (Prod.ext ht (Prod.ext rfl rfl)))

/-- **The scan ends**, at a member or where there is no tag. -/
theorem scan_end (q : PbIstream) :
    ∃ q', Relation.ReflTransGen SkipsTo q q' ∧
      ((∃ k, AtMember q' k) ∨ (pbDecodeTag q').1 = none) := by
  induction h : q.length using Nat.strong_induction_on generalizing q with
  | _ n ih =>
    subst h
    rcases ht : (pbDecodeTag q).1 with _ | ⟨wireType, tag⟩
    · exact ⟨q, .refl, Or.inr ht⟩
    rcases hm : memberAt wireType tag with _ | k
    · have hs : SkipsTo q _ := ⟨wireType, tag, ht, hm, rfl⟩
      obtain ⟨q', hq', hend⟩ := ih _ hs.length_lt _ rfl
      exact ⟨q', .head hs hq', hend⟩
    · obtain ⟨rfl, rfl⟩ := memberAt_tag hm
      exact ⟨q, .refl, Or.inl ⟨k, ht⟩⟩

/-- What the scan has come to: neither a member nor a complete field. -/
structure Broken (q : PbIstream) : Prop where
  no_member : ∀ k, ¬ AtMember q k
  no_field : ∀ f : WireField, ¬ f.bytes <+: q

/-- A field that `pb_skip_field` refuses is not complete. -/
theorem broken_of_skip {q v : PbIstream} {wireType : WireType} {tag : ℕ} {eof : Bool}
    (ht : pbDecodeTag q = (some (wireType, tag), eof, v)) (hm : memberAt wireType tag = none)
    (hs : (pbSkipField v wireType).1 = false) : Broken q := by
  constructor
  · intro k hk
    simp only [AtMember, ht, Option.some.injEq, Prod.mk.injEq] at hk
    rw [hk.1, hk.2, memberAt_member] at hm
    cases hm
  · rintro f ⟨x, hx⟩
    have hkey := f.decode_key (f.value ++ x)
    rw [← List.append_assoc, show f.key ++ f.value = f.bytes from rfl, hx, ht] at hkey
    simp only [Prod.mk.injEq, Option.some.injEq] at hkey
    obtain ⟨⟨hw, -⟩, -, hv⟩ := hkey
    rw [hv, hw, f.skip_value] at hs
    cases hs

/-- **What the scan comes to** after complete fields that are no members. -/
theorem scan_cases (msg : PbIstream) :
    ∃ (fs : List WireField) (q : PbIstream), msg = wireBytes fs ++ q ∧
      (∀ f ∈ fs, f.member = none) ∧ ((∃ k, AtMember q k) ∨ Broken q) := by
  induction h : msg.length using Nat.strong_induction_on generalizing msg with
  | _ n ih =>
    subst h
    by_cases hk : ∃ k, AtMember msg k
    · exact ⟨[], msg, rfl, by simp, Or.inl hk⟩
    by_cases hf : ∃ f : WireField, f.bytes <+: msg
    · obtain ⟨f, rest, rfl⟩ := hf
      have hpos := f.length_pos
      obtain ⟨fs, q, hq, hfs, hend⟩ := ih rest.length (by rw [List.length_append]; omega) rest rfl
      refine ⟨f :: fs, q, by rw [hq, wireBytes_cons, List.append_assoc], ?_, hend⟩
      rw [List.forall_mem_cons]
      refine ⟨?_, hfs⟩
      rcases hm : f.member with _ | k
      · rfl
      · -- the field would be the member that is not there
        obtain ⟨hw, ht⟩ := memberAt_tag hm
        refine absurd ⟨k, ?_⟩ hk
        rw [AtMember, WireField.bytes, List.append_assoc, f.decode_key, hw, ht]
    · exact ⟨[], msg, rfl, by simp, Or.inr ⟨not_exists.1 hk, not_exists.1 hf⟩⟩

/-! ## Messages that `marshal` writes -/

/-- A member, as `marshal` writes it, is a field. -/
theorem Member.exists_field (k : Member) {x : List UInt8} (h : x.length < 2 ^ 32) :
    ∃ f : WireField, f.bytes = bytesWire k.tag x ∧ f.member = some k := by
  have htag : 0 < k.tag ∧ k.tag < 8 := by cases k <;> decide
  refine ⟨⟨Varint.encode (8 * k.tag + 2), .string, k.tag, delimit x, htag.1, by omega,
    ⟨Varint.numeral_encode _, (length_encode_le_five (by omega)).trans (by omega)⟩,
    .string ⟨Varint.numeral_encode _, (length_encode_le_five h).trans (by omega)⟩ h⟩, rfl,
    memberAt_member k⟩

/-- So a message is a sequence of complete fields, its members. -/
theorem UnionMessage.wire_fields {m : UnionMessage} (h : m.WF) :
    ∃ fs : List WireField, m.wire = wireBytes fs ∧
      fs.map WireField.member = (Member.all.filter fun k => k.has m).map some := by
  have hall : ∀ ks : List Member, ∃ fs : List WireField,
      (ks.flatMap fun k => k.fieldWire m) = wireBytes fs ∧
        fs.map WireField.member = (ks.filter fun k => k.has m).map some := by
    intro ks
    induction ks with
    | nil => exact ⟨[], rfl, rfl⟩
    | cons k ks ih =>
      obtain ⟨fs, hfs, hm⟩ := ih
      by_cases hk : k.has m
      · have hlen := k.length_wire (h k hk)
        obtain ⟨f, hf, hmem⟩ := k.exists_field (x := k.wire (k.get m)) (by omega)
        refine ⟨f :: fs, ?_, by simp [hk, hm, hmem]⟩
        rw [List.flatMap_cons, hfs, wireBytes_cons, hf, Member.fieldWire, if_pos hk]
      · refine ⟨fs, ?_, by simp [hk, hm]⟩
        rw [List.flatMap_cons, hfs, Member.fieldWire, if_neg hk, List.nil_append]
  exact hall Member.all

/-! ## Messages that are not well formed -/

/-- Only well-formed fields stand before a member that is dispatched, and a message with
    a broken field before its first member is not dispatched. -/
structure WellFormedDispatch (reg : Registry) (buf : List UInt8) (bufsize : ℕ)
    (delimited : Bool) : Prop where
  before : ∀ call ∈ (unmarshal reg buf bufsize delimited).2,
    ∃ (msg : PbIstream) (fs : List WireField) (tagBytes : List UInt8) (k : Member),
      messageOf buf bufsize delimited = some msg ∧
      msg = wireBytes fs ++ (tagBytes ++ call.decodeStream) ∧ (∀ f ∈ fs, f.member = none) ∧
      call.type = some k.ptr ∧ AtMember (tagBytes ++ call.decodeStream) k ∧
      (pbDecodeTag (tagBytes ++ call.decodeStream)).2.2 = call.decodeStream
  broken : ∀ (msg : PbIstream) (fs : List WireField) (q : PbIstream),
    messageOf buf bufsize delimited = some msg → msg = wireBytes fs ++ q →
    (∀ f ∈ fs, f.member = none) → Broken q → unmarshal reg buf bufsize delimited = (false, [])

/-- The condition under which it does so: from a broken field on, the scan comes to no
    member with a handler, nor, where a handler is registered for `NULL`, to the end. -/
def NothingPastBroken (reg : Registry) (msg : PbIstream) : Prop :=
  ∀ (fs : List WireField) (q q' : PbIstream), msg = wireBytes fs ++ q →
    (∀ f ∈ fs, f.member = none) → Broken q → Relation.ReflTransGen SkipsTo q q' →
    (∀ k, AtMember q' k → reg.findHandler (some k.ptr) = none) ∧
      ((pbDecodeTag q').1 = none → reg.findHandler none = none)

/-- Where the scan finds nothing that is handled, no handler is called, and nowhere else. -/
theorem unmarshalLookupCallback_eq_nil {reg : Registry} {q : PbIstream} :
    unmarshalLookupCallback reg q = (false, []) ↔
      reg.findHandler (decodeUnionmessageType q).1 = none := by
  rcases hf : reg.findHandler (decodeUnionmessageType q).1 with _ | idx <;>
    simp [unmarshalLookupCallback, hf]

theorem unmarshalLookupCallback_broken {reg : Registry} {q : PbIstream}
    (h : ∀ q', Relation.ReflTransGen SkipsTo q q' →
      (∀ k, AtMember q' k → reg.findHandler (some k.ptr) = none) ∧
        ((pbDecodeTag q').1 = none → reg.findHandler none = none)) :
    unmarshalLookupCallback reg q = (false, []) := by
  obtain ⟨q', hq', hend⟩ := scan_end q
  obtain ⟨hmember, hnone⟩ := h q' hq'
  rw [unmarshalLookupCallback_eq_nil, scan_skips hq']
  rcases hend with ⟨k, hk⟩ | he
  · rw [scan_atMember hk]
    exact hmember k hk
  · rw [scan_noTag he]
    exact hnone he

/-- At a member, the only call is that of its handler. -/
theorem calls_atMember {reg : Registry} {q : PbIstream} {k : Member} (hk : AtMember q k)
    {call : Call} (hcall : call ∈ (unmarshalLookupCallback reg q).2) :
    call.type = some k.ptr ∧ call.decodeStream = (pbDecodeTag q).2.2 := by
  simp only [unmarshalLookupCallback, scan_atMember hk] at hcall
  split at hcall
  · rw [List.mem_singleton] at hcall
    subst hcall
    exact ⟨rfl, rfl⟩
  · cases hcall

/-- Complete fields that are no members make no difference. -/
theorem unmarshal_fields {reg : Registry} {buf : List UInt8} {bufsize : ℕ} {delimited : Bool}
    {fs : List WireField} {q : PbIstream}
    (hmsg : messageOf buf bufsize delimited = some (wireBytes fs ++ q))
    (hfs : ∀ f ∈ fs, f.member = none) :
    unmarshal reg buf bufsize delimited = unmarshalLookupCallback reg q := by
  rw [unmarshal, unmarshalWith_eq, hmsg, Option.elim_some]
  simp only [unmarshalLookupCallback, scan_fields hfs]

/-- **A message with a broken field may be dispatched.**  `decode_unionmessage_type` does
    not look at the result of `pb_skip_field` and reads on inside the broken field; only
    where it finds no member with a handler there is the message refused. -/
theorem wellFormedDispatch_iff (reg : Registry) (buf : List UInt8) (bufsize : ℕ)
    (delimited : Bool) :
    WellFormedDispatch reg buf bufsize delimited ↔
      ∀ msg, messageOf buf bufsize delimited = some msg → NothingPastBroken reg msg := by
  constructor
  · rintro h msg hmsg fs q q' rfl hfs hb hs
    have hcall := h.broken _ fs q hmsg rfl hfs hb
    rw [unmarshal_fields hmsg hfs, unmarshalLookupCallback_eq_nil, scan_skips hs] at hcall
    refine ⟨fun k hk => ?_, fun he => ?_⟩
    · rwa [scan_atMember hk] at hcall
    · rwa [scan_noTag he] at hcall
  · intro h
    have hbroken : ∀ (msg : PbIstream) (fs : List WireField) (q : PbIstream),
        messageOf buf bufsize delimited = some msg → msg = wireBytes fs ++ q →
        (∀ f ∈ fs, f.member = none) → Broken q →
        unmarshal reg buf bufsize delimited = (false, []) := by
      rintro msg fs q hmsg rfl hfs hb
      rw [unmarshal_fields hmsg hfs]
      exact unmarshalLookupCallback_broken fun q' hs => h _ hmsg fs q q' rfl hfs hb hs
    refine ⟨fun call hcall => ?_, hbroken⟩
    rcases hmsg : messageOf buf bufsize delimited with _ | msg
    · rw [unmarshal, unmarshalWith_eq, hmsg] at hcall
      cases hcall
    obtain ⟨fs, q, rfl, hfs, ⟨k, hk⟩ | hb⟩ := scan_cases msg
    · rw [unmarshal_fields hmsg hfs] at hcall
      obtain ⟨htype, hstream⟩ := calls_atMember hk hcall
      obtain ⟨tagBytes, htag⟩ := pbDecodeTag_suffix q
      refine ⟨_, fs, tagBytes, k, rfl, ?_, hfs, htype, ?_, ?_⟩
      · rw [hstream, htag]
      · rwa [hstream, htag]
      · rw [hstream, htag]
    · rw [hbroken _ fs q hmsg rfl hfs hb] at hcall
      cases hcall

/-- A field with the unused tag 15, of 127 bytes as it says, and with two bytes left. -/
def brokenMessage : List UInt8 := [0x7A, 0x7F, 0x0A, 0x00]

/-- The first of them is the tag of a member, and its handler is called. -/
theorem brokenMessage_dispatched :
    ¬ WellFormedDispatch sevenHandlers brokenMessage brokenMessage.length false := by
  intro h
  have htag : pbDecodeTag brokenMessage = (some (.string, 15), false, [0x7F, 0x0A, 0x00]) := rfl
  have hb : Broken brokenMessage := broken_of_skip htag rfl rfl
  have := h.broken brokenMessage [] brokenMessage rfl rfl (by simp) hb
  revert this
  decide

end PacketSerial
