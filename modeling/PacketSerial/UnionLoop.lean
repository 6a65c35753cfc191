/-
  The loop of `decode_unionmessage_type`, on a stream in memory, and that it ends.

  * `ScanRun`: a run of the loop, with its turns; nothing bounds their number;
  * `ScanRun.turns_le`: every turn takes a byte at least, and stays inside the message,
    whatever `pb_skip_field` does;
  * `scan_terminates`: so there is a run, one only, of no more turns than there are bytes;
    `decodeUnionmessageType` computes what it returns.
-/
import PacketSerial.Nanopb.BufStream
import PacketSerial.UnionScan

namespace PacketSerial

/-! ## The loop -/

/-- The loop over the table, for one field: the entry with its tag. -/
def unionField (wireType : WireType) (tag : ℕ) : Option (PbField FieldsPtr UnionMessage) :=
  if wireType = .string then
    UnionMessage.fields.find? fun f => f.tag = tag ∧ f.type &&& 0x07 ≠ 0
  else none

/-- A turn of the loop: the stream before it, and after it. -/
structure ScanTurn where
  before : PbBufStream
  after : PbBufStream
deriving DecidableEq, Repr

/-- A run of the loop: its turns, and the pointer returned with the stream it leaves. -/
inductive ScanRun (mem : ℕ → UInt8) :
    PbBufStream → List ScanTurn → Option FieldsPtr × PbBufStream → Prop
  | stop {s rest eof} : s.pbDecodeTag mem = (none, eof, rest) → ScanRun mem s [] (none, rest)
  | found {s rest wireType tag eof f} : s.pbDecodeTag mem = (some (wireType, tag), eof, rest) →
      unionField wireType tag = some f → ScanRun mem s [⟨s, rest⟩] (f.ptr, rest)
  -- the result of `pb_skip_field` is not looked at
  | skip {s rest after wireType tag eof ok turns r} :
      s.pbDecodeTag mem = (some (wireType, tag), eof, rest) → unionField wireType tag = none →
      rest.pbSkipField mem wireType = (ok, after) → ScanRun mem after turns r →
      ScanRun mem s (⟨s, after⟩ :: turns) r

/-- Nothing in it is left open. -/
theorem ScanRun.unique {mem : ℕ → UInt8} {s : PbBufStream} {turns turns' : List ScanTurn}
    {r r' : Option FieldsPtr × PbBufStream} (h : ScanRun mem s turns r)
    (h' : ScanRun mem s turns' r') : turns' = turns ∧ r' = r := by
  induction h generalizing turns' with
  | stop ht =>
    cases h' with
    | stop ht' => cases ht.symm.trans ht'; exact ⟨rfl, rfl⟩
    | found ht' => cases ht.symm.trans ht'
    | skip ht' => cases ht.symm.trans ht'
  | found ht hf =>
    cases h' with
    | stop ht' => cases ht.symm.trans ht'
    | found ht' hf' =>
      cases ht.symm.trans ht'
      cases hf.symm.trans hf'
      exact ⟨rfl, rfl⟩
    | skip ht' hf' =>
      cases ht.symm.trans ht'
      cases hf.symm.trans hf'
  | skip ht hf hs _ ih =>
    cases h' with
    | stop ht' => cases ht.symm.trans ht'
    | found ht' hf' =>
      cases ht.symm.trans ht'
      cases hf.symm.trans hf'
    | skip ht' _ hs' hr' =>
      cases ht.symm.trans ht'
      cases hs.symm.trans hs'
      obtain ⟨rfl, rfl⟩ := ih hr'
      exact ⟨rfl, rfl⟩

/-! ## What a turn takes -/

namespace PbBufStream

section
variable {mem : ℕ → UInt8} {s rest : PbBufStream}

/-- The tag decoder goes no further than the end, whether it finds a tag or not. -/
theorem pbDecodeTag_within {tag : Option (WireType × ℕ)} {eof : Bool}
    (h : s.pbDecodeTag mem = (tag, eof, rest)) :
    Within s rest ∧ PacketSerial.pbDecodeTag (s.bytes mem) = (tag, eof, rest.bytes mem) := by
  rw [pbDecodeTag_eq] at h
  rcases hd : PacketSerial.pbDecodeTag (s.bytes mem) with ⟨t, e, l⟩
  have hsuf := pbDecodeTag_suffix (s.bytes mem)
  rw [hd] at h hsuf
  cases h
  exact ⟨leave_within (hsuf.length_le.trans_eq (length_bytes mem s)), by rw [bytes_leave hsuf]⟩

/-- When it finds one, it takes a byte at least. -/
theorem pbDecodeTag_lt {x : WireType × ℕ} {eof : Bool}
    (h : s.pbDecodeTag mem = (some x, eof, rest)) : rest.bytesLeft < s.bytesLeft := by
  have hlt := pbDecodeTag_length (pbDecodeTag_within h).2
  rwa [length_bytes, length_bytes] at hlt

/-- `pb_skip_field` goes no further than the end, and never back. -/
theorem pbSkipField_within {wireType : WireType} {ok : Bool}
    (h : s.pbSkipField mem wireType = (ok, rest)) :
    Within s rest ∧ (PacketSerial.pbSkipField (s.bytes mem) wireType).2 = rest.bytes mem := by
  rw [pbSkipField_eq] at h
  cases h
  have hsuf := pbSkipField_suffix (s.bytes mem) wireType
  exact ⟨leave_within (hsuf.length_le.trans_eq (length_bytes mem s)), (bytes_leave hsuf).symm⟩

end

end PbBufStream

open PbBufStream

section
variable {mem : ℕ → UInt8} {s : PbBufStream} {turns : List ScanTurn}
  {r : Option FieldsPtr × PbBufStream}

/-- **Every turn takes a byte at least**, and none goes past the end. -/
theorem ScanRun.turns_le (h : ScanRun mem s turns r) :
    turns.length + r.2.bytesLeft ≤ s.bytesLeft ∧ Within s r.2 ∧
      ∀ turn ∈ turns, turn.after.bytesLeft < turn.before.bytesLeft ∧
        Within s turn.before ∧ Within s turn.after := by
  induction h with
  | stop ht =>
    obtain ⟨hw, -⟩ := pbDecodeTag_within ht
    refine ⟨?_, hw, by simp⟩
    rw [List.length_nil, zero_add]
    exact hw.bytesLeft_le
  | found ht _ =>
    obtain ⟨hw, -⟩ := pbDecodeTag_within ht
    have hlt := pbDecodeTag_lt ht
    refine ⟨?_, hw, fun turn hturn => ?_⟩
    · dsimp only
      rw [List.length_singleton]
      omega
    · rw [List.mem_singleton] at hturn
      subst hturn
      exact ⟨hlt, .refl _, hw⟩
  | skip ht _ hs _ ih =>
    obtain ⟨hw, -⟩ := pbDecodeTag_within ht
    obtain ⟨hw', -⟩ := pbSkipField_within hs
    have hlt := pbDecodeTag_lt ht
    have hle := hw'.bytesLeft_le
    obtain ⟨hlen, hend, hturns⟩ := ih
    refine ⟨?_, (hw.trans hw').trans hend, fun turn hturn => ?_⟩
    · rw [List.length_cons]
      omega
    · rcases List.mem_cons.1 hturn with rfl | hturn
      · exact ⟨by dsimp only; omega, .refl _, hw.trans hw'⟩
      · obtain ⟨h1, h2, h3⟩ := hturns turn hturn
        exact ⟨h1, (hw.trans hw').trans h2, (hw.trans hw').trans h3⟩

theorem unionField_eq (wireType : WireType) (tag : ℕ) :
    unionField wireType tag = (memberAt wireType tag).map Member.field := by
  rw [unionField, memberAt, find?_unionFields]
  split_ifs <;> rfl

/-- `decodeUnionmessageType` computes what a run returns. -/
theorem ScanRun.result (h : ScanRun mem s turns r) :
    decodeUnionmessageType (s.bytes mem) = (r.1, r.2.bytes mem) := by
  induction h with
  | stop ht =>
    obtain ⟨-, hd⟩ := pbDecodeTag_within ht
    rw [decodeUnionmessageType_eq, hd]
  | @found s rest wireType tag eof f ht hf =>
    obtain ⟨-, hd⟩ := pbDecodeTag_within ht
    rw [unionField_eq, Option.map_eq_some_iff] at hf
    obtain ⟨k, hk, rfl⟩ := hf
    rw [decodeUnionmessageType_eq, hd]
    dsimp only
    rw [hk]
    rfl
  | skip ht hf hs _ ih =>
    obtain ⟨-, hd⟩ := pbDecodeTag_within ht
    obtain ⟨-, hrest⟩ := pbSkipField_within hs
    rw [unionField_eq, Option.map_eq_none_iff] at hf
    rw [decodeUnionmessageType_eq, hd]
    dsimp only
    rw [hf]
    dsimp only
    rw [hrest, ih]

/-- There is a run, from every stream. -/
theorem exists_scanRun (mem : ℕ → UInt8) (s : PbBufStream) :
    ∃ turns r, ScanRun mem s turns r := by
  induction hn : s.bytesLeft using Nat.strong_induction_on generalizing s with
  | _ n ih =>
    subst hn
    rcases ht : s.pbDecodeTag mem with ⟨_ | ⟨wireType, tag⟩, eof, rest⟩
    · exact ⟨_, _, .stop ht⟩
    · rcases hf : unionField wireType tag with _ | f
      · rcases hs : rest.pbSkipField mem wireType with ⟨ok, after⟩
        have hlt := pbDecodeTag_lt ht
        have hle := (pbSkipField_within hs).1.bytesLeft_le
        obtain ⟨turns, r, hr⟩ := ih after.bytesLeft (by omega) after rfl
        exact ⟨_, _, .skip ht hf hs hr⟩
      · exact ⟨_, _, .found ht hf⟩

end

/-- **The scan of a union message ends**, on any bytes: there is one run of the loop, it has
    no more turns than the message has bytes, every turn leaves less of the message than it
    found, and the pointer never passes the end. -/
theorem scan_terminates (mem : ℕ → UInt8) (s : PbBufStream) :
    ∃ turns r, ScanRun mem s turns r ∧
      (∀ turns' r', ScanRun mem s turns' r' → turns' = turns ∧ r' = r) ∧
      turns.length ≤ s.bytesLeft ∧
      (∀ turn ∈ turns, turn.after.bytesLeft < turn.before.bytesLeft) ∧
      (∀ s' ∈ r.2 :: turns.flatMap fun turn => [turn.before, turn.after],
        s.state ≤ s'.state ∧ s'.state + s'.bytesLeft = s.state + s.bytesLeft) ∧
      decodeUnionmessageType (s.bytes mem) = (r.1, r.2.bytes mem) := by
  obtain ⟨turns, r, h⟩ := exists_scanRun mem s
  obtain ⟨hlen, hend, hturns⟩ := h.turns_le
  refine ⟨turns, r, h, fun _ _ h' => h.unique h', by omega, fun turn ht => (hturns turn ht).1, ?_,
    h.result⟩
  intro s' hs'
  rcases List.mem_cons.1 hs' with rfl | hs'
  · exact ⟨hend.start, hend.stop⟩
  · obtain ⟨turn, hturn, hs'⟩ := List.mem_flatMap.1 hs'
    obtain ⟨-, hbefore, hafter⟩ := hturns turn hturn
    rcases List.mem_pair.1 hs' with rfl | rfl
    · exact ⟨hbefore.start, hbefore.stop⟩
    · exact ⟨hafter.start, hafter.stop⟩

end PacketSerial
