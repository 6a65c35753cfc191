/-
  nanopb: field tables, `pb_encode` and `pb_decode` in memory, with the iterator over a table.

  A table carries the decoders and encoders of its fields in memory, with the proof that they
  do what those of the model on lists do.

  * `PbBufLtype`, `PbBufField`, `PbBufTable`: value types, fields and tables;
  * `Refines`: a message decoded from memory is the one decoded from the list of the bytes,
    and the stream stays inside;
  * `pbDecode_inMemory`: every table decodes so, from whatever place of the table the search
    for a field goes on;
  * `pbEncode_stores`: every table encodes so.
-/
import PacketSerial.Nanopb.BufDecode
import PacketSerial.Nanopb.BufEncode
import PacketSerial.Nanopb.FieldIter

namespace PacketSerial

variable {π σ τ α : Type}

open PbBufStream PbBufOstream

/-! ## Value types -/

/-- A value type with its decoder and encoder in memory, which do what those on lists do. -/
structure PbBufLtype (π α : Type) extends PbLtype π α where
  bufDecode : (ℕ → UInt8) → PbBufStream → α → Option α × PbBufStream
  bufEncode : α → PbBufOstream → Bool × PbBufOstream
  reads : ∀ mem s d, Reads mem s (bufDecode mem s d) (decode (s.bytes mem) d)
  stores : ∀ a s out, Stores s out (bufEncode a s) (encode a (s.view out))

def uint32BufLtype : PbBufLtype π UInt32 where
  toPbLtype := uint32Ltype
  bufDecode mem s _ :=
    let r := s.pbDecUvarint mem 32
    (r.1.map UInt32.ofNat, r.2)
  bufEncode a := PbBufOstream.pbEncodeVarint a.toNat
  reads mem s _ := (pbDecUvarint_reads mem s 32).map UInt32.ofNat
  stores a s out := pbEncodeVarint_stores a.toNat s out

def uint8BufLtype : PbBufLtype π UInt8 where
  toPbLtype := uint8Ltype
  bufDecode mem s _ :=
    let r := s.pbDecUvarint mem 8
    (r.1.map UInt8.ofNat, r.2)
  bufEncode a := PbBufOstream.pbEncodeVarint a.toNat
  reads mem s _ := (pbDecUvarint_reads mem s 8).map UInt8.ofNat
  stores a s out := pbEncodeVarint_stores a.toNat s out

def boolBufLtype : PbBufLtype π UInt8 where
  toPbLtype := boolLtype
  bufDecode mem s _ := s.pbDecVarint8 mem
  bufEncode a := PbBufOstream.pbEncodeVarint (encVarint8 a)
  reads mem s _ := pbDecVarint8_reads mem s
  stores a := by
    dsimp only [boolLtype]
    exact pbEncodeVarint_stores _

def bytesBufLtype (n : ℕ) : PbBufLtype π (BytesArray n) where
  toPbLtype := bytesLtype n
  bufDecode mem s _ :=
    let r := s.pbDecBytes mem n
    (r.1.map BytesArray.ofList, r.2)
  bufEncode a := PbBufOstream.pbEncodeString a.bytes a.size
  reads mem s _ := (pbDecBytes_reads mem s n).map BytesArray.ofList
  stores _ := pbEncodeString_stores le_rfl

def stringBufLtype (n : ℕ) : PbBufLtype π (Buffer n) where
  toPbLtype := stringLtype n
  bufDecode mem s d :=
    let r := s.pbDecString mem n
    (r.1.map fun bytes => d.memcpy 0 (bytes ++ [0]), r.2)
  bufEncode a := PbBufOstream.pbEncodeString a.bytes a.strlen
  reads mem s d := (pbDecString_reads mem s n).map fun bytes => d.memcpy 0 (bytes ++ [0])
  stores a := pbEncodeString_stores (cstr_length_le a.bytes)

/-! ## Fields -/

/-- A field with its decoder and encoder in memory. -/
structure PbBufField (π σ : Type) extends PbField π σ where
  bufDecode : (ℕ → UInt8) → PbBufStream → σ → Option σ × PbBufStream
  bufEncode : σ → PbBufOstream → Bool × PbBufOstream
  reads : ∀ mem s d, Reads mem s (bufDecode mem s d) (decode (s.bytes mem) d)
  stores : ∀ d s out, Stores s out (bufEncode d s) (encode d (s.view out))

/-- The value of a member, as a field value of the struct. -/
def PbBufLtype.bufDecodeAt (l : PbBufLtype π α) (m : PbMember σ α) (mem : ℕ → UInt8)
    (s : PbBufStream) (d : σ) : Option σ × PbBufStream :=
  let r := l.bufDecode mem s (m.get d)
  (r.1.map fun a => m.set a d, r.2)

theorem PbBufLtype.readsAt (l : PbBufLtype π α) (m : PbMember σ α) (mem : ℕ → UInt8)
    (s : PbBufStream) (d : σ) :
    Reads mem s (l.bufDecodeAt m mem s d) (l.decodeAt m (s.bytes mem) d) :=
  (l.reads mem s (m.get d)).map fun a => m.set a d

namespace PbBufField

def required (tag : ℕ) (l : PbBufLtype π α) (m : PbMember σ α) : PbBufField π σ where
  toPbField := .required tag l.toPbLtype m
  bufDecode := l.bufDecodeAt m
  bufEncode d := l.bufEncode (m.get d)
  reads := l.readsAt m
  stores d := l.stores (m.get d)

def optional (tag : ℕ) (l : PbBufLtype π α) (m : PbMember σ α) (h : PbMember σ Bool) :
    PbBufField π σ where
  toPbField := .optional tag l.toPbLtype m h
  bufDecode := l.bufDecodeAt m
  bufEncode d := l.bufEncode (m.get d)
  reads := l.readsAt m
  stores d := l.stores (m.get d)

end PbBufField

/-- A table: it is well formed, and not empty. -/
structure PbBufTable (π σ : Type) where
  fields : List (PbBufField π σ)
  wf : TableWF (fields.map (·.toPbField))
  pos : 0 < fields.length

/-- The table that the model on lists reads. -/
def PbBufTable.list (t : PbBufTable π σ) : List (PbField π σ) := t.fields.map (·.toPbField)

theorem PbBufTable.list_wf (t : PbBufTable π σ) : TableWF t.list := t.wf

theorem PbBufTable.length_pos (t : PbBufTable π σ) : 0 < t.list.length :=
  t.pos.trans_eq (List.length_map _).symm

/-! ## Decoding a message -/

namespace PbBufStream

/-- `decode_static_field` -/
def decodeStaticField (mem : ℕ → UInt8) (f : PbBufField π σ) (s : PbBufStream) (dest : σ) :
    Option σ × PbBufStream :=
  match f.htype with
  | .required => f.bufDecode mem s dest
  | .optional => f.bufDecode mem s (f.setHas dest)

/-- The loop of `pb_decode_noinit`, for at most `fuel - 1` fields; `iter` and `fields_seen` as
    the turns before have left them. -/
def pbDecodeLoop (mem : ℕ → UInt8) (t : PbBufTable π σ) :
    ℕ → FieldIter → FieldsSeen → PbBufStream → σ → Option σ × PbBufStream
  | 0, _, _, s, _ => (none, s)
  | fuel + 1, iter, fieldsSeen, s, dest =>
    let done := if fieldsSeen.Complete (iter.reqFieldCount t.list) then some dest else none
    if s.bytesLeft = 0 then (done, s)
    else
      match s.pbDecodeTag mem with
      | (none, eof, s) => if eof then (done, s) else (none, s)
      | (some (wireType, tag), _, s) =>
        match iter.find t.list tag with
        | (false, iter) =>
          match s.pbSkipField mem wireType with
          | (false, s) => (none, s)
          | (true, s) => pbDecodeLoop mem t fuel iter fieldsSeen s dest
        | (true, iter) =>
          match t.fields[iter.pos]? with
          | none => (none, s)
          | some f =>
            let fieldsSeen := if f.htype = .required then fieldsSeen.mark iter.requiredFieldIndex
              else fieldsSeen
            match decodeStaticField mem f s dest with
            | (none, s) => (none, s)
            | (some dest, s) => pbDecodeLoop mem t fuel iter fieldsSeen s dest

/-- `pb_decode_noinit` -/
def pbDecodeNoinit (mem : ℕ → UInt8) (t : PbBufTable π σ) (s : PbBufStream) (dest : σ) :
    Option σ × PbBufStream :=
  pbDecodeLoop mem t (s.bytesLeft + 1) .start (fun _ => 0) s dest

/-- `pb_decode` -/
def pbDecode (mem : ℕ → UInt8) (t : PbBufTable π σ) (s : PbBufStream) (dest : σ) :
    Option σ × PbBufStream :=
  pbDecodeNoinit mem t s (pbMessageSetToDefaults t.list dest)

/-- `pb_dec_submessage` -/
def pbDecSubmessage (mem : ℕ → UInt8) (t : PbBufTable π τ) (s : PbBufStream) (dest : τ) :
    Option τ × PbBufStream :=
  match s.pbMakeStringSubstream mem with
  | (none, s) => (none, s)
  | (some substream, s) =>
    let r := pbDecodeNoinit mem t substream dest
    match s.pbCloseStringSubstream r.2 with
    | (false, s) => (none, s)
    | (true, s) => (r.1, s)

/-! ## Messages agree -/

/-- A message decoded from the stream `s` in memory, and from the list of its bytes. -/
structure Refines (s : PbBufStream) (r : Option σ × PbBufStream) (r' : Option σ) : Prop where
  value : r.1 = r'
  within : Within s r.2

theorem Refines.of_within {s s' : PbBufStream} {r : Option σ × PbBufStream} {r' : Option σ}
    (h : Refines s' r r') (hw : Within s s') : Refines s r r' := ⟨h.value, hw.trans h.within⟩

section
variable (t : PbBufTable π σ) (mem : ℕ → UInt8)

/-- The end of the loop. -/
theorem refines_done {s s' : PbBufStream} (h : Within s s') (seen : FieldsSeen) {pos : ℕ}
    (hpos : pos < t.list.length) (dest : σ) :
    Refines s
      (if seen.Complete ((FieldIter.place t.list pos).reqFieldCount t.list) then some dest
        else none, s')
      (if allFieldsSeen t.list (seen 0).toNat then some dest else none) := by
  refine ⟨?_, h⟩
  rw [FieldIter.reqFieldCount_place t.list_wf hpos]
  exact if_congr (FieldsSeen.complete_iff t.list_wf.count seen) rfl rfl

theorem decodeStaticField_reads (f : PbBufField π σ) (s : PbBufStream) (dest : σ) :
    Reads mem s (decodeStaticField mem f s dest)
      (PacketSerial.decodeStaticField f.toPbField (s.bytes mem) dest) := by
  rw [decodeStaticField, PacketSerial.decodeStaticField]
  cases f.htype with
  | required => exact f.reads mem s dest
  | optional => exact f.reads mem s (f.setHas dest)

/-- The bits after a field, which is marked if it is required. -/
theorem toNat_mark_field (f : PbBufField π σ) (seen : FieldsSeen) (q : ℕ) :
    ((if f.htype = .required then seen.mark (FieldIter.place t.list q).requiredFieldIndex
      else seen) 0).toNat =
      if f.htype = .required then
        (seen 0).toNat ||| 1 <<< (FieldIter.place t.list q).requiredFieldIndex
      else (seen 0).toNat := by
  split_ifs
  · exact FieldsSeen.toNat_mark seen (reqFieldCount_take_lt t.list_wf q)
  · rfl

/-- **The loop over the fields**, turn by turn. -/
theorem pbDecodeLoop_refines : ∀ (k : ℕ) {pos : ℕ}, pos < t.list.length →
    ∀ (seen : FieldsSeen) (s : PbBufStream) (dest : σ),
    Refines s (pbDecodeLoop mem t k (.place t.list pos) seen s dest)
      (PacketSerial.pbDecodeLoop t.list k (s.bytes mem) dest (seen 0).toNat)
  | 0, _, _, _, s, _ => ⟨rfl, .refl s⟩
  | k + 1, pos, hpos, seen, s, dest => by
    have hnil : s.bytes mem = [] ↔ s.bytesLeft = 0 := by
      rw [← List.length_eq_zero_iff, length_bytes]
    rw [pbDecodeLoop, PacketSerial.pbDecodeLoop]
    dsimp only
    by_cases h0 : s.bytesLeft = 0
    · rw [if_pos h0, if_pos (hnil.2 h0)]
      exact refines_done t (.refl s) seen hpos dest
    rw [if_neg h0, if_neg (mt hnil.1 h0), pbDecodeTag_eq]
    have hsuf := pbDecodeTag_suffix (s.bytes mem)
    rcases ht : PacketSerial.pbDecodeTag (s.bytes mem) with ⟨_ | ⟨wireType, tag⟩, eof, l⟩ <;>
      rw [ht] at hsuf <;> have hw := leave_suffix hsuf
    · cases eof with
      | true => exact refines_done t hw seen hpos dest
      | false => exact ⟨rfl, hw⟩
    · have hfind := FieldIter.find_place t.list_wf hpos tag
      have hback := bytes_leave hsuf
      dsimp only at hback hw ⊢
      rcases hlist : pbFieldIterFind tag 0 t.list with _ | ⟨i, f⟩ <;> rw [hlist] at hfind
      · -- a field that the table does not have
        have hskip := pbSkipField_suffix l wireType
        rw [hfind]
        dsimp only
        rw [pbSkipField_eq, hback]
        rcases hs : PacketSerial.pbSkipField l wireType with ⟨ok, l'⟩
        rw [hs] at hskip
        have hskip' : l' <:+ (s.leave l).bytes mem := by rwa [hback]
        have hw' := hw.trans (leave_suffix hskip')
        cases ok with
        | false => exact ⟨rfl, hw'⟩
        | true =>
          have hrec := pbDecodeLoop_refines k hpos seen ((s.leave l).leave l') dest
          rw [bytes_leave hskip'] at hrec
          exact hrec.of_within hw'
      · obtain ⟨q, hq, hget, rfl⟩ := hfind
        rw [hq]
        dsimp only
        have hqlt : q < t.list.length := (List.getElem?_eq_some_iff.1 hget).1
        rw [PbBufTable.list, List.getElem?_map, Option.map_eq_some_iff] at hget
        obtain ⟨g, hg, rfl⟩ := hget
        rw [FieldIter.place_pos, hg]
        dsimp only
        have hval := decodeStaticField_reads mem g (s.leave l) dest
        rw [hback] at hval
        rcases hd : decodeStaticField mem g (s.leave l) dest with ⟨value, s'⟩
        rw [hd] at hval
        have hw' := hw.trans hval.within
        have hvalue : value = _ := hval.value
        rcases hl : PacketSerial.decodeStaticField g.toPbField l dest with _ | ⟨d', l'⟩ <;>
          rw [hl] at hvalue <;> subst hvalue
        · exact ⟨rfl, hw'⟩
        · have hrec := pbDecodeLoop_refines k hqlt (if g.htype = .required then seen.mark
            (FieldIter.place t.list q).requiredFieldIndex else seen) s' d'
          rw [hval.left hl, toNat_mark_field] at hrec
          exact hrec.of_within hw'

theorem pbDecodeNoinit_refines (s : PbBufStream) (dest : σ) :
    Refines s (pbDecodeNoinit mem t s dest)
      (PacketSerial.pbDecodeNoinit t.list (s.bytes mem) dest) := by
  have h := pbDecodeLoop_refines t mem (s.bytesLeft + 1) t.length_pos (fun _ => 0) s dest
  rw [PacketSerial.pbDecodeNoinit, length_bytes]
  exact h

/-- **A message is decoded from memory as from the list of its bytes**, and the pointer stays
    inside, whether it succeeds or not. -/
theorem pbDecode_refines (s : PbBufStream) (dest : σ) :
    Refines s (pbDecode mem t s dest) (PacketSerial.pbDecode t.list (s.bytes mem) dest) :=
  pbDecodeNoinit_refines t mem s (pbMessageSetToDefaults t.list dest)

/-- **`pb_decode` in memory**: the struct, or the failure, is that of the model on the bytes of
    the stream; whether it succeeds or not, the stream is left inside of them, and what stands
    elsewhere in memory makes no difference. -/
theorem pbDecode_inMemory (s : PbBufStream) (dest : σ) :
    (pbDecode mem t s dest).1 = PacketSerial.pbDecode t.list (s.bytes mem) dest ∧
      Within s (pbDecode mem t s dest).2 ∧
      ∀ mem' : ℕ → UInt8, (∀ x, s.state ≤ x → x < s.stop → mem' x = mem x) →
        (pbDecode mem' t s dest).1 = (pbDecode mem t s dest).1 := by
  have h := pbDecode_refines t mem s dest
  refine ⟨h.value, h.within, fun mem' hsame => ?_⟩
  have hbytes : s.bytes mem' = s.bytes mem := by
    refine List.map_congr_left fun x hx => hsame x ?_ ?_
    · exact (List.mem_range'_1.1 hx).1
    · exact (List.mem_range'_1.1 hx).2
  rw [(pbDecode_refines t mem' s dest).value, hbytes, h.value]

/-- **A submessage**: the stream is behind it in the end. -/
theorem pbDecSubmessage_reads (ptr : π) (s : PbBufStream) (dest : σ) :
    Reads mem s (pbDecSubmessage mem t s dest)
      ((submessageLtype ptr t.list).decode (s.bytes mem) dest) := by
  rw [submessageLtype]
  dsimp only
  rw [pbDecSubmessage]
  rcases hmake : s.pbMakeStringSubstream mem with ⟨_ | substream, s'⟩
  · obtain ⟨hlist, hw⟩ := pbMakeStringSubstream_none hmake
    rw [hlist]
    exact reads_none hw
  · obtain ⟨hlist, hw, -⟩ := pbMakeStringSubstream_some hmake
    have hmsg := pbDecodeNoinit_refines t mem substream dest
    rw [hlist]
    dsimp only
    rw [pbCloseStringSubstream_eq hmsg.within]
    dsimp only
    refine ⟨?_, fun he => ?_, hw⟩
    · rw [hmsg.value, Option.map_map]
      exact Option.map_id'.symm
    · obtain ⟨d, -, hd⟩ := Option.map_eq_some_iff.1 he
      cases hd
      rfl

end

end PbBufStream

/-! ## Encoding a message -/

namespace PbBufOstream

/-- `pb_encode_tag_for_field` -/
def pbEncodeTagForField (f : PbBufField π σ) : PbBufOstream → Bool × PbBufOstream :=
  pbEncodeTag f.ltype.wireType f.tag

/-- `encode_basic_field` -/
def encodeBasicField (f : PbBufField π σ) (src : σ) (s : PbBufOstream) : Bool × PbBufOstream :=
  match f.htype with
  | .required => andThen (pbEncodeTagForField f s) (f.bufEncode src)
  | .optional =>
    if f.has src then andThen (pbEncodeTagForField f s) (f.bufEncode src) else (true, s)

/-- The loop of `pb_encode`, for at most `fuel` fields. -/
def pbEncodeLoop (t : PbBufTable π σ) (src : σ) :
    ℕ → FieldIter → PbBufOstream → Bool × PbBufOstream
  | 0, _, s => (false, s)
  | fuel + 1, iter, s =>
    match t.fields[iter.pos]? with
    | none => (false, s)
    | some f =>
      andThen (encodeBasicField f src s) fun s =>
        match iter.next t.list with
        | (true, iter) => pbEncodeLoop t src fuel iter s
        | (false, _) => (true, s)

/-- `pb_encode` -/
def pbEncode (t : PbBufTable π σ) (src : σ) (s : PbBufOstream) : Bool × PbBufOstream :=
  if tagAt t.list 0 = 0 then (true, s)
  else pbEncodeLoop t src t.fields.length .start s

section
variable (t : PbBufTable π σ) (src : σ)

theorem encodeBasicField_stores (f : PbBufField π σ) (s : PbBufOstream) (out : List UInt8) :
    Stores s out (encodeBasicField f src s)
      (PacketSerial.encodeBasicField f.toPbField src (s.view out)) := by
  have hvalue : Stores s out (andThen (pbEncodeTagForField f s) (f.bufEncode src))
      (PacketSerial.andThen (PacketSerial.pbEncodeTagForField f.toPbField (s.view out))
        (f.encode src)) :=
    (pbEncodeTag_stores f.ltype.wireType f.tag s out).andThen (f.stores src)
  rw [encodeBasicField, PacketSerial.encodeBasicField]
  cases f.htype with
  | required => exact hvalue
  | optional =>
    dsimp only
    split_ifs
    · exact hvalue
    · exact stores_nothing s out

/-- **The loop over the fields**, from a position on. -/
theorem pbEncodeLoop_stores : ∀ {k pos : ℕ}, pos < t.list.length → t.list.length ≤ pos + k →
    ∀ (s : PbBufOstream) (out : List UInt8),
    Stores s out (pbEncodeLoop t src k (.place t.list pos) s)
      (PacketSerial.pbEncode src (t.list.drop pos) (s.view out))
  | 0, pos, h, hk, _, _ => absurd h (by omega)
  | k + 1, pos, h, hk, s, out => by
    have hlen : pos < t.fields.length := h.trans_eq (List.length_map _)
    have hdrop : t.list.drop pos = (t.fields[pos]).toPbField :: t.list.drop (pos + 1) := by
      rw [← List.cons_getElem_drop_succ (h := h)]
      congr 1
      exact List.getElem_map _
    rw [hdrop, pbEncodeLoop, PacketSerial.pbEncode, FieldIter.place_pos,
      List.getElem?_eq_getElem hlen]
    refine (encodeBasicField_stores src t.fields[pos] s out).andThen fun s out => ?_
    rw [FieldIter.next_place t.list_wf h]
    by_cases hmore : pos + 1 < t.list.length
    · rw [decide_eq_true hmore, Ring.next, if_neg hmore.ne]
      exact pbEncodeLoop_stores hmore (by omega) s out
    · rw [decide_eq_false hmore, List.drop_eq_nil_of_le (not_lt.1 hmore)]
      exact stores_nothing s out

/-- **A message is encoded in memory** as by the model on lists. -/
theorem pbEncode_stores (s : PbBufOstream) (out : List UInt8) :
    Stores s out (pbEncode t src s) (PacketSerial.pbEncode src t.list (s.view out)) := by
  have htag := (tagAt_pos_iff t.list_wf).2 t.length_pos
  have hloop := pbEncodeLoop_stores t src (k := t.fields.length) t.length_pos
    (by rw [Nat.zero_add]; exact (List.length_map _).le) s out
  rw [pbEncode, if_neg htag.ne']
  exact hloop

end

end PbBufOstream

/-- `PB_LTYPE_SUBMESSAGE` with the table `t`, found at `ptr` -/
def submessageBufLtype (ptr : π) (t : PbBufTable π τ) : PbBufLtype π τ where
  toPbLtype := submessageLtype ptr t.list
  bufDecode mem s d := pbDecSubmessage mem t s d
  bufEncode a := PbBufOstream.pbEncodeSubmessage (PbBufOstream.pbEncode t a)
  reads mem s d := pbDecSubmessage_reads t mem ptr s d
  stores a := pbEncodeSubmessage_stores (pbEncode_stores t a)

end PacketSerial
