/-
  nanopb: what `pb_encode` writes for a struct, and that `pb_decode` reads it
  back.

  * `TableWF`: the tags of a table are distinct, in the range of protobuf, and the
    required fields fit into one word of `fields_seen`;
  * `Coded m fields w u`: with the table `fields`, the struct `m` is written as the
    bytes `w`, and `u` is what reading them does to a destination struct.  It is
    built field by field: a field is present (`FieldTrip`) or an absent optional one;
  * `Coded.writes`, `Coded.loop`: the two directions, the second for a part of a
    table anywhere in a message;
  * `submessageLtype_roundTrip`: so a submessage is a value like any other.
-/
import PacketSerial.Nanopb.Ltypes

namespace PacketSerial

variable {π σ τ α : Type}

/-- A table as the generator writes it. -/
structure TableWF (fields : List (PbField π σ)) : Prop where
  nodup : (fields.map (·.tag)).Nodup
  tag_pos : ∀ f ∈ fields, 0 < f.tag
  tag_lt : ∀ f ∈ fields, f.tag < 2 ^ 29
  count : reqFieldCount fields < 32

/-- The first bytes of a field: its tag and its wire type. -/
def tagBytes (f : PbField π σ) : List UInt8 := Varint.encode (8 * f.tag + f.ltype.wireType)

/-- A field of `m` that is present: it is written as `tagBytes f ++ w`, and read back
    by the update `u`. -/
structure FieldTrip (f : PbField π σ) (m : σ) (w : List UInt8) (u : σ → σ) : Prop where
  present : f.htype = .required ∨ f.has m = true
  writes : Writes (f.encode m) w
  reads : ∀ d rest, decodeStaticField f (w ++ rest) d = some (u d, rest)
  cut : ∀ {d d' : σ} {rest zs : PbIstream} {j : ℕ}, j < w.length → (∀ b ∈ zs, b = 0) →
    decodeStaticField f (w.take j ++ zs) d = some (d', rest) → rest <:+ zs

/-- The struct `m` is written as `w`, and read back by the update `u`. -/
inductive Coded (m : σ) : List (PbField π σ) → List UInt8 → (σ → σ) → Prop
  | nil : Coded m [] [] id
  | present {f : PbField π σ} {fields w ws u us} : FieldTrip f m w u → Coded m fields ws us →
      Coded m (f :: fields) (tagBytes f ++ w ++ ws) (us ∘ u)
  | absent {f : PbField π σ} {fields ws us} : f.htype = .optional → f.has m = false →
      Coded m fields ws us → Coded m (f :: fields) ws us

theorem Ltype.wireType_lt (l : Ltype) : l.wireType < 8 := by cases l <;> decide

theorem FieldTrip.required {l : PbLtype π α} {mem : PbMember σ α} {m : σ} {w : List UInt8}
    {u : α → α} (tag : ℕ) (h : RoundTrip l (mem.get m) w u) :
    FieldTrip (.required tag l mem) m w fun d => mem.set (u (mem.get d)) d where
  present := Or.inl rfl
  writes := h.writes
  reads d rest := by
    show l.decodeAt mem (w ++ rest) d = _
    rw [PbLtype.decodeAt, h.reads]; rfl
  cut hj hz hd := by
    obtain ⟨r, hr, he⟩ := Option.map_eq_some_iff.1 hd
    cases he
    exact h.cut hj hz hr

theorem FieldTrip.optional {l : PbLtype π α} {mem : PbMember σ α} {has : PbMember σ Bool} {m : σ}
    {w : List UInt8} {u : α → α} (tag : ℕ) (hm : has.get m = true)
    (h : RoundTrip l (mem.get m) w u) :
    FieldTrip (.optional tag l mem has) m w
      fun d => mem.set (u (mem.get (has.set true d))) (has.set true d) where
  present := Or.inr hm
  writes := h.writes
  reads d rest := by
    show l.decodeAt mem (w ++ rest) (has.set true d) = _
    rw [PbLtype.decodeAt, h.reads]; rfl
  cut hj hz hd := by
    obtain ⟨r, hr, he⟩ := Option.map_eq_some_iff.1 hd
    cases he
    exact h.cut hj hz hr

theorem Coded.of_eq {m : σ} {fields : List (PbField π σ)} {w w' : List UInt8} {u : σ → σ}
    (h : Coded m fields w u) (hw : w = w') : Coded m fields w' u := hw ▸ h

theorem Coded.append {m : σ} {fs gs : List (PbField π σ)} {w w' : List UInt8} {u u' : σ → σ}
    (h : Coded m fs w u) (h' : Coded m gs w' u') : Coded m (fs ++ gs) (w ++ w') (u' ∘ u) := by
  induction h with
  | nil => exact h'
  | present hf _ ih =>
    have hc := Coded.present hf ih
    rw [← List.append_assoc] at hc
    exact hc
  | absent hopt hm _ ih => exact .absent hopt hm ih

/-- An optional field, present or not. -/
theorem Coded.optional {l : PbLtype π α} {mem : PbMember σ α} {has : PbMember σ Bool} {m : σ}
    {w : List UInt8} {u : α → α} (tag : ℕ) (h : has.get m = true → RoundTrip l (mem.get m) w u) :
    Coded m [.optional tag l mem has]
      (if has.get m then Varint.encode (8 * tag + l.ltype.wireType) ++ w else [])
      (fun d => if has.get m then mem.set (u (mem.get (has.set true d))) (has.set true d) else d) := by
  cases hm : has.get m with
  | false => exact .absent rfl hm .nil
  | true =>
    have hf := FieldTrip.optional tag hm (h hm)
    have hc : Coded m [.optional tag l mem has] _ _ := .present hf .nil
    rw [List.append_nil] at hc
    exact hc

/-! ## Writing -/

theorem FieldTrip.writes_field {f : PbField π σ} {m : σ} {w : List UInt8} {u : σ → σ}
    (h : FieldTrip f m w u) (ht : f.tag < 2 ^ 29) :
    Writes (encodeBasicField f m) (tagBytes f ++ w) := by
  have hw := (writes_pbEncodeTag f.ltype.wireType_lt ht).andThen h.writes
  have he : encodeBasicField f m =
      fun st => andThen (pbEncodeTag f.ltype.wireType f.tag st) (f.encode m) := by
    funext st
    unfold encodeBasicField
    split
    · rfl
    · rename_i hopt
      have hm : f.has m = true := h.present.resolve_left (by simp [hopt])
      rw [if_pos hm]; rfl
  rw [he]; exact hw

/-- **`pb_encode` writes the bytes of the struct.** -/
theorem Coded.writes {m : σ} {fields : List (PbField π σ)} {w : List UInt8} {u : σ → σ}
    (h : Coded m fields w u) (ht : ∀ f ∈ fields, f.tag < 2 ^ 29) :
    Writes (pbEncode m fields) w := by
  induction h with
  | nil => exact .nil
  | present hf _ ih =>
    exact (hf.writes_field (ht _ List.mem_cons_self)).andThen
      (ih fun f hm => ht f (List.mem_cons_of_mem _ hm))
  | @absent f fields ws us hopt hm _ ih =>
    have he : pbEncode m (f :: fields) = pbEncode m fields := by
      funext st
      simp [pbEncode, encodeBasicField, hopt, hm, andThen]
    rw [he]
    exact ih fun f hm => ht f (List.mem_cons_of_mem _ hm)

/-! ## Reading -/

theorem reqFieldCount_append (fs gs : List (PbField π σ)) :
    reqFieldCount (fs ++ gs) = reqFieldCount fs + reqFieldCount gs := List.countP_append

theorem reqFieldCount_singleton (f : PbField π σ) :
    reqFieldCount [f] = if f.htype = .required then 1 else 0 := by
  simp [reqFieldCount, List.countP_singleton]

theorem reqFieldCount_optional (pre : List (PbField π σ)) {f : PbField π σ}
    (h : f.htype = .optional) : reqFieldCount (pre ++ [f]) = reqFieldCount pre := by
  rw [reqFieldCount_append, reqFieldCount_singleton, if_neg (by simp [h]), add_zero]

/-- The search finds the field with the tag, and counts the required fields before it. -/
theorem pbFieldIterFind_append {pre : List (PbField π σ)} {f : PbField π σ} (post i)
    (h : f.tag ∉ pre.map (·.tag)) :
    pbFieldIterFind f.tag i (pre ++ f :: post) = some (i + reqFieldCount pre, f) := by
  induction pre generalizing i with
  | nil => simp [pbFieldIterFind, reqFieldCount]
  | cons g pre ih =>
    rw [List.map_cons, List.mem_cons, not_or] at h
    rw [List.cons_append, pbFieldIterFind, if_neg (Ne.symm h.1), ih _ h.2,
      show g :: pre = [g] ++ pre from rfl, reqFieldCount_append, reqFieldCount_singleton]
    split_ifs <;> simp [add_assoc]

theorem pbDecodeTag_tagBytes {f : PbField π σ} (h0 : 0 < f.tag) (h : f.tag < 2 ^ 29)
    (rest : PbIstream) :
    pbDecodeTag (tagBytes f ++ rest) =
      (some (WireType.ofNat f.ltype.wireType, f.tag), false, rest) := by
  have hw := f.ltype.wireType_lt
  rw [tagBytes, pbDecodeTag_encode (by omega) (by omega)]
  rw [show (8 * f.tag + f.ltype.wireType) % 8 = f.ltype.wireType by omega,
    show (8 * f.tag + f.ltype.wireType) / 8 = f.tag by omega]

/-- One turn of the loop, at the tag of a field of the table. -/
theorem pbDecodeLoop_tag {pre post : List (PbField π σ)} {f : PbField π σ}
    (hwf : TableWF (pre ++ f :: post)) (stream : PbIstream) (d : σ) (k seen : ℕ) :
    pbDecodeLoop (pre ++ f :: post) (k + 1) (tagBytes f ++ stream) d seen =
      match decodeStaticField f stream d with
      | none => none
      | some (d', rest) => pbDecodeLoop (pre ++ f :: post) k rest d'
          (if f.htype = .required then seen ||| 1 <<< reqFieldCount pre else seen) := by
  have hmem : f ∈ pre ++ f :: post := by simp
  have hne : tagBytes f ++ stream ≠ [] := by simp [tagBytes, Varint.encode_ne_nil]
  have hnot : f.tag ∉ pre.map (·.tag) := by
    have := hwf.nodup
    rw [List.map_append, List.map_cons, List.nodup_append] at this
    exact fun hin => this.2.2 _ hin _ List.mem_cons_self rfl
  rw [pbDecodeLoop]
  simp only [if_neg hne]
  rw [pbDecodeTag_tagBytes (hwf.tag_pos f hmem) (hwf.tag_lt f hmem)]
  have hfind := pbFieldIterFind_append post 0 hnot
  rw [zero_add] at hfind
  rcases hd : decodeStaticField f stream d with _ | ⟨d', rest⟩ <;> simp only [hfind, hd]

/-- One turn of the loop, at a field that is all there. -/
theorem pbDecodeLoop_field {pre post : List (PbField π σ)} {f : PbField π σ} {m : σ}
    {w : List UInt8} {u : σ → σ} (hwf : TableWF (pre ++ f :: post)) (h : FieldTrip f m w u)
    (rest : PbIstream) (d : σ) (k seen : ℕ) :
    pbDecodeLoop (pre ++ f :: post) (k + 1) (tagBytes f ++ w ++ rest) d seen =
      pbDecodeLoop (pre ++ f :: post) k rest (u d)
        (if f.htype = .required then seen ||| 1 <<< reqFieldCount pre else seen) := by
  rw [List.append_assoc, pbDecodeLoop_tag hwf, h.reads]

theorem seen_or (i : ℕ) : (2 ^ i - 1) ||| 1 <<< i = 2 ^ (i + 1) - 1 := by
  have : 0 < 2 ^ i := by positivity
  rw [Varint.or_shiftLeft_group (by omega), pow_succ]; omega

/-- The word `fields_seen` after a field, when all before it have been seen. -/
theorem seen_field {pre : List (PbField π σ)} (f : PbField π σ) :
    (if f.htype = .required then (2 ^ reqFieldCount pre - 1) ||| 1 <<< reqFieldCount pre
      else 2 ^ reqFieldCount pre - 1) = 2 ^ reqFieldCount (pre ++ [f]) - 1 := by
  rw [reqFieldCount_append, reqFieldCount_singleton]
  split_ifs
  · exact seen_or _
  · rfl

/-- **The fields of a part of the table are read back**, and the loop goes on with the
    bytes after them. -/
theorem Coded.loop {m : σ} {mid : List (PbField π σ)} {w : List UInt8} {u : σ → σ}
    (h : Coded m mid w u) : ∀ (pre post : List (PbField π σ)), TableWF (pre ++ mid ++ post) →
    ∀ (rest : PbIstream) (d : σ) (k : ℕ), (w ++ rest).length < k →
    pbDecodeLoop (pre ++ mid ++ post) k (w ++ rest) d (2 ^ reqFieldCount pre - 1) =
      pbDecodeLoop (pre ++ mid ++ post) (rest.length + 1) rest (u d)
        (2 ^ reqFieldCount (pre ++ mid) - 1) := by
  induction h with
  | nil =>
    intro pre post _ rest d k hk
    rw [List.nil_append, List.append_nil]
    exact pbDecodeLoop_fuel _ hk (by omega)
  | @present f fields w ws u us hf _ ih =>
    intro pre post hwf rest d k hk
    have hpre : pre ++ f :: fields = pre ++ [f] ++ fields := by simp
    have htab : pre ++ [f] ++ fields ++ post = pre ++ f :: (fields ++ post) := by simp
    obtain ⟨k, rfl⟩ := Nat.exists_eq_add_one_of_ne_zero (show k ≠ 0 by omega)
    have hlen := Varint.length_encode_pos (8 * f.tag + f.ltype.wireType)
    simp only [hpre] at hwf ⊢
    rw [htab] at hwf ⊢
    rw [List.append_assoc (tagBytes f ++ w), pbDecodeLoop_field hwf hf, seen_field,
      ← htab]
    rw [← htab] at hwf
    refine ih _ _ hwf rest (u d) k ?_
    simp only [List.length_append, tagBytes] at hk ⊢
    omega
  | @absent f fields ws us hopt hm _ ih =>
    intro pre post hwf rest d k hk
    have hpre : pre ++ f :: fields = pre ++ [f] ++ fields := by simp
    simp only [hpre] at hwf ⊢
    rw [← reqFieldCount_optional pre hopt]
    exact ih _ _ hwf rest d k hk

theorem allFieldsSeen_all {fields : List (PbField π σ)} (h : reqFieldCount fields < 32) :
    allFieldsSeen fields (2 ^ reqFieldCount fields - 1) := by
  intro h0
  rw [Nat.mod_eq_of_lt h] at h0 ⊢
  have hpow : 2 ^ 32 = 2 ^ (32 - reqFieldCount fields) * 2 ^ reqFieldCount fields := by
    rw [← pow_add]; congr 1; omega
  have hpos : 0 < 2 ^ (32 - reqFieldCount fields) := by positivity
  have hpos' : 0 < 2 ^ reqFieldCount fields := by positivity
  rw [Nat.shiftRight_eq_div_pow, hpow]
  refine (Nat.div_eq_of_lt_le ?_ ?_).symm
  · rw [Nat.sub_mul, mul_comm]; omega
  · rw [Nat.succ_mul, Nat.sub_mul, mul_comm]; omega

/-- **`pb_decode` reads a struct back from its bytes.** -/
theorem Coded.reads {m : σ} {fields : List (PbField π σ)} {w : List UInt8} {u : σ → σ}
    (h : Coded m fields w u) (hwf : TableWF fields) (d : σ) :
    pbDecodeNoinit fields w d = some (u d) := by
  have hl := h.loop [] [] (by simpa using hwf) [] d (w.length + 1) (by simp)
  simp only [List.nil_append, List.append_nil] at hl
  rw [pbDecodeNoinit]
  refine hl.trans ?_
  simp [pbDecodeLoop, allFieldsSeen_all hwf.count]

/-! ## Messages whose tail is lost -/

/-- In zeros the message is at its end. -/
theorem pbDecodeLoop_zeros (fields : List (PbField π σ)) {zs : List UInt8} (hz : ∀ b ∈ zs, b = 0)
    (d : σ) {k : ℕ} (hk : zs.length < k) (seen : ℕ) :
    pbDecodeLoop fields k zs d seen = if allFieldsSeen fields seen then some d else none := by
  obtain ⟨k, rfl⟩ := Nat.exists_eq_add_one_of_ne_zero (show k ≠ 0 by omega)
  cases zs with
  | nil => simp [pbDecodeLoop]
  | cons b zs =>
    obtain rfl : b = 0 := hz b List.mem_cons_self
    simp [pbDecodeLoop]

theorem not_allFieldsSeen {fields : List (PbField π σ)} {i : ℕ} (h : reqFieldCount fields < 32)
    (hi : i < reqFieldCount fields) : ¬ allFieldsSeen fields (2 ^ i - 1) := by
  intro ha
  have hne : reqFieldCount fields % 32 ≠ 0 := by omega
  have heq := (ha hne).trans (allFieldsSeen_all h hne).symm
  have hlt : 2 ^ i < 2 ^ reqFieldCount fields := Nat.pow_lt_pow_right (by omega) hi
  have : 0 < 2 ^ i := by positivity
  omega

/-- In zeros, with a required field missing, nothing is decoded. -/
theorem pbDecodeLoop_missing {fields : List (PbField π σ)} (hwf : TableWF fields) {i : ℕ}
    (hi : i < reqFieldCount fields) {zs : List UInt8} (hz : ∀ b ∈ zs, b = 0) (d : σ) {k : ℕ}
    (hk : zs.length < k) : pbDecodeLoop fields k zs d (2 ^ i - 1) = none := by
  rw [pbDecodeLoop_zeros fields hz d hk, if_neg (not_allFieldsSeen hwf.count hi)]

/-- One turn of the loop, at a field that is cut in two, before a required one. -/
theorem pbDecodeLoop_cut {pre post : List (PbField π σ)} {f : PbField π σ} {m : σ}
    {w : List UInt8} {u : σ → σ} (hwf : TableWF (pre ++ f :: post)) (h : FieldTrip f m w u)
    (hreq : reqFieldCount (pre ++ [f]) < reqFieldCount (pre ++ f :: post)) {j : ℕ}
    (hj : j < w.length) {zs : List UInt8} (hz : ∀ b ∈ zs, b = 0) (d : σ) {k : ℕ}
    (hk : zs.length < k) :
    pbDecodeLoop (pre ++ f :: post) (k + 1) (tagBytes f ++ (w.take j ++ zs)) d
      (2 ^ reqFieldCount pre - 1) = none := by
  rw [pbDecodeLoop_tag hwf, seen_field]
  rcases hd : decodeStaticField f (w.take j ++ zs) d with _ | ⟨d', rest⟩
  · rfl
  · -- what the field leaves is a part of the zeros
    have hsuf := h.cut hj hz hd
    have hlen := hsuf.length_le
    exact pbDecodeLoop_missing hwf hreq (fun b hb => hz b (hsuf.subset hb)) _ (by omega)

/-- **A message cut off before a required field is not decoded**, whatever was cut in
    two: `mid` are fields of the table before one that is required. -/
theorem Coded.loop_cut {m : σ} {mid : List (PbField π σ)} {w : List UInt8} {u : σ → σ}
    (h : Coded m mid w u) (hone : ∀ f ∈ mid, (tagBytes f).length = 1) :
    ∀ (pre post : List (PbField π σ)), TableWF (pre ++ mid ++ post) →
    reqFieldCount (pre ++ mid) < reqFieldCount (pre ++ mid ++ post) →
    ∀ {zs : List UInt8}, (∀ b ∈ zs, b = 0) → ∀ (d : σ) {c k : ℕ}, c ≤ w.length →
    (w.take c ++ zs).length < k →
    pbDecodeLoop (pre ++ mid ++ post) k (w.take c ++ zs) d (2 ^ reqFieldCount pre - 1) = none := by
  induction h with
  | nil =>
    intro pre post hwf hreq zs hz d c k _ hk
    rw [List.take_nil, List.nil_append] at hk ⊢
    exact pbDecodeLoop_missing hwf (by simpa using hreq) hz d hk
  | @present f fields w ws u us hf _ ih =>
    intro pre post hwf hreq zs hz d c k hc hk
    have hpre : pre ++ f :: fields = pre ++ [f] ++ fields := by simp
    have htab : pre ++ [f] ++ fields ++ post = pre ++ f :: (fields ++ post) := by simp
    obtain ⟨k, rfl⟩ := Nat.exists_eq_add_one_of_ne_zero (show k ≠ 0 by omega)
    have htag : (tagBytes f).length = 1 := hone f List.mem_cons_self
    have hmono : reqFieldCount (pre ++ [f]) ≤ reqFieldCount (pre ++ [f] ++ fields) := by
      rw [reqFieldCount_append (pre ++ [f])]; omega
    have hmono' : reqFieldCount pre ≤ reqFieldCount (pre ++ [f]) := by
      rw [reqFieldCount_append]; omega
    simp only [hpre] at hwf hreq ⊢
    rcases Nat.eq_zero_or_pos c with rfl | hc0
    · -- nothing of this field is left
      rw [List.take_zero, List.nil_append] at hk ⊢
      exact pbDecodeLoop_missing hwf (by omega) hz d hk
    have hsplit : (tagBytes f ++ w ++ ws).take c =
        tagBytes f ++ (w.take (c - 1) ++ ws.take (c - 1 - w.length)) := by
      rw [List.append_assoc, List.take_append, List.take_append, htag,
        List.take_of_length_le (by omega)]
    rw [hsplit] at hk ⊢
    by_cases hlt : c - 1 < w.length
    · -- its tag is there, and a part of its value
      rw [show c - 1 - w.length = 0 by omega, List.take_zero, List.append_nil] at hk ⊢
      rw [List.append_assoc (tagBytes f), htab]
      rw [htab] at hwf hreq
      simp only [List.length_append, htag] at hk
      exact pbDecodeLoop_cut hwf hf (by omega) hlt hz d (by omega)
    · -- it is all there
      rw [List.take_of_length_le (show w.length ≤ c - 1 by omega),
        ← List.append_assoc (tagBytes f), List.append_assoc (tagBytes f ++ w)] at hk ⊢
      rw [htab] at hwf ⊢
      rw [pbDecodeLoop_field hwf hf, seen_field, ← htab]
      rw [← htab] at hwf
      simp only [List.length_append, htag] at hc hk
      refine ih (fun g hg => hone g (List.mem_cons_of_mem _ hg)) _ _ hwf hreq hz _ (by omega) ?_
      simp only [List.length_append]; omega
  | @absent f fields ws us hopt hm _ ih =>
    intro pre post hwf hreq zs hz d c k hc hk
    have hpre : pre ++ f :: fields = pre ++ [f] ++ fields := by simp
    simp only [hpre] at hwf hreq ⊢
    rw [← reqFieldCount_optional pre hopt]
    exact ih (fun g hg => hone g (List.mem_cons_of_mem _ hg)) _ _ hwf hreq hz d hc hk

/-- The same for a whole message. -/
theorem Coded.reads_cut {m : σ} {pre post : List (PbField π σ)} {w : List UInt8} {u : σ → σ}
    (h : Coded m pre w u) (hwf : TableWF (pre ++ post)) (hone : ∀ f ∈ pre, (tagBytes f).length = 1)
    (hreq : reqFieldCount pre < reqFieldCount (pre ++ post)) {zs : List UInt8}
    (hz : ∀ b ∈ zs, b = 0) (d : σ) {c : ℕ} (hc : c ≤ w.length) :
    pbDecodeNoinit (pre ++ post) (w.take c ++ zs) d = none :=
  h.loop_cut hone [] post hwf hreq hz d hc (by omega)

/-! ## Submessages -/

theorem submessageLtype_roundTrip {fields : List (PbField π τ)} {m : τ} {w : List UInt8}
    {u : τ → τ} (ptr : π) (h : Coded m fields w u) (hwf : TableWF fields)
    (hw : w.length < 2 ^ 32) :
    RoundTrip (submessageLtype ptr fields) m (Varint.encode w.length ++ w) u where
  writes := writes_pbEncodeSubmessage (h.writes hwf.tag_lt) (hw.trans (by norm_num))
  reads d rest := by
    have hs := pbMakeStringSubstream_encode hw rest
    simp only [submessageLtype, List.append_assoc, hs, h.reads hwf, Option.map_some]
  cut {d d' rest zs j} _ hz h := by
    simp only [submessageLtype, pbMakeStringSubstream] at h
    rcases hv : pbDecodeVarint32 ((Varint.encode w.length ++ w).take j ++ zs) with
      ⟨_ | size, stream⟩ <;> rw [hv] at h
    · cases h
    · rcases hr : pbRead stream size with ⟨_ | x, stream'⟩ <;> simp only [hr] at h
      · cases h
      · simp only [Option.map_eq_some_iff, Prod.mk.injEq] at h
        obtain ⟨_, -, -, rfl⟩ := h
        exact pbRead_cut hw hz hv hr

end PacketSerial
