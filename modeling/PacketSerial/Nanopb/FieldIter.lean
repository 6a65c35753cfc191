/-
  nanopb: the iterator over a table (`pb_common.c`), and the required fields that
  `pb_decode_noinit` has seen, in its array of words.

  `pbDecodeNoinit` searches a table from its head, and keeps one number.  In C the search
  starts at the field found last and goes around the table, the iterator counts the required
  fields that it passes, and `req_field_count` is what it has counted at the last field.

  * `FieldIter.place`: the iterator at a position, with the required fields before it;
  * `find_place`: the search around the table finds what the search from the head finds;
  * `reqFieldCount_place`: all required fields are counted, wherever the iterator is;
  * `FieldsSeen.complete_iff`: the words are complete where the number is.
-/
import PacketSerial.Lib.Ring
import PacketSerial.Nanopb.Required

namespace PacketSerial

variable {π σ : Type}

/-! ## The iterator -/

/-- `pb_field_iter_t`, with the position in the table for the pointer `pos`. -/
structure FieldIter where
  pos : ℕ
  requiredFieldIndex : ℕ
deriving DecidableEq, Repr

/-- `tag` at a position; behind the fields stands `PB_LAST_FIELD`, with the tag 0. -/
def tagAt (fields : List (PbField π σ)) (pos : ℕ) : ℕ := (fields[pos]?).elim 0 (·.tag)

def requiredAt (fields : List (PbField π σ)) (pos : ℕ) : Bool :=
  (fields[pos]?).any (·.htype = .required)

namespace FieldIter
variable (fields : List (PbField π σ))

/-- `pb_field_iter_begin` -/
def start : FieldIter := ⟨0, 0⟩

/-- `pb_field_iter_next`; the Boolean is the value returned. -/
def next (iter : FieldIter) : Bool × FieldIter :=
  if tagAt fields iter.pos = 0 then (false, iter)
  else if tagAt fields (iter.pos + 1) = 0 then (false, start)
  else (true, ⟨iter.pos + 1, if requiredAt fields iter.pos then iter.requiredFieldIndex + 1
    else iter.requiredFieldIndex⟩)

/-- `pb_field_iter_find` -/
def find (tag : ℕ) (iter : FieldIter) : Bool × FieldIter :=
  Ring.search (fun it => (it.next fields).2) (fun it => tagAt fields it.pos = tag)
    (fun it => it.pos = iter.pos) fields.length iter

/-- The iterator in the last turn of `do .. while (pb_field_iter_next(&iter))`. -/
def last : ℕ → FieldIter → FieldIter
  | 0, iter => iter
  | fuel + 1, iter =>
    match iter.next fields with
    | (true, iter) => last fuel iter
    | (false, _) => iter

/-- `req_field_count`, from the iterator that the loop over the fields leaves. -/
def reqFieldCount (iter : FieldIter) : ℕ :=
  let last := iter.last fields fields.length
  let count := if requiredAt fields last.pos ∧ tagAt fields (last.next fields).2.pos ≠ 0 then
      last.requiredFieldIndex + 1
    else last.requiredFieldIndex
  -- `PB_MAX_REQUIRED_FIELDS`
  if count > 64 then 64 else count

/-- The iterator at a position. -/
def place (pos : ℕ) : FieldIter := ⟨pos, PacketSerial.reqFieldCount (fields.take pos)⟩

end FieldIter

/-! ## Around the table -/

section
variable {fields : List (PbField π σ)} {pos : ℕ}

theorem tagAt_of_getElem? {f : PbField π σ} (h : fields[pos]? = some f) :
    tagAt fields pos = f.tag := by
  rw [tagAt, h]
  rfl

theorem tagAt_pos_iff (hwf : TableWF fields) : 0 < tagAt fields pos ↔ pos < fields.length := by
  constructor
  · intro h
    by_contra hge
    rw [tagAt, List.getElem?_eq_none (not_lt.1 hge)] at h
    exact Nat.lt_irrefl 0 h
  · intro h
    rw [tagAt_of_getElem? (List.getElem?_eq_getElem h)]
    exact hwf.tag_pos _ (List.getElem_mem h)

theorem reqFieldCount_take_succ (h : pos < fields.length) :
    reqFieldCount (fields.take (pos + 1)) =
      if requiredAt fields pos then reqFieldCount (fields.take pos) + 1
      else reqFieldCount (fields.take pos) := by
  rw [List.take_succ_eq_append_getElem h, reqFieldCount_append, reqFieldCount_singleton, requiredAt,
    List.getElem?_eq_getElem h]
  simp only [Option.any_some, decide_eq_true_eq]
  split_ifs <;> rfl

theorem reqFieldCount_take_lt (hwf : TableWF fields) (pos : ℕ) :
    reqFieldCount (fields.take pos) < 32 :=
  ((List.take_sublist pos fields).countP_le).trans_lt hwf.count

namespace FieldIter

@[simp] theorem place_pos (fields : List (PbField π σ)) (pos : ℕ) :
    (place fields pos).pos = pos := rfl

/-- The iterator goes around the table, and keeps its count. -/
theorem next_place (hwf : TableWF fields) (h : pos < fields.length) :
    (place fields pos).next fields =
      (decide (pos + 1 < fields.length), place fields (Ring.next fields.length pos)) := by
  have htag := (tagAt_pos_iff hwf).2 h
  rw [next, place_pos, if_neg htag.ne', Ring.next]
  by_cases hlast : pos + 1 = fields.length
  · have hend : ¬ 0 < tagAt fields (pos + 1) := fun hpos =>
      absurd ((tagAt_pos_iff hwf).1 hpos) (by omega)
    rw [if_pos (Nat.eq_zero_of_not_pos hend), if_pos hlast, decide_eq_false (by omega)]
    rfl
  · have hmore : pos + 1 < fields.length := by omega
    rw [if_neg ((tagAt_pos_iff hwf).2 hmore).ne', if_neg hlast, decide_eq_true hmore]
    refine Prod.ext rfl ?_
    dsimp only [place]
    rw [reqFieldCount_take_succ h]

/-- **The search around the table** finds the field with the tag, from wherever it starts. -/
theorem find_place (hwf : TableWF fields) (h : pos < fields.length) (tag : ℕ) :
    match pbFieldIterFind tag 0 fields with
    | none => (place fields pos).find fields tag = (false, place fields pos)
    | some (i, f) => ∃ q, (place fields pos).find fields tag = (true, place fields q) ∧
        fields[q]? = some f ∧ (place fields q).requiredFieldIndex = i := by
  have hsearch := @Ring.search_around FieldIter fields.length pos
    (fun it => (it.next fields).2) (fun it => tagAt fields it.pos = tag) (fun it => it.pos = pos)
    (place fields) h (fun q hq => congrArg Prod.snd (next_place hwf hq))
    (fun q _ => decide_eq_true_iff)
  rcases hsearch with ⟨q, hq, hfind, hfound⟩ | ⟨hfind, hnone⟩
  · have hget : fields[q]? = some fields[q] := List.getElem?_eq_getElem hq
    have htag : fields[q].tag = tag :=
      (tagAt_of_getElem? hget).symm.trans (of_decide_eq_true hfound)
    have hsplit : fields = fields.take q ++ fields[q] :: fields.drop (q + 1) := by
      rw [List.cons_getElem_drop_succ, List.take_append_drop]
    have hnot : fields[q].tag ∉ (fields.take q).map (·.tag) := by
      have hnodup := hwf.nodup
      rw [hsplit, List.map_append, List.map_cons, List.nodup_append] at hnodup
      exact fun hin => hnodup.2.2 _ hin _ List.mem_cons_self rfl
    have hlist := pbFieldIterFind_append (fields.drop (q + 1)) 0 hnot
    rw [← hsplit, zero_add, htag] at hlist
    rw [hlist]
    exact ⟨q, hfind, hget, rfl⟩
  · rcases hlist : pbFieldIterFind tag 0 fields with _ | ⟨i, f⟩
    · exact hfind
    · obtain ⟨pre, post, hsplit, htag, -⟩ := exists_of_find hlist
      have hlt : pre.length < fields.length := by
        rw [hsplit, List.length_append, List.length_cons]
        omega
      have hget : fields[pre.length]? = some f := by
        rw [hsplit, List.getElem?_append_right le_rfl, Nat.sub_self]
        rfl
      exact absurd ((tagAt_of_getElem? hget).trans htag) (of_decide_eq_false (hnone _ hlt))

/-- Its last turn is at the last field. -/
theorem last_place (hwf : TableWF fields) : ∀ {k pos : ℕ}, pos < fields.length →
    fields.length ≤ pos + k → (place fields pos).last fields k = place fields (fields.length - 1)
  | 0, pos, h, hk => absurd h (by omega)
  | k + 1, pos, h, hk => by
    rw [last, next_place hwf h]
    by_cases hmore : pos + 1 < fields.length
    · rw [decide_eq_true hmore, Ring.next, if_neg hmore.ne]
      exact last_place hwf hmore (by omega)
    · rw [decide_eq_false hmore, show pos = fields.length - 1 by omega]

/-- **All required fields are counted**, wherever the iterator was. -/
theorem reqFieldCount_place (hwf : TableWF fields) (h : pos < fields.length) :
    (place fields pos).reqFieldCount fields = PacketSerial.reqFieldCount fields := by
  have hlt : fields.length - 1 < fields.length := by omega
  have hcount := reqFieldCount_take_succ hlt
  rw [show fields.length - 1 + 1 = fields.length by omega, List.take_length] at hcount
  have hback : tagAt fields ((place fields (fields.length - 1)).next fields).2.pos ≠ 0 := by
    rw [next_place hwf hlt]
    refine ((tagAt_pos_iff hwf).2 ?_).ne'
    rw [place_pos, Ring.next]
    split_ifs <;> omega
  have hle := hwf.count
  rw [reqFieldCount, last_place hwf h (Nat.le_add_left _ _)]
  simp only [hback, ne_eq, not_false_eq_true, and_true, place_pos]
  rw [show (place fields (fields.length - 1)).requiredFieldIndex =
    PacketSerial.reqFieldCount (fields.take (fields.length - 1)) from rfl, ← hcount,
    if_neg (by omega)]

end FieldIter

end

/-! ## Required fields that have been seen -/

/-- `fields_seen`: `PB_MAX_REQUIRED_FIELDS` (64) bits. -/
abbrev FieldsSeen := Fin 2 → UInt32

namespace FieldsSeen

/-- A required field has been seen, of the index `i`. -/
def mark (seen : FieldsSeen) (i : ℕ) : FieldsSeen :=
  if h : i < 64 then
    Function.update seen ⟨i / 32, by omega⟩
      (seen ⟨i / 32, by omega⟩ ||| 1 <<< UInt32.ofNat (i % 32))
  else seen

/-- The check of the words for `count` required fields: whole words, and the bits that
    remain. -/
def Complete (seen : FieldsSeen) (count : ℕ) : Prop :=
  ∀ w : Fin 2, (w.val < count / 32 → seen w = 0xFFFFFFFF) ∧
    (w.val = count / 32 → count % 32 ≠ 0 → seen w = 0xFFFFFFFF >>> UInt32.ofNat (32 - count % 32))

instance (seen : FieldsSeen) (count : ℕ) : Decidable (seen.Complete count) :=
  inferInstanceAs (Decidable (∀ _, _))

theorem toNat_mark (seen : FieldsSeen) {i : ℕ} (h : i < 32) :
    (seen.mark i 0).toNat = (seen 0).toNat ||| 1 <<< i := by
  have hword : (⟨i / 32, by omega⟩ : Fin 2) = 0 := Fin.ext (Nat.div_eq_of_lt h)
  have hlt : 1 <<< i < 2 ^ 32 := by
    rw [Nat.one_shiftLeft]
    exact Nat.pow_lt_pow_right (by norm_num) h
  rw [mark, dif_pos (by omega), hword, Function.update_self, UInt32.toNat_or,
    UInt32.toNat_shiftLeft, UInt32.toNat_ofNat', Nat.mod_eq_of_lt h,
    Nat.mod_eq_of_lt (show i < 2 ^ 32 by omega), Nat.mod_eq_of_lt h]
  exact congrArg _ (Nat.mod_eq_of_lt hlt)

/-- With fewer than 32 required fields, the first word decides. -/
theorem complete_iff {fields : List (PbField π σ)} (hcount : reqFieldCount fields < 32)
    (seen : FieldsSeen) :
    seen.Complete (reqFieldCount fields) ↔ allFieldsSeen fields (seen 0).toNat := by
  have hdiv : reqFieldCount fields / 32 = 0 := Nat.div_eq_of_lt hcount
  have hmod : reqFieldCount fields % 32 = reqFieldCount fields := Nat.mod_eq_of_lt hcount
  rw [Complete, allFieldsSeen, hdiv, hmod, Fin.forall_fin_two]
  simp only [Fin.val_zero, Fin.val_one, Nat.lt_irrefl, Nat.not_lt_zero, IsEmpty.forall_iff,
    true_and, one_ne_zero, and_true, forall_const]
  refine imp_congr_right fun hne => ?_
  rw [← UInt32.toNat_inj, UInt32.toNat_shiftRight, UInt32.toNat_ofNat',
    Nat.mod_eq_of_lt (show 32 - reqFieldCount fields < 2 ^ 32 by omega),
    Nat.mod_eq_of_lt (show 32 - reqFieldCount fields < 32 by omega)]
  rfl

end FieldsSeen

end PacketSerial
