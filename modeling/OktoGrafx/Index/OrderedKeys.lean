import OktoGrafx.Domain.Checksum
import OktoGrafx.Domain.Ids
import OktoGrafx.Lib.OrderCode

/-! Keys of the ordered index. A key is a nullable timestamp followed by a nullable string, coded so
that comparing bytes compares the columns. -/

namespace Grafx

open List

/-! ## Bytes and record references -/

def byte (n : ℕ) : Byte := Fin.ofNat 256 n

def maxPageIndex : ℕ := 0xFFFFFFFF

def maxSlotId : ℕ := 0xFFFF

structure StoredRef where
  page : ℕ
  slot : ℕ
  page_le : page ≤ maxPageIndex
  slot_le : slot ≤ maxSlotId
  deriving DecidableEq

def StoredRef.encode (r : StoredRef) : ℕ := (r.page <<< 16) ||| r.slot

theorem StoredRef.encode_eq (r : StoredRef) : r.encode = r.page * 2 ^ 16 + r.slot := by
  have hslot : r.slot < 2 ^ 16 := Nat.lt_succ_of_le r.slot_le
  rw [encode, ← Nat.shiftLeft_add_eq_or_of_lt hslot, Nat.shiftLeft_eq]

theorem StoredRef.encode_lt_iff {r r' : StoredRef} :
    r.encode < r'.encode ↔ r.page < r'.page ∨ r.page = r'.page ∧ r.slot < r'.slot := by
  have hslot : r.slot < 2 ^ 16 := Nat.lt_succ_of_le r.slot_le
  have hslot' : r'.slot < 2 ^ 16 := Nat.lt_succ_of_le r'.slot_le
  rw [encode_eq, encode_eq]
  omega

theorem StoredRef.encode_injective : Function.Injective StoredRef.encode := by
  intro r r' h
  have hslot : r.slot < 2 ^ 16 := Nat.lt_succ_of_le r.slot_le
  have hslot' : r'.slot < 2 ^ 16 := Nat.lt_succ_of_le r'.slot_le
  rw [encode_eq, encode_eq] at h
  cases r
  cases r'
  simp only [StoredRef.mk.injEq]
  dsimp only at h hslot hslot'
  omega

theorem StoredRef.encode_le (r : StoredRef) : r.encode ≤ 0xFFFFFFFFFFFF := by
  have hpage := r.page_le
  have hslot := r.slot_le
  rw [StoredRef.encode_eq]
  simp only [maxPageIndex, maxSlotId] at hpage hslot
  omega

def StoredRef.decode (raw : ℕ) : Option StoredRef :=
  if h : raw ≤ 0xFFFFFFFFFFFF then
    some ⟨raw >>> 16, raw &&& maxSlotId, by rw [Nat.shiftRight_eq_div_pow, maxPageIndex]; omega, Nat.and_le_right⟩
  else none

theorem StoredRef.decode_encode (r : StoredRef) : decode r.encode = some r := by
  have hslot : r.slot < 2 ^ 16 := Nat.lt_succ_of_le r.slot_le
  have hpage : r.encode >>> 16 = r.page := by
    rw [Nat.shiftRight_eq_div_pow, StoredRef.encode_eq]
    omega
  have hslot' : r.encode &&& maxSlotId = r.slot := by
    rw [show maxSlotId = 2 ^ 16 - 1 from rfl, Nat.and_two_pow_sub_one_eq_mod, StoredRef.encode_eq]
    omega
  rw [decode, dif_pos r.encode_le]
  simp only [hpage, hslot']

namespace Index

/-! ## Column values -/

structure Timestamp where
  micros : ℤ
  lower : -2 ^ 63 ≤ micros
  upper : micros < 2 ^ 63
  deriving DecidableEq

abbrev CodePoint := Fin 0x110000

instance codePointNeZero : NeZero 0x110000 := ⟨by decide⟩

def CodePoint.isSurrogate (c : CodePoint) : Bool := decide (0xD800 ≤ c.val) && decide (c.val ≤ 0xDFFF)

inductive Value where
  | null
  | timestamp (value : Timestamp)
  | string (text : List CodePoint)
  | other (typeName : String)
  deriving DecidableEq

def Value.typeName : Value → String
  | null => "NoneType"
  | timestamp _ => "Timestamp"
  | string _ => "str"
  | other name => name

inductive KeyRefusal where
  | expectedTimestamp (typeName : String) (position : ℕ)
  | expectedString (typeName : String) (position : ℕ)
  | notUtf8 (position character : ℕ)
  | positionCount (positions : List ℤ)
  | positionRange (position : ℤ) (arity : ℕ)
  deriving DecidableEq

/-! ## Encoding -/

def nonNull : Byte := 0x00

def null : Byte := 0xFF

def stringEscape : Bytes := [0x00, 0xFF]

def stringTerminator : Bytes := [0x00, 0x00]

def signBit : ℤ := 2 ^ 63

def toBytesBig (width n : ℕ) : Bytes := OrderCode.digits 256 byte width n

def timestampBody (t : Timestamp) : Bytes := toBytesBig 8 (t.micros + signBit).toNat

def orderedTimestamp (value : Value) (position : ℕ) : Except KeyRefusal Bytes :=
  match value with
  | .null => .ok [null]
  | .timestamp t => .ok (nonNull :: timestampBody t)
  | v => .error (.expectedTimestamp v.typeName position)

def continuation (count c : ℕ) : Bytes := OrderCode.digits 64 (fun d => byte (0x80 + d)) count c

def utf8 (c : CodePoint) : Bytes :=
  if c.val < 0x80 then [byte c.val]
  else if c.val < 0x800 then byte (0xC0 + c.val / 64 ^ 1) :: continuation 1 c.val
  else if c.val < 0x10000 then byte (0xE0 + c.val / 64 ^ 2) :: continuation 2 c.val
  else byte (0xF0 + c.val / 64 ^ 3) :: continuation 3 c.val

def encodeUtf8 (text : List CodePoint) : Except ℕ Bytes :=
  match text.findIdx? CodePoint.isSurrogate with
  | some start => .error start
  | none => .ok (text.flatMap utf8)

def escapeByte (b : Byte) : Bytes := if b = 0 then stringEscape else [b]

def stringBody (encoded : Bytes) : Bytes := encoded.flatMap escapeByte ++ stringTerminator

def orderedString (value : Value) (position : ℕ) : Except KeyRefusal Bytes :=
  match value with
  | .null => .ok [null]
  | .string text =>
    match encodeUtf8 text with
    | .error start => .error (.notUtf8 position start)
    | .ok encoded => .ok (nonNull :: stringBody encoded)
  | v => .error (.expectedString v.typeName position)

def orderedTimestampStringKey (timestamp text : Value) : Except KeyRefusal Bytes := do
  let first ← orderedTimestamp timestamp 0
  let second ← orderedString text 1
  return first ++ second

def resolvePosition (arity : ℕ) (position : ℤ) : Except KeyRefusal ℕ :=
  if 0 ≤ position ∧ position < arity then .ok position.toNat else .error (.positionRange position arity)

def orderedIndexKey (values : List Value) (positions : List ℤ) : Except KeyRefusal Bytes :=
  match positions with
  | [p, q] => do
    let i ← resolvePosition values.length p
    let j ← resolvePosition values.length q
    let first ← orderedTimestamp (values.getD i .null) i
    let second ← orderedString (values.getD j .null) j
    return first ++ second
  | _ => .error (.positionCount positions)

abbrev Identity := Bytes ×ₗ ℕ

def orderedEntryIdentity (key : Bytes) (ref : StoredRef) : Identity := toLex (key, ref.encode)

/-! ## Order -/

instance : LinearOrder Timestamp :=
  LinearOrder.lift' Timestamp.micros fun a b h => by
    exact Timestamp.mk.injEq .. ▸ h

theorem byte_lt_byte {a b : ℕ} (h : a < b) (hb : b < 256) : byte a < byte b := by
  have ha := h.trans hb
  show a % 256 < b % 256
  rwa [Nat.mod_eq_of_lt ha, Nat.mod_eq_of_lt hb]

theorem byte_ne_zero {a : ℕ} (h : 0 < a) (ha : a < 256) : byte a ≠ 0 := by
  have hlt := byte_lt_byte h ha
  exact Ne.symm (ne_of_lt hlt)

theorem orderCode_timestampBody : OrderCode timestampBody := by
  intro t t' h x y
  have hmicros : t.micros < t'.micros := h
  have hlower := t.lower
  have hupper := t'.upper
  have hshift : (t.micros + signBit).toNat < (t'.micros + signBit).toNat := by
    simp only [signBit]
    omega
  have hfits : (t'.micros + signBit).toNat < 256 ^ 8 := by
    simp only [signBit]
    omega
  refine OrderCode.digits_lt (fun a b => byte_lt_byte) (by decide) ?_ x y
  rwa [Nat.mod_eq_of_lt (hshift.trans hfits), Nat.mod_eq_of_lt hfits]

theorem continuation_lt {count c d : ℕ} (h : c % 64 ^ count < d % 64 ^ count) (x y : Bytes) :
    continuation count c ++ x < continuation count d ++ y := by
  refine OrderCode.digits_lt (fun a b hab hb => byte_lt_byte ?_ ?_) (by decide) h x y
  · exact Nat.add_lt_add_left hab 0x80
  · omega

theorem lead_lt {lead count c d : ℕ} (h : c < d) (hd : lead + d / 64 ^ count < 256) (x y : Bytes) :
    (byte (lead + c / 64 ^ count) :: continuation count c) ++ x <
      (byte (lead + d / 64 ^ count) :: continuation count d) ++ y := by
  rw [cons_append, cons_append, cons_lt_cons_iff]
  rcases lt_or_ge (c / 64 ^ count) (d / 64 ^ count) with hlead | hlead
  · exact .inl (byte_lt_byte (Nat.add_lt_add_left hlead lead) hd)
  · have hsame : c / 64 ^ count = d / 64 ^ count := le_antisymm (Nat.div_le_div_right h.le) hlead
    refine .inr ⟨by rw [hsame], continuation_lt ?_ x y⟩
    have hc := Nat.div_add_mod c (64 ^ count)
    have hd := Nat.div_add_mod d (64 ^ count)
    rw [hsame] at hc
    omega

theorem orderCode_utf8 : OrderCode utf8 := by
  intro c d h x y
  have hlt : c.val < d.val := h
  have hfirst : ∀ {a b : ℕ} {u v : Bytes}, a < b → b < 256 → (byte a :: u) ++ x < (byte b :: v) ++ y :=
    fun hab hb => cons_lt_cons_iff.mpr (.inl (byte_lt_byte hab hb))
  unfold utf8
  -- The class of a character shows in its first byte.
  split_ifs with h1 h2 h3 h4 h5 h6 h7 h8 h9 h10 h11 h12
  all_goals first | exact lead_lt hlt (by omega) x y | exact hfirst (by omega) (by omega)

theorem utf8_ne_zero {c : CodePoint} (hc : c ≠ 0) : ∀ b ∈ utf8 c, b ≠ 0 := by
  have hpos : 0 < c.val := Nat.pos_of_ne_zero fun h => hc (Fin.ext h)
  have hcontinuation : ∀ count n, ∀ b ∈ continuation count n, b ≠ 0 := by
    intro count
    induction count with
    | zero => exact nofun
    | succ count ih =>
      intro n b hb
      rcases mem_append.mp hb with hb | hb
      · exact ih _ b hb
      · rw [mem_singleton.mp hb]
        exact byte_ne_zero (by omega) (by omega)
  unfold utf8
  intro b hb
  split_ifs at hb with h1 h2 h3
  · rw [mem_singleton.mp hb]
    exact byte_ne_zero hpos (by omega)
  all_goals
    rcases mem_cons.mp hb with rfl | hb
    · exact byte_ne_zero (by omega) (by omega)
    · exact hcontinuation _ _ b hb

def escaped (c : CodePoint) : Bytes := (utf8 c).flatMap escapeByte

theorem escaped_zero : escaped 0 = stringEscape := by decide

theorem escaped_of_ne {c : CodePoint} (hc : c ≠ 0) : escaped c = utf8 c := by
  have hsame : ∀ {bs : Bytes}, (∀ b ∈ bs, b ≠ 0) → bs.flatMap escapeByte = bs := by
    intro bs hbs
    induction bs with
    | nil => rfl
    | cons b bs ih =>
      rw [flatMap_cons, escapeByte, if_neg (hbs b mem_cons_self), ih (forall_mem_cons.mp hbs).2]
      rfl
  exact hsame (utf8_ne_zero hc)

theorem utf8_ne_nil (c : CodePoint) : utf8 c ≠ [] := by
  unfold utf8
  split_ifs
  all_goals exact cons_ne_nil _ _

theorem zero_lt_escaped {c : CodePoint} (hc : c ≠ 0) (rest x y : Bytes) : (0 :: rest) ++ x < escaped c ++ y := by
  rw [escaped_of_ne hc]
  cases hbytes : utf8 c with
  | nil => exact absurd hbytes (utf8_ne_nil c)
  | cons b bs =>
    have hb : b ≠ 0 := utf8_ne_zero hc b (hbytes ▸ mem_cons_self)
    exact cons_lt_cons_iff.mpr (.inl (Fin.pos_iff_ne_zero.mpr hb))

theorem orderCode_escaped : OrderCode escaped := by
  intro c d h x y
  have hd : d ≠ 0 := Fin.pos_iff_ne_zero.mp (lt_of_le_of_lt (Fin.zero_le c) h)
  by_cases hc : c = 0
  · rw [hc, escaped_zero]
    exact zero_lt_escaped hd [0xFF] x y
  · rw [escaped_of_ne hc, escaped_of_ne hd]
    exact orderCode_utf8 c d h x y

theorem terminator_lt_escaped (c : CodePoint) (x y : Bytes) : stringTerminator ++ x < escaped c ++ y := by
  by_cases hc : c = 0
  · rw [hc, escaped_zero]
    exact cons_lt_cons_iff.mpr (.inr ⟨rfl, cons_lt_cons_iff.mpr (.inl (by decide))⟩)
  · exact zero_lt_escaped hc [0x00] x y

theorem orderCode_text : OrderCode fun text : List CodePoint => stringBody (text.flatMap utf8) := by
  have hcode : (fun text : List CodePoint => stringBody (text.flatMap utf8)) =
      fun text => text.flatMap escaped ++ stringTerminator := by
    funext text
    rw [stringBody, flatMap_assoc]
    rfl
  rw [hcode]
  exact orderCode_escaped.terminated terminator_lt_escaped

/-! ## Keys of two columns -/

abbrev Text := { text : List CodePoint // ∀ c ∈ text, c.isSurrogate = false }

abbrev KeyTuple := WithTop Timestamp ×ₗ WithTop Text

def timestampValue (column : WithTop Timestamp) : Value := column.recTopCoe .null .timestamp

def textValue (column : WithTop Text) : Value := column.recTopCoe .null fun text => .string text.val

def KeyTuple.key (columns : KeyTuple) : Except KeyRefusal Bytes :=
  orderedTimestampStringKey (timestampValue (ofLex columns).1) (textValue (ofLex columns).2)

def keyCode (columns : KeyTuple) : Bytes :=
  ((ofLex columns).1.recTopCoe [null] fun t => nonNull :: timestampBody t) ++
    ((ofLex columns).2.recTopCoe [null] fun text => nonNull :: stringBody (text.val.flatMap utf8))

theorem orderCode_keyCode : OrderCode keyCode := by
  have hmark : nonNull < null := by decide
  have htext : OrderCode fun text : Text => stringBody (text.val.flatMap utf8) :=
    orderCode_text.comp fun _ _ h => h
  exact (orderCode_timestampBody.withTop hmark).append (htext.withTop hmark)

theorem orderedTimestamp_eq (column : WithTop Timestamp) (position : ℕ) : orderedTimestamp (timestampValue column) position =
    .ok (column.recTopCoe [null] fun t => nonNull :: timestampBody t) := by
  induction column with
  | top => rfl
  | coe t => rfl

theorem orderedString_eq (column : WithTop Text) (position : ℕ) : orderedString (textValue column) position =
    .ok (column.recTopCoe [null] fun text => nonNull :: stringBody (text.val.flatMap utf8)) := by
  induction column with
  | top => rfl
  | coe text =>
    have hscalar : text.val.findIdx? CodePoint.isSurrogate = none := findIdx?_eq_none_iff.mpr text.property
    show orderedString (.string text.val) position = _
    simp only [orderedString, encodeUtf8, hscalar]
    rfl

theorem KeyTuple.key_eq (columns : KeyTuple) : columns.key = .ok (keyCode columns) := by
  rw [key, orderedTimestampStringKey, orderedTimestamp_eq, orderedString_eq]
  rfl

structure RowColumns (columns : KeyTuple) where
  values : List Value
  first : Fin values.length
  second : Fin values.length
  first_eq : values.get first = timestampValue (ofLex columns).1
  second_eq : values.get second = textValue (ofLex columns).2

theorem RowColumns.orderedIndexKey_eq {columns : KeyTuple} (row : RowColumns columns) :
    orderedIndexKey row.values [row.first, row.second] = .ok (keyCode columns) := by
  have hresolve : ∀ i : Fin row.values.length, resolvePosition row.values.length (i : ℕ) = .ok i := by
    intro i
    rw [resolvePosition, if_pos ⟨Int.natCast_nonneg _, Int.ofNat_lt.mpr i.isLt⟩, Int.toNat_natCast]
  have hvalue : ∀ i : Fin row.values.length, row.values.getD i .null = row.values.get i := fun i => by
    rw [getD_eq_getElem?_getD, getElem?_eq_getElem i.isLt, Option.getD_some, get_eq_getElem]
  simp only [orderedIndexKey, hresolve, bind, Except.bind, hvalue, row.first_eq, row.second_eq, orderedTimestamp_eq,
    orderedString_eq]
  rfl

/-- Byte strings compare as the columns they code, and entries with one key as their references. -/
theorem ordered_key_order (p q : KeyTuple) : ∃ k l, p.key = .ok k ∧ q.key = .ok l ∧
    (∀ row : RowColumns p, orderedIndexKey row.values [row.first, row.second] = .ok k) ∧
    (k < l ↔ p < q) ∧ (k = l ↔ p = q) ∧
    ∀ r s : StoredRef,
      (orderedEntryIdentity k r < orderedEntryIdentity l s ↔
        p < q ∨ p = q ∧ (r.page < s.page ∨ r.page = s.page ∧ r.slot < s.slot)) ∧
      (orderedEntryIdentity k r = orderedEntryIdentity l s ↔ p = q ∧ r = s) := by
  have hlt : keyCode p < keyCode q ↔ p < q := orderCode_keyCode.lt_iff
  have heq : keyCode p = keyCode q ↔ p = q := orderCode_keyCode.injective.eq_iff
  refine ⟨keyCode p, keyCode q, p.key_eq, q.key_eq, RowColumns.orderedIndexKey_eq, hlt, heq, fun r s => ⟨?_, ?_⟩⟩
  · rw [orderedEntryIdentity, orderedEntryIdentity, Prod.Lex.toLex_lt_toLex, hlt, heq, StoredRef.encode_lt_iff]
  · rw [orderedEntryIdentity, orderedEntryIdentity, toLex_inj, Prod.mk.injEq, heq, StoredRef.encode_injective.eq_iff]

end Index
end Grafx
