import Mathlib

/-!
# The protobuf wire layer

`open-sse/utils/cursorAgentProtobuf/wire.ts`: varints, tags and fields. A buffer with a position in
it is the list of the bytes from there on. Tags and varints are `bigint`s, that is, natural numbers.

**Main result (`wire_layer`).** The fields encoded are the fields decoded. A buffer that is decoded
is a concatenation of complete fields, exactly when it does not end within a fixed-width field.
-/

namespace OmniRoute.CursorWire

open List

abbrev Bytes := List UInt8

/-! ## Encoding -/

def encodeVarint (v : ℤ) : Bytes :=
  if 0x7f < v then UInt8.ofNat (v % 128 + 128).toNat :: encodeVarint (v / 128)
  else [UInt8.ofNat (v % 256).toNat]
termination_by v.toNat

/-- `(fieldNumber << 3) | wireType`, in 32 bits with a sign. -/
def tagOf (fieldNumber wireType : ℕ) : ℤ :=
  (BitVec.ofNat 32 fieldNumber <<< 3 ||| BitVec.ofNat 32 wireType).toInt

def encodeTag (fieldNumber wireType : ℕ) : Bytes := encodeVarint (tagOf fieldNumber wireType)

def encodeBytes (fieldNumber : ℕ) (value : Bytes) : Bytes :=
  encodeTag fieldNumber 2 ++ encodeVarint value.length ++ value

def encodeVarintField (fieldNumber value : ℕ) : Bytes :=
  encodeTag fieldNumber 0 ++ encodeVarint value

/-- A double is its eight bytes. -/
def encodeDoubleField (fieldNumber : ℕ) (value : List.Vector UInt8 8) : Bytes :=
  encodeTag fieldNumber 1 ++ value.toList

/-! ## Decoding -/

def decodeVarintFrom (result shift : ℕ) : Bytes → Except String (ℕ × Bytes)
  | [] => .error "varint truncated"
  | byte :: rest =>
    let result := result ||| (byte.toNat &&& 0x7f) <<< shift
    if byte.toNat &&& 0x80 = 0 then .ok (result, rest)
    else decodeVarintFrom result (shift + 7) rest

def decodeVarint : Bytes → Except String (ℕ × Bytes) := decodeVarintFrom 0 0

inductive Field
  | varint (fieldNumber varint : ℕ)
  | len (fieldNumber : ℕ) (bytes : Bytes)
  deriving DecidableEq

/-- The length of a field if that many bytes are left. -/
def checkedLen (len : ℕ) (rest : Bytes) : Except String ℕ :=
  if len > rest.length then
    .error ("length-delimited field overruns buffer (len=" ++ toString len ++ ", remaining=" ++
      toString rest.length ++ ")")
  else .ok len

/-- One round of the loop of `decodeFields`: the field it adds, and the bytes behind it. -/
def decodeField (buf : Bytes) : Except String (Option Field × Bytes) := do
  let (tag, rest) ← decodeVarint buf
  let fieldNumber := tag >>> 3
  let wireType := tag &&& 0x7
  if wireType = 0 then
    let (v, rest) ← decodeVarint rest
    return (some (.varint fieldNumber v), rest)
  else if wireType = 2 then
    let (len, rest) ← decodeVarint rest
    let lenN ← checkedLen len rest
    return (some (.len fieldNumber (rest.take lenN)), rest.drop lenN)
  else if wireType = 5 then return (none, rest.drop 4)
  else if wireType = 1 then return (none, rest.drop 8)
  else throw ("unsupported wireType " ++ toString wireType)

/-! ## Complete fields -/

/-- The bytes of a varint and its value. -/
inductive IsVarint : Bytes → ℕ → Prop
  | last {b : UInt8} (h : b.toNat < 128) : IsVarint [b] b.toNat
  | more {b : UInt8} {bs : Bytes} {v : ℕ} (h : 128 ≤ b.toNat) (hbs : IsVarint bs v) :
    IsVarint (b :: bs) (b.toNat - 128 + 128 * v)

/-- The bytes of a complete field and what it adds to the list. -/
inductive IsField : Bytes → Option Field → Prop
  | varint {tag bs : Bytes} {t v : ℕ} (htag : IsVarint tag t) (hwire : t % 8 = 0)
    (hv : IsVarint bs v) : IsField (tag ++ bs) (some (.varint (t / 8) v))
  | len {tag bs bytes : Bytes} {t : ℕ} (htag : IsVarint tag t) (hwire : t % 8 = 2)
    (hlen : IsVarint bs bytes.length) : IsField (tag ++ (bs ++ bytes)) (some (.len (t / 8) bytes))
  | fixed {tag bytes : Bytes} {t : ℕ} (htag : IsVarint tag t)
    (hwire : t % 8 = 5 ∧ bytes.length = 4 ∨ t % 8 = 1 ∧ bytes.length = 8) :
    IsField (tag ++ bytes) none

/-- A concatenation of complete fields and the list it stands for. -/
inductive Parses : Bytes → List Field → Prop
  | nil : Parses [] []
  | cons {bytes rest : Bytes} {field : Option Field} {fields : List Field}
    (hfield : IsField bytes field) (hrest : Parses rest fields) :
    Parses (bytes ++ rest) (field.toList ++ fields)

/-- A fixed-width field without all of its bytes. -/
def CutFixed (buf : Bytes) : Prop :=
  ∃ tag bytes t, buf = tag ++ bytes ∧ IsVarint tag t ∧
    (t % 8 = 5 ∧ bytes.length < 4 ∨ t % 8 = 1 ∧ bytes.length < 8)

def EndsInCutFixed (buf : Bytes) : Prop :=
  ∃ done fields cut, buf = done ++ cut ∧ Parses done fields ∧ CutFixed cut

/-! ## Varints -/

theorem byte_bits (b : UInt8) : b.toNat &&& 0x7f = b.toNat % 128 ∧
    (b.toNat &&& 0x80 = 0 ↔ b.toNat < 128) := by
  have hall : ∀ n < 256, n &&& 0x7f = n % 128 ∧ (n &&& 0x80 = 0 ↔ n < 128) := by decide +kernel
  exact hall _ b.toNat_lt

variable {ws rest : Bytes} {w : ℕ}

theorem IsVarint.ne_nil (h : IsVarint ws w) : ws ≠ [] := by
  cases h <;> exact cons_ne_nil _ _

theorem decodeVarintFrom_append (h : IsVarint ws w) (rest : Bytes) {result shift : ℕ}
    (hresult : result < 2 ^ shift) :
    decodeVarintFrom result shift (ws ++ rest) = .ok (result + 2 ^ shift * w, rest) := by
  have hor : ∀ x, result ||| x <<< shift = result + 2 ^ shift * x := by
    intro x
    rw [Nat.shiftLeft_eq, Nat.or_comm, Nat.mul_comm, ← Nat.two_pow_add_eq_or_of_lt hresult,
      Nat.add_comm]
  induction h generalizing result shift with
  | @last b hb =>
    rw [cons_append, decodeVarintFrom, (byte_bits b).1, hor]
    rw [if_pos ((byte_bits b).2.2 hb), Nat.mod_eq_of_lt hb, List.nil_append]
  | @more b bs v hb hbs ih =>
    have hb' := b.toNat_lt
    have hmod : b.toNat % 128 = b.toNat - 128 := by omega
    have hnext : result + 2 ^ shift * (b.toNat - 128) < 2 ^ (shift + 7) := by
      have hle : 2 ^ shift * (b.toNat - 128) ≤ 2 ^ shift * 127 := Nat.mul_le_mul_left _ (by omega)
      rw [Nat.pow_add]
      omega
    rw [cons_append, decodeVarintFrom, (byte_bits b).1, hor, hmod]
    rw [if_neg (mt (byte_bits b).2.1 (not_lt.2 hb)), ih hnext]
    · rw [Nat.pow_add, Nat.add_assoc, Nat.mul_assoc, ← Nat.mul_add]
    · intro x
      rw [Nat.shiftLeft_eq, Nat.or_comm, Nat.mul_comm, ← Nat.two_pow_add_eq_or_of_lt hnext,
        Nat.add_comm]

@[simp] theorem decodeVarint_append (h : IsVarint ws w) (rest : Bytes) :
    decodeVarint (ws ++ rest) = .ok (w, rest) := by
  rw [decodeVarint, decodeVarintFrom_append h rest (by decide), Nat.zero_add, Nat.pow_zero,
    Nat.one_mul]

variable {buf : Bytes}

/-- What is decoded is a complete varint at the start of the buffer. -/
theorem exists_isVarint {result shift v : ℕ}
    (h : decodeVarintFrom result shift buf = .ok (v, rest)) :
    ∃ ws w, buf = ws ++ rest ∧ IsVarint ws w := by
  induction buf generalizing result shift with
  | nil => cases h
  | cons b buf ih =>
    rw [decodeVarintFrom] at h
    split at h
    · next hlast =>
      injection h with h
      injection h with hv hrest
      exact ⟨[b], b.toNat, by rw [hrest]; rfl, .last ((byte_bits b).2.1 hlast)⟩
    · next hmore =>
      obtain ⟨ws, w, rfl, hw⟩ := ih h
      exact ⟨b :: ws, _, rfl, .more (not_lt.1 (mt (byte_bits b).2.2 hmore)) hw⟩

theorem decodeVarint_ok {v : ℕ} (h : decodeVarint buf = .ok (v, rest)) :
    ∃ ws, buf = ws ++ rest ∧ IsVarint ws v := by
  obtain ⟨ws, w, rfl, hw⟩ := exists_isVarint h
  rw [decodeVarint_append hw] at h
  injection h with h
  injection h with hv
  exact ⟨ws, rfl, hv ▸ hw⟩

theorem isVarint_encodeVarint (v : ℕ) : IsVarint (encodeVarint v) v := by
  induction v using Nat.strong_induction_on with
  | _ v ih =>
    rw [encodeVarint]
    split
    · next hv =>
      have hbyte : (UInt8.ofNat ((v : ℤ) % 128 + 128).toNat).toNat = v % 128 + 128 := by
        rw [UInt8.toNat_ofNat']
        omega
      have hmore := IsVarint.more (b := UInt8.ofNat ((v : ℤ) % 128 + 128).toNat) (by omega)
        (ih (v / 128) (by omega))
      rw [hbyte] at hmore
      rw [show (v : ℤ) / 128 = ((v / 128 : ℕ) : ℤ) by omega]
      convert hmore using 1
      omega
    · next hv =>
      have hbyte : (UInt8.ofNat ((v : ℤ) % 256).toNat).toNat = v := by
        rw [UInt8.toNat_ofNat']
        omega
      have hlast := IsVarint.last (b := UInt8.ofNat ((v : ℤ) % 256).toNat) (by omega)
      rwa [hbyte] at hlast

theorem tagOf_eq {fieldNumber wireType : ℕ} (hnumber : fieldNumber < 2 ^ 28)
    (hwire : wireType < 8) : tagOf fieldNumber wireType = (8 * fieldNumber + wireType : ℕ) := by
  have hor := Nat.two_pow_add_eq_or_of_lt (i := 3) hwire fieldNumber
  have hnat : (BitVec.ofNat 32 fieldNumber <<< 3 ||| BitVec.ofNat 32 wireType).toNat =
      8 * fieldNumber + wireType := by
    rw [BitVec.toNat_or, BitVec.toNat_shiftLeft, BitVec.toNat_ofNat, BitVec.toNat_ofNat,
      Nat.mod_eq_of_lt (by omega : wireType < 2 ^ 32),
      Nat.mod_eq_of_lt (by omega : fieldNumber < 2 ^ 32), Nat.shiftLeft_eq,
      Nat.mod_eq_of_lt (by omega), Nat.mul_comm]
    exact hor.symm
  rw [tagOf, BitVec.toInt_eq_toNat_of_lt (by omega), hnat]

theorem isVarint_encodeTag {fieldNumber wireType : ℕ} (hnumber : fieldNumber < 2 ^ 28)
    (hwire : wireType < 8) :
    IsVarint (encodeTag fieldNumber wireType) (8 * fieldNumber + wireType) := by
  rw [encodeTag, tagOf_eq hnumber hwire]
  exact isVarint_encodeVarint _

/-! ## Fields -/

theorem shift_tag (t : ℕ) : t >>> 3 = t / 8 ∧ t &&& 0x7 = t % 8 :=
  ⟨Nat.shiftRight_eq_div_pow t 3, Nat.and_two_pow_sub_one_eq_mod t 3⟩

variable {field : Option Field}

theorem decodeField_append {bytes : Bytes} (h : IsField bytes field)
    (rest : Bytes) : decodeField (bytes ++ rest) = .ok (field, rest) := by
  cases h with
  | @varint tag bs t v htag hwire hv =>
    rw [decodeField, append_assoc, decodeVarint_append htag]
    simp [bind, Except.bind, pure, Except.pure, shift_tag, hwire, decodeVarint_append hv]
  | @len tag bs bytes t htag hwire hlen =>
    rw [decodeField, append_assoc, decodeVarint_append htag]
    simp [bind, Except.bind, pure, Except.pure, shift_tag, hwire, decodeVarint_append hlen, checkedLen]
  | @fixed tag bytes t htag hwire =>
    rw [decodeField, append_assoc, decodeVarint_append htag]
    rcases hwire with ⟨hwire, hlen⟩ | ⟨hwire, hlen⟩ <;>
      simp [bind, Except.bind, pure, Except.pure, shift_tag, hwire, hlen]

theorem decodeField_cut (h : CutFixed buf) : decodeField buf = .ok (none, []) := by
  obtain ⟨tag, bytes, t, rfl, htag, hwire⟩ := h
  rw [decodeField, decodeVarint_append htag]
  rcases hwire with ⟨hwire, hlen⟩ | ⟨hwire, hlen⟩ <;>
    simp [bind, Except.bind, pure, Except.pure, shift_tag, hwire, hlen.le]

theorem bind_eq_ok {ε α β : Type} {x : Except ε α} {f : α → Except ε β} {b : β}
    (h : x >>= f = .ok b) : ∃ a, x = .ok a ∧ f a = .ok b := by
  cases x with
  | error e => cases h
  | ok a => exact ⟨a, rfl, h⟩

/-- A round of the loop reads a complete field, or cuts a fixed-width field short. -/
theorem decodeField_ok {buf rest : Bytes} (h : decodeField buf = .ok (field, rest)) :
    (∃ bytes, buf = bytes ++ rest ∧ IsField bytes field) ∨ CutFixed buf := by
  obtain ⟨⟨t, more⟩, htag, hfield⟩ := bind_eq_ok h
  clear h
  obtain ⟨tag, rfl, hvarint⟩ := decodeVarint_ok htag
  dsimp only at hfield
  rw [(shift_tag t).1, (shift_tag t).2] at hfield
  split at hfield
  · next hwire =>
    obtain ⟨⟨v, after⟩, hv, hvalue⟩ := bind_eq_ok hfield
    cases hvalue
    obtain ⟨bs, rfl, hbs⟩ := decodeVarint_ok hv
    exact .inl ⟨tag ++ bs, (append_assoc ..).symm, .varint hvarint hwire hbs⟩
  split at hfield
  · next hwire =>
    obtain ⟨⟨len, after⟩, hv, hbytes⟩ := bind_eq_ok hfield
    obtain ⟨n, hn, hvalue⟩ := bind_eq_ok hbytes
    unfold checkedLen at hn
    split at hn
    · cases hn
    next hfits =>
    cases hn
    cases hvalue
    obtain ⟨bs, rfl, hbs⟩ := decodeVarint_ok hv
    have htake : (after.take len).length = len := length_take_of_le (not_lt.1 hfits)
    refine .inl ⟨tag ++ (bs ++ after.take len), ?_, .len hvarint hwire (by rwa [htake])⟩
    rw [append_assoc, append_assoc, take_append_drop]
  have hfixed : ∀ n, (t % 8 = 5 ∧ n = 4 ∨ t % 8 = 1 ∧ n = 8) → field = none →
      rest = more.drop n → (∃ bytes, tag ++ more = bytes ++ rest ∧ IsField bytes field) ∨
        CutFixed (tag ++ more) := by
    rintro n hwire rfl rfl
    by_cases hlen : n ≤ more.length
    · refine .inl ⟨tag ++ more.take n, by rw [append_assoc, take_append_drop], ?_⟩
      apply IsField.fixed hvarint
      rw [length_take_of_le hlen]
      exact hwire
    · exact .inr ⟨tag, more, t, rfl, hvarint, by omega⟩
  split at hfield
  · next hwire =>
    cases hfield
    exact hfixed 4 (.inl ⟨hwire, rfl⟩) rfl rfl
  split at hfield
  · next hwire =>
    cases hfield
    exact hfixed 8 (.inr ⟨hwire, rfl⟩) rfl rfl
  · cases hfield

theorem IsField.ne_nil {bytes : Bytes} (h : IsField bytes field) : bytes ≠ [] := by
  cases h with
  | varint htag => exact append_ne_nil_of_left_ne_nil htag.ne_nil _
  | len htag => exact append_ne_nil_of_left_ne_nil htag.ne_nil _
  | fixed htag => exact append_ne_nil_of_left_ne_nil htag.ne_nil _

theorem decodeField_shorter {buf rest : Bytes}
    (h : decodeField buf = .ok (field, rest)) : rest.length < buf.length := by
  rcases decodeField_ok h with ⟨bytes, rfl, hfield⟩ | hcut
  · rw [length_append]
    exact Nat.lt_add_of_pos_left (length_pos_iff.2 hfield.ne_nil)
  · rw [decodeField_cut hcut] at h
    cases h
    obtain ⟨tag, bytes, t, rfl, htag, -⟩ := hcut
    exact length_pos_iff.2 (append_ne_nil_of_left_ne_nil htag.ne_nil _)

/-! ## Lists of fields -/

def decodeFields (buf : Bytes) : Except String (List Field) :=
  if buf = [] then .ok []
  else
    match h : decodeField buf with
    | .error e => .error e
    | .ok (field, rest) =>
      have := decodeField_shorter h
      (decodeFields rest).map (field.toList ++ ·)
termination_by buf.length

theorem decodeFields_of_ok {buf rest : Bytes} (h : decodeField buf = .ok (field, rest)) :
    decodeFields buf = (decodeFields rest).map (field.toList ++ ·) := by
  have hne : buf ≠ [] := length_pos_iff.1 (Nat.zero_lt_of_lt (decodeField_shorter h))
  rw [decodeFields, if_neg hne]
  split
  · next e heq => cases heq.symm.trans h
  · next field' rest' heq =>
    cases heq.symm.trans h
    rfl

theorem decodeFields_nil : decodeFields [] = .ok [] := by
  rw [decodeFields, if_pos rfl]

theorem Parses.decodeFields_map {buf : Bytes} {fields : List Field} (h : Parses buf fields)
    (more : Bytes) : decodeFields (buf ++ more) = (decodeFields more).map (fields ++ ·) := by
  induction h with
  | nil => cases hmore : decodeFields more <;> simp [hmore, Except.map]
  | cons hfield hrest ih =>
    rw [append_assoc, decodeFields_of_ok (decodeField_append hfield _), ih]
    cases decodeFields more <;> simp [Except.map]

theorem Parses.decodeFields_append {buf more : Bytes} {fields later : List Field}
    (h : Parses buf fields) (hmore : decodeFields more = .ok later) :
    decodeFields (buf ++ more) = .ok (fields ++ later) := by
  rw [h.decodeFields_map, hmore]
  rfl

theorem decodeFields_cut (h : EndsInCutFixed buf) : ∃ fields, decodeFields buf = .ok fields := by
  obtain ⟨done, fields, cut, rfl, hdone, hcut⟩ := h
  have hend : decodeFields cut = .ok [] := by
    rw [decodeFields_of_ok (decodeField_cut hcut), decodeFields_nil]
    rfl
  exact ⟨fields ++ [], hdone.decodeFields_append hend⟩

/-- What is decoded is a concatenation of complete fields, but for a fixed-width one at the end. -/
theorem parses_or_cut (buf : Bytes) {fields : List Field} (h : decodeFields buf = .ok fields) :
    Parses buf fields ∨ EndsInCutFixed buf := by
  induction hn : buf.length using Nat.strong_induction_on generalizing buf fields with
  | _ n ih =>
    rw [decodeFields.eq_def] at h
    split at h
    · next hnil =>
      cases h
      exact .inl (hnil ▸ .nil)
    split at h
    · cases h
    next field rest hone =>
    rcases decodeField_ok hone with ⟨bytes, rfl, hfield⟩ | hcut
    · cases hrest : decodeFields rest with
      | error e =>
        rw [hrest] at h
        cases h
      | ok more =>
        rw [hrest] at h
        cases h
        rcases ih _ (hn ▸ decodeField_shorter hone) rest hrest rfl with hparses | hends
        · exact .inl (.cons hfield hparses)
        · obtain ⟨done, fields, cut, rfl, hdone, hcut⟩ := hends
          exact .inr ⟨bytes ++ done, _, cut, (append_assoc ..).symm, .cons hfield hdone, hcut⟩
    · exact .inr ⟨[], [], buf, rfl, .nil, hcut⟩

/-- Only one of the two is the case. -/
theorem EndsInCutFixed.not_parses {fields : List Field} (hends : EndsInCutFixed buf) :
    ¬Parses buf fields := by
  obtain ⟨done, before, cut, rfl, hdone, hcut⟩ := hends
  intro h
  induction hdone generalizing fields with
  | nil =>
    rw [List.nil_append] at h
    obtain ⟨tag, bytes, t, rfl, htag, hwire⟩ := id hcut
    generalize hbuf : tag ++ bytes = buf at h hcut
    cases h with
    | nil => exact htag.ne_nil (append_eq_nil_iff.1 hbuf).1
    | @cons f rest field fields hfield hrest =>
      have hone := (decodeField_append hfield rest).symm.trans (decodeField_cut hcut)
      cases hone
      rw [append_nil] at hbuf
      cases hfield with
      | @fixed tag' bytes' t' htag' hwire' =>
        have hsame := (decodeVarint_append htag' bytes').symm.trans
          (hbuf ▸ decodeVarint_append htag bytes)
        cases hsame
        omega
  | @cons f done field before hfield hdone ih =>
    rw [append_assoc] at h
    generalize hbuf : f ++ (done ++ cut) = buf at h
    have hone := hbuf ▸ decodeField_append hfield (done ++ cut)
    cases h with
    | nil => exact hfield.ne_nil (append_eq_nil_iff.1 hbuf).1
    | cons hfield' hrest =>
      cases (decodeField_append hfield' _).symm.trans hone
      exact ih hrest

/-! ## The wire layer -/

/-- A field to encode. -/
inductive WireField
  | varint (fieldNumber value : ℕ)
  | bytes (fieldNumber : ℕ) (value : Bytes)
  | double (fieldNumber : ℕ) (value : List.Vector UInt8 8)

def WireField.fieldNumber : WireField → ℕ
  | varint n _ | bytes n _ | double n _ => n

def WireField.encode : WireField → Bytes
  | varint n value => encodeVarintField n value
  | bytes n value => encodeBytes n value
  | double n value => encodeDoubleField n value

/-- The field that is decoded; those of fixed width are skipped. -/
def WireField.decoded : WireField → Option Field
  | varint n value => some (.varint n value)
  | bytes n value => some (.len n value)
  | double _ _ => none

theorem WireField.isField (f : WireField) (hnumber : f.fieldNumber < 2 ^ 28) :
    IsField f.encode f.decoded := by
  have htag : ∀ w < 8, IsVarint (encodeTag f.fieldNumber w) (8 * f.fieldNumber + w) ∧
      (8 * f.fieldNumber + w) % 8 = w ∧ (8 * f.fieldNumber + w) / 8 = f.fieldNumber :=
    fun w hw => ⟨isVarint_encodeTag hnumber hw, by omega, by omega⟩
  cases f with
  | varint n value =>
    obtain ⟨htag, hwire, hn⟩ := htag 0 (by decide)
    have h := IsField.varint htag hwire (isVarint_encodeVarint value)
    rwa [hn] at h
  | bytes n value =>
    obtain ⟨htag, hwire, hn⟩ := htag 2 (by decide)
    have h := IsField.len htag hwire (isVarint_encodeVarint value.length)
    rwa [hn, ← append_assoc] at h
  | double n value =>
    obtain ⟨htag, hwire, -⟩ := htag 1 (by decide)
    exact .fixed htag (.inr ⟨hwire, value.toList_length⟩)

theorem parses_encode {fields : List WireField} (h : ∀ f ∈ fields, f.fieldNumber < 2 ^ 28) :
    Parses (fields.flatMap WireField.encode) (fields.filterMap WireField.decoded) := by
  induction fields with
  | nil => exact .nil
  | cons f fields ih =>
    rw [forall_mem_cons] at h
    have hparses := Parses.cons (f.isField h.1) (ih h.2)
    rw [flatMap_cons, filterMap_cons]
    cases hdecoded : f.decoded <;> rwa [hdecoded] at hparses

/-- **The wire layer round trips, and rejects every cut** but one within a fixed-width field. -/
theorem wire_layer (buf : Bytes) :
    (∀ fields : List WireField, (∀ f ∈ fields, 1 ≤ f.fieldNumber ∧ f.fieldNumber < 2 ^ 28) →
      decodeFields (fields.flatMap WireField.encode) = .ok (fields.filterMap WireField.decoded)) ∧
    (((∃ fields, decodeFields buf = .ok fields) → ∃ fields, Parses buf fields) ↔
      ¬EndsInCutFixed buf) := by
  refine ⟨fun fields h => ?_, ⟨fun h hends => ?_, ?_⟩⟩
  · have hparses := parses_encode fun f hf => (h f hf).2
    have hall := hparses.decodeFields_append decodeFields_nil
    rwa [append_nil, append_nil] at hall
  · obtain ⟨fields, hparses⟩ := h (decodeFields_cut hends)
    exact hends.not_parses hparses
  · rintro hends ⟨fields, h⟩
    exact ⟨fields, (parses_or_cut buf h).resolve_right hends⟩

/-- A double without its bytes is decoded as no field. -/
theorem cutDouble_accepted : decodeFields [9] = .ok [] ∧ ¬∃ fields, Parses [9] fields := by
  have htag : IsVarint [9] 9 := .last (b := 9) (by decide)
  have hends : EndsInCutFixed [9] :=
    ⟨[], [], [9], rfl, .nil, [9], [], 9, rfl, htag, .inr ⟨rfl, by decide⟩⟩
  obtain ⟨fields, hok⟩ := decodeFields_cut hends
  refine ⟨?_, fun ⟨fields, hparses⟩ => hends.not_parses hparses⟩
  rw [decodeFields_of_ok (show decodeField _ = .ok (none, []) from rfl), decodeFields_nil]
  rfl

/-- Two messages one after the other are decoded to the fields of both, or to the error of the
second, unless the first is cut within a fixed-width field. -/
theorem decodeFields_concat {first : Bytes} {fields : List Field}
    (hfirst : decodeFields first = .ok fields) (hcut : ¬EndsInCutFixed first) (second : Bytes) :
    decodeFields (first ++ second) = (decodeFields second).map (fields ++ ·) :=
  ((parses_or_cut first hfirst).resolve_right hcut).decodeFields_map second

/-- Two varint fields. -/
theorem decodeFields_twoFields :
    decodeFields (encodeVarintField 1 1 ++ encodeVarintField 2 2) =
      .ok [.varint 1 1, .varint 2 2] := by
  have hparses : ∀ n v, n < 2 ^ 28 → Parses (encodeVarintField n v) [.varint n v] := by
    intro n v hn
    have hfield := Parses.cons ((WireField.varint n v).isField hn) .nil
    rwa [append_nil] at hfield
  have hdecoded : ∀ n v, n < 2 ^ 28 →
      decodeFields (encodeVarintField n v) = .ok [.varint n v] := by
    intro n v hn
    have h := (hparses n v hn).decodeFields_map []
    rwa [append_nil, decodeFields_nil] at h
  rw [decodeFields_concat (hdecoded 1 1 (by decide))
    (fun hcut => hcut.not_parses (hparses 1 1 (by decide))), hdecoded 2 2 (by decide)]
  rfl

end OmniRoute.CursorWire
