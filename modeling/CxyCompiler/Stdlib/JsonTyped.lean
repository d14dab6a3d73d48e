import CxyCompiler.Stdlib.Base64
import CxyCompiler.Stdlib.JsonRound
import Mathlib.Data.Nat.Log

/-!
# Typed JSON (`toJSON`, `fromJSON`)

`toJSON` and `fromJSON` follow a type at compile time. `toJSON` writes a string between quotes as
it is, or in base 64 where the field is marked so; `fromJSON` reads an integer through `strtoll` and
takes `null` for an absent option and for a null string alike.

* `Ty`, `Data`, `HasType`: the types, their values, and which value has which type.
* `Reading`: what a call comes to.
* `toJSON`, `fromJSON`: the writer and the reader.
* `Faithful`: where no value is lost on the way.
* **`fromJSON_toJSON`**: faithful values are read back from the text that is written for them.

Source: `stdlib/json.cxy`.
-/

namespace CxyCompiler.Stdlib.Json

/-! ## Types and values -/

/-- The integer types within 64 bits. -/
inductive IntType
  | i8
  | i16
  | i32
  | i64
  | u8
  | u16
  | u32
  | u64
  deriving DecidableEq

namespace IntType

def bits : IntType → ℕ
  | .i8 | .u8 => 8
  | .i16 | .u16 => 16
  | .i32 | .u32 => 32
  | .i64 | .u64 => 64

def isSigned : IntType → Bool
  | .i8 | .i16 | .i32 | .i64 => true
  | _ => false

def InRange (k : IntType) (i : ℤ) : Prop :=
  if k.isSigned then -2 ^ (k.bits - 1) ≤ i ∧ i < 2 ^ (k.bits - 1) else 0 ≤ i ∧ i < 2 ^ k.bits

/-- The cast `<T>i`. -/
def cast (k : IntType) (i : ℤ) : ℤ :=
  if k.isSigned then i.bmod (2 ^ k.bits) else i % 2 ^ k.bits

/-- A value of the type is kept by the cast. Kind: L -/
theorem cast_inRange {k : IntType} {i : ℤ} (h : k.InRange i) : k.cast i = i := by
  unfold InRange at h
  unfold cast
  split at h
  · rename_i hk
    have hbits : (2 : ℤ) ^ k.bits = 2 * 2 ^ (k.bits - 1) := by
      cases k <;> decide
    rw [if_pos hk, Int.bmod_def]
    have hnat : ((2 ^ k.bits : ℕ) : ℤ) = 2 ^ k.bits := by push_cast; rfl
    rw [hnat]
    by_cases hi : 0 ≤ i
    · rw [Int.emod_eq_of_lt hi (by omega), if_pos (by omega)]
    · rw [← Int.add_mul_emod_self_right i 1, Int.emod_eq_of_lt (by omega) (by omega),
        if_neg (by omega)]
      omega
  · rename_i hk
    rw [if_neg hk, Int.emod_eq_of_lt h.1 h.2]

end IntType

/-- A string is none where it is null. -/
inductive Data
  | bool (b : Bool)
  | int (i : ℤ)
  | string (s : Option Bytes)
  | none
  | some (x : Data)
  | vector (items : List Data)
  | struct (values : List Data)

/-- A field of a struct: its name, the name and the marks `b64` and `optional` of its `@json`
attribute, and its value in `T{}`. -/
structure FieldInfo where
  name : Bytes
  jsonName : Option Bytes
  b64 : Bool
  optional : Bool
  initial : Data

/-- The name of a field in JSON. -/
def FieldInfo.key (f : FieldInfo) : Bytes := f.jsonName.getD f.name

/-- A struct has the attribute `@json`, maybe with `partial`, and no field that is ignored. -/
inductive Ty
  | bool
  | int (k : IntType)
  | string
  | option (t : Ty)
  | vector (t : Ty)
  | struct (name : String) (partialAllowed : Bool) (fields : List (FieldInfo × Ty))

/-- The mark `b64` counts for strings only. Source: `json.cxy` `toJSON`, `fieldFromJSON`. -/
def FieldInfo.isB64 (f : FieldInfo) : Ty → Bool
  | .string => f.b64
  | _ => false

mutual

/-- The value has the type. -/
def HasType : Ty → Data → Prop
  | .bool, .bool _ => True
  | .int k, .int i => k.InRange i
  | .string, .string _ => True
  | .option _, .none => True
  | .option t, .some x => HasType t x
  | .vector t, .vector xs => ∀ x ∈ xs, HasType t x
  | .struct _ _ fs, .struct vs => HasTypes fs vs
  | _, _ => False

def HasTypes : List (FieldInfo × Ty) → List Data → Prop
  | [], [] => True
  | (_, t) :: fs, v :: vs => HasType t v ∧ HasTypes fs vs
  | _, _ => False

end

/-! ## The writer -/

/-- The separators of `toJSON`. -/
def join : List Bytes → Bytes
  | [] => []
  | [x] => x
  | x :: y :: xs => x ++ text ", " ++ join (y :: xs)

/-- A null string writes nothing, and every read of the encoder is inside of the text.
Source: `base64.cxy` `encode`, of a `String`. -/
def encodeString : Data → Bytes
  | .string (some s) =>
      match Base64.encodeBuffer s s.length with
      | .ok t => t
      | .error _ => []
  | _ => []

mutual

/-- Source: `json.cxy` `toJSON`. -/
def toJSON : Ty → Data → Bytes
  | .bool, .bool b => if b then text "true" else text "false"
  | .int _, .int i => appendSignedInt i
  | .string, .string none => text "null"
  | .string, .string (some s) => text "\"" ++ s ++ text "\""
  | .option _, .none => text "null"
  | .option t, .some x => toJSON t x
  | .vector t, .vector xs => text "[" ++ join (xs.map (toJSON t)) ++ text "]"
  | .struct _ _ fs, .struct vs => text "\x7b" ++ join (toJSONFields fs vs) ++ text "\x7d"
  | _, _ => []

/-- Source: `json.cxy` `toJSON`, the fields of a struct. -/
def toJSONFields : List (FieldInfo × Ty) → List Data → List Bytes
  | (f, t) :: fs, v :: vs =>
      (text "\"" ++ f.key ++ text "\": " ++
        (if f.isB64 t then text "\"" ++ encodeString v ++ text "\"" else toJSON t v)) ::
        toJSONFields fs vs
  | _, _ => []

end

/-! ## The reader -/

/-- What a call comes to: a result, an exception, a read outside of memory, or more steps than the
fuel. -/
inductive Reading (α : Type)
  | done (a : α)
  | raised (msg : String)
  | crashed
  | outOfFuel

def Reading.bind {α β : Type} (r : Reading α) (f : α → Reading β) : Reading β :=
  match r with
  | .done a => f a
  | .raised msg => .raised msg
  | .crashed => .crashed
  | .outOfFuel => .outOfFuel

theorem Reading.bind_assoc {α β γ : Type} (r : Reading α) (f : α → Reading β) (g : β → Reading γ) :
    (r.bind f).bind g = r.bind fun a => (f a).bind g := by
  cases r <;> rfl

def Outcome.bind {α β : Type} (r : Outcome α) (f : α → Outcome β) : Outcome β :=
  match r with
  | .done a => f a
  | .raised msg => .raised msg
  | .outOfFuel => .outOfFuel

def Outcome.reading {α : Type} : Outcome α → Reading α
  | .done a => .done a
  | .raised msg => .raised msg
  | .outOfFuel => .outOfFuel

/-- How many characters fit in: at first 16, and twice as many when there is no more room.
Source: `builtins.cxy` `String.grow`, of single characters. -/
def capacity (size : ℕ) : ℕ := 16 * 2 ^ Nat.clog 2 ((size + 15) / 16)

/-- The memory of a `String`: there is none as long as it is empty. What is behind the text is not
set, and no decision depends on it. Source: `builtins.cxy` `String`. -/
def stringData (s : Bytes) : Bytes :=
  if s = [] then [] else s ++ List.replicate (capacity s.length + 1 - s.length) 0

/-- Source: `base64.cxy` `decode`, of a `String`. -/
def decode (signed : Bool) (s : Bytes) : Reading Bytes :=
  match Base64.decodeBuffer signed (stringData s) s.length with
  | .ok t => .done t
  | .error (.base64Error msg) => .raised msg
  | .error .outside => .crashed

/-- `strtoll` with base 0 on the texts of number tokens: digits behind a 0 do not occur, and the
result is kept within 64 bits. Source: `builtins.cxy` `toi`. -/
def toi : Bytes → ℤ
  | [] => 0
  | c :: rest =>
      if c = ch '-' then max (-(digitsValue (rest.takeWhile isDigit) : ℤ)) (-2 ^ 63)
      else min (digitsValue ((c :: rest).takeWhile isDigit) : ℤ) (2 ^ 63 - 1)

/-- Source: `json.cxy` `expectToken` and `advance`. -/
def expectToken (signed : Bool) (expected : JsonToken) (cur : Cursor) : Outcome Cursor :=
  if cur.1 = expected then .done (nextToken signed cur.2)
  else .raised ("Expected token " ++ expected.str ++ ", got " ++ cur.1.str)

/-- Source: `json.cxy` `expectString`. -/
def expectString (signed : Bool) : Cursor → Outcome (Bytes × Cursor)
  | (.string s, rest) => .done (s, nextToken signed rest)
  | _ => .raised "Expected string"

/-- Source: `json.cxy` `consumeToken`. -/
def consumeToken (signed : Bool) (expected : JsonToken) (cur : Cursor) : Cursor :=
  if cur.1 = expected then nextToken signed cur.2 else cur

/-- The loop over the tokens between two brackets. The literal that `depth` starts from makes it an
`i8`. Source: `json.cxy` `skipValue`. -/
def skipNested (signed : Bool) (opening closing : JsonToken) : ℕ → Int8 → Cursor → Outcome Cursor
  | 0, _, _ => .outOfFuel
  | fuel + 1, depth, (token, s) =>
      if depth ≤ 0 || token = .eof then .done (token, s)
      else skipNested signed opening closing fuel
        (if token = opening then depth + 1 else if token = closing then depth - 1 else depth)
        (nextToken signed s)

/-- Source: `json.cxy` `skipValue`. -/
def skipValue (signed : Bool) (fuel : ℕ) : Cursor → Outcome Cursor
  | (.leftBrace, s) => skipNested signed .leftBrace .rightBrace fuel 1 (nextToken signed s)
  | (.leftBracket, s) => skipNested signed .leftBracket .rightBracket fuel 1 (nextToken signed s)
  | (.string _, s) | (.number _, s) | (.true, s) | (.false, s) | (.null, s) =>
      .done (nextToken signed s)
  | (token, _) => .raised ("Cannot skip token: " ++ token.str)

/-- The value of one key goes to the first field of that name; `read` reads a value of a type, and
the position in the message of an unknown key is left out. Source: `json.cxy` `fieldFromJSON`. -/
def fieldFromJSON (signed : Bool) (read : Ty → Cursor → Reading (Data × Cursor))
    (skip : Cursor → Outcome Cursor) (typeName : String) (partialAllowed : Bool) (key : Bytes) :
    List (FieldInfo × Ty) → List Data → Cursor → Reading (List Data × Cursor)
  | (f, t) :: fs, v :: vs, cur =>
      if f.key = key then
        if f.isB64 t then
          (expectString signed cur).reading.bind fun r =>
            (decode signed r.1).bind fun str => .done (.string (some str) :: vs, r.2)
        else if f.optional && cur.1 = .null then .done (v :: vs, nextToken signed cur.2)
        else (read t cur).bind fun r => .done (r.1 :: vs, r.2)
      else
        (fieldFromJSON signed read skip typeName partialAllowed key fs vs cur).bind fun r =>
          .done (v :: r.1, r.2)
  | _, vs, cur =>
      if partialAllowed then (skip cur).reading.bind fun cur => .done (vs, cur)
      else .raised ("JSON key does not exist in type " ++ typeName)

mutual

/-- Source: `json.cxy` `fromJSON`. -/
def fromJSON (signed : Bool) : ℕ → Ty → Cursor → Reading (Data × Cursor)
  | 0, _, _ => .outOfFuel
  | _ + 1, .bool, (token, s) =>
      match token with
      | .true => .done (.bool true, nextToken signed s)
      | .false => .done (.bool false, nextToken signed s)
      | _ => .raised "Expected boolean"
  | _ + 1, .int k, (token, s) =>
      match token with
      | .number n => .done (.int (k.cast (toi n)), nextToken signed s)
      | _ => .raised "Expected number"
  | _ + 1, .string, (token, s) =>
      match token with
      | .null => .done (.string none, nextToken signed s)
      | .string v => .done (.string (some v), nextToken signed s)
      | _ => .raised "Expected string"
  | fuel + 1, .option t, cur =>
      if cur.1 = .null then .done (.none, nextToken signed cur.2)
      else (fromJSON signed fuel t cur).bind fun r => .done (.some r.1, r.2)
  | fuel + 1, .vector t, cur =>
      (expectToken signed .leftBracket cur).reading.bind fun cur => readItems signed fuel t [] cur
  | fuel + 1, .struct name partialAllowed fs, cur =>
      (expectToken signed .leftBrace cur).reading.bind fun cur =>
        readFields signed fuel name partialAllowed fs (fs.map fun f => f.1.initial) cur

/-- The loop over the items of a vector. Source: `json.cxy` `fromJSON`. -/
def readItems (signed : Bool) : ℕ → Ty → List Data → Cursor → Reading (Data × Cursor)
  | 0, _, _, _ => .outOfFuel
  | fuel + 1, t, acc, cur =>
      if cur.1 = .rightBracket then .done (.vector acc, nextToken signed cur.2)
      else
        (if acc.isEmpty then .done cur else (expectToken signed .comma cur).reading).bind fun cur =>
          (fromJSON signed fuel t cur).bind fun r => readItems signed fuel t (acc ++ [r.1]) r.2

/-- The loop over the fields of a struct. Source: `json.cxy` `fromJSON`. -/
def readFields (signed : Bool) :
    ℕ → String → Bool → List (FieldInfo × Ty) → List Data → Cursor → Reading (Data × Cursor)
  | 0, _, _, _, _, _ => .outOfFuel
  | fuel + 1, name, partialAllowed, fs, vs, cur =>
      if cur.1 = .rightBrace then .done (.struct vs, nextToken signed cur.2)
      else
        (expectString signed cur).reading.bind fun key =>
          (expectToken signed .colon key.2).reading.bind fun cur =>
            (fieldFromJSON signed (fromJSON signed fuel) (skipValue signed fuel) name
              partialAllowed key.1 fs vs cur).bind fun r =>
                readFields signed fuel name partialAllowed fs r.1
                  (consumeToken signed .comma r.2)

end

/-- Source: `json.cxy` `parse`. -/
def parseAs (signed : Bool) (fuel : ℕ) (t : Ty) (s : Text) : Reading Data :=
  (fromJSON signed fuel t (nextToken signed s.bytes)).bind fun r =>
    if r.2.1 = .eof then .done r.1 else .raised "Unexpected tokens after parsing"

/-! ## What is kept -/

/-- A text that stands between quotes as it is. -/
def Bare (s : Bytes) : Prop := ∀ c ∈ s, isAscii c = true ∧ c ≠ ch '"' ∧ c ≠ ch '\\'

/-- A string that comes back from its text in base 64: the decoder reads behind an empty one, and
writes every byte as a `char`. -/
def Encodable : Data → Prop
  | .string (some s) => s ≠ [] ∧ ∀ c ∈ s, isAscii c = true
  | _ => False

/-- The value is written as `null`. -/
def writesNull : Data → Bool
  | .string none => true
  | .none => true
  | .some x => writesNull x
  | _ => false

mutual

/-- Integers are within 64 bits with a sign, strings and the names of fields are ASCII without
quotes and backslashes, the names of the fields of a struct are distinct, nothing written as `null`
is wrapped in an option, what an optional field has where it is written as `null` is its initial
value, and a field in base 64 has any text of ASCII that is not empty. -/
def Faithful : Ty → Data → Prop
  | .int _, .int i => -2 ^ 63 ≤ i ∧ i < 2 ^ 63
  | .string, .string (some s) => Bare s
  | .option t, .some x => writesNull x = false ∧ Faithful t x
  | .vector t, .vector xs => ∀ x ∈ xs, Faithful t x
  | .struct _ _ fs, .struct vs => (fs.map fun f => f.1.key).Nodup ∧ FaithfulFields fs vs
  | _, _ => True

def FaithfulFields : List (FieldInfo × Ty) → List Data → Prop
  | (f, t) :: fs, v :: vs =>
      Bare f.key ∧
        (if f.isB64 t then Encodable v
          else (f.optional = true → writesNull v = true → v = f.initial) ∧ Faithful t v) ∧
        FaithfulFields fs vs
  | _, _ => True

end

mutual

/-- The fuel that is needed to read a value. -/
def Data.cost : Data → ℕ
  | .some x => 1 + x.cost
  | .vector xs => 1 + Data.costAll xs
  | .struct vs => 1 + Data.costAll vs
  | _ => 1

def Data.costAll : List Data → ℕ
  | [] => 1
  | x :: xs => 1 + x.cost + Data.costAll xs

end

variable {signed : Bool}

/-- **A bare text is read back as it is.** Kind: L -/
theorem nextToken_bare {s : Bytes} (h : Bare s) (rest : Bytes) :
    nextToken signed (text "\"" ++ s ++ text "\"" ++ rest) = (.string s, rest) := by
  have hsame : s.flatMap (putChar signed) = s := by
    induction s with
    | nil => rfl
    | cons c s ih =>
        obtain ⟨hc, hs⟩ := List.forall_mem_cons.mp h
        rw [List.flatMap_cons, putChar_ascii signed hc.1, ih hs, List.singleton_append]
  have hstart : nextToken signed (text "\"" ++ s ++ text "\"" ++ rest) =
      scanString signed [] (s ++ ch '"' :: rest) := by
    simp only [List.append_assoc]
    rfl
  rw [hstart, scan_plain [] s _ fun c hc => (h c hc).2, hsame, scanString_quote, List.nil_append]

theorem takeWhile_digits (n : ℕ) : (digits n).takeWhile isDigit = digits n := by
  have h := spanDigits_append (s := []) (digits_isDigit n) (by simp)
  rw [List.append_nil] at h
  exact congrArg Prod.fst h

/-- Integers within 64 bits are read back by `strtoll`. Kind: L -/
theorem toi_int {i : ℤ} (h : -2 ^ 63 ≤ i ∧ i < 2 ^ 63) : toi (appendSignedInt i) = i := by
  unfold appendSignedInt
  split
  · rw [toi, if_pos rfl, takeWhile_digits, digitsValue_digits]
    omega
  · obtain ⟨c, ds, hds⟩ := List.exists_cons_of_ne_nil (digits_ne_nil i.natAbs)
    have hc : isDigit c = true := digits_isDigit i.natAbs c (by rw [hds]; exact List.mem_cons_self)
    have hminus : c ≠ ch '-' := by
      rintro rfl
      exact absurd hc (by decide)
    rw [hds, toi, if_neg hminus, ← hds, takeWhile_digits, digitsValue_digits]
    omega

/-- What a value that is written as `null` begins with, and what others do. Kind: L -/
theorem nextToken_toJSON : ∀ (t : Ty) (d : Data) (rest : Bytes), HasType t d → Faithful t d →
    Stops rest →
    if writesNull d then nextToken signed (toJSON t d ++ rest) = (.null, rest)
    else (nextToken signed (toJSON t d ++ rest)).1 ≠ .null ∧
      (nextToken signed (toJSON t d ++ rest)).1 ≠ .rightBracket
  | .bool, .bool true, rest, _, _, _ => ⟨nofun, nofun⟩
  | .bool, .bool false, rest, _, _, _ => ⟨nofun, nofun⟩
  | .int _, .int i, rest, _, _, hrest => by
      simp only [writesNull, Bool.false_eq_true, if_false, toJSON, nextToken_int i hrest]
      exact ⟨nofun, nofun⟩
  | .string, .string none, rest, _, _, _ => rfl
  | .string, .string (some s), rest, _, hs, _ => by
      simp only [writesNull, Bool.false_eq_true, if_false, toJSON, nextToken_bare hs]
      exact ⟨nofun, nofun⟩
  | .option _, .none, rest, _, _, _ => rfl
  | .option t, .some x, rest, ht, hf, hrest => nextToken_toJSON t x rest ht hf.2 hrest
  | .vector _, .vector _, rest, _, _, _ => ⟨nofun, nofun⟩
  | .struct _ _ _, .struct _, rest, _, _, _ => ⟨nofun, nofun⟩

/-! ## Base 64 -/

theorem encodeString_eq (s : Bytes) : encodeString (.string (some s)) = Base64.encoded s := by
  rw [encodeString, Base64.encodeBuffer_spec]

theorem padding_bare (n : ℕ) : Bare (Base64.padding n) := by
  have hequals : isAscii (ch '=') = true ∧ ch '=' ≠ ch '"' ∧ ch '=' ≠ ch '\\' := by decide
  induction n using Base64.padding.induct with
  | case1 n ih => exact ih
  | case2 =>
      intro c hc
      rw [List.mem_singleton.mp (show c ∈ [ch '='] from hc)]
      exact hequals
  | case3 =>
      intro c hc
      rw [List.eq_of_mem_replicate (show c ∈ List.replicate 2 (ch '=') from hc)]
      exact hequals
  | case4 => exact fun c hc => absurd hc List.not_mem_nil

/-- What is written in base 64 stands between quotes as it is. Kind: L -/
theorem encoded_bare (s : Bytes) : Bare (Base64.encoded s) := by
  have hchar : ∀ n : ℕ, n < 64 → isAscii (Base64.charOf Base64.b64table n.toUInt8) = true ∧
      Base64.charOf Base64.b64table n.toUInt8 ≠ ch '"' ∧
      Base64.charOf Base64.b64table n.toUInt8 ≠ ch '\\' := by decide +kernel
  intro c hc
  rcases List.mem_append.mp hc with hc | hc
  · obtain ⟨x, hx, rfl⟩ := List.mem_map.mp hc
    have h := hchar x.toNat (Lib.Sextets.sextets_lt s x hx)
    rwa [show x.toNat.toUInt8 = x from UInt8.ofNat_toNat] at h
  · exact padding_bare _ c hc

/-- **A text in base 64 is decoded**, whatever the string has behind it. Kind: L -/
theorem decode_encoded {s : Bytes} (hs : s ≠ []) (hascii : ∀ c ∈ s, isAscii c = true) :
    decode signed (Base64.encoded s) = .done s := by
  have hrun : Base64.decodeFrom signed (Base64.encoded s) (Base64.encoded s)
    (Base64.encoded s).length =
      .ok (Base64.putChars signed s) := Base64.decodeFrom_encoded hs (Base64.startsAlike_encoded hs)
  rw [Base64.putChars_ascii hascii] at hrun
  have hkeep := @Base64.decodeFrom_keeps signed (Base64.encoded s) (Base64.encoded s)
    (List.replicate (capacity (Base64.encoded s).length + 1 - (Base64.encoded s).length) 0) _
    (Nat.le_refl _) s hrun
  rw [decode, stringData, if_neg (Base64.encoded_ne_nil hs), Base64.decodeBuffer, hkeep]

/-! ## The loops -/

/-- The separators in front of all texts but the first. -/
def joinRest (xs : List Bytes) : Bytes := xs.flatMap fun x => text ", " ++ x

theorem join_cons (x : Bytes) (xs : List Bytes) : join (x :: xs) = x ++ joinRest xs := by
  induction xs generalizing x with
  | nil => simp [join, joinRest]
  | cons y ys ih =>
      rw [join, ih]
      simp [joinRest]

theorem nextToken_comma (s : Bytes) :
    nextToken signed (text ", " ++ s) = (.comma, text " " ++ s) := rfl

theorem stops_joinRest (xs : List Bytes) {close : UInt8}
    (hclose : close ∈ text ",]\x7d\n") (rest : Bytes) : Stops (joinRest xs ++ close :: rest) := by
  cases xs with
  | nil => exact stops_cons hclose rest
  | cons x xs =>
      have htext : joinRest (x :: xs) ++ close :: rest =
          ch ',' :: (text " " ++ x ++ joinRest xs ++ close :: rest) := by
        simp [joinRest, text]
      rw [htext]
      exact stops_cons (by decide) _

/-- **The field with the name of the key takes the value.** Kind: L -/
theorem fieldFromJSON_at {read : Ty → Cursor → Reading (Data × Cursor)}
    {skip : Cursor → Outcome Cursor} {typeName : String} {partialAllowed : Bool} {f : FieldInfo}
    {t : Ty} {post : List (FieldInfo × Ty)} {v : Data} {vsPost : List Data} {cur : Cursor} :
    ∀ (pre : List (FieldInfo × Ty)) (vsPre : List Data), pre.length = vsPre.length →
      f.key ∉ pre.map (fun g => g.1.key) →
      fieldFromJSON signed read skip typeName partialAllowed f.key (pre ++ (f, t) :: post)
        (vsPre ++ v :: vsPost) cur =
      if f.isB64 t then
        (expectString signed cur).reading.bind fun r =>
          (decode signed r.1).bind fun str => .done (vsPre ++ .string (some str) :: vsPost, r.2)
      else if f.optional && cur.1 = .null then
        .done (vsPre ++ v :: vsPost, nextToken signed cur.2)
      else (read t cur).bind fun r => .done (vsPre ++ r.1 :: vsPost, r.2)
  | [], [], _, _ => by
      simp only [List.nil_append, fieldFromJSON, if_true]
  | (g, u) :: pre, w :: vsPre, hlen, hnot => by
      simp only [List.map_cons, List.mem_cons, not_or] at hnot
      have ih := @fieldFromJSON_at read skip typeName partialAllowed f t post v vsPost cur pre vsPre
        (by simpa using hlen) hnot.2
      rw [List.cons_append, List.cons_append, fieldFromJSON, if_neg (fun h => hnot.1 h.symm), ih]
      split
      · simp only [Reading.bind_assoc]
        rfl
      split
      · rfl
      · rw [Reading.bind_assoc]
        rfl
  | [], _ :: _, hlen, _ => absurd hlen (by simp)
  | _ :: _, [], hlen, _ => absurd hlen (by simp)

/-! ## Reading what has been written -/

mutual

/-- **A faithful value is read back.** Kind: P -/
theorem fromJSON_written : ∀ (fuel : ℕ) (t : Ty) (d : Data) (rest : Bytes), HasType t d →
    Faithful t d → Stops rest → d.cost ≤ fuel →
    fromJSON signed fuel t (nextToken signed (toJSON t d ++ rest)) =
      .done (d, nextToken signed rest)
  | 0, _, d, _, _, _, _, hfuel => absurd hfuel (by cases d <;> simp [Data.cost])
  | _ + 1, .bool, .bool true, rest, _, _, _, _ => rfl
  | _ + 1, .bool, .bool false, rest, _, _, _, _ => rfl
  | _ + 1, .int k, .int i, rest, ht, hf, hrest, _ => by
      rw [toJSON, nextToken_int i hrest, fromJSON]
      simp only [toi_int hf, IntType.cast_inRange ht]
  | _ + 1, .string, .string none, rest, _, _, _, _ => rfl
  | _ + 1, .string, .string (some s), rest, _, hs, _, _ => by
      rw [toJSON, nextToken_bare hs, fromJSON]
  | _ + 1, .option _, .none, rest, _, _, _, _ => rfl
  | fuel + 1, .option t, .some x, rest, ht, hf, hrest, hfuel => by
      have hfirst := @nextToken_toJSON signed t x rest ht hf.2 hrest
      rw [hf.1] at hfirst
      simp only [Data.cost] at hfuel
      rw [toJSON, fromJSON, if_neg hfirst.1,
        fromJSON_written fuel t x rest ht hf.2 hrest (by omega)]
      rfl
  | fuel + 1, .vector t, .vector [], rest, _, _, _, hfuel => by
      simp only [Data.cost, Data.costAll] at hfuel
      obtain ⟨n, rfl⟩ : ∃ n, fuel = n + 1 := ⟨fuel - 1, by omega⟩
      rfl
  | fuel + 1, .vector t, .vector (x :: xs), rest, ht, hf, hrest, hfuel => by
      simp only [Data.cost, Data.costAll] at hfuel
      obtain ⟨hx, hxs⟩ := List.forall_mem_cons.mp ht
      obtain ⟨hfx, hfxs⟩ := List.forall_mem_cons.mp hf
      obtain ⟨n, rfl⟩ : ∃ n, fuel = n + 1 := ⟨fuel - 1, by omega⟩
      have htext : toJSON (.vector t) (.vector (x :: xs)) ++ rest = ch '[' :: (toJSON t x ++
          (joinRest (xs.map (toJSON t)) ++ ch ']' :: rest)) := by
        rw [toJSON, List.map_cons, join_cons]
        simp [text]
      have hstop : Stops (joinRest (xs.map (toJSON t)) ++ ch ']' :: rest) :=
        stops_joinRest _ (by decide) rest
      have hopen : ∀ s, nextToken signed (ch '[' :: s) = (.leftBracket, s) := fun _ => rfl
      have hfirst := @nextToken_toJSON signed t x _ hx hfx hstop
      have hclose : (nextToken signed (toJSON t x ++
          (joinRest (xs.map (toJSON t)) ++ ch ']' :: rest))).1 ≠ .rightBracket := by
        split at hfirst
        · rw [hfirst]
          exact nofun
        · exact hfirst.2
      rw [htext, hopen, fromJSON]
      simp only [expectToken, if_true, Outcome.reading, Reading.bind]
      rw [readItems, if_neg hclose]
      simp only [List.isEmpty_nil, if_true, Reading.bind]
      rw [fromJSON_written n t x _ hx hfx hstop (by omega)]
      exact readItems_written n t xs [x] rest (by simp) hxs hfxs (by omega)
  | fuel + 1, .struct name pa fs, .struct vs, rest, ht, hf, hrest, hfuel => by
      simp only [Data.cost] at hfuel
      have htext : toJSON (.struct name pa fs) (.struct vs) ++ rest =
          ch '{' :: (join (toJSONFields fs vs) ++ ch '}' :: rest) := by
        rw [toJSON]
        simp [text]
      have hopen : ∀ s, nextToken signed (ch '{' :: s) = (.leftBrace, s) := fun _ => rfl
      have hread := readFields_written fuel name pa [] [] fs vs rest rfl ht hf.2 hf.1 (by omega)
      simp only [List.nil_append] at hread
      rw [htext, hopen, fromJSON]
      simp only [expectToken, if_true, Outcome.reading, Reading.bind, hread]
termination_by fuel => fuel

theorem readItems_written : ∀ (fuel : ℕ) (t : Ty) (xs acc : List Data) (rest : Bytes),
    acc ≠ [] → (∀ x ∈ xs, HasType t x) → (∀ x ∈ xs, Faithful t x) → Data.costAll xs ≤ fuel →
    readItems signed fuel t acc
        (nextToken signed (joinRest (xs.map (toJSON t)) ++ ch ']' :: rest)) =
      .done (.vector (acc ++ xs), nextToken signed rest)
  | 0, _, xs, _, _, _, _, _, hfuel => absurd hfuel (by cases xs <;> simp [Data.costAll])
  | fuel + 1, t, [], acc, rest, _, _, _, _ => by
      have hclose : nextToken signed (joinRest ([].map (toJSON t)) ++ ch ']' :: rest) =
          (.rightBracket, rest) := rfl
      rw [hclose, readItems, if_pos rfl, List.append_nil]
  | fuel + 1, t, x :: xs, acc, rest, hacc, ht, hf, hfuel => by
      simp only [Data.costAll] at hfuel
      obtain ⟨hx, hxs⟩ := List.forall_mem_cons.mp ht
      obtain ⟨hfx, hfxs⟩ := List.forall_mem_cons.mp hf
      have htext : joinRest ((x :: xs).map (toJSON t)) ++ ch ']' :: rest = text ", " ++
          (toJSON t x ++ (joinRest (xs.map (toJSON t)) ++ ch ']' :: rest)) := by
        simp [joinRest]
      have hstop : Stops (joinRest (xs.map (toJSON t)) ++ ch ']' :: rest) :=
        stops_joinRest _ (by decide) rest
      have hne : acc.isEmpty = false := by simpa using hacc
      rw [htext, nextToken_comma, readItems, if_neg (by exact nofun), hne]
      simp only [Bool.false_eq_true, if_false, expectToken, if_true, Outcome.reading, Reading.bind]
      rw [nextToken_append isSpace_blank, fromJSON_written fuel t x _ hx hfx hstop (by omega)]
      have hrest := readItems_written fuel t xs (acc ++ [x]) rest (by simp) hxs hfxs (by omega)
      rw [List.append_assoc] at hrest
      exact hrest
termination_by fuel => fuel

theorem readFields_written : ∀ (fuel : ℕ) (name : String) (pa : Bool)
    (pre : List (FieldInfo × Ty)) (vsPre : List Data) (fs : List (FieldInfo × Ty))
    (vs : List Data) (rest : Bytes), pre.length = vsPre.length → HasTypes fs vs →
    FaithfulFields fs vs → ((pre ++ fs).map fun f => f.1.key).Nodup → Data.costAll vs ≤ fuel →
    readFields signed fuel name pa (pre ++ fs) (vsPre ++ fs.map fun f => f.1.initial)
        (nextToken signed (join (toJSONFields fs vs) ++ ch '}' :: rest)) =
      .done (.struct (vsPre ++ vs), nextToken signed rest)
  | 0, _, _, _, _, _, vs, _, _, _, _, _, hfuel => absurd hfuel (by cases vs <;> simp [Data.costAll])
  | fuel + 1, name, pa, pre, vsPre, [], [], rest, _, _, _, _, _ => by
      have hclose : nextToken signed (join (toJSONFields [] []) ++ ch '}' :: rest) =
          (.rightBrace, rest) := rfl
      rw [hclose, readFields, if_pos rfl]
      simp
  | fuel + 1, name, pa, pre, vsPre, (f, t) :: fs, v :: vs, rest, hlen, ht, hf, hkeys, hfuel => by
      simp only [Data.costAll] at hfuel
      obtain ⟨hv, hvs⟩ := ht
      obtain ⟨hbare, hfv, hfvs⟩ := hf
      obtain ⟨written, hwritten⟩ : ∃ w, w =
          if f.isB64 t then text "\"" ++ encodeString v ++ text "\"" else toJSON t v := ⟨_, rfl⟩
      have htext : join (toJSONFields ((f, t) :: fs) (v :: vs)) ++ ch '}' :: rest =
          (text "\"" ++ f.key ++ text "\"" ++ (ch ':' :: (text " " ++ (written ++
            (joinRest (toJSONFields fs vs) ++ ch '}' :: rest))))) := by
        have hcolon : text "\": " = text "\"" ++ (ch ':' :: text " ") := rfl
        rw [toJSONFields, join_cons, hcolon, ← hwritten]
        simp
      have hstop : Stops (joinRest (toJSONFields fs vs) ++ ch '}' :: rest) :=
        stops_joinRest _ (by decide) rest
      have hcolon : ∀ s, nextToken signed (ch ':' :: s) = (.colon, s) := fun _ => rfl
      have hnot : f.key ∉ pre.map fun g => g.1.key := by
        rw [List.map_append, List.map_cons] at hkeys
        exact fun hmem => List.disjoint_of_nodup_append hkeys hmem List.mem_cons_self
      -- The comma is taken where there is one.
      have hcomma : consumeToken signed .comma
          (nextToken signed (joinRest (toJSONFields fs vs) ++ ch '}' :: rest)) =
            nextToken signed (join (toJSONFields fs vs) ++ ch '}' :: rest) := by
        cases hjs : toJSONFields fs vs with
        | nil => rfl
        | cons y ys =>
            have hsep : joinRest (y :: ys) ++ ch '}' :: rest =
                text ", " ++ (join (y :: ys) ++ ch '}' :: rest) := by
              rw [join_cons]
              simp [joinRest]
            rw [hsep, nextToken_comma, consumeToken, if_pos rfl, nextToken_append isSpace_blank]
      have hfield : fieldFromJSON signed (fromJSON signed fuel)
        (skipValue signed fuel) name pa f.key
          (pre ++ (f, t) :: fs) (vsPre ++ f.initial :: fs.map fun f => f.1.initial)
          (nextToken signed (written ++ (joinRest (toJSONFields fs vs) ++ ch '}' :: rest))) =
            .done (vsPre ++ v :: fs.map fun f => f.1.initial,
              nextToken signed (joinRest (toJSONFields fs vs) ++ ch '}' :: rest)) := by
        rw [fieldFromJSON_at pre vsPre hlen hnot]
        cases hb64 : f.isB64 t with
        | true =>
            simp only [hb64, if_true] at hfv hwritten ⊢
            obtain ⟨s, rfl⟩ : ∃ s, v = .string (some s) := by
              match v, hfv with
              | .string (some s), _ => exact ⟨s, rfl⟩
            obtain ⟨hne, hascii⟩ := hfv
            rw [hwritten, encodeString_eq, nextToken_bare (encoded_bare s)]
            simp only [expectString, Outcome.reading, Reading.bind, decode_encoded hne hascii]
        | false =>
            simp only [hb64, Bool.false_eq_true, if_false] at hfv hwritten ⊢
            obtain ⟨hinit, hfv⟩ := hfv
            subst hwritten
            have hfirst := @nextToken_toJSON signed t v _ hv hfv hstop
            have hread := fromJSON_written fuel t v _ hv hfv hstop (by omega)
            cases hnull : writesNull v with
            | true =>
                rw [hnull] at hfirst
                cases hopt : f.optional with
                | true =>
                    rw [hfirst]
                    simp [hinit hopt hnull]
                | false =>
                    simp only [Bool.false_and, Bool.false_eq_true, if_false, hread, Reading.bind]
            | false =>
                rw [hnull] at hfirst
                have hne : (f.optional && decide ((nextToken signed (toJSON t v ++
                    (joinRest (toJSONFields fs vs) ++ ch '}' :: rest))).1 = .null)) = false := by
                  rw [decide_eq_false hfirst.1, Bool.and_false]
                simp only [hne, Bool.false_eq_true, if_false, hread, Reading.bind]
      have hread := readFields_written fuel name pa (pre ++ [(f, t)]) (vsPre ++ [v]) fs vs rest
        (by simp [hlen]) hvs hfvs (by simpa using hkeys) (by omega)
      simp only [List.append_assoc, List.singleton_append] at hread
      rw [htext, nextToken_bare hbare, readFields, if_neg (by exact nofun)]
      simp only [expectString, Outcome.reading, Reading.bind, hcolon, expectToken, if_true]
      rw [nextToken_append isSpace_blank, List.map_cons, hfield]
      simp only [hcomma, hread]
  | _ + 1, _, _, _, _, [], _ :: _, _, _, ht, _, _, _ => ht.elim
  | _ + 1, _, _, _, _, _ :: _, [], _, _, ht, _, _, _ => absurd ht (by simp [HasTypes])
termination_by fuel => fuel

end

/-- **The typed round trip.** A faithful value is read back from its text. Kind: P -/
theorem fromJSON_toJSON (signed : Bool) {t : Ty} {d : Data} (ht : HasType t d) (hf : Faithful t d)
    {s : Text} (hs : s.bytes = toJSON t d) :
    ∃ n, ∀ fuel, n ≤ fuel → parseAs signed fuel t s = .done d := by
  refine ⟨d.cost, fun fuel hfuel => ?_⟩
  have h := @fromJSON_written signed fuel t d [] ht hf stops_nil hfuel
  rw [List.append_nil] at h
  have heof : nextToken signed [] = (.eof, []) := rfl
  rw [parseAs, hs, h, heof]
  rfl

/-- A struct with an optional field, a vector of another name in JSON and a field in base 64. -/
def sampleTy : Ty :=
  .struct "Sample" false
    [(⟨text "a", none, false, true, .none⟩, .option (.int .u64)),
      (⟨text "b", some (text "list"), false, false, .vector []⟩, .vector .string),
      (⟨text "c", none, true, false, .string none⟩, .string)]

/-- A quote does no harm in base 64. -/
def sampleData : Data :=
  .struct [.none, .vector [.string none, .string (some (text "x\n"))],
    .string (some (text "a\"b"))]

theorem sampleData_hasType : HasType sampleTy sampleData := by
  refine ⟨trivial, fun x hx => ?_, trivial, trivial⟩
  simp only [List.mem_cons, List.not_mem_nil, or_false] at hx
  rcases hx with rfl | rfl <;> exact trivial

theorem sampleData_faithful : Faithful sampleTy sampleData := by
  refine ⟨by decide, ?_, ⟨fun _ _ => rfl, trivial⟩, ?_, ⟨nofun, ?_⟩, ?_, ?_, trivial⟩
  · exact forall_mem_text (by decide)
  · exact forall_mem_text (by decide)
  · intro x hx
    simp only [List.mem_cons, List.not_mem_nil, or_false] at hx
    rcases hx with rfl | rfl
    · exact trivial
    · unfold Faithful Bare
      exact forall_mem_text (by decide)
  · exact forall_mem_text (by decide)
  · exact ⟨by decide, forall_mem_text (by decide)⟩

theorem fromJSON_toJSON_sample : ∃ n, ∀ fuel, n ≤ fuel →
    parseAs true fuel sampleTy ⟨toJSON sampleTy sampleData, by decide⟩ =
      .done sampleData :=
  fromJSON_toJSON true sampleData_hasType sampleData_faithful rfl

/-- A value that is not read back from its text. -/
def Unread (signed : Bool) (t : Ty) (d : Data) : Prop :=
  HasType t d ∧ ∃ s : Text, s.bytes = toJSON t d ∧ ∀ fuel, parseAs signed fuel t s ≠ .done d

theorem unread_string {s : Bytes} (r : Bytes) (cur : Cursor)
    (fits : (toJSON .string (.string (some s))).length ≤ 2 ^ 32)
    (h : nextToken signed (toJSON .string (.string (some s))) = (.string r, cur.2))
    (hne : r ≠ s) : Unread signed .string (.string (some s)) := by
  refine ⟨trivial, ⟨_, fits⟩, rfl, fun fuel => ?_⟩
  cases fuel with
  | zero => exact nofun
  | succ fuel =>
      simp only [parseAs, h, fromJSON, Reading.bind]
      split
      · intro he
        cases he
        exact hne rfl
      · exact nofun

/-- **Values that do not come back**: a quote ends the string it stands in, a backslash begins an
escape, an integer from `2 ^ 63` on becomes the largest one with a sign, and an option around a null
string becomes empty. Kind: P -/
theorem parseAs_unread :
    Unread true .string (.string (some (text "a\"b"))) ∧
    Unread true .string (.string (some (text "a\\nb"))) ∧
    Unread true (.int .u64) (.int (2 ^ 63)) ∧
    Unread true (.option .string) (.some (.string none)) := by
  refine ⟨?_, ?_, ?_, ?_⟩
  · exact unread_string (text "a") (.eof, text "b\"") (by decide) rfl (by decide)
  · exact unread_string (text "a\nb") (.eof, []) (by decide) rfl (by decide)
  · refine ⟨by simp [HasType, IntType.InRange, IntType.isSigned, IntType.bits],
      ⟨toJSON (.int .u64) (.int (2 ^ 63)), by decide⟩, rfl, fun fuel => ?_⟩
    cases fuel with
    | zero => exact nofun
    | succ fuel =>
        have hnum := @nextToken_int true (2 ^ 63) [] stops_nil
        rw [List.append_nil] at hnum
        have hto : toi (appendSignedInt (2 ^ 63)) = 2 ^ 63 - 1 := by decide
        have heof : nextToken true [] = (.eof, []) := rfl
        simp only [parseAs, toJSON, hnum, fromJSON, hto, Reading.bind, heof, if_true]
        intro he
        cases he
  · refine ⟨trivial, ⟨text "null", by decide⟩, rfl, fun fuel => ?_⟩
    cases fuel with
    | zero => exact nofun
    | succ fuel => exact nofun

end CxyCompiler.Stdlib.Json
