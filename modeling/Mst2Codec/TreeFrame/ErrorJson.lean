import Mst2Codec.Basic

/-!
# The JSON text of an ERROR frame

The scanner and the parser of the closed schema `{code, retryable, request_id}` in
`src/treeframe.rs`, and the writer of JSON strings.

A scanner is the text and a position in it; here it is the bytes from that position on.  The source
reads bytes and checks that what it has read is UTF-8 at the end of each string.
-/

set_option autoImplicit false

namespace Mst2

open Bytes Except

/-- The payload of an ERROR frame. -/
@[ext] structure ErrorPayload where
  /-- The error code. -/
  code : String
  /-- Whether the request may be sent again. -/
  retryable : Bool
  /-- The request. -/
  requestId : String
deriving DecidableEq

/-! ## Numbers and characters of the standard library -/

/-- The value of a hexadecimal digit. -/
def hexDigit (c : UInt8) : Option ℕ :=
  if 0x30 ≤ c ∧ c ≤ 0x39 then some (c.toNat - 0x30)
  else if 0x41 ≤ c ∧ c ≤ 0x46 then some (c.toNat - 0x41 + 10)
  else if 0x61 ≤ c ∧ c ≤ 0x66 then some (c.toNat - 0x61 + 10)
  else none

/-- The number with the given hexadecimal digits. -/
def hexNumber (digits : Bytes) : Option ℕ :=
  (digits.mapM hexDigit).map fun ds ↦ ds.foldl (fun n d ↦ 16 * n + d) 0

/-- `u32::from_str_radix(_, 16)`: one leading plus sign is skipped. -/
def fromStrRadix16 (src : Bytes) : Option UInt32 :=
  let digits := if src.head? = some 0x2B then src.tail else src
  if digits = [] then none
  else (hexNumber digits).bind fun n ↦ if n < 2 ^ 32 then some (UInt32.ofNat n) else none

/-- `char::from_u32`: a surrogate is no character. -/
def charFromU32 (v : UInt32) : Option Char := if h : v.isValidChar then some ⟨v, h⟩ else none

/-! ## The scanner -/

namespace JsonScan

/-- The bytes that `skip_ws` skips. -/
def isWs (c : UInt8) : Bool := c = 0x20 ∨ c = 0x09 ∨ c = 0x0A ∨ c = 0x0D

/-- `skip_ws` -/
def skipWs (it : Bytes) : Bytes := it.dropWhile isWs

/-- `take`: the text behind the byte, if it stands there. -/
def take (it : Bytes) (c : UInt8) : Option Bytes :=
  match it with
  | [] => none
  | b :: it => if b = c then some it else none

/-- The byte of a short escape. -/
def shortEscape (e : UInt8) : Option UInt8 :=
  if e = 0x22 then some 0x22       -- \"
  else if e = 0x5C then some 0x5C  -- \\
  else if e = 0x2F then some 0x2F  -- \/
  else if e = 0x62 then some 0x08  -- \b
  else if e = 0x66 then some 0x0C  -- \f
  else if e = 0x6E then some 0x0A  -- \n
  else if e = 0x72 then some 0x0D  -- \r
  else if e = 0x74 then some 0x09  -- \t
  else none

/-- The character of the four bytes behind `\u`. -/
def unicodeEscape (bytes : Bytes) : CodecResult Char := do
  let hex ← okOr (String.ofUtf8 bytes) (.badConstant "json \\u")
  let cp ← okOr (fromStrRadix16 hex.asBytes) (.badConstant "json \\u")
  okOr (charFromU32 cp) (.badConstant "json \\u codepoint")

/-- The loop of `string` behind the opening quote, with the bytes read so far. -/
def stringLoop : Bytes → Bytes → CodecResult (Bytes × Bytes)
  | [], _ => .error (.truncated "json string")
  | c :: it, out =>
    if c = 0x22 then .ok (out, it)
    else if c = 0x5C then
      match it with
      | [] => .error (.truncated "json escape")
      | e :: it =>
        match shortEscape e with
        | some b => stringLoop it (out ++ [b])
        | none =>
          if e = 0x75 then
            match it with
            | h₀ :: h₁ :: h₂ :: h₃ :: it =>
              match unicodeEscape [h₀, h₁, h₂, h₃] with
              | .ok ch => stringLoop it (out ++ String.utf8EncodeChar ch)
              | .error e => .error e
            | _ => .error (.truncated "json \\u")
          else .error (.badConstant "json escape")
    else if c ≤ 0x1F then .error (.badConstant "raw control char in json string")
    else stringLoop it (out ++ [c])

/-- `string` -/
def string (it : Bytes) : CodecResult (String × Bytes) := do
  let it ← okOr (take it 0x22) (.badConstant "json string expected")
  let (out, it) ← stringLoop it []
  let s ← okOr (String.ofUtf8 out) (.badConstant "json string utf8")
  pure (s, it)

/-- `boolean` -/
def boolean (it : Bytes) : CodecResult (Bool × Bytes) :=
  let text := ((String.ofUtf8 it).getD "").asBytes
  if "true".asBytes.isPrefixOf text then .ok (true, it.drop 4)
  else if "false".asBytes.isPrefixOf text then .ok (false, it.drop 5)
  else .error (.badConstant "json boolean expected")

/-! ### What a scanner leaves is shorter -/

theorem length_lt_of_stringLoop {it out s rest : Bytes} (h : stringLoop it out = .ok (s, rest)) :
    rest.length < it.length := by
  fun_induction stringLoop it out with
  | case1 | case3 | case6 | case7 | case8 | case9 => cases h
  | case2 it =>
    obtain ⟨-, rfl⟩ := Prod.mk.inj (Except.ok.inj h)
    exact Nat.lt_succ_self _
  | case4 _ _ _ _ _ _ ih =>
    have := ih h
    simp only [List.length_cons]
    omega
  | case5 _ _ _ _ _ _ _ _ _ _ ih =>
    have := ih h
    simp only [List.length_cons]
    omega
  | case10 _ _ _ _ _ _ ih =>
    have := ih h
    simp only [List.length_cons]
    omega

theorem take_eq_some {it rest : Bytes} {c : UInt8} : take it c = some rest ↔ it = c :: rest := by
  cases it with
  | nil => simp [take]
  | cons b it =>
    rw [take]
    split
    · rename_i h
      simp [h]
    · rename_i h
      simp [h]

theorem length_lt_of_take {it rest : Bytes} {c : UInt8} (h : take it c = some rest) :
    rest.length < it.length := by
  rw [take_eq_some.mp h]
  exact Nat.lt_succ_self _

theorem length_skipWs_le (it : Bytes) : (skipWs it).length ≤ it.length :=
  (List.dropWhile_sublist _).length_le

theorem length_lt_of_string {it rest : Bytes} {s : String} (h : string it = .ok (s, rest)) :
    rest.length < it.length := by
  rw [string, okOr_bind_eq_ok] at h
  obtain ⟨it', hit, h⟩ := h
  rw [bind_eq_ok] at h
  obtain ⟨⟨out, rest'⟩, hloop, h⟩ := h
  dsimp only at h
  rw [okOr_bind_eq_ok] at h
  obtain ⟨s', -, h⟩ := h
  obtain ⟨rfl, rfl⟩ := Prod.mk.inj (Except.ok.inj h)
  exact (length_lt_of_stringLoop hloop).trans (length_lt_of_take hit)

theorem length_le_of_boolean {it rest : Bytes} {b : Bool} (h : boolean it = .ok (b, rest)) :
    rest.length ≤ it.length := by
  rw [boolean] at h
  split at h
  · obtain ⟨-, rfl⟩ := Prod.mk.inj (Except.ok.inj h)
    exact (List.drop_sublist _ _).length_le
  · split at h
    · obtain ⟨-, rfl⟩ := Prod.mk.inj (Except.ok.inj h)
      exact (List.drop_sublist _ _).length_le
    · cases h

end JsonScan

/-! ## The parser -/

/-- The members of the object, by their place in `fields`. -/
inductive ErrorKey where
  /-- `fields[0]` -/
  | code
  /-- `fields[1]` -/
  | retryable
  /-- `fields[2]` -/
  | requestId
deriving DecidableEq

namespace ErrorKey

/-- The name of a member. -/
def name : ErrorKey → String
  | code => "code"
  | retryable => "retryable"
  | requestId => "request_id"

/-- The member with a name. -/
def ofName (key : String) : Option ErrorKey :=
  if key = "code" then some .code
  else if key = "retryable" then some .retryable
  else if key = "request_id" then some .requestId
  else none

theorem ofName_eq_some {s : String} {key : ErrorKey} : ofName s = some key ↔ s = key.name := by
  constructor
  · intro h
    rw [ofName] at h
    split at h <;> [skip; split at h <;> [skip; split at h]] <;> cases h <;> assumption
  · rintro rfl
    cases key <;> decide

end ErrorKey

/-- `fields`: the values read so far. -/
abbrev ErrorFields := ErrorKey → Option String

namespace JsonScan

/-- The value of a member: `retryable` is kept as the text of a boolean. -/
def value (key : ErrorKey) (it : Bytes) : CodecResult (String × Bytes) :=
  if key = .retryable then do
    let (b, it) ← boolean it
    pure (if b then "true" else "false", it)
  else string it

/-- One round of the loop of `parse_error_json`; the flag says that the object goes on. -/
def member (it : Bytes) (fields : ErrorFields) : CodecResult (Bool × Bytes × ErrorFields) := do
  let (key, it) ← string (skipWs it)
  let it ← okOr (take (skipWs it) 0x3A) (.badConstant "ERROR json colon expected")
  let idx ← okOr (ErrorKey.ofName key) (.badConstant "ERROR json unknown key")
  reject (fields idx ≠ none) (.duplicate "ERROR json key")
  let (v, it) ← value idx (skipWs it)
  let fields := Function.update fields idx (some v)
  match take (skipWs it) 0x7D with
  | some it => pure (false, it, fields)
  | none =>
    let it ← okOr (take (skipWs it) 0x2C) (.badConstant "ERROR json comma expected")
    pure (true, it, fields)

theorem length_le_of_value {key : ErrorKey} {it rest : Bytes} {v : String}
    (h : value key it = .ok (v, rest)) : rest.length ≤ it.length := by
  rw [value] at h
  split at h
  · rw [bind_eq_ok] at h
    obtain ⟨⟨b, it'⟩, hb, h⟩ := h
    obtain ⟨-, rfl⟩ := Prod.mk.inj (Except.ok.inj h)
    exact length_le_of_boolean hb
  · exact (length_lt_of_string h).le

/-- What one round of the loop has read. -/
theorem member_eq_ok {it it' : Bytes} {fields fields' : ErrorFields} {more : Bool} :
    member it fields = .ok (more, it', fields') ↔
      ∃ (key : ErrorKey) (v : String) (it₁ it₂ it₃ : Bytes),
        string (skipWs it) = .ok (key.name, it₁) ∧ take (skipWs it₁) 0x3A = some it₂ ∧
        fields key = none ∧ value key (skipWs it₂) = .ok (v, it₃) ∧
        take (skipWs it₃) (if more then 0x2C else 0x7D) = some it' ∧
        fields' = Function.update fields key (some v) := by
  rw [member, bind_eq_ok]
  constructor
  · rintro ⟨⟨name, it₁⟩, hname, h⟩
    dsimp only at h
    rw [okOr_bind_eq_ok] at h
    obtain ⟨it₂, hcolon, h⟩ := h
    rw [okOr_bind_eq_ok] at h
    obtain ⟨key, hkey, h⟩ := h
    obtain rfl := ErrorKey.ofName_eq_some.mp hkey
    rw [reject_bind_eq_ok, not_not, bind_eq_ok] at h
    obtain ⟨hnone, ⟨v, it₃⟩, hvalue, h⟩ := h
    refine ⟨key, v, it₁, it₂, it₃, hname, hcolon, hnone, hvalue, ?_⟩
    dsimp only at h
    split at h
    · rename_i it hend
      obtain ⟨rfl, hpair⟩ := Prod.mk.inj (Except.ok.inj h)
      obtain ⟨rfl, rfl⟩ := Prod.mk.inj hpair
      exact ⟨hend, rfl⟩
    · rw [okOr_bind_eq_ok] at h
      obtain ⟨it, hend, h⟩ := h
      obtain ⟨rfl, hpair⟩ := Prod.mk.inj (Except.ok.inj h)
      obtain ⟨rfl, rfl⟩ := Prod.mk.inj hpair
      exact ⟨hend, rfl⟩
  · rintro ⟨key, v, it₁, it₂, it₃, hname, hcolon, hnone, hvalue, hend, rfl⟩
    refine ⟨_, hname, ?_⟩
    dsimp only
    rw [hcolon, okOr_some, ok_bind, ErrorKey.ofName_eq_some.mpr rfl, okOr_some, ok_bind,
      reject_of_not (not_not.mpr hnone), ok_bind, hvalue, ok_bind]
    cases more with
    | false =>
      dsimp only
      rw [show take (skipWs it₃) 0x7D = some it' from hend]
      rfl
    | true =>
      -- a comma is no brace
      replace hend : take (skipWs it₃) 0x2C = some it' := hend
      have hbrace : take (skipWs it₃) 0x7D = none := by
        rw [take_eq_some.mp hend]
        rfl
      dsimp only
      rw [hbrace, hend]
      rfl

theorem length_lt_of_member {it it' : Bytes} {fields fields' : ErrorFields} {more : Bool}
    (h : member it fields = .ok (more, it', fields')) : it'.length < it.length := by
  obtain ⟨key, v, it₁, it₂, it₃, hkey, hcolon, -, hvalue, hend, -⟩ := member_eq_ok.mp h
  have := length_lt_of_string hkey
  have := length_lt_of_take hcolon
  have := length_le_of_value hvalue
  have := length_lt_of_take hend
  have := length_skipWs_le it
  have := length_skipWs_le it₁
  have := length_skipWs_le it₂
  have := length_skipWs_le it₃
  omega

/-- The loop of `parse_error_json`. -/
def membersLoop (it : Bytes) (fields : ErrorFields) : CodecResult (Bytes × ErrorFields) :=
  match _h : member it fields with
  | .error e => .error e
  | .ok (false, it, fields) => .ok (it, fields)
  | .ok (true, it, fields) => membersLoop it fields
termination_by it.length
decreasing_by exact length_lt_of_member _h

end JsonScan

/-- `parse_error_json` -/
def parseErrorJson (s : String) : CodecResult ErrorPayload := do
  let it := JsonScan.skipWs s.asBytes
  let it ← okOr (JsonScan.take it 0x7B) (.badConstant "ERROR json object expected")
  let it := JsonScan.skipWs it
  reject (JsonScan.take it 0x7D ≠ none) (.badConstant "ERROR json empty object")
  let (it, fields) ← JsonScan.membersLoop it fun _ ↦ none
  let it := JsonScan.skipWs it
  reject (it ≠ []) (.badConstant "ERROR json trailing data")
  let code ← okOr (fields .code) (.badConstant "ERROR code missing")
  let retryableRaw ← okOr (fields .retryable) (.badConstant "ERROR retryable missing")
  let requestId ← okOr (fields .requestId) (.badConstant "ERROR request_id missing")
  pure ⟨code, retryableRaw = "true", requestId⟩

/-! ## The writer -/

/-- `format!("{:04x}", n)` -/
def hex04 (n : ℕ) : List Char := (Nat.toDigits 16 n).leftpad 4 '0'

/-- What `json_string` writes for a character. -/
def jsonChar (c : Char) : List Char :=
  if c = '"' then ['\\', '"']
  else if c = '\\' then ['\\', '\\']
  else if c = '\n' then ['\\', 'n']
  else if c = '\r' then ['\\', 'r']
  else if c = '\t' then ['\\', 't']
  else if c.toNat < 0x20 then '\\' :: 'u' :: hex04 c.toNat
  else [c]

/-- `json_string` -/
def jsonString (v : String) : String := String.ofList ('"' :: v.toList.flatMap jsonChar ++ ['"'])

/-- The text that `ErrorPayload::encode` writes. -/
def ErrorPayload.json (e : ErrorPayload) : String :=
  "\x7b\"code\":" ++ jsonString e.code ++ ",\"retryable\":" ++
    (if e.retryable then "true" else "false") ++ ",\"request_id\":" ++ jsonString e.requestId ++
    "\x7d"

end Mst2
