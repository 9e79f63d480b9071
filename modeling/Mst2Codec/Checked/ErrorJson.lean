import Mst2Codec.Checked.Readers
import Mst2Codec.TreeFrame.ErrorJson

/-!
# The checked JSON scanner

`JsonScan` and `parse_error_json` of `src/treeframe.rs`, operation by operation: the scanner is the
text and an index into it.  A loop has fuel, and running out of it counts as a panic, so what is
proved here includes that every loop ends.

A position `i` of the scanner stands for the bytes from there on (`At`), which is what the scanner
of `ErrorJson` carries.
-/

set_option autoImplicit false

namespace Mst2

namespace Checked

open Bytes Machine

namespace JsonScan

/-- The loop of `skip_ws`. -/
def skipWsLoop (b : Bytes) : ℕ → ℕ → Run ℕ
  | 0, _ => .error .panic
  | fuel + 1, i =>
    if i < b.length then do
      let c ← index b i
      if Mst2.JsonScan.isWs c then do
        let i ← add 64 i 1
        skipWsLoop b fuel i
      else pure i
    else pure i

/-- `skip_ws` -/
def skipWs (b : Bytes) (i : ℕ) : Run ℕ := skipWsLoop b (b.length + 1) i

/-- `take` -/
def take (b : Bytes) (i : ℕ) (c : UInt8) : Run (Bool × ℕ) :=
  if i < b.length then do
    let v ← index b i
    if v = c then do
      let i ← add 64 i 1
      pure (true, i)
    else pure (false, i)
  else pure (false, i)

/-- The loop of `string`. -/
def stringLoop (b : Bytes) : ℕ → ℕ → Bytes → Run (Bytes × ℕ)
  | 0, _, _ => .error .panic
  | fuel + 1, i, out => do
    let c ← okOr b[i]? (.truncated "json string")
    let i ← add 64 i 1
    if c = 0x22 then pure (out, i)
    else if c = 0x5C then do
      let e ← okOr b[i]? (.truncated "json escape")
      let i ← add 64 i 1
      match Mst2.JsonScan.shortEscape e with
      | some v => stringLoop b fuel i (out ++ [v])
      | none =>
        if e = 0x75 then do
          let hi ← add 64 i 4
          reject (hi > b.length) (.truncated "json \\u")
          let hi ← add 64 i 4
          let bytes ← range b i hi
          let hex ← okOr (String.ofUtf8 bytes) (.badConstant "json \\u")
          let cp ← okOr (fromStrRadix16 hex.asBytes) (.badConstant "json \\u")
          let i ← add 64 i 4
          let ch ← okOr (charFromU32 cp) (.badConstant "json \\u codepoint")
          stringLoop b fuel i (out ++ String.utf8EncodeChar ch)
        else lift (.error (.badConstant "json escape"))
    else if c ≤ 0x1F then lift (.error (.badConstant "raw control char in json string"))
    else stringLoop b fuel i (out ++ [c])

/-- `string` -/
def string (b : Bytes) (i : ℕ) : Run (String × ℕ) := do
  let (found, i) ← take b i 0x22
  reject (found = false) (.badConstant "json string expected")
  let (out, i) ← stringLoop b (b.length + 1) i []
  let s ← okOr (String.ofUtf8 out) (.badConstant "json string utf8")
  pure (s, i)

/-- `s(_).starts_with(_)` -/
def startsWith (text : String) (b : Bytes) : Bool :=
  text.asBytes.isPrefixOf ((String.ofUtf8 b).getD "").asBytes

/-- `boolean` -/
def boolean (b : Bytes) (i : ℕ) : Run (Bool × ℕ) := do
  let tail ← rangeFrom b i
  if startsWith "true" tail then do
    let i ← add 64 i 4
    pure (true, i)
  else do
    let tail ← rangeFrom b i
    if startsWith "false" tail then do
      let i ← add 64 i 5
      pure (false, i)
    else lift (.error (.badConstant "json boolean expected"))

/-- The position of a member in `fields`. -/
def place : ErrorKey → ℕ
  | .code => 0
  | .retryable => 1
  | .requestId => 2

/-- The value of a member. -/
def value (b : Bytes) (idx i : ℕ) : Run (String × ℕ) :=
  if idx = 1 then do
    let (v, i) ← boolean b i
    pure (if v then "true" else "false", i)
  else string b i

/-- One round of the loop of `parse_error_json`. -/
def member (b : Bytes) (i : ℕ) (fields : List (Option String)) :
    Run (Bool × ℕ × List (Option String)) := do
  let i ← skipWs b i
  let (key, i) ← string b i
  let i ← skipWs b i
  let (found, i) ← take b i 0x3A
  reject (found = false) (.badConstant "ERROR json colon expected")
  let i ← skipWs b i
  let key ← okOr (ErrorKey.ofName key) (.badConstant "ERROR json unknown key")
  let idx := place key
  let field ← index fields idx
  reject (field ≠ none) (.duplicate "ERROR json key")
  let (v, i) ← value b idx i
  let fields ← update fields idx (some v)
  let i ← skipWs b i
  let (found, i) ← take b i 0x7D
  if found then pure (false, i, fields)
  else do
    let (found, i) ← take b i 0x2C
    reject (found = false) (.badConstant "ERROR json comma expected")
    pure (true, i, fields)

/-- The loop of `parse_error_json`. -/
def membersLoop (b : Bytes) :
    ℕ → ℕ → List (Option String) → Run (ℕ × List (Option String))
  | 0, _, _ => .error .panic
  | fuel + 1, i, fields => do
    let (more, i, fields) ← member b i fields
    if more then membersLoop b fuel i fields else pure (i, fields)

end JsonScan

/-- `parse_error_json` -/
def parseErrorJson (s : String) : Run ErrorPayload := do
  let b := s.asBytes
  let i ← JsonScan.skipWs b 0
  let (found, i) ← JsonScan.take b i 0x7B
  reject (found = false) (.badConstant "ERROR json object expected")
  let i ← JsonScan.skipWs b i
  let (found, i) ← JsonScan.take b i 0x7D
  reject (found = true) (.badConstant "ERROR json empty object")
  let (i, fields) ← JsonScan.membersLoop b (b.length + 1) i [none, none, none]
  let i ← JsonScan.skipWs b i
  reject (i < b.length) (.badConstant "ERROR json trailing data")
  let code ← index fields 0
  let code ← okOr code (.badConstant "ERROR code missing")
  let retryableRaw ← index fields 1
  let retryableRaw ← okOr retryableRaw (.badConstant "ERROR retryable missing")
  let requestId ← index fields 2
  let requestId ← okOr requestId (.badConstant "ERROR request_id missing")
  pure ⟨code, retryableRaw = "true", requestId⟩

/-! ## Positions -/

namespace JsonScan

/-- The position `i` stands for the bytes from there on. -/
def At (b : Bytes) (i : ℕ) (it : Bytes) : Prop := i ≤ b.length ∧ b.drop i = it

theorem at_drop {b : Bytes} {i : ℕ} (h : i ≤ b.length) : At b i (b.drop i) := ⟨h, rfl⟩

theorem At.length {b it : Bytes} {i : ℕ} (h : At b i it) : i + it.length = b.length := by
  rw [← h.2, List.length_drop]
  exact Nat.add_sub_cancel' h.1

theorem index_of_lt {b : Bytes} {i : ℕ} (h : i < b.length) :
    (index b i : Run UInt8) = .ok (b.getD i 0) := by
  rw [index, List.getD_eq_getElem _ _ h, List.getElem?_eq_getElem h]
  rfl

theorem add_of_le {a n : ℕ} (h : a + n < 2 ^ 64) : (add 64 a n : Run ℕ) = .ok (a + n) := if_pos h

theorem drop_eq_cons {b : Bytes} {i : ℕ} (h : i < b.length) :
    b.drop i = b.getD i 0 :: b.drop (i + 1) := by
  rw [List.drop_eq_getElem_cons h, List.getD_eq_getElem _ _ h]

variable {b : Bytes} (hb : b.length < 2 ^ 63)

include hb

/-- White space is skipped within the text. -/
theorem skipWsLoop_eq {fuel i : ℕ} (hi : i ≤ b.length) (hfuel : b.length < i + fuel) :
    ∃ j, skipWsLoop b fuel i = .ok j ∧ At b j (Mst2.JsonScan.skipWs (b.drop i)) := by
  induction fuel generalizing i with
  | zero => omega
  | succ fuel ih =>
    rw [skipWsLoop]
    split
    · rename_i hlt
      rw [index_of_lt hlt, Except.ok_bind, drop_eq_cons hlt, Mst2.JsonScan.skipWs]
      split
      · rename_i hws
        rw [add_of_le (by omega), Except.ok_bind, List.dropWhile_cons_of_pos hws]
        exact ih hlt (by omega)
      · rename_i hws
        rw [List.dropWhile_cons_of_neg hws, ← drop_eq_cons hlt]
        exact ⟨i, rfl, at_drop hi⟩
    · rename_i hge
      obtain rfl : i = b.length := by omega
      rw [List.drop_length]
      exact ⟨b.length, rfl, le_rfl, List.drop_length⟩

theorem skipWs_eq {i : ℕ} {it : Bytes} (h : At b i it) :
    ∃ j, skipWs b i = .ok j ∧ At b j (Mst2.JsonScan.skipWs it) := by
  obtain ⟨hi, rfl⟩ := h
  exact skipWsLoop_eq hb hi (by omega)

/-- `take` moves behind the byte, or it stays. -/
theorem take_eq {i : ℕ} {it : Bytes} (h : At b i it) (c : UInt8) :
    (∃ it', Mst2.JsonScan.take it c = some it' ∧ take b i c = .ok (true, i + 1) ∧
      At b (i + 1) it') ∨ Mst2.JsonScan.take it c = none ∧ take b i c = .ok (false, i) := by
  obtain ⟨hi, rfl⟩ := h
  rw [take]
  split
  · rename_i hlt
    rw [index_of_lt hlt, Except.ok_bind, drop_eq_cons hlt, Mst2.JsonScan.take]
    split
    · rw [add_of_le (by omega), Except.ok_bind]
      exact .inl ⟨_, rfl, rfl, at_drop hlt⟩
    · exact .inr ⟨rfl, rfl⟩
  · rename_i hge
    rw [List.drop_of_length_le (by omega)]
    exact .inr ⟨rfl, rfl⟩

/-- What follows white space. -/
theorem sim_skipWs {α β : Type} {S : α → β → Prop} {i : ℕ} {it : Bytes} (h : At b i it)
    {F : ℕ → Run α} {y : CodecResult β}
    (hF : ∀ j, At b j (Mst2.JsonScan.skipWs it) → Sim S (F j) y) :
    Sim S (skipWs b i >>= F) y := by
  obtain ⟨j, hj, hat⟩ := skipWs_eq hb h
  rw [hj]
  exact hF j hat

/-- The same value, and positions that correspond. -/
def ValueAt {α : Type} (b : Bytes) (x : α × ℕ) (y : α × Bytes) : Prop := x.1 = y.1 ∧ At b x.2 y.2

omit hb in
/-- Four bytes from a position on. -/
theorem eq_or_short (i : ℕ) : (∃ h₀ h₁ h₂ h₃, i + 4 ≤ b.length ∧
      b.drop i = h₀ :: h₁ :: h₂ :: h₃ :: b.drop (i + 4)) ∨ b.length < i + 4 := by
  rcases Nat.lt_or_ge b.length (i + 4) with h | h
  · exact .inr h
  · refine .inl ⟨b.getD i 0, b.getD (i + 1) 0, b.getD (i + 2) 0, b.getD (i + 3) 0, h, ?_⟩
    rw [drop_eq_cons (by omega), drop_eq_cons (i := i + 1) (by omega),
      drop_eq_cons (i := i + 2) (by omega), drop_eq_cons (i := i + 3) (by omega)]

theorem stringLoop_sim {fuel i : ℕ} {it out : Bytes} (h : At b i it)
    (hfuel : b.length < i + fuel) :
    Sim (ValueAt b) (stringLoop b fuel i out) (Mst2.JsonScan.stringLoop it out) := by
  induction fuel generalizing i it out with
  | zero => have := h.1; omega
  | succ fuel ih =>
    obtain ⟨hi, rfl⟩ := h
    rw [stringLoop]
    rcases Nat.eq_or_lt_of_le hi with rfl | hlt
    · rw [List.getElem?_eq_none le_rfl, List.drop_length, Mst2.JsonScan.stringLoop]
      exact .error _
    rw [List.getElem?_eq_getElem hlt, List.drop_eq_getElem_cons hlt,
      Mst2.JsonScan.stringLoop.eq_def]
    refine .add (by omega) ?_
    dsimp only
    split
    · exact .ok ⟨rfl, at_drop hlt⟩
    split
    · -- an escape
      rcases Nat.eq_or_lt_of_le (show i + 1 ≤ b.length from hlt) with heq | hlt'
      · rw [List.getElem?_eq_none heq.ge, List.drop_of_length_le heq.ge]
        exact .error _
      rw [List.getElem?_eq_getElem hlt', List.drop_eq_getElem_cons hlt']
      refine .add (by omega) ?_
      dsimp only
      cases Mst2.JsonScan.shortEscape b[i + 1] with
      | some v => exact ih (at_drop hlt') (by omega)
      | none =>
        dsimp only
        split
        · refine .add (by omega) ?_
          rcases eq_or_short (b := b) (i + 1 + 1) with ⟨h₀, h₁, h₂, h₃, hle, hdrop⟩ | hshort
          · rw [hdrop]
            refine .pass (by omega) (.add (by omega) (.range (by omega) hle ?_))
            rw [hdrop, Nat.add_sub_cancel_left]
            dsimp only [List.take]
            rw [Mst2.JsonScan.unicodeEscape]
            cases String.ofUtf8 [h₀, h₁, h₂, h₃] with
            | none => exact .error _
            | some hex =>
              simp only [okOr_some, Except.okOr_some, Except.ok_bind]
              cases fromStrRadix16 hex.asBytes with
              | none => exact .error _
              | some cp =>
                simp only [okOr_some, Except.okOr_some, Except.ok_bind]
                refine .add (by omega) ?_
                cases charFromU32 cp with
                | none => exact .error _
                | some ch => exact ih (at_drop hle) (by omega)
          · have hlen : (b.drop (i + 1 + 1)).length < 4 := by
              rw [List.length_drop]
              omega
            rw [reject, Except.reject, if_pos hshort]
            generalize b.drop (i + 1 + 1) = it at hlen
            rcases it with _ | ⟨h₀, _ | ⟨h₁, _ | ⟨h₂, _ | ⟨h₃, it⟩⟩⟩⟩
            · exact .error _
            · exact .error _
            · exact .error _
            · exact .error _
            · simp only [List.length_cons] at hlen
              omega
        · exact .error _
    split
    · exact .error _
    · exact ih (at_drop hlt) (by omega)

theorem string_sim {i : ℕ} {it : Bytes} (h : At b i it) :
    Sim (ValueAt b) (string b i) (Mst2.JsonScan.string it) := by
  rw [string, Mst2.JsonScan.string]
  rcases take_eq hb h 0x22 with ⟨it', hplain, hrun, hat⟩ | ⟨hplain, hrun⟩
  · rw [hplain, hrun]
    refine .ok_bind (.pass Bool.noConfusion ?_)
    rw [Except.okOr_some, Except.ok_bind]
    refine (stringLoop_sim hb hat (by omega)).bind ?_
    rintro ⟨out, j⟩ ⟨-, it''⟩ ⟨rfl, hat'⟩ -
    exact .okOr fun s _ ↦ .ok ⟨rfl, hat'⟩
  · rw [hplain, hrun]
    exact .error _

omit hb in
/-- A position that many bytes further on. -/
theorem at_of_startsWith {text : String} {i : ℕ} (hi : i ≤ b.length)
    (h : startsWith text (b.drop i)) :
    At b (i + text.asBytes.length) ((b.drop i).drop text.asBytes.length) := by
  rw [startsWith, List.isPrefixOf_iff_prefix] at h
  have hlen : ((String.ofUtf8 (b.drop i)).getD "").asBytes.length ≤ b.length - i := by
    cases hs : String.ofUtf8 (b.drop i) with
    | none => exact Nat.zero_le _
    | some s => rw [Option.getD_some, String.ofUtf8_eq_some.mp hs, List.length_drop]
  have := h.length_le
  exact ⟨by omega, List.drop_drop.symm⟩

theorem boolean_sim {i : ℕ} {it : Bytes} (h : At b i it) :
    Sim (ValueAt b) (boolean b i) (Mst2.JsonScan.boolean it) := by
  obtain ⟨hi, rfl⟩ := h
  rw [boolean, Mst2.JsonScan.boolean]
  have htrue : "true".asBytes.length = 4 := by decide +kernel
  have hfalse : "false".asBytes.length = 5 := by decide +kernel
  refine .rangeFrom hi ?_
  show Sim _ _ (if startsWith "true" (b.drop i) then _ else
    if startsWith "false" (b.drop i) then _ else _)
  split
  · rename_i h
    have hat := at_of_startsWith hi h
    rw [htrue] at hat
    have := hat.1
    exact .add (by omega) (.ok ⟨rfl, hat⟩)
  · refine .rangeFrom hi ?_
    split
    · rename_i h
      have hat := at_of_startsWith hi h
      rw [hfalse] at hat
      have := hat.1
      exact .add (by omega) (.ok ⟨rfl, hat⟩)
    · exact .error _

theorem value_sim {key : ErrorKey} {i : ℕ} {it : Bytes} (h : At b i it) :
    Sim (ValueAt b) (value b (place key) i) (Mst2.JsonScan.value key it) := by
  rw [value, Mst2.JsonScan.value]
  cases key with
  | retryable =>
    refine (boolean_sim hb h).bind ?_
    rintro ⟨v, j⟩ ⟨-, it'⟩ ⟨rfl, hat⟩ -
    exact .ok ⟨rfl, hat⟩
  | code => exact string_sim hb h
  | requestId => exact string_sim hb h

/-- The list of the fields. -/
def fieldList (fields : ErrorFields) : List (Option String) :=
  [fields .code, fields .retryable, fields .requestId]

omit hb in
theorem fieldList_getElem? (fields : ErrorFields) (key : ErrorKey) :
    (fieldList fields)[place key]? = some (fields key) := by
  cases key <;> rfl

omit hb in
theorem fieldList_set (fields : ErrorFields) (key : ErrorKey) (v : Option String) :
    (fieldList fields).set (place key) v = fieldList (Function.update fields key v) := by
  cases key <;> simp [fieldList, place, Function.update]

theorem member_sim {i : ℕ} {it : Bytes} {fields : ErrorFields} (h : At b i it) :
    Sim (fun x y ↦ x.1 = y.1 ∧ At b x.2.1 y.2.1 ∧ x.2.2 = fieldList y.2.2)
      (member b i (fieldList fields)) (Mst2.JsonScan.member it fields) := by
  rw [member, Mst2.JsonScan.member]
  refine sim_skipWs hb h fun i h ↦ (string_sim hb h).bind ?_
  rintro ⟨key, i⟩ ⟨-, it⟩ ⟨rfl, h⟩ -
  refine sim_skipWs hb h fun i h ↦ ?_
  dsimp only
  rcases take_eq hb h 0x3A with ⟨it', hplain, hrun, hat⟩ | ⟨hplain, hrun⟩
  · rw [hplain, hrun]
    refine .ok_bind (.pass Bool.noConfusion (sim_skipWs hb hat fun i h ↦ ?_))
    rw [Except.okOr_some, Except.ok_bind]
    refine .okOr fun key _ ↦ .index (fieldList_getElem? fields key) (.reject fun _ ↦
      (value_sim hb h).bind ?_)
    rintro ⟨v, i⟩ ⟨-, it⟩ ⟨rfl, h⟩ -
    have hplace := (List.getElem?_eq_some_iff.mp (fieldList_getElem? fields key)).1
    refine .update hplace (sim_skipWs hb h fun i h ↦ ?_)
    rw [fieldList_set]
    dsimp only
    rcases take_eq hb h 0x7D with ⟨it', hplain, hrun, hat⟩ | ⟨hplain, hrun⟩
    · rw [hplain, hrun]
      exact .ok ⟨rfl, hat, rfl⟩
    · rw [hplain, hrun]
      refine .ok_bind ?_
      rcases take_eq hb h 0x2C with ⟨it', hplain, hrun, hat⟩ | ⟨hplain, hrun⟩
      · rw [hplain, hrun]
        exact .ok ⟨rfl, hat, rfl⟩
      · rw [hplain, hrun]
        exact .error _
  · rw [hplain, hrun]
    exact .error _

theorem membersLoop_sim {fuel i : ℕ} {it : Bytes} {fields : ErrorFields} (h : At b i it)
    (hfuel : b.length < i + fuel) :
    Sim (fun x y ↦ At b x.1 y.1 ∧ x.2 = fieldList y.2)
      (membersLoop b fuel i (fieldList fields)) (Mst2.JsonScan.membersLoop it fields) := by
  induction fuel generalizing i it fields with
  | zero => have := h.1; omega
  | succ fuel ih =>
    rw [membersLoop, Mst2.JsonScan.membersLoop]
    have hmember : Sim _ _ (Mst2.JsonScan.member it fields) := member_sim hb h
    generalize member b i (fieldList fields) = X at hmember
    split
    · rename_i e he
      rw [he] at hmember
      cases hmember
      exact .error e
    · rename_i it' fields' hlast
      rw [hlast] at hmember
      cases hmember with
      | @ok x _ hx =>
        obtain ⟨more, j, l⟩ := x
        obtain ⟨rfl, hat, rfl⟩ := hx
        exact .ok ⟨hat, rfl⟩
    · rename_i it' fields' hmore
      have hlt := Mst2.JsonScan.length_lt_of_member hmore
      rw [hmore] at hmember
      cases hmember with
      | @ok x _ hx =>
        obtain ⟨more, j, l⟩ := x
        obtain ⟨rfl, hat, rfl⟩ := hx
        -- the round has moved the position
        have hi := h.length
        have hj := hat.length
        dsimp only at hj
        exact ih hat (by omega)

end JsonScan

theorem parseErrorJson_eq {s : String} (hs : s.asBytes.length < 2 ^ 63) :
    parseErrorJson s = lift (Mst2.parseErrorJson s) := by
  rw [← sim_eq_iff, parseErrorJson, Mst2.parseErrorJson]
  refine JsonScan.sim_skipWs hs (JsonScan.at_drop (Nat.zero_le _)) fun i h ↦ ?_
  rw [List.drop_zero] at h
  dsimp only
  rcases JsonScan.take_eq hs h 0x7B with ⟨it, hplain, hrun, h⟩ | ⟨hplain, hrun⟩
  · rw [hplain, hrun]
    refine .ok_bind (.pass Bool.noConfusion (JsonScan.sim_skipWs hs h fun i h ↦ ?_))
    rw [Except.okOr_some, Except.ok_bind]
    rcases JsonScan.take_eq hs h 0x7D with ⟨it', hplain, hrun, -⟩ | ⟨hplain, hrun⟩
    · rw [hplain, hrun]
      exact .error _
    · rw [hplain, hrun]
      refine .ok_bind (.pass Bool.noConfusion ?_)
      rw [Except.reject_of_not (not_not.mpr rfl), Except.ok_bind]
      have hloop : Sim _ (JsonScan.membersLoop s.asBytes (s.asBytes.length + 1) i
          (JsonScan.fieldList fun _ ↦ none)) _ := JsonScan.membersLoop_sim hs h (by omega)
      refine hloop.bind ?_
      rintro ⟨i, l⟩ ⟨it', fields⟩ ⟨h, rfl⟩ -
      refine JsonScan.sim_skipWs hs h fun i h ↦ ?_
      have heof : i < s.asBytes.length ↔ Mst2.JsonScan.skipWs it' ≠ [] := by
        have hlen := h.length
        dsimp only at hlen
        rw [← List.length_pos_iff]
        omega
      simp only [heof]
      exact .reject fun _ ↦ .index rfl (.okOr fun code _ ↦ .index rfl (.okOr fun raw _ ↦ .index rfl
        (.okOr fun requestId _ ↦ .ok rfl)))
  · rw [hplain, hrun]
    exact .error _

end Checked

end Mst2
