import Mst2Codec.TreeFrame.JsonScan

/-!
# The grammar of ERROR texts

What `parse_error_json` accepts, in terms of the objects of `Library.JsonObject`.  The loop over the
members has its own lemma, `membersLoop_eq_ok`; the parser is `parseErrorJson_eq_ok`: it accepts the
objects with the members of an ERROR payload in any order, if no escape in them is a surrogate pair.

JSON has surrogate pairs and does not have the escapes with a plus sign that the parser reads, so
the two differ on the texts with one of these but not the other (`parseErrorJson_iff_isJson`).
-/

set_option autoImplicit false

namespace Mst2

open Bytes Except Json

/-! ## Members -/

/-- What is kept of a value in `fields`. -/
def kept : Datum → String
  | .str s => s
  | .bool b => if b then "true" else "false"

/-- The kind of value that a member takes. -/
def ErrorKey.Takes : ErrorKey → Datum → Prop
  | .retryable, .bool _ => True
  | .retryable, .str _ => False
  | _, .str _ => True
  | _, .bool _ => False

theorem ErrorKey.Takes.eq_of_kept {key : ErrorKey} {d d' : Datum} (h : key.Takes d)
    (h' : key.Takes d') (heq : kept d = kept d') : d = d' := by
  cases key <;> cases d <;> cases d' <;> simp_all [ErrorKey.Takes, kept]
  rename_i b b'
  cases b <;> cases b' <;> simp_all

namespace JsonScan

/-- What `string` reads behind white space. -/
theorem string_skipWs_eq_ok {cs : List Char} {s : String} {it : Bytes} :
    string (skipWs (encode cs)) = .ok (s, it) ↔ ∃ w ps cs', cs = w ++ (literal ps ++ cs') ∧
      (∀ c ∈ w, IsWs c) ∧ Denotes ps s.toList ∧ (∀ p ∈ ps, IsRead p) ∧ it = encode cs' := by
  refine (skipWs_iff (Q := fun it' ↦ string it' = .ok (s, it)) (fun cs ↦ string_eq_ok) ?_).trans ?_
  · rintro c r ⟨ps, cs', h, -⟩
    obtain ⟨rfl, -⟩ := List.cons.inj h
    decide
  · constructor
    · rintro ⟨w, -, rfl, hw, ps, cs', rfl, h⟩
      exact ⟨w, ps, cs', rfl, hw, h⟩
    · rintro ⟨w, ps, cs', rfl, hw, h⟩
      exact ⟨w, _, rfl, hw, ps, cs', rfl, h⟩

/-- What `boolean` reads behind white space. -/
theorem boolean_skipWs_eq_ok {cs : List Char} {b : Bool} {it : Bytes} :
    boolean (skipWs (encode cs)) = .ok (b, it) ↔ ∃ w cs', cs = w ++ (boolText b ++ cs') ∧
      (∀ c ∈ w, IsWs c) ∧ it = encode cs' := by
  refine (skipWs_iff (Q := fun it' ↦ boolean it' = .ok (b, it))
    (fun cs ↦ boolean_eq_ok) ?_).trans ?_
  · rintro c r ⟨cs', h, -⟩
    cases b <;> obtain ⟨rfl, -⟩ := List.cons.inj h <;> decide
  · constructor
    · rintro ⟨w, -, rfl, hw, cs', rfl, h⟩
      exact ⟨w, cs', rfl, hw, h⟩
    · rintro ⟨w, cs', rfl, hw, h⟩
      exact ⟨w, _, rfl, hw, cs', rfl, h⟩

/-- What `value` reads behind white space. -/
theorem value_skipWs_eq_ok {key : ErrorKey} {cs : List Char} {v : String} {it : Bytes} :
    value key (skipWs (encode cs)) = .ok (v, it) ↔ ∃ (w : List Char) (t : Value) (d : Datum)
      (cs' : List Char), cs = w ++ (t.text ++ cs') ∧ (∀ c ∈ w, IsWs c) ∧ t.Denotes d ∧
      (∀ p ∈ t.pieces, IsRead p) ∧ key.Takes d ∧ v = kept d ∧ it = encode cs' := by
  rw [value]
  split
  · rename_i hkey
    subst hkey
    rw [bind_eq_ok]
    constructor
    · rintro ⟨⟨b, it'⟩, hb, h⟩
      obtain ⟨rfl, rfl⟩ := Prod.mk.inj (Except.ok.inj h)
      obtain ⟨w, cs', rfl, hw, rfl⟩ := boolean_skipWs_eq_ok.mp hb
      exact ⟨w, .bool b, .bool b, cs', rfl, hw, rfl, by simp [Value.pieces], trivial, rfl, rfl⟩
    · rintro ⟨w, t, d, cs', rfl, hw, hd, -, hkey, rfl, rfl⟩
      cases d with
      | str => exact hkey.elim
      | bool b =>
        cases t with
        | str => exact hd.elim
        | bool b' =>
          obtain rfl : b' = b := hd
          exact ⟨_, boolean_skipWs_eq_ok.mpr ⟨w, cs', rfl, hw, rfl⟩, rfl⟩
  · rename_i hkey
    rw [string_skipWs_eq_ok]
    constructor
    · rintro ⟨w, ps, cs', rfl, hw, hv, hps, rfl⟩
      refine ⟨w, .str ps, .str v, cs', rfl, hw, hv, hps, ?_, rfl, rfl⟩
      cases key with
      | retryable => exact hkey rfl
      | code => trivial
      | requestId => trivial
    · rintro ⟨w, t, d, cs', rfl, hw, hd, hps, htakes, rfl, rfl⟩
      cases d with
      | bool b => cases key <;> first | exact htakes.elim | exact absurd rfl hkey
      | str s =>
        cases t with
        | bool => exact hd.elim
        | str ps => exact ⟨w, ps, cs', rfl, hw, hd, hps, rfl⟩

/-- The byte behind a member. -/
theorem take_end_eq_some {more : Bool} {cs : List Char} {it : Bytes} :
    take (skipWs (encode cs)) (if more then 0x2C else 0x7D) = some it ↔
      ∃ w cs', cs = w ++ (if more then ',' else '}') :: cs' ∧ (∀ c ∈ w, IsWs c) ∧
        it = encode cs' := by
  cases more with
  | false => exact take_skipWs_eq_some (c := '}') (by decide) (by decide)
  | true => exact take_skipWs_eq_some (c := ',') (by decide) (by decide)

/-- What one round of the loop reads. -/
theorem member_encode_eq_ok {cs : List Char} {it : Bytes} {fields fields' : ErrorFields}
    {more : Bool} : member (encode cs) fields = .ok (more, it, fields') ↔
      ∃ (m : Member) (key : ErrorKey) (d : Datum) (cs' : List Char),
        cs = m.text ++ (if more then ',' else '}') :: cs' ∧ m.Denotes (key.name, d) ∧
        (∀ p ∈ m.pieces, IsRead p) ∧ key.Takes d ∧ fields key = none ∧ it = encode cs' ∧
        fields' = Function.update fields key (some (kept d)) := by
  have hcolon {cs : List Char} {it : Bytes} : take (skipWs (encode cs)) 0x3A = some it ↔
      ∃ w cs', cs = w ++ ':' :: cs' ∧ (∀ c ∈ w, IsWs c) ∧ it = encode cs' :=
    take_skipWs_eq_some (c := ':') (by decide) (by decide)
  rw [member_eq_ok]
  constructor
  · rintro ⟨key, v, it₁, it₂, it₃, hkey, htake, hnone, hvalue, hend, rfl⟩
    obtain ⟨w, ps, cs₁, rfl, hw, hps, hread, rfl⟩ := string_skipWs_eq_ok.mp hkey
    obtain ⟨w₁, cs₂, rfl, hw₁, rfl⟩ := hcolon.mp htake
    obtain ⟨w₂, t, d, cs₃, rfl, hw₂, hd, hread', htakes, rfl, rfl⟩ := value_skipWs_eq_ok.mp hvalue
    obtain ⟨w₃, cs₄, rfl, hw₃, rfl⟩ := take_end_eq_some.mp hend
    exact ⟨⟨w, ps, w₁, w₂, t, w₃⟩, key, d, cs₄, by simp [Member.text], ⟨hw, hps, hw₁, hw₂, hd, hw₃⟩,
      List.forall_mem_append.mpr ⟨hread, hread'⟩, htakes, hnone, rfl, rfl⟩
  · rintro ⟨m, key, d, cs', rfl, hm, hread, htakes, hnone, rfl, rfl⟩
    obtain ⟨hread, hread'⟩ := List.forall_mem_append.mp hread
    simp only [Member.text, List.append_assoc, List.cons_append]
    exact ⟨key, kept d, _, _, _,
      string_skipWs_eq_ok.mpr ⟨m.before, m.key, _, rfl, hm.before, hm.key, hread, rfl⟩,
      hcolon.mpr ⟨m.afterKey, _, rfl, hm.afterKey, rfl⟩, hnone,
      value_skipWs_eq_ok.mpr ⟨m.beforeValue, m.value, d, _, rfl, hm.beforeValue, hm.value, hread',
        htakes, rfl, rfl⟩,
      take_end_eq_some.mpr ⟨m.after, cs', rfl, hm.after, rfl⟩, rfl⟩

/-! ## The loop -/

/-- The name and the value of an entry. -/
def entry (x : ErrorKey × Datum) : String × Datum := (x.1.name, x.2)

/-- The fields after some entries. -/
def putAll (fields : ErrorFields) (xs : List (ErrorKey × Datum)) : ErrorFields :=
  xs.foldl (fun fields x ↦ Function.update fields x.1 (some (kept x.2))) fields

/-- The entries may be put into the fields one after the other. -/
structure Fits (xs : List (ErrorKey × Datum)) (fields : ErrorFields) : Prop where
  /-- Every value is of the kind that its member takes. -/
  takes : ∀ x ∈ xs, x.1.Takes x.2
  /-- No name occurs twice. -/
  nodup : (xs.map Prod.fst).Nodup
  /-- No name has been read. -/
  none : ∀ x ∈ xs, fields x.1 = none

theorem fits_cons {x : ErrorKey × Datum} {xs : List (ErrorKey × Datum)} {fields : ErrorFields} :
    Fits (x :: xs) fields ↔ x.1.Takes x.2 ∧ fields x.1 = none ∧
      Fits xs (Function.update fields x.1 (some (kept x.2))) := by
  constructor
  · rintro ⟨htakes, hnodup, hnone⟩
    obtain ⟨hx, htakes⟩ := List.forall_mem_cons.mp htakes
    obtain ⟨hnone, hnones⟩ := List.forall_mem_cons.mp hnone
    rw [List.map_cons, List.nodup_cons] at hnodup
    refine ⟨hx, hnone, htakes, hnodup.2, fun y hy ↦ ?_⟩
    have hne : y.1 ≠ x.1 := fun h ↦ hnodup.1 (h ▸ List.mem_map_of_mem hy)
    rw [Function.update_of_ne hne]
    exact hnones y hy
  · rintro ⟨hx, hnone, htakes, hnodup, hnones⟩
    have hne : ∀ y ∈ xs, y.1 ≠ x.1 := by
      intro y hy h
      have := hnones y hy
      rw [h, Function.update_self] at this
      cases this
    refine ⟨List.forall_mem_cons.mpr ⟨hx, htakes⟩, ?_,
      List.forall_mem_cons.mpr ⟨hnone, fun y hy ↦ ?_⟩⟩
    · rw [List.map_cons, List.nodup_cons]
      refine ⟨fun h ↦ ?_, hnodup⟩
      obtain ⟨y, hy, h⟩ := List.mem_map.mp h
      exact hne y hy h
    · have := hnones y hy
      rwa [Function.update_of_ne (hne y hy)] at this

theorem membersLoop_last {it it' : Bytes} {fields fields' : ErrorFields}
    (h : member it fields = .ok (false, it', fields')) :
    membersLoop it fields = .ok (it', fields') := by
  rw [membersLoop]
  split <;> rename_i h' <;> cases h.symm.trans h'
  rfl

theorem membersLoop_more {it it' : Bytes} {fields fields' : ErrorFields}
    (h : member it fields = .ok (true, it', fields')) :
    membersLoop it fields = membersLoop it' fields' := by
  rw [membersLoop]
  split <;> rename_i h' <;> cases h.symm.trans h'
  rfl

/-- **What the loop reads**: members up to the closing brace. -/
theorem membersLoop_eq_ok {cs : List Char} {it : Bytes} {fields fields' : ErrorFields} :
    membersLoop (encode cs) fields = .ok (it, fields') ↔
      ∃ (m : Member) (ms : List Member) (xs : List (ErrorKey × Datum)) (cs' : List Char),
        cs = membersText (m :: ms) ++ '}' :: cs' ∧
        List.Forall₂ Member.Denotes (m :: ms) (xs.map entry) ∧
        (∀ p ∈ (m :: ms).flatMap Member.pieces, IsRead p) ∧ Fits xs fields ∧ it = encode cs' ∧
        fields' = putAll fields xs := by
  constructor
  · intro h
    induction hn : cs.length using Nat.strong_induction_on generalizing cs fields with
    | _ n ih =>
      subst hn
      rw [membersLoop] at h
      split at h
      · cases h
      · -- the last member
        rename_i hmember
        obtain ⟨rfl, rfl⟩ := Prod.mk.inj (Except.ok.inj h)
        obtain ⟨m, key, d, cs', rfl, hm, hread, htakes, hnone, rfl, rfl⟩ :=
          member_encode_eq_ok.mp hmember
        exact ⟨m, [], [(key, d)], cs', by simp, .cons hm .nil, by simpa using hread,
          ⟨by simpa using htakes, by simp, by simpa using hnone⟩, rfl, rfl⟩
      · rename_i hmember
        obtain ⟨m, key, d, cs', rfl, hm, hread, htakes, hnone, rfl, rfl⟩ :=
          member_encode_eq_ok.mp hmember
        have hlen : cs'.length < (m.text ++ ',' :: cs').length := by
          rw [List.length_append, List.length_cons]
          omega
        obtain ⟨m', ms, xs, cs'', rfl, hms, hreads, hfits, rfl, rfl⟩ := ih _ hlen h rfl
        refine ⟨m, m' :: ms, (key, d) :: xs, cs'', ?_, .cons hm hms, ?_,
          fits_cons.mpr ⟨htakes, hnone, hfits⟩, rfl, rfl⟩
        · rw [membersText_cons_cons, List.append_assoc]
          rfl
        · rw [List.flatMap_cons, List.forall_mem_append]
          exact ⟨hread, hreads⟩
  · rintro ⟨m, ms, xs, cs', rfl, hms, hread, hfits, rfl, rfl⟩
    induction ms generalizing m xs fields with
    | nil =>
      cases xs with
      | nil => cases hms
      | cons x xs =>
        obtain ⟨hm, hnil⟩ := List.forall₂_cons.mp hms
        obtain rfl : xs = [] := List.map_eq_nil_iff.mp (List.forall₂_nil_left_iff.mp hnil)
        obtain ⟨htakes, hnone, -⟩ := fits_cons.mp hfits
        refine membersLoop_last (member_encode_eq_ok.mpr
          ⟨m, x.1, x.2, cs', ?_, hm, ?_, htakes, hnone, rfl, rfl⟩)
        · rw [membersText_singleton]
          rfl
        · simpa using hread
    | cons m' ms ih =>
      cases xs with
      | nil => cases hms
      | cons x xs =>
        obtain ⟨hm, hms⟩ := List.forall₂_cons.mp hms
        obtain ⟨htakes, hnone, hfits⟩ := fits_cons.mp hfits
        rw [List.flatMap_cons, List.forall_mem_append] at hread
        rw [membersText_cons_cons, List.append_assoc]
        exact (membersLoop_more (member_encode_eq_ok.mpr ⟨m, x.1, x.2, _, rfl, hm, hread.1, htakes,
          hnone, rfl, rfl⟩)).trans (ih m' xs hms hread.2 hfits)

/-! ## The fields at the end -/

theorem putAll_cons (fields : ErrorFields) (x : ErrorKey × Datum) (xs : List (ErrorKey × Datum)) :
    putAll fields (x :: xs) = putAll (Function.update fields x.1 (some (kept x.2))) xs := rfl

theorem putAll_of_notMem {xs : List (ErrorKey × Datum)} {fields : ErrorFields} {key : ErrorKey}
    (h : ∀ x ∈ xs, x.1 ≠ key) : putAll fields xs key = fields key := by
  induction xs generalizing fields with
  | nil => rfl
  | cons x xs ih =>
    obtain ⟨hx, hxs⟩ := List.forall_mem_cons.mp h
    rw [putAll_cons, ih hxs, Function.update_of_ne (Ne.symm hx)]

theorem putAll_of_mem {xs : List (ErrorKey × Datum)} (fields : ErrorFields)
    (h : (xs.map Prod.fst).Nodup) {x : ErrorKey × Datum} (hx : x ∈ xs) :
    putAll fields xs x.1 = some (kept x.2) := by
  induction xs generalizing fields with
  | nil => cases hx
  | cons y xs ih =>
    rw [List.map_cons, List.nodup_cons] at h
    rw [putAll_cons]
    rcases List.mem_cons.mp hx with rfl | hx
    · rw [putAll_of_notMem fun z hz hzx ↦ h.1 (List.mem_map.mpr ⟨z, hz, hzx⟩),
        Function.update_self]
    · exact ih _ h.2 hx

/-- A field that has been read is that of an entry. -/
theorem exists_of_putAll {xs : List (ErrorKey × Datum)} (h : Fits xs fun _ ↦ none) {key : ErrorKey}
    {v : String} (hv : putAll (fun _ ↦ none) xs key = some v) :
    ∃ d, (key, d) ∈ xs ∧ key.Takes d ∧ v = kept d := by
  by_cases hmem : ∀ x ∈ xs, x.1 ≠ key
  · rw [putAll_of_notMem hmem] at hv
    cases hv
  · push Not at hmem
    obtain ⟨x, hx, rfl⟩ := hmem
    rw [putAll_of_mem _ h.nodup hx] at hv
    exact ⟨x.2, hx, h.takes x hx, (Option.some.inj hv).symm⟩

end JsonScan

namespace ErrorPayload

/-- The value of a member. -/
def datum (e : ErrorPayload) : ErrorKey → Datum
  | .code => .str e.code
  | .retryable => .bool e.retryable
  | .requestId => .str e.requestId

/-- The members of an ERROR text, in the order of `fields`. -/
def members (e : ErrorPayload) : List (String × Datum) :=
  [("code", .str e.code), ("retryable", .bool e.retryable), ("request_id", .str e.requestId)]

theorem takes_datum (e : ErrorPayload) (key : ErrorKey) : key.Takes (e.datum key) := by
  cases key <;> trivial

/-- The members, by their keys. -/
def entries (e : ErrorPayload) : List (ErrorKey × Datum) :=
  [.code, .retryable, .requestId].map fun key ↦ (key, e.datum key)

theorem mem_entries {e : ErrorPayload} {x : ErrorKey × Datum} :
    x ∈ e.entries ↔ x.2 = e.datum x.1 := by
  rw [entries, List.mem_map]
  constructor
  · rintro ⟨key, -, rfl⟩
    rfl
  · intro h
    exact ⟨x.1, by cases x.1 <;> decide, Prod.ext rfl h.symm⟩

/-- The fields hold a payload if the entries are its members. -/
theorem putAll_eq_iff {xs : List (ErrorKey × Datum)} {e : ErrorPayload} :
    (JsonScan.Fits xs (fun _ ↦ none) ∧
      ∀ key, JsonScan.putAll (fun _ ↦ none) xs key = some (kept (e.datum key))) ↔
      xs.Perm e.entries := by
  have hkeys : (e.entries.map Prod.fst).Nodup :=
    show ([.code, .retryable, .requestId] : List ErrorKey).Nodup by decide
  constructor
  · rintro ⟨hfits, h⟩
    refine (List.perm_ext_iff_of_nodup hfits.nodup.of_map hkeys.of_map).mpr fun x ↦ ?_
    rw [mem_entries]
    have hmem : (x.1, e.datum x.1) ∈ xs := by
      obtain ⟨d, hd, htakes, hkept⟩ := JsonScan.exists_of_putAll hfits (h x.1)
      rwa [← htakes.eq_of_kept (e.takes_datum _) hkept.symm]
    constructor
    · intro hx
      have := JsonScan.putAll_of_mem (fun _ ↦ none) hfits.nodup hx
      exact (hfits.takes x hx).eq_of_kept (e.takes_datum _)
        (Option.some.inj (this.symm.trans (h x.1)))
    · intro hx
      rwa [← hx] at hmem
  · intro h
    have hnodup : (xs.map Prod.fst).Nodup := (h.map _).nodup_iff.mpr hkeys
    refine ⟨⟨fun x hx ↦ ?_, hnodup, fun _ _ ↦ rfl⟩, fun key ↦ ?_⟩
    · rw [mem_entries.mp (h.mem_iff.mp hx)]
      exact e.takes_datum _
    · exact JsonScan.putAll_of_mem _ hnodup (x := (key, e.datum key))
        (h.mem_iff.mpr (mem_entries.mpr rfl))

end ErrorPayload

/-! ## The parser -/

namespace JsonScan

theorem encode_eq_nil {cs : List Char} (h : encode cs = []) : cs = [] := by
  cases cs with
  | nil => rfl
  | cons c cs =>
    rw [encode_cons, List.append_eq_nil_iff] at h
    exact absurd h.1 String.utf8EncodeChar_ne_nil

theorem skipWs_encode_eq_nil {cs : List Char} : skipWs (encode cs) = [] ↔ ∀ c ∈ cs, IsWs c := by
  constructor
  · intro h
    obtain ⟨w, cs', rfl, hw, -, hskip⟩ := exists_skipWs_encode cs
    obtain rfl := encode_eq_nil (hskip.symm.trans h)
    rwa [List.append_nil]
  · intro h
    rw [← List.append_nil cs, skipWs_encode_append h (by simp), encode_nil]

/-- The white space before the first member may be skipped twice. -/
theorem membersLoop_skipWs (it : Bytes) (fields : ErrorFields) :
    membersLoop (skipWs it) fields = membersLoop it fields := by
  have hskip : skipWs (skipWs it) = skipWs it := List.dropWhile_idempotent _ _
  have hmember : member (skipWs it) fields = member it fields := by rw [member, member, hskip]
  rw [membersLoop, membersLoop, hmember]

theorem take_brace_membersText {m : Member} {ms : List Member} {x : String × Datum}
    (hm : m.Denotes x) (cs : List Char) :
    take (skipWs (encode (membersText (m :: ms) ++ cs))) 0x7D = none := by
  have htext : ∃ r, membersText (m :: ms) = m.before ++ '"' :: r := by
    cases ms with
    | nil => exact ⟨_, by rw [membersText_singleton]; rfl⟩
    | cons m' ms => exact ⟨_, by rw [membersText_cons_cons, Member.text, List.append_assoc]; rfl⟩
  obtain ⟨r, hr⟩ := htext
  rw [hr, Option.eq_none_iff_forall_ne_some]
  intro it h
  obtain ⟨w, cs', heq, hw, -⟩ := (take_skipWs_eq_some (c := '}') (by decide) (by decide)).mp h
  rw [List.append_assoc] at heq
  exact absurd (ws_append_inj hm.before hw (by decide) (by decide) heq).2.1 (by decide)

end JsonScan

/-- **What `parse_error_json` accepts.** -/
theorem parseErrorJson_eq_ok {s : String} {e : ErrorPayload} :
    parseErrorJson s = .ok e ↔ ∃ (o : Object) (xs : List (String × Datum)),
      o.text = s.toList ∧ o.Denotes xs ∧ ¬ o.HasPair ∧ xs.Perm e.members := by
  have hbrace {cs : List Char} {it : Bytes} : JsonScan.take (JsonScan.skipWs (JsonScan.encode cs))
      0x7B = some it ↔ ∃ w cs', cs = w ++ '{' :: cs' ∧ (∀ c ∈ w, IsWs c) ∧
        it = JsonScan.encode cs' :=
    JsonScan.take_skipWs_eq_some (c := '{') (by decide) (by decide)
  rw [parseErrorJson, JsonScan.asBytes_eq_encode]
  dsimp only
  rw [okOr_bind_eq_ok]
  constructor
  · rintro ⟨it, htake, h⟩
    obtain ⟨w, cs, hs, hw, rfl⟩ := hbrace.mp htake
    rw [reject_bind_eq_ok, bind_eq_ok] at h
    obtain ⟨-, ⟨it, fields⟩, hloop, h⟩ := h
    dsimp only at h
    rw [JsonScan.membersLoop_skipWs] at hloop
    obtain ⟨m, ms, xs, cs', rfl, hms, hread, hfits, rfl, rfl⟩ := JsonScan.membersLoop_eq_ok.mp hloop
    rw [reject_bind_eq_ok, not_not, JsonScan.skipWs_encode_eq_nil, okOr_bind_eq_ok] at h
    obtain ⟨hafter, code, hcode, h⟩ := h
    rw [okOr_bind_eq_ok] at h
    obtain ⟨raw, hraw, h⟩ := h
    rw [okOr_bind_eq_ok] at h
    obtain ⟨requestId, hrequestId, h⟩ := h
    obtain rfl := Except.ok.inj h
    refine ⟨⟨w, m, ms, cs'⟩, xs.map JsonScan.entry, hs.symm, ⟨hw, hms, hafter⟩, ?_, ?_⟩
    · rintro ⟨p, hp, hpair⟩
      exact hread p hp hpair
    · refine (ErrorPayload.putAll_eq_iff.mp ⟨hfits, fun key ↦ ?_⟩).map _
      cases key with
      | code => exact hcode
      | requestId => exact hrequestId
      | retryable =>
        obtain ⟨d, -, htakes, rfl⟩ := JsonScan.exists_of_putAll hfits hraw
        cases d with
        | str => exact htakes.elim
        | bool b =>
          rw [hraw]
          cases b <;> rfl
  · rintro ⟨o, xs, hs, ho, hread, hperm⟩
    obtain ⟨entries, rfl, hentries⟩ : ∃ entries : List (ErrorKey × Datum),
        xs = entries.map JsonScan.entry ∧ entries.Perm e.entries :=
      (congrFun (congrFun (List.eq_map_comp_perm JsonScan.entry) xs) e.entries).mpr hperm
    obtain ⟨hfits, h⟩ := ErrorPayload.putAll_eq_iff.mpr hentries
    have hloop : JsonScan.membersLoop (JsonScan.encode (membersText o.members ++ '}' :: o.after))
        (fun _ ↦ none) = .ok (JsonScan.encode o.after, JsonScan.putAll (fun _ ↦ none) entries) :=
      JsonScan.membersLoop_eq_ok.mpr ⟨o.first, o.rest, entries, o.after, rfl, ho.members,
        fun p hp hpair ↦ hread ⟨p, hp, hpair⟩, hfits, rfl, rfl⟩
    have hfirst : ∃ x, o.first.Denotes x := by
      cases entries with
      | nil => cases ho.members
      | cons x xs => exact ⟨_, (List.forall₂_cons.mp ho.members).1⟩
    obtain ⟨x, hx⟩ := hfirst
    have hempty : JsonScan.take (JsonScan.skipWs (JsonScan.encode (membersText o.members ++
        '}' :: o.after))) 0x7D = none := JsonScan.take_brace_membersText hx _
    refine ⟨_, hbrace.mpr ⟨o.before, _, hs.symm, ho.before, rfl⟩, ?_⟩
    rw [reject_of_not (not_not.mpr hempty), ok_bind, JsonScan.membersLoop_skipWs, hloop, ok_bind]
    dsimp only
    rw [reject_of_not (not_not.mpr (JsonScan.skipWs_encode_eq_nil.mpr ho.after)), ok_bind, h .code,
      okOr_some, ok_bind, h .retryable, okOr_some, ok_bind, h .requestId, okOr_some, ok_bind]
    refine congrArg Except.ok (ErrorPayload.ext rfl ?_ rfl)
    cases hretryable : e.retryable <;> simp [ErrorPayload.datum, hretryable, kept]

/-- The text `s` is JSON for the payload: one object with its members in any order. -/
def ErrorPayload.IsJson (e : ErrorPayload) (s : String) : Prop :=
  ∃ (o : Object) (xs : List (String × Datum)),
    o.text = s.toList ∧ o.Denotes xs ∧ ¬ o.HasSigned ∧ xs.Perm e.members

/-- **The parser and JSON agree on a text** exactly if it has both escapes that JSON does not know
and surrogate pairs, or neither. -/
theorem parseErrorJson_iff_isJson (s : String) :
    (∀ e : ErrorPayload, parseErrorJson s = .ok e ↔ e.IsJson s) ↔
      ∀ (o : Object) (xs : List (String × Datum)) (e : ErrorPayload), o.text = s.toList →
        o.Denotes xs → xs.Perm e.members → (o.HasSigned ↔ o.HasPair) := by
  constructor
  · intro h o xs e hs ho hperm
    have hparse : parseErrorJson s = .ok e ↔ ¬ o.HasPair := by
      rw [parseErrorJson_eq_ok]
      constructor
      · rintro ⟨o', xs', hs', ho', hpair, -⟩
        rwa [Object.text_inj ho ho' (hs.trans hs'.symm)]
      · intro hpair
        exact ⟨o, xs, hs, ho, hpair, hperm⟩
    have hjson : e.IsJson s ↔ ¬ o.HasSigned := by
      constructor
      · rintro ⟨o', xs', hs', ho', hsigned, -⟩
        rwa [Object.text_inj ho ho' (hs.trans hs'.symm)]
      · intro hsigned
        exact ⟨o, xs, hs, ho, hsigned, hperm⟩
    exact not_iff_not.mp (hjson.symm.trans ((h e).symm.trans hparse))
  · intro h e
    rw [parseErrorJson_eq_ok]
    constructor
    · rintro ⟨o, xs, hs, ho, hpair, hperm⟩
      exact ⟨o, xs, hs, ho, fun hsigned ↦ hpair ((h o xs e hs ho hperm).mp hsigned), hperm⟩
    · rintro ⟨o, xs, hs, ho, hsigned, hperm⟩
      exact ⟨o, xs, hs, ho, fun hpair ↦ hsigned ((h o xs e hs ho hperm).mpr hpair), hperm⟩

/-- The tokens of a text without white space, with the members in the order of `fields`. -/
def compactTokens (code : List Piece) (retryable : Bool) (requestId : List Piece) : Object :=
  let member (name : String) (v : Value) : Member := ⟨[], name.toList.map .raw, [], [], v, []⟩
  ⟨[], member "code" (.str code),
    [member "retryable" (.bool retryable), member "request_id" (.str requestId)], []⟩

theorem compactTokens_denotes {e : ErrorPayload} {ps qs : List Piece}
    (hcode : Denotes ps e.code.toList) (hid : Denotes qs e.requestId.toList) :
    (compactTokens ps e.retryable qs).Denotes e.members := by
  have hmember {name : String} {v : Value} {d : Datum}
      (hname : Denotes (name.toList.map Piece.raw) name.toList) (hv : v.Denotes d) :
      Member.Denotes ⟨[], name.toList.map .raw, [], [], v, []⟩ (name, d) :=
    ⟨by simp, hname, by simp, by simp, hv, by simp⟩
  exact ⟨by simp [compactTokens], .cons (hmember (by decide) hcode) (.cons (hmember (by decide) rfl)
    (.cons (hmember (by decide) hid) .nil)), by simp [compactTokens]⟩

theorem mem_pieces_compactTokens {ps qs : List Piece} {b : Bool} {p : Piece}
    (h : p ∈ (compactTokens ps b qs).pieces) : p ∈ ps ∨ p ∈ qs ∨ ∃ c, p = .raw c := by
  simp only [compactTokens, Object.pieces, Object.members, Member.pieces, Value.pieces,
    List.flatMap_cons, List.flatMap_nil, List.append_nil, List.mem_append, List.mem_map] at h
  rcases h with (⟨c, -, rfl⟩ | h) | ⟨c, -, rfl⟩ | ⟨c, -, rfl⟩ | h
  · exact .inr (.inr ⟨c, rfl⟩)
  · exact .inl h
  · exact .inr (.inr ⟨c, rfl⟩)
  · exact .inr (.inr ⟨c, rfl⟩)
  · exact .inr (.inl h)

/-- An escape that JSON does not have. -/
def signedText : String := "\x7b\"code\":\"\\u+041\",\"retryable\":true,\"request_id\":\"\"\x7d"

/-- A surrogate pair. -/
def pairText : String :=
  "\x7b\"code\":\"\\ud83d\\ude00\",\"retryable\":true,\"request_id\":\"\"\x7d"

/-- The parser reads the one and rejects the other. -/
theorem parseErrorJson_ne_isJson :
    (parseErrorJson signedText = .ok ⟨"A", true, ""⟩ ∧
      ¬ ErrorPayload.IsJson ⟨"A", true, ""⟩ signedText) ∧
    parseErrorJson pairText = .error (.badConstant "json \\u codepoint") ∧
      ErrorPayload.IsJson ⟨"😀", true, ""⟩ pairText := by
  have hsigned : (compactTokens [.signed '0' '4' '1'] true []).Denotes
      (ErrorPayload.members ⟨"A", true, ""⟩) :=
    compactTokens_denotes (e := ⟨"A", true, ""⟩) (by decide) (denotes_nil.mpr rfl)
  have hpair : (compactTokens [.pair 'd' '8' '3' 'd' 'd' 'e' '0' '0'] true []).Denotes
      (ErrorPayload.members ⟨"😀", true, ""⟩) :=
    compactTokens_denotes (e := ⟨"😀", true, ""⟩) (by decide) (denotes_nil.mpr rfl)
  refine ⟨⟨by decide +kernel, ?_⟩, by decide +kernel, ?_⟩
  · rintro ⟨o, xs, hs, ho, hno, -⟩
    refine hno ?_
    rw [Object.text_inj ho hsigned hs]
    exact ⟨.signed '0' '4' '1', by
      simp [compactTokens, Object.pieces, Object.members, Member.pieces, Value.pieces], trivial⟩
  · refine ⟨_, _, by decide, hpair, ?_, .refl _⟩
    rintro ⟨p, hp, h⟩
    rcases mem_pieces_compactTokens hp with hp | hp | ⟨c, rfl⟩
    · obtain rfl := List.mem_singleton.mp hp
      exact h
    · cases hp
    · exact h

end Mst2
