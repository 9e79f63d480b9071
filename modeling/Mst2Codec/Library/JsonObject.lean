import Mst2Codec.Library.Json

/-!
# Flat objects of JSON

The texts of RFC 8259 that consist of one object whose values are strings and booleans, with the
white space between the tokens.  An `Object` is a text cut into its tokens, `Object.Denotes` says
which members it has, in their order in the text.

A text is cut in one way only (`Object.text_inj`).
-/

set_option autoImplicit false

namespace Json

/-! ## Values -/

/-- A value: a string or a boolean. -/
inductive Datum where
  /-- A string. -/
  | str (s : String)
  /-- A boolean. -/
  | bool (b : Bool)
deriving DecidableEq

/-- The text of a boolean. -/
def boolText (b : Bool) : List Char :=
  if b then ['t', 'r', 'u', 'e'] else ['f', 'a', 'l', 's', 'e']

/-- The token of a value. -/
inductive Value where
  /-- A literal. -/
  | str (ps : List Piece)
  /-- `true` or `false`. -/
  | bool (b : Bool)

namespace Value

/-- The text of a token. -/
def text : Value → List Char
  | str ps => literal ps
  | bool b => boolText b

/-- The token denotes a value. -/
def Denotes : Value → Datum → Prop
  | str ps, .str s => Json.Denotes ps s.toList
  | bool b, .bool b' => b = b'
  | _, _ => False

/-- The pieces of a token. -/
def pieces : Value → List Piece
  | str ps => ps
  | bool _ => []

/-- No token starts with white space. -/
theorem exists_text_cons (v : Value) : ∃ c r, v.text = c :: r ∧ ¬ IsWs c := by
  cases v with
  | str ps => exact ⟨'"', _, rfl, by decide⟩
  | bool b => cases b <;> exact ⟨_, _, rfl, by decide⟩

/-- The token at the front of a text is determined. -/
theorem text_inj {v v' : Value} {d d' : Datum} {r r' : List Char} (h : v.Denotes d)
    (h' : v'.Denotes d') (heq : v.text ++ r = v'.text ++ r') : v = v' ∧ r = r' := by
  cases v with
  | str ps =>
    cases v' with
    | str ps' =>
      cases d with
      | bool => exact h.elim
      | str s =>
        cases d' with
        | bool => exact h'.elim
        | str s' =>
          obtain ⟨rfl, hr⟩ := literal_inj h h' heq
          exact ⟨rfl, hr⟩
    | bool b => cases b <;> exact absurd (List.cons.inj heq).1 (by decide)
  | bool b =>
    cases v' with
    | str ps' => cases b <;> exact absurd (List.cons.inj heq).1 (by decide)
    | bool b' =>
      -- the first characters tell the two apart
      cases b <;> cases b' <;>
        first
        | exact ⟨rfl, List.append_cancel_left heq⟩
        | exact absurd (List.cons.inj heq).1 (by decide)

end Value

/-! ## Members -/

/-- The tokens of a member. -/
@[ext] structure Member where
  /-- The white space before the name. -/
  before : List Char
  /-- The name. -/
  key : List Piece
  /-- The white space before the colon. -/
  afterKey : List Char
  /-- The white space behind the colon. -/
  beforeValue : List Char
  /-- The value. -/
  value : Value
  /-- The white space behind the value. -/
  after : List Char

namespace Member

/-- The text of a member. -/
def text (m : Member) : List Char :=
  m.before ++ (literal m.key ++ (m.afterKey ++ ':' ::
    (m.beforeValue ++ (m.value.text ++ m.after))))

/-- The member denotes a name and a value. -/
structure Denotes (m : Member) (x : String × Datum) : Prop where
  /-- White space before the name. -/
  before : ∀ c ∈ m.before, IsWs c
  /-- The name. -/
  key : Json.Denotes m.key x.1.toList
  /-- White space before the colon. -/
  afterKey : ∀ c ∈ m.afterKey, IsWs c
  /-- White space behind the colon. -/
  beforeValue : ∀ c ∈ m.beforeValue, IsWs c
  /-- The value. -/
  value : m.value.Denotes x.2
  /-- White space behind the value. -/
  after : ∀ c ∈ m.after, IsWs c

/-- The pieces of the literals of a member. -/
def pieces (m : Member) : List Piece := m.key ++ m.value.pieces

/-- The member at the front of a text is determined. -/
theorem text_inj {m m' : Member} {x x' : String × Datum} {c c' : Char} {r r' : List Char}
    (h : m.Denotes x) (h' : m'.Denotes x') (hc : ¬ IsWs c) (hc' : ¬ IsWs c')
    (heq : m.text ++ c :: r = m'.text ++ c' :: r') : m = m' ∧ c = c' ∧ r = r' := by
  obtain ⟨v, rv, hv, hvws⟩ := m.value.exists_text_cons
  obtain ⟨v', rv', hv', hvws'⟩ := m'.value.exists_text_cons
  simp only [text, List.append_assoc, List.cons_append] at heq
  have hquote : ¬ IsWs '"' := by decide
  obtain ⟨hbefore, -, heq⟩ := ws_append_inj h.before h'.before hquote hquote heq
  obtain ⟨hkey, heq⟩ := literal_inj h.key h'.key (congrArg (List.cons '"') heq)
  obtain ⟨hafterKey, -, heq⟩ := ws_append_inj h.afterKey h'.afterKey (by decide) (by decide) heq
  have hvalue := heq
  rw [hv, hv'] at hvalue
  obtain ⟨hbeforeValue, -, -⟩ := ws_append_inj h.beforeValue h'.beforeValue hvws hvws' hvalue
  rw [hbeforeValue] at heq
  obtain ⟨hvalue, heq⟩ := Value.text_inj h.value h'.value (List.append_cancel_left heq)
  obtain ⟨hafter, hcc, hr⟩ := ws_append_inj h.after h'.after hc hc' heq
  exact ⟨Member.ext hbefore hkey hafterKey hbeforeValue hvalue hafter, hcc, hr⟩

end Member

/-! ## Objects -/

/-- The text of members, with the commas between them. -/
def membersText (ms : List Member) : List Char := [','].intercalate (ms.map Member.text)

@[simp] theorem membersText_singleton (m : Member) : membersText [m] = m.text :=
  List.intercalate_singleton

theorem membersText_cons_cons (m m' : Member) (ms : List Member) :
    membersText (m :: m' :: ms) = m.text ++ ',' :: membersText (m' :: ms) := by
  rw [membersText, List.map_cons, List.map_cons, List.intercalate_cons_cons, List.append_assoc]
  rfl

/-- Members end where the brace stands. -/
theorem membersText_inj {m m' : Member} {ms ms' : List Member} {xs xs' : List (String × Datum)}
    {r r' : List Char} (h : List.Forall₂ Member.Denotes (m :: ms) xs)
    (h' : List.Forall₂ Member.Denotes (m' :: ms') xs')
    (heq : membersText (m :: ms) ++ '}' :: r = membersText (m' :: ms') ++ '}' :: r') :
    m = m' ∧ ms = ms' ∧ r = r' := by
  have hcomma : ¬ IsWs ',' := by decide
  have hbrace : ¬ IsWs '}' := by decide
  induction ms generalizing m m' ms' xs xs' with
  | nil =>
    cases h with | cons hm _ =>
    cases h' with | cons hm' _ =>
    cases ms' with
    | nil =>
      simp only [membersText_singleton] at heq
      obtain ⟨rfl, -, hr⟩ := Member.text_inj hm hm' hbrace hbrace heq
      exact ⟨rfl, rfl, hr⟩
    | cons n' ms' =>
      rw [membersText_cons_cons, membersText_singleton, List.append_assoc] at heq
      exact absurd (Member.text_inj hm hm' hbrace hcomma heq).2.1 (by decide)
  | cons n ms ih =>
    cases h with | cons hm hms =>
    cases h' with | cons hm' hms' =>
    cases ms' with
    | nil =>
      rw [membersText_cons_cons, membersText_singleton, List.append_assoc] at heq
      exact absurd (Member.text_inj hm hm' hcomma hbrace heq).2.1 (by decide)
    | cons n' ms' =>
      rw [membersText_cons_cons, membersText_cons_cons, List.append_assoc, List.append_assoc] at heq
      obtain ⟨rfl, -, hrest⟩ := Member.text_inj hm hm' hcomma hcomma heq
      obtain ⟨rfl, rfl, hr⟩ := ih hms hms' hrest
      exact ⟨rfl, rfl, hr⟩

/-- The tokens of a text that is one object with at least one member. -/
@[ext] structure Object where
  /-- The white space before the object. -/
  before : List Char
  /-- The first member. -/
  first : Member
  /-- The other members. -/
  rest : List Member
  /-- The white space behind the object. -/
  after : List Char

namespace Object

/-- The members. -/
def members (o : Object) : List Member := o.first :: o.rest

/-- The text. -/
def text (o : Object) : List Char :=
  o.before ++ '{' :: (membersText o.members ++ '}' :: o.after)

/-- The text denotes these names and values, in this order. -/
structure Denotes (o : Object) (xs : List (String × Datum)) : Prop where
  /-- White space before the object. -/
  before : ∀ c ∈ o.before, IsWs c
  /-- The members. -/
  members : List.Forall₂ Member.Denotes o.members xs
  /-- White space behind the object. -/
  after : ∀ c ∈ o.after, IsWs c

/-- The pieces of all literals. -/
def pieces (o : Object) : List Piece := o.members.flatMap Member.pieces

/-- A literal of the text has an escape that is a surrogate pair. -/
def HasPair (o : Object) : Prop := ∃ p ∈ o.pieces, p.IsPair

/-- A literal of the text has an escape with a plus sign. -/
def HasSigned (o : Object) : Prop := ∃ p ∈ o.pieces, p.IsSigned

/-- **A text is cut into its tokens in one way only.** -/
theorem text_inj {o o' : Object} {xs xs' : List (String × Datum)} (h : o.Denotes xs)
    (h' : o'.Denotes xs') (heq : o.text = o'.text) : o = o' := by
  obtain ⟨hbefore, -, heq⟩ := ws_append_inj h.before h'.before (by decide) (by decide) heq
  obtain ⟨hfirst, hrest, hafter⟩ := membersText_inj h.members h'.members heq
  exact Object.ext hbefore hfirst hrest hafter

end Object

end Json
