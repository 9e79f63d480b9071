import Mst2Codec.Library.Except

/-!
# Computations that may panic

A `Run` is a computation of a language whose slices check their indices and whose integers check for
overflow: it returns a value, it returns an error, or it panics.  The operations here are the ones
that panic when an index, a range or a result is out of bounds.

`Sim R X x` says that the run `X` does what the plain computation `x` does, with values related by
`R` and the same errors; so it does not panic.  It is proved along the steps of the two: a rule for
each operation discharges its bound and goes on with what follows.
-/

set_option autoImplicit false

namespace Machine

variable {ε α β γ δ : Type}

/-- How a run stops without a value. -/
inductive Stop (ε : Type) where
  /-- It returns an error. -/
  | error (e : ε)
  /-- It panics. -/
  | panic
deriving DecidableEq

/-- A computation that returns a value or an error, or panics. -/
abbrev Run (ε α : Type) := Except (Stop ε) α

/-- A computation that does not panic, as a run. -/
def lift : Except ε α → Run ε α
  | .ok a => .ok a
  | .error e => .error (.error e)

/-- A run returns a value or an error: it does not panic. -/
def Returns (X : Run ε α) : Prop := X ≠ .error .panic

theorem Returns.of_eq {X : Run ε α} {x : Except ε α} (h : X = lift x) : Returns X := by
  rw [Returns, h]
  cases x <;> simp [lift]

/-! ## Operations that may panic -/

/-- `o.unwrap()` -/
def unwrap : Option α → Run ε α
  | some a => .ok a
  | none => .error .panic

/-- `b[i]` -/
def index (b : List α) (i : ℕ) : Run ε α := unwrap b[i]?

/-- `b.get(lo..hi)` -/
def getRange (b : List α) (lo hi : ℕ) : Option (List α) :=
  if lo ≤ hi ∧ hi ≤ b.length then some ((b.drop lo).take (hi - lo)) else none

/-- `b[lo..hi]` -/
def range (b : List α) (lo hi : ℕ) : Run ε (List α) := unwrap (getRange b lo hi)

/-- `b[lo..]` -/
def rangeFrom (b : List α) (lo : ℕ) : Run ε (List α) := range b lo b.length

/-- `b[i] = a` -/
def update (b : List α) (i : ℕ) (a : α) : Run ε (List α) :=
  if i < b.length then .ok (b.set i a) else .error .panic

/-- `a + b` in an unsigned type of `w` bits. -/
def add (w a b : ℕ) : Run ε ℕ := if a + b < 2 ^ w then .ok (a + b) else .error .panic

/-- `a - b` in an unsigned type. -/
def sub (a b : ℕ) : Run ε ℕ := if b ≤ a then .ok (a - b) else .error .panic

/-- `a * b` in an unsigned type of `w` bits. -/
def mul (w a b : ℕ) : Run ε ℕ := if a * b < 2 ^ w then .ok (a * b) else .error .panic

/-- `a / b` in an unsigned type. -/
def div (a b : ℕ) : Run ε ℕ := if b ≠ 0 then .ok (a / b) else .error .panic

/-- `a % b` in an unsigned type. -/
def rem (a b : ℕ) : Run ε ℕ := if b ≠ 0 then .ok (a % b) else .error .panic

/-- `a << b` in an unsigned type of `w` bits: bits beyond it are lost, the amount is checked. -/
def shl (w a b : ℕ) : Run ε ℕ := if b < w then .ok (a * 2 ^ b % 2 ^ w) else .error .panic

/-- Stop with the error `e` if `c` holds. -/
def reject (c : Prop) [Decidable c] (e : ε) : Run ε Unit := lift (Except.reject c e)

/-- The value, or the error `e` in its absence. -/
def okOr (o : Option α) (e : ε) : Run ε α := lift (Except.okOr o e)

@[simp] theorem okOr_some (a : α) (e : ε) : okOr (some a) e = .ok a := rfl

theorem getRange_eq_some {b : List α} {lo hi : ℕ} (hlo : lo ≤ hi) (hhi : hi ≤ b.length) :
    getRange b lo hi = some ((b.drop lo).take (hi - lo)) := if_pos ⟨hlo, hhi⟩

theorem add_eq_ok {w a b n : ℕ} : (add w a b : Run ε ℕ) = .ok n ↔ a + b < 2 ^ w ∧ a + b = n := by
  rw [add]
  split <;> simp [*]

/-! ## Simulation -/

/-- The run does what the plain computation does. -/
inductive Sim (R : α → β → Prop) : Run ε α → Except ε β → Prop
  /-- Both return a value. -/
  | ok {a b} : R a b → Sim R (.ok a) (.ok b)
  /-- Both return the same error. -/
  | error (e) : Sim R (.error (.error e)) (.error e)

/-- A run that does the same as a plain computation, values included, is that computation. -/
theorem sim_eq_iff {X : Run ε α} {x : Except ε α} : Sim Eq X x ↔ X = lift x := by
  constructor
  · rintro (⟨rfl⟩ | e) <;> rfl
  · rintro rfl
    cases x with
    | ok a => exact .ok rfl
    | error e => exact .error e

/-- A run that maps the value maps the plain value. -/
theorem lift_map (f : α → β) (x : Except ε α) : lift (f <$> x) = f <$> lift x := by
  cases x <;> rfl

theorem sim_lift (x : Except ε α) : Sim Eq (lift x) x := sim_eq_iff.mpr rfl

namespace Sim

variable {R : α → β → Prop} {S : γ → δ → Prop} {X : Run ε α} {x : Except ε β} {F : α → Run ε γ}
  {f : β → Except ε δ} {y : Except ε δ}

/-- Both sides take a step. -/
theorem bind (h : Sim R X x) (hF : ∀ a b, R a b → x = .ok b → Sim S (F a) (f b)) :
    Sim S (X >>= F) (x >>= f) := by
  cases h with
  | ok h => exact hF _ _ h rfl
  | error e => exact .error e

/-- Both sides take a step with the same value. -/
theorem andThen {X : Run ε α} {x : Except ε α} {f : α → Except ε δ} (h : Sim Eq X x)
    (hF : ∀ a, Sim S (F a) (f a)) : Sim S (X >>= F) (x >>= f) :=
  h.bind fun a _ hab _ ↦ hab ▸ hF a

/-- The same for a step that returns a pair. -/
theorem andThenPair {β : Type} {X : Run ε (α × β)} {F : α × β → Run ε γ} {x : Except ε (α × β)}
    {f : α × β → Except ε δ} (h : Sim Eq X x) (hF : ∀ a b, Sim S (F (a, b)) (f (a, b))) :
    Sim S (X >>= F) (x >>= f) :=
  h.andThen fun a ↦ hF a.1 a.2

/-- Both sides take the same step. -/
theorem lift {x : Except ε α} {f : α → Except ε δ} (hF : ∀ a, x = .ok a → Sim S (F a) (f a)) :
    Sim S (Machine.lift x >>= F) (x >>= f) :=
  (sim_lift x).bind fun a _ h ha ↦ h ▸ hF a (h ▸ ha)

/-- The same for a step that returns a pair. -/
theorem liftPair {β : Type} {F : α × β → Run ε γ} {x : Except ε (α × β)}
    {f : α × β → Except ε δ} (hF : ∀ a b, x = .ok (a, b) → Sim S (F (a, b)) (f (a, b))) :
    Sim S (Machine.lift x >>= F) (x >>= f) :=
  .lift fun a h ↦ hF a.1 a.2 h

/-- Both sides check the same condition. -/
theorem reject {c : Prop} [Decidable c] {e : ε} {F : Unit → Run ε γ} {f : Unit → Except ε δ}
    (hF : ¬ c → Sim S (F ()) (f ())) :
    Sim S (Machine.reject c e >>= F) (Except.reject c e >>= f) :=
  .lift fun _ h ↦ hF (Except.reject_eq_ok.mp h)

/-- Both sides look for the same value. -/
theorem okOr {o : Option α} {e : ε} {f : α → Except ε δ}
    (hF : ∀ a, o = some a → Sim S (F a) (f a)) :
    Sim S (Machine.okOr o e >>= F) (Except.okOr o e >>= f) :=
  .lift fun a h ↦ hF a (Except.okOr_eq_ok.mp h)

/-! ### Steps of the run alone -/

theorem ok_bind {a : α} (h : Sim S (F a) y) : Sim S ((.ok a : Run ε α) >>= F) y := h

/-- A check that the run makes and passes. -/
theorem pass {c : Prop} [Decidable c] {e : ε} {F : Unit → Run ε γ} (hc : ¬ c)
    (h : Sim S (F ()) y) : Sim S (Machine.reject c e >>= F) y := by
  rw [Machine.reject, Except.reject_of_not hc]
  exact h

theorem unwrap {o : Option α} {a : α} (ho : o = some a) (h : Sim S (F a) y) :
    Sim S (Machine.unwrap o >>= F) y := by
  rw [ho]
  exact h

theorem index {b : List α} {i : ℕ} {a : α} (hi : b[i]? = some a) (h : Sim S (F a) y) :
    Sim S (Machine.index b i >>= F) y := .unwrap hi h

/-- An index within bounds. -/
theorem indexD {b : List α} {i : ℕ} (d : α) (hi : i < b.length) (h : Sim S (F (b.getD i d)) y) :
    Sim S (Machine.index b i >>= F) y := by
  refine .index ?_ h
  rw [List.getD_eq_getElem?_getD, List.getElem?_eq_getElem hi, Option.getD_some]

/-- An index behind the check that it is in bounds. -/
theorem rejectIndex {b : List α} {i : ℕ} {e : ε} {f : α → Except ε δ}
    (hF : ∀ a, b[i]? = some a → Sim S (F a) (f a)) :
    Sim S (Machine.reject (b.length ≤ i) e >>= fun _ ↦ Machine.index b i >>= F)
      (Except.okOr b[i]? e >>= f) := by
  rw [Machine.reject, Except.reject]
  split
  · rename_i hi
    rw [List.getElem?_eq_none hi]
    exact .error e
  · rename_i hi
    have ha := List.getElem?_eq_getElem (Nat.lt_of_not_le hi)
    rw [ha]
    exact .index ha (hF _ ha)

theorem range {b : List α} {lo hi : ℕ} {F : List α → Run ε γ} (hlo : lo ≤ hi)
    (hhi : hi ≤ b.length) (h : Sim S (F ((b.drop lo).take (hi - lo))) y) :
    Sim S (Machine.range b lo hi >>= F) y := .unwrap (getRange_eq_some hlo hhi) h

theorem rangeFrom {b : List α} {lo : ℕ} {F : List α → Run ε γ} (hlo : lo ≤ b.length)
    (h : Sim S (F (b.drop lo)) y) : Sim S (Machine.rangeFrom b lo >>= F) y := by
  refine .range hlo le_rfl ?_
  rwa [List.take_of_length_le (by rw [List.length_drop])]

theorem update {b : List α} {i : ℕ} {a : α} {F : List α → Run ε γ} (hi : i < b.length)
    (h : Sim S (F (b.set i a)) y) : Sim S (Machine.update b i a >>= F) y := by
  rw [Machine.update, if_pos hi]
  exact h

theorem add {w a b : ℕ} {F : ℕ → Run ε γ} (hab : a + b < 2 ^ w) (h : Sim S (F (a + b)) y) :
    Sim S (Machine.add w a b >>= F) y := by
  rw [Machine.add, if_pos hab]
  exact h

theorem sub {a b : ℕ} {F : ℕ → Run ε γ} (hab : b ≤ a) (h : Sim S (F (a - b)) y) :
    Sim S (Machine.sub a b >>= F) y := by
  rw [Machine.sub, if_pos hab]
  exact h

theorem mul {w a b : ℕ} {F : ℕ → Run ε γ} (hab : a * b < 2 ^ w) (h : Sim S (F (a * b)) y) :
    Sim S (Machine.mul w a b >>= F) y := by
  rw [Machine.mul, if_pos hab]
  exact h

theorem div {a b : ℕ} {F : ℕ → Run ε γ} (hb : b ≠ 0) (h : Sim S (F (a / b)) y) :
    Sim S (Machine.div a b >>= F) y := by
  rw [Machine.div, if_pos hb]
  exact h

theorem rem {a b : ℕ} {F : ℕ → Run ε γ} (hb : b ≠ 0) (h : Sim S (F (a % b)) y) :
    Sim S (Machine.rem a b >>= F) y := by
  rw [Machine.rem, if_pos hb]
  exact h

theorem shl {w a b : ℕ} {F : ℕ → Run ε γ} (hb : b < w) (h : Sim S (F (a * 2 ^ b % 2 ^ w)) y) :
    Sim S (Machine.shl w a b >>= F) y := by
  rw [Machine.shl, if_pos hb]
  exact h

end Sim

end Machine
