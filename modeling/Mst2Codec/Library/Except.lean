import Mathlib

/-!
# Checks that fail with an error

The vocabulary of code that validates its input step by step: `Except.reject c e` stops with `e`
when `c` holds, `Except.okOr o e` continues with the value of `o` if there is one.  The lemmas read
a successful chain of such steps as the conjunction of what the steps have checked, so that no proof
has to walk through the branches.
-/

set_option autoImplicit false

namespace Except

variable {ε α β : Type}

theorem bind_eq_ok {x : Except ε α} {f : α → Except ε β} {b : β} :
    (x >>= f) = .ok b ↔ ∃ a, x = .ok a ∧ f a = .ok b := by
  cases x with
  | error e => simp [bind, Except.bind]
  | ok a => simp [bind, Except.bind]

theorem bind_eq_error {x : Except ε α} {f : α → Except ε β} {e : ε} :
    (x >>= f) = .error e ↔ x = .error e ∨ ∃ a, x = .ok a ∧ f a = .error e := by
  cases x with
  | error e => simp [bind, Except.bind]
  | ok a => simp [bind, Except.bind]

@[simp] theorem ok_bind (a : α) (f : α → Except ε β) : ((.ok a : Except ε α) >>= f) = f a := rfl

@[simp] theorem error_bind (e : ε) (f : α → Except ε β) :
    ((.error e : Except ε α) >>= f) = .error e := rfl

/-- A loop of successful steps. -/
theorem mapM_eq_ok {f : α → Except ε β} {g : α → β} {l : List α}
    (h : ∀ a ∈ l, f a = .ok (g a)) : l.mapM f = .ok (l.map g) := by
  induction l with
  | nil => rfl
  | cons a l ih =>
    obtain ⟨ha, hl⟩ := List.forall_mem_cons.mp h
    rw [List.mapM_cons, ha, ok_bind, ih hl]
    rfl

/-- The values of a loop stand in the order of its inputs. -/
theorem forall₂_of_mapM_eq_ok {f : α → Except ε β} {l : List α} {bs : List β}
    (h : l.mapM f = .ok bs) : List.Forall₂ (fun a b ↦ f a = .ok b) l bs := by
  induction l generalizing bs with
  | nil =>
    obtain rfl := Except.ok.inj h
    exact .nil
  | cons a l ih =>
    rw [List.mapM_cons, bind_eq_ok] at h
    obtain ⟨b, hb, h⟩ := h
    rw [bind_eq_ok] at h
    obtain ⟨bs', hbs, h⟩ := h
    obtain rfl := Except.ok.inj h
    exact .cons hb (ih hbs)

/-- Stop with `e` if `c` holds. -/
def reject (c : Prop) [Decidable c] (e : ε) : Except ε Unit := if c then .error e else .ok ()

/-- The value, or the error `e` in its absence. -/
def okOr (o : Option α) (e : ε) : Except ε α :=
  match o with
  | some a => .ok a
  | none => .error e

section

variable {c : Prop} [Decidable c] {e e' : ε} {u : Unit} {o : Option α} {a : α}

@[simp] theorem reject_eq_ok : reject c e = .ok u ↔ ¬ c := by
  rw [reject]
  split <;> simp_all

@[simp] theorem reject_eq_error : reject c e = .error e' ↔ c ∧ e = e' := by
  rw [reject]
  split <;> simp_all

theorem reject_of_not (h : ¬ c) : reject c e = .ok () := by rw [reject, if_neg h]

theorem reject_bind_eq_ok {f : Unit → Except ε β} {b : β} :
    (reject c e >>= f) = .ok b ↔ ¬ c ∧ f () = .ok b := by
  rw [reject]
  split <;> simp_all

@[simp] theorem okOr_some : okOr (some a) e = .ok a := rfl

@[simp] theorem okOr_none : okOr (none : Option α) e = .error e := rfl

@[simp] theorem okOr_eq_ok : okOr o e = .ok a ↔ o = some a := by
  cases o <;> simp [okOr]

@[simp] theorem okOr_eq_error : okOr o e = .error e' ↔ o = none ∧ e = e' := by
  cases o <;> simp [okOr]

theorem okOr_bind_eq_ok {f : α → Except ε β} {b : β} :
    (okOr o e >>= f) = .ok b ↔ ∃ a, o = some a ∧ f a = .ok b := by
  simp [bind_eq_ok]

end

end Except
