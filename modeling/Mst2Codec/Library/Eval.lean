import Mst2Codec.Library.Prog

/-!
# Programs with fixed answers

An environment that gives each request the same answer whenever it is asked makes a function of a
program: `eval f p` is what `p` returns if `f` answers.  Only the requests that `p` may make have to
be answered so (`run_of_only`).
-/

set_option autoImplicit false

namespace Prog

variable {ε R : Type} {A : R → Type} {α β σ : Type}

/-- What the program returns if `f` answers its requests. -/
def eval (f : (r : R) → A r) : Prog ε R A α → Except ε α
  | .pure a => .ok a
  | .fail e => .error e
  | .call r k => (k (f r)).eval f

/-- The program makes only requests with `P`. -/
def Only (P : R → Prop) : Prog ε R A α → Prop
  | .pure _ => True
  | .fail _ => True
  | .call r k => P r ∧ ∀ a, (k a).Only P

section

variable {f : (r : R) → A r} {P : R → Prop}

@[simp] theorem eval_pure (a : α) : (Pure.pure a : Prog ε R A α).eval f = .ok a := rfl

@[simp] theorem eval_ofExcept (x : Except ε α) : (ofExcept x : Prog ε R A α).eval f = x := by
  cases x <;> rfl

/-- Two programs in sequence return what the second does with the value of the first. -/
theorem eval_bind (p : Prog ε R A α) (g : α → Prog ε R A β) :
    (p >>= g).eval f = p.eval f >>= fun a ↦ (g a).eval f := by
  induction p with
  | pure a => rfl
  | fail e => rfl
  | call r k ih => exact ih _

theorem only_ofExcept (x : Except ε α) : (ofExcept x : Prog ε R A α).Only P := by
  cases x <;> exact trivial

theorem Only.bind {p : Prog ε R A α} {g : α → Prog ε R A β} (hp : p.Only P)
    (hg : ∀ a, (g a).Only P) : (p >>= g).Only P := by
  induction p with
  | pure a => exact hg a
  | fail e => exact trivial
  | call r k ih => exact ⟨hp.1, fun a ↦ ih a (hp.2 a)⟩

/-- **A run whose requests have fixed answers is an evaluation.** -/
theorem run_of_only {E : Env R A σ} (hE : ∀ r s, P r → (E.answer r s).1 = f r)
    {p : Prog ε R A α} (hp : p.Only P) (s : σ) : (p.run E s).1 = p.eval f := by
  induction p generalizing s with
  | pure a => rfl
  | fail e => rfl
  | call r k ih =>
    show ((k (E.answer r s).1).run E (E.answer r s).2).1 = (k (f r)).eval f
    rw [ih _ (hp.2 _), hE r s hp.1]

end

end Prog
