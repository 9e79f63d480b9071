import Mst2Codec.Library.Prog

/-!
# Requests that stand for programs

A request of one program may stand for a whole program over simpler requests.  `handle body p` puts
`body r` in the place of every request `r` of `p`.  If the environment `E'` answers each request as
its body does over `E`, then `p` runs over `E'` as `handle body p` runs over `E` (`run_handle`), and
whatever is read off the calls of the latter can be read off those of the former
(`filterMap_trace_handle`).  So a program can be stated in steps that its environment does not see.

`Makes p tr x` says that some environment makes `p` issue the calls `tr` and end with `x`.  What
holds of all these runs holds over every environment (`makes_trace`).
-/

set_option autoImplicit false

namespace Prog

variable {ε R R' : Type} {A : R → Type} {A' : R' → Type} {α β σ : Type}

/-! ## Errors as values -/

/-- The outcome of a program, as a value. -/
def attempt : Prog ε R A α → Prog ε R A (Except ε α)
  | .pure a => .pure (.ok a)
  | .fail e => .pure (.error e)
  | .call r k => .call r fun a ↦ (k a).attempt

/-- Continuing with the outcome, errors ending the program, is continuing with the program. -/
theorem attempt_bind_ofExcept (p : Prog ε R A α) (f : α → Prog ε R A β) :
    (p.attempt >>= fun x ↦ ofExcept x >>= f) = p >>= f := by
  induction p with
  | pure a => rfl
  | fail e => rfl
  | call r k ih => exact congrArg (Prog.call r) (funext ih)

theorem run_attempt (E : Env R A σ) (p : Prog ε R A α) (s : σ) :
    p.attempt.run E s = (.ok (p.run E s).1, (p.run E s).2) := by
  induction p generalizing s with
  | pure a => rfl
  | fail e => rfl
  | call r k ih => exact ih _ _

theorem trace_attempt (E : Env R A σ) (p : Prog ε R A α) (s : σ) :
    p.attempt.trace E s = p.trace E s := by
  induction p generalizing s with
  | pure a => rfl
  | fail e => rfl
  | call r k ih => exact congrArg (List.cons _) (ih _ _)

/-! ## Handling requests -/

/-- Put `body r` in the place of every request `r`. -/
def handle (body : (r : R) → Prog ε R' A' (A r)) : Prog ε R A α → Prog ε R' A' α
  | .pure a => .pure a
  | .fail e => .fail e
  | .call r k => (body r).bind fun a ↦ (k a).handle body

section handle

variable {body : (r : R) → Prog ε R' A' (A r)}

theorem handle_bind (p : Prog ε R A α) (f : α → Prog ε R A β) :
    (p >>= f).handle body = p.handle body >>= fun a ↦ (f a).handle body := by
  induction p with
  | pure a => rfl
  | fail e => rfl
  | call r k ih =>
    show (body r).bind _ = ((body r).bind _).bind _
    rw [bind_assoc']
    exact congrArg _ (funext ih)

@[simp] theorem handle_pure (a : α) : (Pure.pure a : Prog ε R A α).handle body = Pure.pure a := rfl

@[simp] theorem handle_ofExcept (x : Except ε α) :
    (ofExcept x : Prog ε R A α).handle body = ofExcept x := by
  cases x <;> rfl

/-- `E'` answers every request as its body does over `E`. -/
def Handles (body : (r : R) → Prog ε R' A' (A r)) (E' : Env R A σ) (E : Env R' A' σ) : Prop :=
  ∀ r s, (body r).run E s = (.ok (E'.answer r s).1, (E'.answer r s).2)

variable {E' : Env R A σ} {E : Env R' A' σ}

/-- **Requests and their bodies lead to the same result.** -/
theorem run_handle (h : Handles body E' E) (p : Prog ε R A α) (s : σ) :
    (p.handle body).run E s = p.run E' s := by
  induction p generalizing s with
  | pure a => rfl
  | fail e => rfl
  | call r k ih =>
    refine (run_bind E (body r) _ s).trans ?_
    rw [h r s]
    exact ih _ _

/-- What is read off the calls of the bodies is read off the requests. -/
theorem filterMap_trace_handle {X : Type} {f : Event R' A' → Option X} {g : Event R A → Option X}
    (h : Handles body E' E)
    (hfg : ∀ r s, ((body r).trace E s).filterMap f = (g ⟨r, (E'.answer r s).1⟩).toList)
    (p : Prog ε R A α) (s : σ) :
    ((p.handle body).trace E s).filterMap f = (p.trace E' s).filterMap g := by
  induction p generalizing s with
  | pure a => rfl
  | fail e => rfl
  | call r k ih =>
    refine (congrArg (List.filterMap f) (trace_bind E (body r) _ s)).trans ?_
    rw [h r s, List.filterMap_append, hfg, ih]
    show _ = List.filterMap g (_ :: _)
    rw [List.filterMap_cons]
    cases g ⟨r, (E'.answer r s).1⟩ <;> rfl

end handle

/-! ## All runs of a program -/

/-- Some environment makes the program issue these calls and end with `x`. -/
def Makes : Prog ε R A α → List (Event R A) → Except ε α → Prop
  | .pure a, tr, x => tr = [] ∧ x = .ok a
  | .fail e, tr, x => tr = [] ∧ x = .error e
  | .call r k, tr, x => ∃ a tr', tr = ⟨r, a⟩ :: tr' ∧ Makes (k a) tr' x

/-- A run over an environment is one of them. -/
theorem makes_trace (E : Env R A σ) (p : Prog ε R A α) (s : σ) :
    Makes p (p.trace E s) (p.run E s).1 := by
  induction p generalizing s with
  | pure a => exact ⟨rfl, rfl⟩
  | fail e => exact ⟨rfl, rfl⟩
  | call r k ih => exact ⟨_, _, rfl, ih _ _⟩

section makes

variable {tr : List (Event R A)}

/-- A run of two programs in sequence ends in the first or goes through it. -/
theorem makes_bind {p : Prog ε R A α} {f : α → Prog ε R A β} {y : Except ε β} :
    Makes (p >>= f) tr y ↔ (∃ e, y = .error e ∧ Makes p tr (.error e)) ∨
      ∃ a tr₁ tr₂, tr = tr₁ ++ tr₂ ∧ Makes p tr₁ (.ok a) ∧ Makes (f a) tr₂ y := by
  induction p generalizing tr with
  | pure a =>
    constructor
    · exact fun h ↦ .inr ⟨a, [], tr, rfl, ⟨rfl, rfl⟩, h⟩
    · rintro (⟨e, -, -, h⟩ | ⟨a', tr₁, tr₂, rfl, ⟨rfl, ha⟩, h⟩)
      · cases h
      · obtain rfl := Except.ok.inj ha
        exact h
  | fail e =>
    constructor
    · rintro ⟨rfl, rfl⟩
      exact .inl ⟨e, rfl, rfl, rfl⟩
    · rintro (⟨e', rfl, rfl, h⟩ | ⟨a, tr₁, tr₂, -, ⟨-, ha⟩, -⟩)
      · exact ⟨rfl, by rw [Except.error.inj h]⟩
      · cases ha
  | call r k ih =>
    constructor
    · rintro ⟨a, tr, rfl, h⟩
      rcases (ih a).mp h with ⟨e, rfl, h'⟩ | ⟨b, tr₁, tr₂, rfl, h₁, h₂⟩
      · exact .inl ⟨e, rfl, a, tr, rfl, h'⟩
      · exact .inr ⟨b, _, tr₂, rfl, ⟨a, tr₁, rfl, h₁⟩, h₂⟩
    · rintro (⟨e, rfl, a, tr, rfl, h⟩ | ⟨b, _, tr₂, rfl, ⟨a, tr₁, rfl, h₁⟩, h₂⟩)
      · exact ⟨a, tr, rfl, (ih a).mpr (.inl ⟨e, rfl, h⟩)⟩
      · exact ⟨a, _, rfl, (ih a).mpr (.inr ⟨b, tr₁, tr₂, rfl, h₁, h₂⟩)⟩

end makes

end Prog
