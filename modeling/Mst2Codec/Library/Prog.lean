import Mathlib

/-!
# Programs that call an environment

`Prog ε R A α` is a program that issues requests `r : R`, receives answers in `A r`, and ends in a
value or in an error.  Nothing is said about who answers: an `Env` does, with a state of its own,
and `Prog.run` and `Prog.trace` are what the program returns and which calls it made.

Programs are reasoned about against a `Spec`: over a ghost state, which requests may be made, and
how each may be answered.  `Ensures S p h Q` says that however the environment answers within `S`,
the program makes only such requests and ends with `Q`.  There is one rule for each way to build a
program (`ensures_bind` is the important one), and `Ensures.run` carries the conclusion to every
concrete environment whose answers *in this run* are within the specification.  Only the calls that
were made count, which is what lets a specification assume something about the answers, for
instance that no two of them collide under a hash.
-/

set_option autoImplicit false

/-- A program with errors `ε` that makes requests `R`, answered in `A`. -/
inductive Prog (ε R : Type) (A : R → Type) (α : Type) : Type where
  /-- Return a value. -/
  | pure (a : α)
  /-- Stop with an error. -/
  | fail (e : ε)
  /-- Make a request and go on with the answer. -/
  | call (r : R) (k : A r → Prog ε R A α)

/-- What answers a program's requests: a machine with a state of its own. -/
structure Env (R : Type) (A : R → Type) (σ : Type) where
  /-- The answer to a request, and the state it leaves. -/
  answer : (r : R) → σ → A r × σ

/-- A request with its answer. -/
abbrev Event (R : Type) (A : R → Type) := (r : R) × A r

namespace Prog

variable {ε R : Type} {A : R → Type} {α β σ η : Type}

/-- Run the first program and feed its value to the second. -/
def bind : Prog ε R A α → (α → Prog ε R A β) → Prog ε R A β
  | .pure a, f => f a
  | .fail e, _ => .fail e
  | .call r k, f => .call r fun a ↦ (k a).bind f

instance : Monad (Prog ε R A) where
  pure := Prog.pure
  bind := Prog.bind

@[simp] theorem pure_bind' (a : α) (f : α → Prog ε R A β) : (Pure.pure a >>= f) = f a := rfl

@[simp] theorem fail_bind (e : ε) (f : α → Prog ε R A β) :
    ((Prog.fail e : Prog ε R A α) >>= f) = .fail e := rfl

@[simp] theorem call_bind (r : R) (k : A r → Prog ε R A α) (f : α → Prog ε R A β) :
    (Prog.call r k >>= f) = .call r fun a ↦ k a >>= f := rfl

theorem bind_pure' (p : Prog ε R A α) : p.bind Prog.pure = p := by
  induction p with
  | pure a => rfl
  | fail e => rfl
  | call r k ih => exact congrArg (Prog.call r) (funext ih)

theorem bind_assoc' {γ : Type} (p : Prog ε R A α) (f : α → Prog ε R A β) (g : β → Prog ε R A γ) :
    (p.bind f).bind g = p.bind fun a ↦ (f a).bind g := by
  induction p with
  | pure a => rfl
  | fail e => rfl
  | call r k ih => exact congrArg (Prog.call r) (funext ih)

instance : LawfulMonad (Prog ε R A) :=
  LawfulMonad.mk' (Prog ε R A) bind_pure' (fun _ _ ↦ rfl) bind_assoc'

/-- Continue with the value of a computation that makes no calls. -/
def ofExcept : Except ε α → Prog ε R A α
  | .ok a => .pure a
  | .error e => .fail e

@[simp] theorem ofExcept_ok (a : α) : (ofExcept (.ok a) : Prog ε R A α) = .pure a := rfl

@[simp] theorem ofExcept_error (e : ε) : (ofExcept (.error e) : Prog ε R A α) = .fail e := rfl

/-! ## Running against an environment -/

/-- What the program returns, and the state it leaves the environment in. -/
def run (E : Env R A σ) : Prog ε R A α → σ → Except ε α × σ
  | .pure a, s => (.ok a, s)
  | .fail e, s => (.error e, s)
  | .call r k, s => run E (k (E.answer r s).1) (E.answer r s).2

/-- The calls the program makes, in order. -/
def trace (E : Env R A σ) : Prog ε R A α → σ → List (Event R A)
  | .pure _, _ => []
  | .fail _, _ => []
  | .call r k, s => ⟨r, (E.answer r s).1⟩ :: trace E (k (E.answer r s).1) (E.answer r s).2

theorem run_bind (E : Env R A σ) (p : Prog ε R A α) (f : α → Prog ε R A β) (s : σ) :
    run E (p >>= f) s = match run E p s with
      | (.ok a, s') => run E (f a) s'
      | (.error e, s') => (.error e, s') := by
  induction p generalizing s with
  | pure a => rfl
  | fail e => rfl
  | call r k ih => exact ih _ _

theorem trace_bind (E : Env R A σ) (p : Prog ε R A α) (f : α → Prog ε R A β) (s : σ) :
    trace E (p >>= f) s = trace E p s ++ match run E p s with
      | (.ok a, s') => trace E (f a) s'
      | (.error _, _) => [] := by
  induction p generalizing s with
  | pure a => rfl
  | fail e => rfl
  | call r k ih =>
    show _ :: trace E (k _ >>= f) _ = _ :: _ ++ _
    rw [ih]
    rfl

/-! ## Specifications -/

/-- A specification of environments, over a ghost state. -/
structure Spec (R : Type) (A : R → Type) (η : Type) where
  /-- The requests that may be made. -/
  pre : η → R → Prop
  /-- The answers they may have, and the ghost state afterwards. -/
  post : η → (r : R) → A r → η → Prop

/-- However the environment answers within `S`, the program makes only requests that `S` allows and
ends with `Q`. -/
def Ensures (S : Spec R A η) : Prog ε R A α → η → (Except ε α → η → Prop) → Prop
  | .pure a, h, Q => Q (.ok a) h
  | .fail e, h, Q => Q (.error e) h
  | .call r k, h, Q => S.pre h r ∧ ∀ a h', S.post h r a h' → Ensures S (k a) h' Q

variable {S : Spec R A η} {h : η} {Q Q' : Except ε α → η → Prop}

@[simp] theorem ensures_pure {a : α} :
    Ensures S (Pure.pure a : Prog ε R A α) h Q ↔ Q (.ok a) h := Iff.rfl

@[simp] theorem ensures_fail {e : ε} :
    Ensures S (.fail e : Prog ε R A α) h Q ↔ Q (.error e) h := Iff.rfl

theorem Ensures.mono {p : Prog ε R A α} (hp : Ensures S p h Q) (hQ : ∀ x h', Q x h' → Q' x h') :
    Ensures S p h Q' := by
  induction p generalizing h with
  | pure a => exact hQ _ _ hp
  | fail e => exact hQ _ _ hp
  | call r k ih => exact ⟨hp.1, fun a h' ha ↦ ih a (hp.2 a h' ha)⟩

/-- The rule for sequencing: the second program starts from what the first ends with. -/
theorem ensures_bind {p : Prog ε R A α} {f : α → Prog ε R A β} {Q : Except ε β → η → Prop} :
    Ensures S (p >>= f) h Q ↔ Ensures S p h fun x h' ↦ match x with
      | .ok a => Ensures S (f a) h' Q
      | .error e => Q (.error e) h' := by
  induction p generalizing h with
  | pure a => exact Iff.rfl
  | fail e => exact Iff.rfl
  | call r k ih =>
    exact and_congr_right fun _ ↦ forall_congr' fun a ↦ forall_congr' fun h' ↦
      imp_congr_right fun _ ↦ ih a

/-! ## From specifications to runs -/

/-- The ghost state moves along a list of calls. -/
inductive Steps (S : Spec R A η) : η → List (Event R A) → η → Prop
  | nil {h : η} : Steps S h [] h
  | cons {h h' h'' : η} {r : R} {a : A r} {tr : List (Event R A)} (hstep : S.post h r a h')
      (htail : Steps S h' tr h'') : Steps S h (⟨r, a⟩ :: tr) h''

/-- **A specification transfers to a run.**  `abs` relates the states of a concrete environment to
ghost states; it has to be kept only by those answers that satisfy `ok`, and only the answers of
this run have to satisfy `ok`. -/
theorem Ensures.run {E : Env R A σ} (abs : σ → η → Prop) (ok : Event R A → Prop)
    (hsim : ∀ s h r, abs s h → S.pre h r → ok ⟨r, (E.answer r s).1⟩ →
      ∃ h', S.post h r (E.answer r s).1 h' ∧ abs (E.answer r s).2 h')
    {p : Prog ε R A α} {s : σ} (hp : Ensures S p h Q) (hs : abs s h)
    (hok : ∀ e ∈ trace E p s, ok e) :
    ∃ h', Q (run E p s).1 h' ∧ abs (run E p s).2 h' ∧ Steps S h (trace E p s) h' := by
  induction p generalizing h s with
  | pure a => exact ⟨h, hp, hs, .nil⟩
  | fail e => exact ⟨h, hp, hs, .nil⟩
  | call r k ih =>
    obtain ⟨h₁, hstep, hs₁⟩ := hsim s h r hs hp.1 (hok _ (List.mem_cons_self ..))
    obtain ⟨h₂, hQ, hs₂, htail⟩ := ih _ (hp.2 _ _ hstep) hs₁
      fun e he ↦ hok e (List.mem_cons_of_mem _ he)
    exact ⟨h₂, hQ, hs₂, .cons hstep htail⟩

end Prog
