import Mathlib.Logic.Basic
import Mathlib.Tactic.Common

/-!
# Programs with a state that may stop

A program has a result and a new state, or it stops: at a fault, or because the rounds allowed to
its loops are used up. `Ends p s Q` says that `p`, started in `s`, has a result and that `Q` holds
of it and of the state reached; the rules follow the way a program is put together. A program with
loops takes the rounds as an argument and is monotone when more rounds never change a result.
-/

namespace Sisop

universe u v

variable {μ : Type u} {β γ : Type v}

inductive Stop where
  | fault
  | running
  deriving DecidableEq, Repr

/-- A program over states in `μ` with results in `β`. -/
def Program (μ : Type u) (β : Type v) : Type (max u v) := μ → Except Stop (β × μ)

namespace Program

def ret (x : β) : Program μ β := fun s => .ok (x, s)

def andThen (p : Program μ β) (f : β → Program μ γ) : Program μ γ := fun s =>
  match p s with
  | .ok (x, s') => f x s'
  | .error stop => .error stop

instance : Monad (Program μ) where
  pure := ret
  bind := andThen

def stop (reason : Stop) : Program μ β := fun _ => .error reason

/-- A result and a new state read off the state, or none. -/
def step (f : μ → Option (β × μ)) : Program μ β := fun s =>
  match f s with
  | some r => .ok r
  | none => .error .fault

def giving (p : Program μ β) (f : β → γ) : Program μ γ := do
  let x ← p
  return f x

end Program

variable {p : Program μ β} {f : β → Program μ γ} {s : μ}

@[simp] theorem pure_apply (x : β) (s : μ) : (pure x : Program μ β) s = .ok (x, s) := rfl

theorem step_of_some {g : μ → Option (β × μ)} {r : β × μ} (h : g s = some r) :
    Program.step g s = .ok r := by
  rw [Program.step, h]

theorem step_of_none {g : μ → Option (β × μ)} (h : g s = none) :
    Program.step g s = .error .fault := by
  rw [Program.step, h]

theorem bind_of_ok {x : β} {s' : μ} (h : p s = .ok (x, s')) : (p >>= f) s = f x s' := by
  change Program.andThen p f s = f x s'
  rw [Program.andThen, h]

theorem bind_of_error {reason : Stop} (h : p s = .error reason) :
    (p >>= f) s = .error reason := by
  change Program.andThen p f s = .error reason
  rw [Program.andThen, h]

theorem giving_of_ok {x : β} {s' : μ} {g : β → γ} (h : p s = .ok (x, s')) :
    p.giving g s = .ok (g x, s') := by
  rw [Program.giving, bind_of_ok h]
  rfl

theorem giving_of_error {reason : Stop} {g : β → γ} (h : p s = .error reason) :
    p.giving g s = .error reason := by
  rw [Program.giving, bind_of_error h]

theorem bind_eq_ok {r : γ × μ} (h : (p >>= f) s = .ok r) :
    ∃ x s', p s = .ok (x, s') ∧ f x s' = .ok r := by
  cases hp : p s with
  | ok y => exact ⟨y.1, y.2, rfl, (bind_of_ok hp).symm.trans h⟩
  | error reason =>
    rw [bind_of_error hp] at h
    cases h

/-- The program has a result, and `Q` holds of it. -/
def Ends (p : Program μ β) (s : μ) (Q : β → μ → Prop) : Prop :=
  ∃ x s', p s = .ok (x, s') ∧ Q x s'

section Ends

variable {Q Q' : β → μ → Prop} {R : γ → μ → Prop}

theorem Ends.of_ok {x : β} {s' : μ} (h : p s = .ok (x, s')) (hQ : Q x s') : Ends p s Q :=
  ⟨x, s', h, hQ⟩

theorem Ends.pure {x : β} (h : Q x s) : Ends (pure x) s Q := .of_ok rfl h

theorem Ends.mono (h : Ends p s Q) (hQ : ∀ x s', Q x s' → Q' x s') : Ends p s Q' := by
  obtain ⟨x, s', hp, hx⟩ := h
  exact ⟨x, s', hp, hQ x s' hx⟩

theorem Ends.bind (h : Ends p s Q) (hf : ∀ x s', Q x s' → Ends (f x) s' R) :
    Ends (p >>= f) s R := by
  obtain ⟨x, s', hp, hx⟩ := h
  obtain ⟨y, s'', hy, hR⟩ := hf x s' hx
  exact ⟨y, s'', (bind_of_ok hp).trans hy, hR⟩

theorem Ends.bind_of_ok {x : β} {s' : μ} (h : p s = .ok (x, s')) (hf : Ends (f x) s' R) :
    Ends (p >>= f) s R :=
  Ends.bind (Q := fun y t => y = x ∧ t = s') (.of_ok h ⟨rfl, rfl⟩) fun y t hyt => by
    rw [hyt.1, hyt.2]
    exact hf

theorem Ends.giving {g : β → γ} (h : Ends p s Q) (hg : ∀ x s', Q x s' → R (g x) s') :
    Ends (p.giving g) s R :=
  h.bind fun x s' hx => Ends.pure (hg x s' hx)

end Ends

/-- The outcome is `x` under the condition `P` and a fault without it. -/
structure Settles (r : Except Stop β) (P : Prop) (x : β) : Prop where
  result : P → r = .ok x
  fault : ¬P → r = .error .fault

/-- The program leaves the state as it is, and its outcome is settled. -/
def Inspects (p : Program μ β) (s : μ) (P : Prop) (x : β) : Prop := Settles (p s) P (x, s)

section Settles

variable {P Q : Prop} {x : β} {y : γ} {r : Except Stop β}

theorem Settles.pure (x : β) : Settles (.ok x) True x :=
  ⟨fun _ => rfl, fun h => absurd trivial h⟩

theorem Settles.bind {g : β → Except Stop γ} (hr : Settles r P x) (hg : Settles (g x) Q y) :
    Settles (r >>= g) (P ∧ Q) y := by
  constructor
  · rintro ⟨hP, hQ⟩
    rw [hr.result hP]
    exact hg.result hQ
  · intro hnot
    by_cases hP : P
    · rw [hr.result hP]
      exact hg.fault fun hQ => hnot ⟨hP, hQ⟩
    · rw [hr.fault hP]
      rfl

theorem Settles.map (hr : Settles r P x) (g : β → γ) : Settles (r.map g) P (g x) := by
  constructor
  · intro hP
    rw [hr.result hP]
    rfl
  · intro hnot
    rw [hr.fault hnot]
    rfl

theorem Settles.of_iff (h : Settles r P x) (hPQ : P ↔ Q) : Settles r Q x :=
  ⟨fun hQ => h.result (hPQ.mpr hQ), fun hQ => h.fault fun hP => hQ (hPQ.mp hP)⟩

theorem Inspects.pure (x : β) (s : μ) : Inspects (pure x) s True x := Settles.pure (x, s)

theorem Inspects.bind (hp : Inspects p s P x) (hf : Inspects (f x) s Q y) :
    Inspects (p >>= f) s (P ∧ Q) y := by
  constructor
  · rintro ⟨hP, hQ⟩
    exact (bind_of_ok (hp.result hP)).trans (hf.result hQ)
  · intro hnot
    by_cases hP : P
    · exact (bind_of_ok (hp.result hP)).trans (hf.fault fun hQ => hnot ⟨hP, hQ⟩)
    · exact bind_of_error (hp.fault hP)

end Settles

/-- More rounds never change a result. -/
def Stable (loop : ℕ → Program μ β) : Prop :=
  ∀ rounds s r, loop rounds s = .ok r → loop (rounds + 1) s = .ok r

namespace Stable

theorem const (p : Program μ β) : Stable fun _ => p := fun _ _ _ h => h

theorem bind {loop : ℕ → Program μ β} {next : ℕ → β → Program μ γ} (hloop : Stable loop)
    (hnext : ∀ x, Stable fun rounds => next rounds x) :
    Stable fun rounds => loop rounds >>= next rounds := by
  intro rounds s r h
  obtain ⟨x, s', hx, hr⟩ := bind_eq_ok h
  exact (bind_of_ok (hloop rounds s _ hx)).trans (hnext x rounds s' r hr)

theorem giving {loop : ℕ → Program μ β} (h : Stable loop) (g : β → γ) :
    Stable fun rounds => (loop rounds).giving g :=
  h.bind fun x => .const (pure (g x))

theorem add {loop : ℕ → Program μ β} (h : Stable loop) {rounds : ℕ} {r : β × μ}
    (hr : loop rounds s = .ok r) (more : ℕ) : loop (rounds + more) s = .ok r := by
  induction more with
  | zero => exact hr
  | succ more ih => exact h _ _ _ ih

/-- With any two numbers of rounds that yield a result it is the same one. -/
theorem unique {loop : ℕ → Program μ β} (h : Stable loop) {rounds rounds' : ℕ} {r r' : β × μ}
    (hr : loop rounds s = .ok r) (hr' : loop rounds' s = .ok r') : r = r' := by
  have hmore := h.add hr rounds'
  rw [Nat.add_comm, h.add hr' rounds] at hmore
  exact (Except.ok.inj hmore).symm

end Stable

end Sisop
