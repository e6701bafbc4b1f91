import Sisop.GuardedRun
import Sisop.Programs

/-!
# Programs that a machine carries out

A machine carries a program out when it comes to a matching state for every result. A program that
still runs when its rounds are used up has to be one that the machine takes as many steps for: a
program that runs on with any number of rounds is then a machine that never stops.
-/

namespace Sisop

universe u v

variable {μ : Type u} {β γ : Type v} {τ : Type*} {step : τ → Option τ} {n k : ℕ} {a b c : τ}

theorem iterateStep_add (step : τ → Option τ) (n k : ℕ) (a : τ) :
    iterateStep step (n + k) a = (iterateStep step n a).bind (iterateStep step k) := by
  induction k with
  | zero => exact (Option.bind_fun_some _).symm
  | succ k ih =>
    rw [← Nat.add_assoc, iterateStep, ih, Option.bind_assoc]
    rfl

theorem iterateStep_trans (h : iterateStep step n a = some b) (h' : iterateStep step k b = some c) :
    iterateStep step (n + k) a = some c := by
  rw [iterateStep_add, h]
  exact h'

/-- What a run passes is on the way to where it comes. -/
theorem iterateStep_of_le (hle : k ≤ n) (h : iterateStep step n a = some b) :
    ∃ c, iterateStep step k a = some c ∧ iterateStep step (n - k) c = some b := by
  rw [← Nat.add_sub_of_le hle, iterateStep_add] at h
  exact Option.bind_eq_some_iff.mp h

theorem iterateStep_isSome_of_le (hle : k ≤ n) (h : (iterateStep step n a).isSome) :
    (iterateStep step k a).isSome := by
  obtain ⟨b, hb⟩ := Option.isSome_iff_exists.mp h
  obtain ⟨c, hc, -⟩ := iterateStep_of_le hle hb
  exact Option.isSome_of_eq_some hc

/-- Nothing comes behind a state without a successor. -/
theorem le_of_stuck (h : iterateStep step n a = some b) (hb : step b = none)
    (h' : iterateStep step k a = some c) : k ≤ n := by
  by_contra hlt
  have hnext : (iterateStep step (n + 1) a).isSome :=
    iterateStep_isSome_of_le (not_le.mp hlt) (Option.isSome_of_eq_some h')
  rw [iterateStep, h, Option.bind_some, hb] at hnext
  cases hnext

/-- The program never stops for want of rounds. -/
def Loopless (p : Program μ β) : Prop := ∀ s, p s ≠ .error .running

namespace Loopless

variable {p : Program μ β} {f : β → Program μ γ}

theorem pure (x : β) : Loopless (pure x : Program μ β) := fun _ h => by cases h

theorem of_step (g : μ → Option (β × μ)) : Loopless (Program.step g) := by
  intro s
  cases hg : g s with
  | none =>
    rw [step_of_none hg]
    exact fun h => by cases h
  | some r =>
    rw [step_of_some hg]
    exact fun h => by cases h

theorem bind (hp : Loopless p) (hf : ∀ x, Loopless (f x)) : Loopless (p >>= f) := by
  intro s
  cases hr : p s with
  | ok r =>
    rw [bind_of_ok hr]
    exact hf r.1 r.2
  | error reason =>
    rw [bind_of_error hr]
    rintro ⟨⟩
    exact hp s hr

end Loopless

def CarriesOut (step : τ → Option τ) (a : τ) (rounds : ℕ) (r : Except Stop (β × μ))
    (Q : β → μ → τ → Prop) : Prop :=
  match r with
  | .ok (x, s) => ∃ n b, iterateStep step n a = some b ∧ Q x s b
  | .error .running => ∃ n, rounds ≤ n ∧ (iterateStep step n a).isSome
  | .error .fault => True

namespace CarriesOut

variable {rounds : ℕ} {r : Except Stop (β × μ)} {Q : β → μ → τ → Prop} {R : γ → μ → τ → Prop}
  {p : Program μ β} {f : β → Program μ γ} {s : μ}

theorem of_ok {x : β} {s : μ} (h : Q x s a) : CarriesOut step a rounds (.ok (x, s)) Q :=
  ⟨0, a, rfl, h⟩

theorem of_fault : CarriesOut step a rounds (.error .fault) Q := trivial

theorem of_running : CarriesOut step a 0 (.error .running) Q := ⟨0, Nat.le_refl 0, rfl⟩

theorem after (h : iterateStep step (1 + k) a = some b) (hr : CarriesOut step b rounds r Q) :
    CarriesOut step a (rounds + 1) r Q := by
  cases r with
  | ok r =>
    obtain ⟨n, c, hc, hQ⟩ := hr
    exact ⟨1 + k + n, c, iterateStep_trans h hc, hQ⟩
  | error reason =>
    cases reason with
    | fault => trivial
    | running =>
      obtain ⟨n, hn, hsome⟩ := hr
      obtain ⟨c, hc⟩ := Option.isSome_iff_exists.mp hsome
      exact ⟨1 + k + n, by omega, Option.isSome_of_eq_some (iterateStep_trans h hc)⟩

theorem mono {rounds' : ℕ} (hr : CarriesOut step a rounds r Q) (hle : rounds' ≤ rounds) :
    CarriesOut step a rounds' r Q := by
  cases r with
  | ok r => exact hr
  | error reason =>
    cases reason with
    | fault => trivial
    | running =>
      obtain ⟨n, hn, hsome⟩ := hr
      exact ⟨n, hle.trans hn, hsome⟩

theorem bind (hp : CarriesOut step a rounds (p s) Q)
    (hf : ∀ x s' b, Q x s' b → CarriesOut step b rounds (f x s') R) :
    CarriesOut step a rounds ((p >>= f) s) R := by
  cases hr : p s with
  | ok r =>
    rw [hr] at hp
    obtain ⟨n, b, hb, hQ⟩ := hp
    rw [bind_of_ok hr]
    have hrest := hf r.1 r.2 b hQ
    cases n with
    | zero =>
      cases hb
      exact hrest
    | succ n => exact (hrest.after (k := n) (by rw [Nat.add_comm]; exact hb)).mono (Nat.le_succ _)
  | error reason =>
    rw [bind_of_error hr]
    rw [hr] at hp
    cases reason with
    | fault => trivial
    | running => exact hp

theorem bind_of_loopless (hp : Loopless p)
    (hf : ∀ x s', p s = .ok (x, s') → CarriesOut step a rounds (f x s') R) :
    CarriesOut step a rounds ((p >>= f) s) R := by
  cases hr : p s with
  | ok r =>
    rw [bind_of_ok hr]
    exact hf r.1 r.2 hr
  | error reason =>
    rw [bind_of_error hr]
    cases reason with
    | fault => trivial
    | running => exact absurd hr (hp s)

end CarriesOut

end Sisop
