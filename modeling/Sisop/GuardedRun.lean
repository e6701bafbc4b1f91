import Mathlib.Algebra.Order.BigOperators.Group.Finset

/-!
# Guarded runs of a partial transition function

`RunsTo next ok init s` says that `s` is reached from `init` by steps that all satisfy the guard
`ok`, a condition on the state before the step. An invariant is shown once for one guarded step.
A deterministic abstract machine simulates the runs when it can match every guarded step by some
number of its own steps, possibly none.
-/

namespace Sisop

variable {σ α τ : Type*}

inductive RunsTo (next : σ → α → Option σ) (ok : σ → α → Prop) (init : σ) : σ → Prop
  | start : RunsTo next ok init init
  | step {s s' : σ} (a : α) : RunsTo next ok init s → ok s a → next s a = some s' →
      RunsTo next ok init s'

/-- A run with the states it has passed, the latest one first. -/
inductive RunsThrough (next : σ → α → Option σ) (ok : σ → α → Prop) (init : σ) :
    List σ → σ → Prop
  | start : RunsThrough next ok init [] init
  | step {before : List σ} {s s' : σ} (a : α) : RunsThrough next ok init before s → ok s a →
      next s a = some s' → RunsThrough next ok init (s :: before) s'

/-- A run along a given list of actions; every guard is checked. -/
def follow (next : σ → α → Option σ) (ok : σ → α → Bool) : σ → List α → Option σ
  | s, [] => some s
  | s, a :: as => if ok s a then (next s a).bind (fun s' => follow next ok s' as) else none

def iterateStep (step : τ → Option τ) : ℕ → τ → Option τ
  | 0, t => some t
  | n + 1, t => (iterateStep step n t).bind step

namespace RunsTo

variable {next : σ → α → Option σ} {ok ok' : σ → α → Prop} {init : σ}

theorem invariant {P : σ → Prop} (hinit : P init)
    (hstep : ∀ s a s', P s → ok s a → next s a = some s' → P s') {s : σ}
    (h : RunsTo next ok init s) : P s := by
  induction h with
  | start => exact hinit
  | step a _ hok hnext ih => exact hstep _ a _ ih hok hnext

theorem through {s : σ} (h : RunsTo next ok init s) :
    ∃ before, RunsThrough next ok init before s := by
  induction h with
  | start => exact ⟨[], .start⟩
  | step a _ hok hnext ih =>
    obtain ⟨before, hbefore⟩ := ih
    exact ⟨_, hbefore.step a hok hnext⟩

theorem mono (hok : ∀ s a, ok s a → ok' s a) {s : σ} (h : RunsTo next ok init s) :
    RunsTo next ok' init s := by
  induction h with
  | start => exact start
  | step a _ ha hnext ih => exact ih.step a (hok _ a ha) hnext

theorem of_follow_from {check : σ → α → Bool} (hcheck : ∀ s a, check s a = true → ok s a)
    (actions : List α) {s s' : σ} (hs : RunsTo next ok init s)
    (h : follow next check s actions = some s') : RunsTo next ok init s' := by
  induction actions generalizing s with
  | nil =>
    obtain rfl := Option.some.inj h
    exact hs
  | cons a as ih =>
    simp only [follow] at h
    split_ifs at h with ha
    obtain ⟨s₁, hnext, hrest⟩ := Option.bind_eq_some_iff.mp h
    exact ih (hs.step a (hcheck _ _ ha) hnext) hrest

theorem of_follow {check : σ → α → Bool} (hcheck : ∀ s a, check s a = true → ok s a)
    (actions : List α) {s : σ} (h : follow next check init actions = some s) :
    RunsTo next ok init s := of_follow_from hcheck actions start h

/-- A deterministic machine that matches every guarded step follows every guarded run. -/
theorem simulated {step : τ → Option τ} {R : σ → τ → Prop} {t₀ : τ} (hinit : R init t₀)
    (hstep : ∀ s a s' t, R s t → ok s a → next s a = some s' →
      ∃ k t', iterateStep step k t = some t' ∧ R s' t') {s : σ} (h : RunsTo next ok init s) :
    ∃ n t, iterateStep step n t₀ = some t ∧ R s t := by
  have hadd : ∀ (k n : ℕ) (t t' : τ), iterateStep step n t₀ = some t →
      iterateStep step k t = some t' → iterateStep step (n + k) t₀ = some t' := by
    intro k
    induction k with
    | zero =>
      intro n t t' hn hk
      obtain rfl := Option.some.inj hk
      exact hn
    | succ k ih =>
      intro n t t' hn hk
      obtain ⟨t₁, hk₁, ht₁⟩ := Option.bind_eq_some_iff.mp hk
      exact Option.bind_eq_some_iff.mpr ⟨t₁, ih n t t₁ hn hk₁, ht₁⟩
  induction h with
  | start => exact ⟨0, t₀, rfl, hinit⟩
  | step a _ hok hnext ih =>
    obtain ⟨n, t, hn, hR⟩ := ih
    obtain ⟨k, t', hk, hR'⟩ := hstep _ a _ t hR hok hnext
    exact ⟨n + k, t', hadd k n t t' hn hk, hR'⟩

end RunsTo

namespace RunsThrough

variable {next : σ → α → Option σ} {ok : σ → α → Prop} {init : σ}

theorem runsTo {before : List σ} {s : σ} (h : RunsThrough next ok init before s) :
    RunsTo next ok init s := by
  induction h with
  | start => exact .start
  | step a _ hok hnext ih => exact ih.step a hok hnext

/-- An invariant that may speak of the states passed. -/
theorem invariant {P : List σ → σ → Prop} (hinit : P [] init)
    (hstep : ∀ before s a s', RunsThrough next ok init before s → P before s → ok s a →
      next s a = some s' → P (s :: before) s') {before : List σ} {s : σ}
    (h : RunsThrough next ok init before s) : P before s := by
  induction h with
  | start => exact hinit
  | step a hrun hok hnext ih => exact hstep _ _ a _ hrun ih hok hnext

end RunsThrough
end Sisop
