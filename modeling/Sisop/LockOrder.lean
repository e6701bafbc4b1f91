import Mathlib.Algebra.Order.BigOperators.Group.Finset

/-!
# Locks taken in a fixed order

Every mutex has a rank, and a thread asks for a mutex only while all those it holds have smaller
ranks. Then no thread asks for a mutex it holds, and no cycle of threads waits, each for a mutex
the next one holds. `lockRun` follows the locks a list of operations takes and gives back, and
has a result only when the order is kept.
-/

namespace Sisop

variable {μ τ : Type*}

inductive LockAction (μ : Type*) where
  | lock (m : μ)
  | unlock (m : μ)
  | other
  deriving DecidableEq

def lockRun [DecidableEq μ] (rank : μ → ℕ) : List μ → List (LockAction μ) → Option (List μ)
  | held, [] => some held
  | held, .lock m :: actions =>
    if ∀ h ∈ held, rank h < rank m then lockRun rank (m :: held) actions else none
  | held, .unlock m :: actions =>
    if m ∈ held then lockRun rank (held.erase m) actions else none
  | held, .other :: actions => lockRun rank held actions

theorem lockRun_append [DecidableEq μ] (rank : μ → ℕ) (held : List μ)
    (actions₁ actions₂ : List (LockAction μ)) :
    lockRun rank held (actions₁ ++ actions₂) =
      (lockRun rank held actions₁).bind fun held' => lockRun rank held' actions₂ := by
  induction actions₁ generalizing held with
  | nil => rfl
  | cons action actions₁ ih =>
    cases action with
    | lock m =>
      simp only [List.cons_append, lockRun]
      split_ifs with h
      · exact ih _
      · rfl
    | unlock m =>
      simp only [List.cons_append, lockRun]
      split_ifs with h
      · exact ih _
      · rfl
    | other => exact ih held

theorem lockRun_of_other [DecidableEq μ] (rank : μ → ℕ) (held : List μ)
    {actions : List (LockAction μ)} (h : ∀ action ∈ actions, action = .other) :
    lockRun rank held actions = some held := by
  induction actions with
  | nil => rfl
  | cons action actions ih =>
    rw [h action List.mem_cons_self]
    exact ih fun action' hmem => h action' (List.mem_cons_of_mem _ hmem)

/-- The thread owns a set of mutexes from which its actions lead, in order, to `target`. -/
def Follows [DecidableEq μ] (rank : μ → ℕ) (owner : μ → Option τ) (t : τ)
    (actions : List (LockAction μ)) (target : List μ) : Prop :=
  ∃ held : List μ, held.Nodup ∧ (∀ m, m ∈ held ↔ owner m = some t) ∧
    lockRun rank held actions = some target

section Follows

variable [DecidableEq μ] {rank : μ → ℕ} {owner : μ → Option τ} {t u : τ} {m : μ}
  {actions : List (LockAction μ)} {target target' : List μ}

theorem Follows.ahead (h : Follows rank owner t (.lock m :: actions) target) {m' : μ}
    (howner : owner m' = some t) : rank m' < rank m := by
  obtain ⟨held, -, hheld, hrun⟩ := h
  simp only [lockRun] at hrun
  split_ifs at hrun with hrank
  exact hrank m' ((hheld m').mpr howner)

theorem Follows.lock (h : Follows rank owner t (.lock m :: actions) target)
    (hfree : owner m = none) :
    Follows rank (Function.update owner m (some t)) t actions target := by
  obtain ⟨held, hnodup, hheld, hrun⟩ := h
  simp only [lockRun] at hrun
  split_ifs at hrun with hrank
  refine ⟨m :: held, List.nodup_cons.mpr ⟨?_, hnodup⟩, fun m' => ?_, hrun⟩
  · intro hmem
    rw [(hheld m).mp hmem] at hfree
    cases hfree
  · by_cases heq : m' = m
    · simp [heq]
    · simp [heq, hheld]

theorem Follows.unlock (h : Follows rank owner t (.unlock m :: actions) target) :
    Follows rank (Function.update owner m none) t actions target := by
  obtain ⟨held, hnodup, hheld, hrun⟩ := h
  simp only [lockRun] at hrun
  split_ifs at hrun with hmem
  refine ⟨held.erase m, hnodup.erase m, fun m' => ?_, hrun⟩
  rw [hnodup.mem_erase_iff, hheld]
  by_cases heq : m' = m
  · simp [heq]
  · simp [heq]

theorem Follows.other (h : Follows rank owner t (.other :: actions) target) :
    Follows rank owner t actions target := h

/-- Another thread takes a mutex nobody holds, or gives back one it holds. -/
theorem Follows.update (h : Follows rank owner u actions target) {o : Option τ}
    (hbefore : owner m ≠ some u) (hafter : o ≠ some u) :
    Follows rank (Function.update owner m o) u actions target := by
  obtain ⟨held, hnodup, hheld, hrun⟩ := h
  refine ⟨held, hnodup, fun m' => ?_, hrun⟩
  by_cases heq : m' = m
  · subst heq
    simp [hheld, hbefore, hafter]
  · simp [heq, hheld]

/-- A thread with nothing pending holds what it should, and may go on from there. -/
theorem Follows.next (h : Follows rank owner t [] target)
    (hrun : lockRun rank target actions = some target') :
    Follows rank owner t actions target' := by
  obtain ⟨held, hnodup, hheld, heq⟩ := h
  obtain rfl : held = target := Option.some.inj heq
  exact ⟨held, hnodup, hheld, hrun⟩

/-- A thread whose actions lead to `target` from nothing only holds nothing. -/
theorem Follows.not_held (h : Follows rank owner t actions target)
    (hnil : ∀ held, lockRun rank held actions = some target → held = []) (m : μ) :
    owner m ≠ some t := by
  obtain ⟨held, -, hheld, hrun⟩ := h
  rw [hnil held hrun] at hheld
  intro howner
  exact absurd ((hheld m).mpr howner) List.not_mem_nil

end Follows

def WaitsFor (owner : μ → Option τ) (wants : τ → Option μ) (t u : τ) : Prop :=
  ∃ m, wants t = some m ∧ owner m = some u

def AsksUpwards (rank : μ → ℕ) (owner : μ → Option τ) (wants : τ → Option μ) : Prop :=
  ∀ t m, wants t = some m → ∀ h, owner h = some t → rank h < rank m

variable {rank : μ → ℕ} {owner : μ → Option τ} {wants : τ → Option μ}

theorem AsksUpwards.not_held (h : AsksUpwards rank owner wants) {t : τ} {m : μ}
    (hwants : wants t = some m) : owner m ≠ some t := by
  intro howner
  exact Nat.lt_irrefl _ (h t m hwants m howner)

/-- Along a chain of waiting threads the ranks of the mutexes waited for increase. -/
theorem AsksUpwards.rank_le (h : AsksUpwards rank owner wants) {t u : τ}
    (hchain : Relation.TransGen (WaitsFor owner wants) t u) :
    ∃ m m', wants t = some m ∧ owner m' = some u ∧ rank m ≤ rank m' := by
  induction hchain with
  | single hwaits =>
    obtain ⟨m, hwants, howner⟩ := hwaits
    exact ⟨m, m, hwants, howner, Nat.le_refl _⟩
  | tail _ hwaits ih =>
    obtain ⟨m, m', hwants, howner, hle⟩ := ih
    obtain ⟨m'', hwants', howner'⟩ := hwaits
    exact ⟨m, m'', hwants, howner', Nat.le_trans hle (Nat.le_of_lt (h _ _ hwants' _ howner))⟩

theorem AsksUpwards.no_cycle (h : AsksUpwards rank owner wants) (t : τ) :
    ¬ Relation.TransGen (WaitsFor owner wants) t t := by
  intro hcycle
  obtain ⟨m, m', hwants, howner, hle⟩ := h.rank_le hcycle
  exact absurd hle (Nat.not_le.mpr (h t m hwants m' howner))

/-- Where a mutex is held, one is held by a thread that asks for none that is held. -/
theorem AsksUpwards.exists_going (h : AsksUpwards rank owner wants) {n : ℕ} {m : μ} {t : τ}
    (howner : owner m = some t) (hbound : ∀ m', rank m' ≤ rank m + n) :
    ∃ m' u, owner m' = some u ∧ ∀ m'', wants u = some m'' → owner m'' = none := by
  -- the mutex that a waiting holder asks for has a higher rank, and ranks are bounded
  induction n generalizing m t with
  | zero =>
    refine ⟨m, t, howner, fun m'' hwants => ?_⟩
    have hlt := h t m'' hwants m howner
    have hle := hbound m''
    omega
  | succ n ih =>
    by_cases hgoing : ∀ m'', wants t = some m'' → owner m'' = none
    · exact ⟨m, t, howner, hgoing⟩
    · push Not at hgoing
      obtain ⟨m'', hwants, hheld⟩ := hgoing
      obtain ⟨u, howner'⟩ := Option.ne_none_iff_exists'.mp hheld
      apply ih howner'
      intro m'
      have hlt := h t m'' hwants m howner
      have hle := hbound m'
      omega

end Sisop
