import Sisop.GuardedRun
import Sisop.Interleaving

/-!
# A thread that runs alone

`ReturnsTo` follows one thread, whose choice is always `c`, up to the first moment at which it
stands at `ret`. Nothing else moves, so the end is determined.
-/

namespace Sisop

variable {τ ω π χ σ : Type*}

namespace Machine

inductive ReturnsTo (M : Machine τ ω π χ σ) (t : τ) (c : χ) (ret : Thread ω π) :
    σ → Thread ω π → σ → Prop
  | here (s : σ) : ReturnsTo M t c ret s ret s
  | exec {s s' s'' : σ} {pc : π} {op : ω} {ops : List ω} : Thread.mk pc (op :: ops) ≠ ret →
      M.exec t op s = some s' → ReturnsTo M t c ret s' ⟨pc, ops⟩ s'' →
      ReturnsTo M t c ret s ⟨pc, op :: ops⟩ s''
  | control {s s' s'' : σ} {pc : π} {th : Thread ω π} : Thread.mk pc [] ≠ ret →
      M.control t pc c s = some (s', th) → ReturnsTo M t c ret s' th s'' →
      ReturnsTo M t c ret s ⟨pc, []⟩ s''

variable {M : Machine τ ω π χ σ} {t : τ} {c : χ} {ret th : Thread ω π} {s s' s'' : σ}

theorem ReturnsTo.unique (h : M.ReturnsTo t c ret s th s') (h' : M.ReturnsTo t c ret s th s'') :
    s' = s'' := by
  induction h with
  | here =>
    cases h' with
    | here => rfl
    | exec hne => exact absurd rfl hne
    | control hne => exact absurd rfl hne
  | exec hne hexec _ ih =>
    cases h' with
    | here => exact absurd rfl hne
    | exec _ hexec' hrest =>
      obtain rfl := Option.some.inj (hexec.symm.trans hexec')
      exact ih hrest
  | control hne hcontrol _ ih =>
    cases h' with
    | here => exact absurd rfl hne
    | control _ hcontrol' hrest =>
      cases hcontrol.symm.trans hcontrol'
      exact ih hrest

def execAll (M : Machine τ ω π χ σ) (t : τ) (ops : List ω) (s : σ) : Option σ :=
  ops.foldlM (fun s op => M.exec t op s) s

/-- A thread with more operations pending than at its return has not returned. -/
theorem returnsTo_execAll {pc : π} {ops rest : List ω}
    (hpc : pc = ret.pc → ret.ops.length ≤ rest.length) (h : M.execAll t ops s = some s')
    (hrest : M.ReturnsTo t c ret s' ⟨pc, rest⟩ s'') :
    M.ReturnsTo t c ret s ⟨pc, ops ++ rest⟩ s'' := by
  induction ops generalizing s with
  | nil =>
    obtain rfl := Option.some.inj h
    exact hrest
  | cons op ops ih =>
    rw [execAll, List.foldlM_cons] at h
    obtain ⟨s₁, hexec, h⟩ := Option.bind_eq_some_iff.mp h
    refine .exec ?_ hexec (ih h)
    rintro rfl
    have hlength : (op :: (ops ++ rest)).length ≤ rest.length := hpc rfl
    rw [List.length_cons, List.length_append] at hlength
    omega

theorem returnsTo_of_execAll {pc : π} {ops : List ω} (hpc : pc = ret.pc → ret.ops = [])
    (h : M.execAll t ops s = some s') (hrest : M.ReturnsTo t c ret s' ⟨pc, []⟩ s'') :
    M.ReturnsTo t c ret s ⟨pc, ops⟩ s'' := by
  have hreturns := returnsTo_execAll (fun heq => by rw [hpc heq]) h hrest
  rwa [List.append_nil] at hreturns

theorem execAll_append {ops ops' : List ω} (h : M.execAll t ops s = some s')
    (h' : M.execAll t ops' s' = some s'') : M.execAll t (ops ++ ops') s = some s'' := by
  rw [execAll, List.foldlM_append]
  exact Option.bind_eq_some_iff.mpr ⟨s', h, h'⟩

theorem execAll_cons {op : ω} {ops : List ω} (h : M.exec t op s = some s')
    (h' : M.execAll t ops s' = some s'') : M.execAll t (op :: ops) s = some s'' := by
  rw [execAll, List.foldlM_cons]
  exact Option.bind_eq_some_iff.mpr ⟨s', h, h'⟩

theorem iterateStep_succ {α : Type*} (step : α → Option α) (n : ℕ) (a : α) :
    iterateStep step (n + 1) a = (step a).bind (iterateStep step n) := by
  induction n generalizing a with
  | zero => simp [iterateStep]
  | succ n ih => rw [iterateStep, ih, Option.bind_assoc]; rfl

/-- Among all threads these are steps of the machine, and nobody else has moved. -/
theorem ReturnsTo.run [DecidableEq τ] (h : M.ReturnsTo t c ret s th s')
    (st : Threads τ ω π σ) (hshared : st.shared = s) (hthread : st.thread t = th) :
    ∃ n, iterateStep (fun st => M.step st (t, c)) n st =
      some ⟨s', Function.update st.thread t ret⟩ := by
  induction h generalizing st with
  | here s =>
    subst hshared
    refine ⟨0, congrArg some ?_⟩
    rw [← hthread, Function.update_eq_self]
  | @exec s s₁ s'' pc op ops hne hexec _ ih =>
    subst hshared
    obtain ⟨n, hn⟩ := ih ⟨s₁, Function.update st.thread t ⟨pc, ops⟩⟩ rfl
      (Function.update_self _ _ _)
    refine ⟨n + 1, ?_⟩
    have hstep : M.step st (t, c) = some ⟨s₁, Function.update st.thread t ⟨pc, ops⟩⟩ := by
      unfold step
      dsimp only
      rw [hthread]
      dsimp only
      rw [hexec]
      rfl
    rw [iterateStep_succ, hstep, Option.bind_some, hn, Function.update_idem]
  | @control s s₁ s'' pc th hne hcontrol _ ih =>
    subst hshared
    obtain ⟨n, hn⟩ := ih ⟨s₁, Function.update st.thread t th⟩ rfl
      (Function.update_self _ _ _)
    refine ⟨n + 1, ?_⟩
    have hstep : M.step st (t, c) = some ⟨s₁, Function.update st.thread t th⟩ := by
      unfold step
      dsimp only
      rw [hthread]
      dsimp only
      rw [hcontrol]
      rfl
    rw [iterateStep_succ, hstep, Option.bind_some, hn, Function.update_idem]

end Machine
end Sisop
