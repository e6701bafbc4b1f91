import Mathlib.Algebra.Order.BigOperators.Group.Finset

/-!
# Interleaved threads with straight-line stretches

A thread has a control point and the operations it still has to carry out before it gets there.
A step of the whole carries out the first pending operation of one thread, or, when there is
none, one control step that looks at the shared state and may schedule further operations.

A ledger assigns an amount to the shared state, to every control point and to every pending
operation. It is balanced when carrying out an operation puts the amount of that operation into
the shared state; then the total over all threads is the same in every state of a run.
-/

namespace Sisop

structure Thread (ω π : Type*) where
  pc : π
  ops : List ω

structure Machine (τ ω π χ σ : Type*) where
  exec : τ → ω → σ → Option σ
  control : τ → π → χ → σ → Option (σ × Thread ω π)

structure Threads (τ ω π σ : Type*) where
  shared : σ
  thread : τ → Thread ω π

variable {τ ω π χ σ N : Type*}

namespace Machine

variable [DecidableEq τ] (M : Machine τ ω π χ σ)

def step (st : Threads τ ω π σ) (a : τ × χ) : Option (Threads τ ω π σ) :=
  match (st.thread a.1).ops with
  | [] => (M.control a.1 (st.thread a.1).pc a.2 st.shared).map fun (s, th) =>
      ⟨s, Function.update st.thread a.1 th⟩
  | op :: ops => (M.exec a.1 op st.shared).map fun s =>
      ⟨s, Function.update st.thread a.1 ⟨(st.thread a.1).pc, ops⟩⟩

variable {M} {st st' : Threads τ ω π σ} {a : τ × χ}

theorem step_cases (h : M.step st a = some st') :
    (∃ op ops s, (st.thread a.1).ops = op :: ops ∧ M.exec a.1 op st.shared = some s ∧
      st' = ⟨s, Function.update st.thread a.1 ⟨(st.thread a.1).pc, ops⟩⟩) ∨
    ∃ s th, (st.thread a.1).ops = [] ∧
      M.control a.1 (st.thread a.1).pc a.2 st.shared = some (s, th) ∧
      st' = ⟨s, Function.update st.thread a.1 th⟩ := by
  unfold step at h
  split at h
  case h_1 hops =>
    obtain ⟨⟨s, th⟩, hcontrol, rfl⟩ := Option.map_eq_some_iff.mp h
    exact .inr ⟨s, th, hops, hcontrol, rfl⟩
  case h_2 op ops hops =>
    obtain ⟨s, hexec, rfl⟩ := Option.map_eq_some_iff.mp h
    exact .inl ⟨op, ops, s, hops, hexec, rfl⟩

theorem thread_of_ne (h : M.step st a = some st') {t : τ} (ht : t ≠ a.1) :
    st'.thread t = st.thread t := by
  rcases step_cases h with ⟨op, ops, s, -, -, rfl⟩ | ⟨s, th, -, -, rfl⟩
  · exact Function.update_of_ne ht _ _
  · exact Function.update_of_ne ht _ _

/-- A property of every thread: its own step establishes it, the steps of the others keep it. -/
theorem forall_thread_step {P : τ → σ → Thread ω π → Prop} (h : M.step st a = some st')
    (hP : ∀ t, P t st.shared (st.thread t)) (hown : P a.1 st'.shared (st'.thread a.1))
    (hother : ∀ t, t ≠ a.1 → P t st.shared (st.thread t) → P t st'.shared (st.thread t)) :
    ∀ t, P t st'.shared (st'.thread t) := by
  intro t
  by_cases ht : t = a.1
  · rw [ht]
    exact hown
  · rw [thread_of_ne h ht]
    exact hother t ht (hP t)

/-- A shape that a thread keeps while it carries out its pending operations one by one. -/
theorem shape_step {P : τ → Thread ω π → Prop} (h : M.step st a = some st')
    (htail : ∀ t pc op ops, P t ⟨pc, op :: ops⟩ → P t ⟨pc, ops⟩)
    (hcontrol : ∀ s th, M.control a.1 (st.thread a.1).pc a.2 st.shared = some (s, th) →
      P a.1 ⟨(st.thread a.1).pc, []⟩ → P a.1 th)
    (hP : ∀ t, P t (st.thread t)) : ∀ t, P t (st'.thread t) := by
  intro t
  by_cases ht : t = a.1
  · subst ht
    rcases step_cases h with ⟨op, ops, s, hops, -, rfl⟩ | ⟨s, th, hops, hth, rfl⟩
    · dsimp only
      rw [Function.update_self]
      refine htail _ _ op ops ?_
      rw [← hops]
      exact hP a.1
    · dsimp only
      rw [Function.update_self]
      refine hcontrol s th hth ?_
      rw [← hops]
      exact hP a.1
  · rw [thread_of_ne h ht]
    exact hP t

end Machine

/-- What the shared state, a control point and a pending operation hold. -/
structure Ledger (ω π σ N : Type*) where
  held : σ → N
  pc : π → N
  op : ω → N

namespace Ledger

variable [AddCommMonoid N] (L : Ledger ω π σ N)

def ops (ops : List ω) : N := (ops.map L.op).sum

def thread (th : Thread ω π) : N := L.pc th.pc + L.ops th.ops

def total (T : Finset τ) (st : Threads τ ω π σ) : N :=
  L.held st.shared + ∑ t ∈ T, L.thread (st.thread t)

@[simp] theorem ops_nil : L.ops [] = 0 := rfl

@[simp] theorem ops_cons (op : ω) (ops : List ω) : L.ops (op :: ops) = L.op op + L.ops ops :=
  List.sum_cons

@[simp] theorem ops_append (ops₁ ops₂ : List ω) :
    L.ops (ops₁ ++ ops₂) = L.ops ops₁ + L.ops ops₂ := by
  rw [ops, List.map_append, List.sum_append]
  rfl

theorem ops_eq_zero {ops : List ω} (h : ∀ op ∈ ops, L.op op = 0) : L.ops ops = 0 := by
  induction ops with
  | nil => rfl
  | cons op ops ih =>
    rw [ops_cons, h op List.mem_cons_self, zero_add]
    exact ih fun op' hop' => h op' (List.mem_cons_of_mem _ hop')

/-- Whatever is left of the operations, `f` reads its amount off the list. -/
def Tracks (f : List ω → N) (ops : List ω) : Prop := ∀ ops', ops' <:+ ops → L.ops ops' = f ops'

theorem tracks_nil {f : List ω → N} : L.Tracks f [] ↔ 0 = f [] := by
  constructor
  · intro h
    exact h [] List.suffix_rfl
  · intro h ops' hops'
    rw [List.suffix_nil.mp hops']
    exact h

theorem tracks_cons {f : List ω → N} {op : ω} {ops : List ω} :
    L.Tracks f (op :: ops) ↔ L.op op + L.ops ops = f (op :: ops) ∧ L.Tracks f ops := by
  constructor
  · intro h
    refine ⟨?_, fun ops' hops' => h ops' (hops'.trans (List.suffix_cons op ops))⟩
    simpa using h _ List.suffix_rfl
  · rintro ⟨hhead, htail⟩ ops' hops'
    rcases List.suffix_cons_iff.mp hops' with rfl | hops'
    · simpa using hhead
    · exact htail ops' hops'

/-- Operations that hold nothing, and a reading that sees it. -/
theorem tracks_of_idle {f : List ω → N} {ops : List ω} (h : ∀ op ∈ ops, L.op op = 0)
    (hf : ∀ ops', ops' ⊆ ops → f ops' = 0) : L.Tracks f ops := by
  intro ops' hops'
  rw [hf ops' hops'.subset]
  exact L.ops_eq_zero fun op hop => h op (hops'.subset hop)

theorem total_update [DecidableEq τ] {T : Finset τ} {t : τ} (ht : t ∈ T)
    (thread : τ → Thread ω π) (s : σ) (th : Thread ω π) :
    L.total T ⟨s, Function.update thread t th⟩ =
      L.held s + L.thread th + ∑ u ∈ T.erase t, L.thread (thread u) := by
  have hrest : ∑ u ∈ T.erase t, L.thread (Function.update thread t th u) =
      ∑ u ∈ T.erase t, L.thread (thread u) := by
    refine Finset.sum_congr rfl fun u hu => ?_
    rw [Function.update_of_ne (Finset.ne_of_mem_erase hu)]
  rw [total, ← Finset.add_sum_erase T _ ht]
  dsimp only
  rw [hrest, Function.update_self, add_assoc]

theorem total_eq_erase [DecidableEq τ] {T : Finset τ} {t : τ} (st : Threads τ ω π σ)
    (ht : t ∈ T) :
    L.total T st = L.held st.shared + L.thread (st.thread t) +
      ∑ u ∈ T.erase t, L.thread (st.thread u) := by
  rw [total, ← Finset.add_sum_erase T _ ht, add_assoc]

variable {L} [DecidableEq τ] {M : Machine τ ω π χ σ} {st st' : Threads τ ω π σ} {a : τ × χ}
  {T : Finset τ}

/-- A control step moves the total by what it moves the ledger of its thread. -/
theorem total_control {st : Threads τ ω π σ} {t : τ} {s : σ} {th : Thread ω π} {d d' : N}
    (ht : t ∈ T) (hops : (st.thread t).ops = [])
    (h : L.held s + L.thread th + d = L.held st.shared + L.pc (st.thread t).pc + d') :
    L.total T ⟨s, Function.update st.thread t th⟩ + d = L.total T st + d' := by
  rw [L.total_eq_erase st ht, total_update L ht, add_right_comm, h, thread, hops, ops_nil, add_zero,
    add_right_comm]

/-- In a balanced step the total stays. -/
theorem total_step (h : M.step st a = some st') (ha : a.1 ∈ T)
    (hexec : ∀ op s, M.exec a.1 op st.shared = some s → L.held s = L.held st.shared + L.op op)
    (hcontrol : ∀ s th, (st.thread a.1).ops = [] →
      M.control a.1 (st.thread a.1).pc a.2 st.shared = some (s, th) →
      L.held s + L.thread th = L.held st.shared + L.pc (st.thread a.1).pc) :
    L.total T st' = L.total T st := by
  rw [L.total_eq_erase st ha]
  rcases Machine.step_cases h with ⟨op, ops, s, hops, hop, rfl⟩ | ⟨s, th, hops, hth, rfl⟩
  · rw [total_update L ha, thread, thread, hops, ops_cons, hexec op s hop]
    simp only [add_assoc, add_left_comm, add_comm]
  · rw [total_update L ha, hcontrol s th hops hth, thread, hops, ops_nil, add_zero]

/-- When control steps may lose something, the total does not grow. -/
theorem total_step_le [Preorder N] [AddRightMono N] (h : M.step st a = some st') (ha : a.1 ∈ T)
    (hexec : ∀ op s, M.exec a.1 op st.shared = some s → L.held s = L.held st.shared + L.op op)
    (hcontrol : ∀ s th, (st.thread a.1).ops = [] →
      M.control a.1 (st.thread a.1).pc a.2 st.shared = some (s, th) →
      L.held s + L.thread th ≤ L.held st.shared + L.pc (st.thread a.1).pc) :
    L.total T st' ≤ L.total T st := by
  rw [L.total_eq_erase st ha]
  rcases Machine.step_cases h with ⟨op, ops, s, hops, hop, rfl⟩ | ⟨s, th, hops, hth, rfl⟩
  · rw [total_update L ha, thread, thread, hops, ops_cons, hexec op s hop]
    simp only [add_assoc, add_left_comm, add_comm, le_refl]
  · rw [total_update L ha]
    refine add_le_add_left ((hcontrol s th hops hth).trans_eq ?_) _
    rw [thread, hops, ops_nil, add_zero]

/-- When control steps may put in more than is accounted for, the total does not shrink. -/
theorem le_total_step [Preorder N] [AddRightMono N] (h : M.step st a = some st') (ha : a.1 ∈ T)
    (hexec : ∀ op s, M.exec a.1 op st.shared = some s → L.held s = L.held st.shared + L.op op)
    (hcontrol : ∀ s th, (st.thread a.1).ops = [] →
      M.control a.1 (st.thread a.1).pc a.2 st.shared = some (s, th) →
      L.held st.shared + L.pc (st.thread a.1).pc ≤ L.held s + L.thread th) :
    L.total T st ≤ L.total T st' := by
  rw [L.total_eq_erase st ha]
  rcases Machine.step_cases h with ⟨op, ops, s, hops, hop, rfl⟩ | ⟨s, th, hops, hth, rfl⟩
  · rw [total_update L ha, thread, thread, hops, ops_cons, hexec op s hop]
    simp only [add_assoc, add_left_comm, add_comm, le_refl]
  · rw [total_update L ha]
    refine add_le_add_left (LE.le.trans ?_ (hcontrol s th hops hth)) _
    rw [thread, hops, ops_nil, add_zero]

end Ledger
end Sisop
