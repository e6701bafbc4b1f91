import Sisop.ReadyOrder

/-!
# What a process keeps from its admission on

The pid, the connection, the priority and the text of a process are written once, when `LTSconex`
builds its image. `PROCER` runs a copy of the image and writes the copy back after every dispatch.
-/

namespace Sisop

structure SameProcess (image image' : TProcessImage) : Prop where
  pid : image'.pid = image.pid
  clientfd : image'.clientfd = image.clientfd
  priority : image'.priority = image.priority
  code : image'.code = image.code

theorem SameProcess.rfl {image : TProcessImage} : SameProcess image image := by
  constructor <;> rfl

theorem SameProcess.trans {image image' image'' : TProcessImage} (h : SameProcess image image')
    (h' : SameProcess image' image'') : SameProcess image image'' :=
  ⟨h'.pid.trans h.pid, h'.clientfd.trans h.clientfd, h'.priority.trans h.priority,
    h'.code.trans h.code⟩

namespace Exec

variable {code : List CString} {quantum : ℤ} {self : Ptr} {env : Env}

theorem Moves.pid {e e' : Exec} {ops : List Operation} {events : List Event}
    (h : Moves code quantum self env e e' ops events) :
    e'.processImage.pid = e.processImage.pid := by
  cases h with
  | returns | counts | asksPool | asksPoolInFunction => rfl
  | resumes =>
    obtain ⟨stack, elements, heq⟩ := stackExecution_eq e
    rw [heq]
    rfl
  | @leaves element rest line =>
    obtain ⟨stack, elements, heq⟩ :=
      leaveFunction_eq (isFinFuncion line element.functionName) element rest e
    rw [heq]
    rfl
  | runsLine _ _ _ _ _ _ _ _ hrun | runsFunctionLine _ _ _ _ _ _ _ hrun =>
    obtain ⟨f, -, rfl⟩ | ⟨-, rfl⟩ | ⟨elements, rfl⟩ := runLine_eq hrun <;> rfl

theorem Moves.sameProcess {e e' : Exec} {ops : List Operation} {events : List Event}
    (h : Moves code quantum self env e e' ops events) :
    SameProcess e.processImage e'.processImage := by
  obtain ⟨hclientfd, hcode, hpriority⟩ := h.identity
  exact ⟨h.pid, hclientfd, hpriority, hcode⟩

theorem sameProcess_enter (image : TProcessImage) :
    SameProcess image (Exec.enter image).1.processImage := by
  obtain ⟨stack, elements, heq⟩ := stackExecution_eq (Exec.atEntry image)
  rw [Exec.enter, heq]
  exact ⟨rfl, rfl, rfl, rfl⟩

end Exec

namespace PP

variable {cfg : Config} {ok : PP → Step → Prop} {st st' : PP} {a : Step} {ALG : Algorithm}
  {priorities : QueueName → ℤ}

/-- What `PROCER` runs is the process it has popped, and the lines are those of its text. -/
def RunsProcess (st : PP) : Prop :=
  ∀ p code e, (st.thread .procer).pc = .execute p code e → p < st.shared.allocated ∧
    SameProcess (st.shared.image p) e.processImage ∧
      codeSegmentCreator (st.shared.image p).code = some code

/-- A step leaves the identity of every process built. -/
theorem sameProcess_next (h : next cfg st a = some st') (hst : RunsProcess st) {p : Ptr}
    (hp : p < st.shared.allocated) :
    p < st'.shared.allocated ∧ SameProcess (st.shared.image p) (st'.shared.image p) := by
  rcases next_cases h with ⟨op, ops, s, -, hexec, rfl⟩ | ⟨s, th, -, hmoves, rfl⟩
  · have hunwritten := unwritten_exec hexec
    dsimp only
    rw [hunwritten.allocated, hunwritten.image]
    exact ⟨hp, .rfl⟩
  · obtain ⟨hp', himage | ⟨code, e, ha, hpc, -, himage⟩⟩ := built_control hmoves hp
    · refine ⟨hp', ?_⟩
      dsimp only
      rw [himage]
      exact .rfl
    · -- the copy is written back, with another estimate
      obtain ⟨-, hsame, -⟩ := hst p code e (ha ▸ hpc)
      refine ⟨hp', ?_⟩
      dsimp only
      rw [himage]
      exact hsame.trans ⟨rfl, rfl, rfl, rfl⟩

theorem runsProcess_next (hrun : RunsTo (next cfg) ok (start cfg ALG priorities) st)
    (h : next cfg st a = some st') (hst : RunsProcess st) : RunsProcess st' := by
  intro p code e hpc
  -- a process that was running before the step runs on
  have hkeeps : ∀ e', (st.thread .procer).pc = .execute p code e' →
      SameProcess e'.processImage e.processImage → p < st'.shared.allocated ∧
        SameProcess (st'.shared.image p) e.processImage ∧
          codeSegmentCreator (st'.shared.image p).code = some code := by
    intro e' hpc' hsame
    obtain ⟨hp, hrunning, hcode⟩ := hst p code e' hpc'
    obtain ⟨hp', hnext⟩ := sameProcess_next h hst hp
    have hback : SameProcess (st'.shared.image p) (st.shared.image p) :=
      ⟨hnext.pid.symm, hnext.clientfd.symm, hnext.priority.symm, hnext.code.symm⟩
    refine ⟨hp', hback.trans (hrunning.trans hsame), ?_⟩
    rw [hnext.code]
    exact hcode
  rcases thread_next h .procer with ⟨-, hth⟩ | ⟨op, ops, -, hthread, -, hth⟩ | ⟨ha, -, hmoves⟩
  · rw [hth] at hpc
    exact hkeeps e hpc .rfl
  · rw [hth] at hpc
    exact hkeeps e hpc .rfl
  · generalize hth : st'.thread .procer = th at hpc hmoves
    generalize hpc₀ : (st.thread .procer).pc = pc at hmoves
    generalize hs' : st'.shared = s' at hmoves
    cases hmoves with
    | procer hmoves =>
      cases hmoves with
      | @pop p' ps code' hqueue hcode =>
        cases hpc
        have hmem : p ∈ st.shared.queue .lpl := by
          rw [hqueue]
          exact List.mem_cons_self
        exact ⟨(live_of_place hrun (.inl (stored_pos (.inl ⟨.lpl, hmem⟩)))).1,
          Exec.sameProcess_enter _, hcode⟩
      | @run p' code' e₀ _ _ _ _ hmoves =>
        cases hpc
        rw [← hs']
        exact hkeeps e₀ hpc₀ hmoves.sameProcess
      | _ => cases hpc

theorem runsProcess_run (h : RunsTo (next cfg) ok (start cfg ALG priorities) st) :
    RunsProcess st := by
  induction h with
  | start =>
    intro p code e hpc
    cases hpc
  | step a hrun _ hnext ih => exact runsProcess_next hrun hnext ih

/-- A control step builds one image at most, and numbers it. -/
theorem pid_control {t : Tid} {s s' : Shared} {pc : Label} {th : Thread Operation Label}
    (h : Moves cfg s t pc s' th) : s'.allocated = s.allocated ∨
      (s'.allocated = s.allocated + 1 ∧ (s'.image s.allocated).pid = 11 + s.allocated) := by
  cases h with
  | ltsConex h =>
    cases h with
    | admission | delay =>
      refine .inr ⟨rfl, ?_⟩
      simp [Shared.allocate, Shared.tryWait, newImage]
    | _ => exact .inl rfl
  | sts h | configure h =>
    cases h with
    | orderInsert h => cases h <;> exact .inl rfl
    | _ => exact .inl rfl
  | procer h => cases h <;> exact .inl rfl
  | _ => exact .inl rfl

/-- The pids are handed out in the order of admission, from 11 on. -/
theorem pid_next (h : next cfg st a = some st') (hst : RunsProcess st)
    (hpid : ∀ p < st.shared.allocated, (st.shared.image p).pid = 11 + p) :
    ∀ p < st'.shared.allocated, (st'.shared.image p).pid = 11 + p := by
  intro p hp
  by_cases hbuilt : p < st.shared.allocated
  · rw [(sameProcess_next h hst hbuilt).2.pid, hpid p hbuilt]
  · rcases next_cases h with ⟨op, ops, s, -, hexec, rfl⟩ | ⟨s, th, -, hmoves, rfl⟩
    · rw [(unwritten_exec hexec).allocated] at hp
      exact absurd hp hbuilt
    · dsimp only at hp ⊢
      rcases pid_control hmoves with hsame | ⟨hsucc, hpid'⟩
      · rw [hsame] at hp
        exact absurd hp hbuilt
      · obtain rfl : p = st.shared.allocated := by omega
        exact hpid'

theorem pid_run (h : RunsTo (next cfg) ok (start cfg ALG priorities) st) :
    ∀ p < st.shared.allocated, (st.shared.image p).pid = 11 + p := by
  induction h with
  | start =>
    intro p hp
    exact absurd hp (Nat.not_lt_zero p)
  | step a hrun _ hnext ih => exact pid_next hnext (runsProcess_run hrun) ih

/-- A run from a reachable state leads to reachable states only, and keeps every process built. -/
theorem sameProcess_run (h : RunsTo (next cfg) ok (start cfg ALG priorities) st)
    (h' : RunsTo (next cfg) ok st st') : RunsTo (next cfg) ok (start cfg ALG priorities) st' ∧
      ∀ p < st.shared.allocated, p < st'.shared.allocated ∧
        SameProcess (st.shared.image p) (st'.shared.image p) := by
  induction h' with
  | start => exact ⟨h, fun p hp => ⟨hp, .rfl⟩⟩
  | step a _ hok hnext ih =>
    obtain ⟨hrun, hsame⟩ := ih
    refine ⟨hrun.step a hok hnext, fun p hp => ?_⟩
    obtain ⟨hp', hbefore⟩ := hsame p hp
    obtain ⟨hp'', hafter⟩ := sameProcess_next hnext (runsProcess_run hrun) hp'
    exact ⟨hp'', hbefore.trans hafter⟩

/-- The counter of `LTSconex`, an `int` that starts at 11, has not passed its largest value. -/
def PidsFit (st : PP) : Prop := 11 + st.shared.allocated < 2 ^ 31

/-- Over every run that admits no more processes than an `int` can number, a process keeps the pid,
the connection, the priority and the text it was admitted with; every pid is an `int` and no two
processes have the same; and `PROCER` runs the process it has popped on the lines of that
process's own text. -/
theorem process_keeps_identity (cfg : Config) (ALG : Algorithm) (priorities : QueueName → ℤ)
    (st st' : PP) (h : RunsTo (next cfg) (fun _ _ => True) (start cfg ALG priorities) st)
    (h' : RunsTo (next cfg) (fun _ _ => True) st st') (hpids : PidsFit st') :
    (∀ p < st.shared.allocated, SameProcess (st.shared.image p) (st'.shared.image p)) ∧
      (∀ p < st'.shared.allocated, (st'.shared.image p).pid < 2 ^ 31 ∧
        ∀ p' < st'.shared.allocated,
          (st'.shared.image p).pid = (st'.shared.image p').pid → p = p') ∧
      ∀ p code e, (st'.thread .procer).pc = .execute p code e →
        SameProcess (st'.shared.image p) e.processImage ∧
          codeSegmentCreator (st'.shared.image p).code = some code := by
  obtain ⟨hrun, hsame⟩ := sameProcess_run h h'
  rw [PidsFit] at hpids
  refine ⟨fun p hp => (hsame p hp).2, fun p hp => ⟨?_, fun p' hp' heq => ?_⟩,
    fun p code e hpc => ?_⟩
  · rw [pid_run hrun p hp]
    omega
  · rw [pid_run hrun p hp, pid_run hrun p' hp'] at heq
    omega
  · exact (runsProcess_run hrun p code e hpc).2

theorem process_keeps_identity_running : ∃ st st' : PP, st.shared.allocated = 1 ∧
    st'.shared.freed = [0] ∧ PidsFit st' ∧
      SameProcess (st.shared.image 0) (st'.shared.image 0) := by
  have hrun : ((follow (next smallConfig) (fun _ _ => true) (start smallConfig .fifo fun _ => 0)
      (goes .ltsConex 3 ++ submits idleScript 0)).any fun st => st.shared.allocated == 1 &&
        (follow (next smallConfig) (fun _ _ => true) st (goes .sts 19 ++ goes .procer 24)).any
          fun st' => st'.shared.freed == [0] && st'.shared.allocated == 1) = true := by
    decide +kernel
  obtain ⟨st, hst, hvalues⟩ := (Option.any_eq_true _ _).mp hrun
  rw [Bool.and_eq_true, beq_iff_eq] at hvalues
  obtain ⟨st', hst', hvalues'⟩ := (Option.any_eq_true _ _).mp hvalues.2
  simp only [Bool.and_eq_true, beq_iff_eq] at hvalues'
  have hpids : PidsFit st' := by
    rw [PidsFit, hvalues'.2]
    decide
  refine ⟨st, st', hvalues.1, hvalues'.1, hpids, ?_⟩
  refine (process_keeps_identity smallConfig .fifo (fun _ => 0) st st'
    (RunsTo.of_follow (fun _ _ _ => trivial) _ hst)
    (RunsTo.of_follow (fun _ _ _ => trivial) _ hst') hpids).1 0 ?_
  rw [hvalues.1]
  exact Nat.zero_lt_one

end PP
end Sisop
