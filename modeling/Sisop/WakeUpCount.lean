import Sisop.QueueTokens

/-!
# The wake-up count of the short-term scheduler

`STS_in_empty` counts the images in the four lists that `STS` serves, apart from producers
between their two `sem_post`, as long as the `sem_trywait(STS_in_empty)` of a round never finds
zero. It does when `STS`, already in a round, takes the token of a list whose producer has not
posted `STS_in_empty` yet.
-/

namespace Sisop
namespace PP

variable {cfg : Config} {s s' : Shared} {pc : Label} {th : Thread Operation Label}

def arrived (s : Shared) : ℕ :=
  (s.queue .lpn).length + (s.queue .lpr).length + (s.queue .lfq).length + (s.queue .lfio).length

def servedBySTS : Queue → Bool
  | .lpn | .lpr | .lfq | .lfio => true
  | _ => false

/-- What `STS_in_empty` promises beyond the images that wait. A round has taken its token one
step before its pop. -/
def wakeUps : Ledger Operation Label Shared ℤ where
  held s := s.sem .stsInEmpty - arrived s
  pc
    | .popQueue _ _ _ _ => 1
    | _ => 0
  op
    | .enqueue q _ => if servedBySTS q then -1 else 0
    | .wait .stsInEmpty => -1
    | .post .stsInEmpty => 1
    | _ => 0

theorem wakeUps_exec {t : Tid} {op : Operation} (h : op.exec t s = some s') :
    wakeUps.held s' = wakeUps.held s + wakeUps.op op := by
  cases op with
  | lock m | unlock m =>
    simp only [Operation.exec] at h
    split_ifs at h
    cases h
    simp [wakeUps, arrived, Shared.setOwner]
  | wait sem =>
    simp only [Operation.exec] at h
    split_ifs at h with hpos
    cases h
    cases sem <;> simp [wakeUps, arrived, Shared.tryWait]
    omega
  | post sem =>
    cases h
    cases sem <;> simp [wakeUps, arrived, Shared.post]
    omega
  | enqueue q p =>
    cases h
    cases q <;>
      simp [wakeUps, arrived, Shared.post, Shared.setQueue, Queue.empty, servedBySTS] <;> omega
  | _ =>
    cases h
    simp [wakeUps, arrived, Shared.post, Shared.setConnection]

theorem wakeUps_scriptOperations {self : Ptr} {clientfd : ℕ} {ops : List Operation}
    (h : ∀ op ∈ ops, ScriptOperation self clientfd op) : ∀ op ∈ ops, wakeUps.op op = 0 := by
  intro op hop
  cases h op hop <;> rfl

theorem wakeUps_enqueues (ps : List Ptr) : ∀ op ∈ ps.map (.enqueue .lpl), wakeUps.op op = 0 := by
  intro op hop
  obtain ⟨p, -, rfl⟩ := List.mem_map.mp hop
  rfl

/-- The pending operations take back what they put in, and only between the two posts of a
producer, or of `STS` itself, a post is still to come. -/
def Settled (ops : List Operation) : Prop :=
  wakeUps.Tracks (fun ops => if ops.head? = some (.post .stsInEmpty) then 1 else 0) ops

@[simp] theorem settled_nil : Settled [] := wakeUps.tracks_nil.mpr rfl

@[simp] theorem settled_cons {op : Operation} {ops : List Operation} :
    Settled (op :: ops) ↔
      wakeUps.op op + wakeUps.ops ops = (if op = .post .stsInEmpty then 1 else 0) ∧
        Settled ops := by
  rw [Settled, wakeUps.tracks_cons, List.head?_cons]
  simp only [Option.some.injEq]
  rfl

theorem Settled.ops_eq {ops : List Operation} (h : Settled ops) :
    wakeUps.ops ops = if ops.head? = some (.post .stsInEmpty) then 1 else 0 :=
  h ops List.suffix_rfl

theorem Settled.append {ops ops' : List Operation} (h : Settled ops) (h' : Settled ops')
    (hhead : ops'.head? ≠ some (.post .stsInEmpty)) : Settled (ops ++ ops') := by
  have hzero : wakeUps.ops ops' = 0 := h'.ops_eq.trans (if_neg hhead)
  induction ops with
  | nil => exact h'
  | cons op ops ih =>
    obtain ⟨hop, hops⟩ := settled_cons.mp h
    rw [List.cons_append]
    refine settled_cons.mpr ⟨?_, ih hops⟩
    rw [Ledger.ops_append, hzero, add_zero, hop]

theorem settled_of_idle {ops : List Operation} (h : ∀ op ∈ ops, wakeUps.op op = 0) :
    Settled ops := by
  refine wakeUps.tracks_of_idle h fun ops' hops' => if_neg fun hhead => ?_
  exact absurd (h _ (hops' (List.mem_of_mem_head? hhead))) (by decide)

/-- Only `STS` waits for `STS_in_empty`, at the head of its loop. -/
structure WakeShape (t : Tid) (th : Thread Operation Label) : Prop where
  home : homeOf th.pc t
  settled : Settled th.ops
  wait : .wait .stsInEmpty ∈ th.ops → th.pc = .readALG

theorem wakeShape_tail (t : Tid) (pc : Label) (op : Operation) (ops : List Operation)
    (h : WakeShape t ⟨pc, op :: ops⟩) : WakeShape t ⟨pc, ops⟩ :=
  ⟨h.home, (settled_cons.mp h.settled).2, fun hmem => h.wait (List.mem_cons_of_mem _ hmem)⟩

theorem wakeShape_of_idle {t : Tid} (hpc : homeOf th.pc t)
    (h : ∀ op ∈ th.ops, wakeUps.op op = 0) : WakeShape t th :=
  ⟨hpc, settled_of_idle h, fun hmem => absurd (h _ hmem) (by decide)⟩

theorem WakeShape.of_other {t : Tid} (hpc : homeOf th.pc t) (ht : t ≠ .sts)
    (hops : ∀ op ∈ th.ops, OperationOf t op) (h : Settled th.ops) : WakeShape t th := by
  refine ⟨hpc, h, fun hmem => absurd ?_ ht⟩
  cases hops _ hmem
  rfl

theorem settled_ltsConex (h : LTSconex.Moves cfg s pc s' th) : Settled th.ops := by
  cases h <;> simp [wakeUps, servedBySTS, LTSconex.refuse, LTSconex.admission, LTSconex.delay,
    LTSconex.notRestored, LTSconex.resume, logWrite, enqueueForSTS, enqueueLocked, writeText]

theorem wakeShape_orderInsert {t : Tid} (h : OrderInsert.Moves s pc s' th)
    (hhome : homeOf th.pc t) : WakeShape t th := by
  cases h with
  | @finish key prioList sorted caller =>
    cases caller with
    | sts =>
      refine ⟨hhome, ?_, fun _ => rfl⟩
      refine ((settled_of_idle (wakeUps_enqueues sorted)).append ?_ ?_).append ?_ ?_ <;>
        simp [STS.wait, wakeUps]
    | configure priorities =>
      refine wakeShape_of_idle hhome fun op hop => ?_
      rcases List.mem_append.mp hop with hop | hop
      · exact wakeUps_enqueues sorted op hop
      · rw [List.mem_singleton.mp hop]
        rfl
  | _ => exact wakeShape_of_idle hhome (List.forall_mem_nil _)

theorem wakeShape_sts (h : STS.Moves s pc s' th) (hhome : homeOf th.pc .sts) :
    WakeShape .sts th := by
  cases h with
  | orderInsert h => exact wakeShape_orderInsert h hhome
  | endRound kind =>
    refine ⟨hhome, ?_, ?_⟩ <;> cases kind <;> simp [STS.endRound, STS.wait, wakeUps]
  | pop kind =>
    refine wakeShape_of_idle hhome ?_
    cases kind <;> simp [STS.takeOver, logWrite, enqueueLocked, wakeUps, servedBySTS]
  | _ =>
    refine wakeShape_of_idle hhome ?_
    simp [STS.startRound, wakeUps]

theorem settled_configure (h : Configure.Moves s pc s' th) (hhome : homeOf th.pc .configure) :
    Settled th.ops := by
  cases h with
  | orderInsert h => exact (wakeShape_orderInsert h hhome).settled
  | setALG ALG => cases ALG <;> simp [Configure.afterALG, wakeUps]
  | _ => simp [wakeUps]

theorem settled_procer (h : PROCER.Moves cfg s pc s' th) : Settled th.ops := by
  cases h with
  | @pop p ps code =>
    refine settled_of_idle fun op hop => ?_
    rcases List.mem_append.mp hop with hop | hop
    · simp only [logWrite, List.mem_append, List.mem_cons, List.not_mem_nil, or_false] at hop
      rcases hop with ((rfl | rfl) | rfl | rfl) | rfl <;> rfl
    · exact wakeUps_scriptOperations
        (Exec.enter_scriptOperation p 0 (s.image p)) op hop
  | run _ hmoves => exact settled_of_idle (wakeUps_scriptOperations hmoves.scriptOperation)
  | _ =>
    simp [PROCER.finished, PROCER.suspended, PROCER.endOfQuantum, PROCER.wait, logWrite, sendMsg,
      enqueueForSTS, wakeUps, servedBySTS]

theorem wakeShape_control {t : Tid} (h : Moves cfg s t pc s' th) (hhome : homeOf th.pc t)
    (hops : ∀ op ∈ th.ops, OperationOf t op) : WakeShape t th := by
  cases h with
  | sts h => exact wakeShape_sts h hhome
  | ltsConex h => exact .of_other hhome Tid.noConfusion hops (settled_ltsConex h)
  | configure h => exact .of_other hhome Tid.noConfusion hops (settled_configure h hhome)
  | procer h => exact .of_other hhome Tid.noConfusion hops (settled_procer h)
  | raise => exact .of_other hhome Tid.noConfusion hops settled_nil
  | ltsNew =>
    apply WakeShape.of_other hhome Tid.noConfusion hops
    simp [LTSnew.deliver, LTSnew.wait, logWrite, enqueueForSTS, wakeUps, servedBySTS]
  | @ioThread i ioProcessing LPB =>
    apply WakeShape.of_other hhome Tid.noConfusion hops
    simp only [IoThread.serve]
    split_ifs <;> simp [IoThread.wait, logWrite, enqueueForSTS, wakeUps, servedBySTS]

theorem wakeShape_initial (t : Tid) : WakeShape t (initialThread t) := by
  have hsettled : Settled (initialThread t).ops := by
    cases t <;> simp [initialThread, logWrite, LTSnew.wait, STS.wait, IoThread.wait, PROCER.wait,
      wakeUps]
  by_cases ht : t = .sts
  · subst ht
    exact ⟨rfl, hsettled, fun _ => rfl⟩
  · exact .of_other (homeOf_initial t) ht (operationOf_initial t) hsettled

theorem wakeUps_ltsConex (h : LTSconex.Moves cfg s pc s' th) :
    wakeUps.held s' + wakeUps.thread th = wakeUps.held s + wakeUps.pc pc := by
  cases h <;> simp [wakeUps, arrived, servedBySTS, Ledger.thread, Shared.accept,
    Shared.setConnection, Shared.tryWait, Shared.allocate, LTSconex.refuse, LTSconex.admission,
    LTSconex.delay, LTSconex.notRestored, LTSconex.resume, logWrite, enqueueForSTS, enqueueLocked,
    writeText]

theorem wakeUps_orderInsert (h : OrderInsert.Moves s pc s' th) :
    wakeUps.held s' + wakeUps.thread th = wakeUps.held s + wakeUps.pc pc := by
  cases h with
  | sortStart => simp [wakeUps, Ledger.thread]
  | @finish key prioList sorted caller =>
    have henqueues := wakeUps.ops_eq_zero (wakeUps_enqueues sorted)
    cases caller with
    | sts =>
      rw [OrderInsert.finish, Ledger.thread, Ledger.ops_append, Ledger.ops_append, henqueues]
      simp [wakeUps, STS.wait]
    | configure priorities =>
      rw [OrderInsert.finish, Ledger.thread, Ledger.ops_append, henqueues]
      simp [wakeUps]
  | drainOne =>
    simp [wakeUps, arrived, Ledger.thread, Shared.setQueue, Shared.tryWait]

/-- `htoken` is that the `sem_trywait` of a round does not fail. -/
theorem wakeUps_sts (h : STS.Moves s pc s' th)
    (htoken : ∀ kind i name prioList, pc = .takeIn kind i name prioList →
      0 < s.sem .stsInEmpty) :
    wakeUps.held s' + wakeUps.thread th = wakeUps.held s + wakeUps.pc pc := by
  cases h with
  | orderInsert h => exact wakeUps_orderInsert h
  | readALG | nextQueue | noToken => simp [wakeUps, Ledger.thread, STS.startRound]
  | endRound kind => cases kind <;> simp [wakeUps, Ledger.thread, STS.endRound, STS.wait]
  | @takeToken kind i name =>
    cases name <;> simp [wakeUps, arrived, Ledger.thread, Shared.tryWait, QueueName.queue,
      Queue.empty]
  | takeIn kind i name prioList =>
    have hpos := htoken kind i name prioList rfl
    simp [wakeUps, arrived, Ledger.thread, Shared.tryWait]
    omega
  | @pop kind i name prioList p ps hqueue =>
    have hops : wakeUps.thread (STS.takeOver kind i name prioList p) = 0 := by
      cases kind <;>
        simp [wakeUps, servedBySTS, Ledger.thread, STS.takeOver, logWrite, enqueueLocked]
    rw [hops]
    cases name <;> simp only [QueueName.queue] at hqueue <;>
      simp [wakeUps, arrived, Shared.setQueue, QueueName.queue, hqueue] <;> omega

theorem wakeUps_configure (h : Configure.Moves s pc s' th) :
    wakeUps.held s' + wakeUps.thread th = wakeUps.held s + wakeUps.pc pc := by
  cases h with
  | orderInsert h => exact wakeUps_orderInsert h
  | setALG ALG => cases ALG <;> simp [wakeUps, arrived, Ledger.thread, Configure.afterALG]
  | _ => simp [wakeUps, arrived, Ledger.thread]

theorem wakeUps_procer (h : PROCER.Moves cfg s pc s' th) :
    wakeUps.held s' + wakeUps.thread th = wakeUps.held s + wakeUps.pc pc := by
  cases h with
  | @pop p ps code hqueue =>
    rw [Ledger.thread, PROCER.dispatch, Ledger.ops_append,
      wakeUps.ops_eq_zero (wakeUps_scriptOperations
        (Exec.enter_scriptOperation p 0 (s.image p)))]
    simp [wakeUps, arrived, Shared.setQueue, logWrite]
  | run _ hmoves =>
    rw [Ledger.thread, wakeUps.ops_eq_zero (wakeUps_scriptOperations hmoves.scriptOperation)]
    simp [wakeUps]
  | _ =>
    simp [wakeUps, arrived, servedBySTS, Ledger.thread, Shared.setImage, PROCER.finished,
      PROCER.suspended, PROCER.endOfQuantum, PROCER.wait, logWrite, sendMsg, enqueueForSTS]

theorem wakeUps_control {t : Tid} (h : Moves cfg s t pc s' th)
    (htoken : ∀ kind i name prioList, pc = .takeIn kind i name prioList →
      0 < s.sem .stsInEmpty) :
    wakeUps.held s' + wakeUps.thread th = wakeUps.held s + wakeUps.pc pc := by
  cases h with
  | ltsConex h => exact wakeUps_ltsConex h
  | ltsNew =>
    simp [wakeUps, arrived, servedBySTS, Ledger.thread, Shared.setQueue, LTSnew.deliver,
      LTSnew.wait, logWrite, enqueueForSTS]
  | sts h => exact wakeUps_sts h htoken
  | configure h => exact wakeUps_configure h
  | procer h => exact wakeUps_procer h
  | raise => simp [wakeUps, arrived, Ledger.thread]
  | @ioThread i ioProcessing LPB =>
    simp only [IoThread.serve]
    split_ifs <;> simp [wakeUps, arrived, servedBySTS, Ledger.thread, IoThread.wait, logWrite,
      enqueueForSTS]

def betweenPosts (th : Thread Operation Label) : Prop :=
  th.ops.head? = some (.post .stsInEmpty)

/-- `STS` has repeated its wake-up and not looked at any list yet. -/
def woken (th : Thread Operation Label) : Prop :=
  (th.pc = .readALG ∧ .wait .stsInEmpty ∉ th.ops ∧ .post .stsInEmpty ∉ th.ops) ∨
    ∃ kind prioList, th.pc = .round kind 0 prioList

theorem stsInEmpty_exec {t : Tid} {op : Operation} (h : op.exec t s = some s')
    (hop : op ≠ .wait .stsInEmpty) : s.sem .stsInEmpty ≤ s'.sem .stsInEmpty := by
  cases op with
  | lock m | unlock m =>
    simp only [Operation.exec] at h
    split_ifs at h
    cases h
    exact le_rfl
  | wait sem =>
    simp only [Operation.exec] at h
    split_ifs at h
    cases h
    have hsem : sem ≠ .stsInEmpty := fun heq => hop (by rw [heq])
    exact (Function.update_of_ne (Ne.symm hsem) _ _).ge
  | post sem =>
    cases h
    cases sem <;> simp [Shared.post]
  | enqueue q p =>
    cases h
    cases q <;> simp [Shared.post, Shared.setQueue, Queue.empty]
  | _ =>
    cases h
    simp [Shared.post, Shared.setConnection]

/-- Only a round of `STS` takes a token of `STS_in_empty` in a control step. -/
theorem stsInEmpty_control {t : Tid} (h : Moves cfg s t pc s' th) (ht : t ≠ .sts) :
    s'.sem .stsInEmpty = s.sem .stsInEmpty := by
  cases h with
  | ltsConex h => cases h <;> simp [Shared.tryWait, Shared.allocate, Shared.accept,
      Shared.setConnection]
  | sts => exact absurd rfl ht
  | configure h =>
    cases h with
    | orderInsert h => cases h <;> simp [Shared.tryWait, Shared.setQueue]
    | _ => rfl
  | procer h => cases h <;> rfl
  | _ => rfl

theorem woken_exec {t : Tid} {op : Operation} {ops : List Operation} (h : op.exec t s = some s')
    (hshape : WakeShape t ⟨pc, op :: ops⟩)
    (hwoken : woken ⟨pc, op :: ops⟩ → 0 < s.sem .stsInEmpty) (hth : woken ⟨pc, ops⟩) :
    0 < s'.sem .stsInEmpty := by
  by_cases hwait : op = .wait .stsInEmpty
  · -- the post behind the wait is still to come
    subst hwait
    have hpc : pc = .readALG := hshape.wait List.mem_cons_self
    subst hpc
    obtain ⟨-, -, hpost⟩ | ⟨kind, prioList, hround⟩ := hth
    · obtain ⟨hweight, htail⟩ := settled_cons.mp hshape.settled
      have hhead : ops.head? ≠ some (.post .stsInEmpty) := fun hhead =>
        hpost (List.mem_of_mem_head? hhead)
      rw [htail.ops_eq, if_neg hhead] at hweight
      exact absurd hweight (by decide)
    · cases hround
  · by_cases hpost : op = .post .stsInEmpty
    · subst hpost
      cases h
      simp [Shared.post]
    · refine (hwoken ?_).trans_le (stsInEmpty_exec h hwait)
      refine hth.imp_left fun hidle => ⟨hidle.1, ?_, ?_⟩
      · simp [Ne.symm hwait, hidle.2.1]
      · simp [Ne.symm hpost, hidle.2.2]

theorem woken_control (h : STS.Moves s pc s' th) (hwoken : woken ⟨pc, []⟩ → 0 < s.sem .stsInEmpty)
    (hth : woken th) : 0 < s'.sem .stsInEmpty := by
  have hreadALG : ¬ (th.pc = .readALG ∧ .wait .stsInEmpty ∉ th.ops ∧
      .post .stsInEmpty ∉ th.ops) := by
    cases h with
    | orderInsert h =>
      cases h with
      | finish key caller => cases caller <;> simp [OrderInsert.finish, STS.wait]
      | _ => simp
    | endRound kind => cases kind <;> simp [STS.endRound, STS.wait]
    | pop kind => cases kind <;> simp [STS.takeOver]
    | _ => simp [STS.startRound]
  obtain ⟨kind, prioList, hpc⟩ := hth.resolve_left hreadALG
  cases h with
  | readALG => exact hwoken (.inl ⟨rfl, List.not_mem_nil, List.not_mem_nil⟩)
  | endRound kind => cases kind <;> cases hpc
  | pop kind => cases kind <;> cases hpc
  | orderInsert h =>
    cases h with
    | finish key caller => cases caller <;> cases hpc
    | _ => cases hpc
  | _ => cases hpc

section Runs

variable {ok : PP → Step → Prop} {st st' : PP} {a : Step} {ALG : Algorithm}
  {priorities : QueueName → ℤ}

/-- `STS` has the token of a list and finds no token of `STS_in_empty`. -/
def takeInFails (st : PP) (a : Step) : Bool :=
  match st.thread a.1 with
  | ⟨.takeIn _ _ _ _, []⟩ => st.shared.sem .stsInEmpty == 0
  | _ => false

theorem wakeUps_next (h : next cfg st a = some st') (ha : ¬ takeInFails st a) :
    wakeUps.total cfg.threads st' = wakeUps.total cfg.threads st := by
  refine total_next wakeUps_exec (fun s' th hops hmoves => wakeUps_control hmoves ?_) h
  intro kind i name prioList hpc
  by_contra hzero
  refine ha ?_
  have hthread : st.thread a.1 = ⟨.takeIn kind i name prioList, []⟩ := by rw [← hpc, ← hops]
  rw [takeInFails, hthread]
  simp only [beq_iff_eq]
  omega

theorem wakeShape_run (h : RunsTo (next cfg) ok (start cfg ALG priorities) st) :
    ∀ t, WakeShape t (st.thread t) :=
  shape_run wakeShape_initial wakeShape_tail
    (fun hmoves hhome hops _ => wakeShape_control hmoves hhome hops) h

theorem wakeUps_run (hok : ∀ st a, ok st a → ¬ takeInFails st a)
    (h : RunsTo (next cfg) ok (start cfg ALG priorities) st) :
    wakeUps.total cfg.threads st = 0 := by
  refine h.invariant (P := fun st => wakeUps.total cfg.threads st = 0) ?_ ?_
  · have hzero : ∀ t, wakeUps.thread (initialThread t) = 0 := by
      intro t
      cases t <;> simp [wakeUps, Ledger.thread, initialThread, logWrite, LTSnew.wait, STS.wait,
        IoThread.wait, PROCER.wait]
    rw [Ledger.total, show wakeUps.held (start cfg ALG priorities).shared = 0 from rfl, zero_add]
    exact Finset.sum_eq_zero fun t _ => hzero t
  · intro st a st' hst ha hnext
    exact (wakeUps_next hnext (hok st a ha)).trans hst

theorem woken_next (h : next cfg st a = some st') (hshape : ∀ t, WakeShape t (st.thread t))
    (hwoken : woken (st.thread .sts) → 0 < st.shared.sem .stsInEmpty) :
    woken (st'.thread .sts) → 0 < st'.shared.sem .stsInEmpty := by
  rcases next_cases h with ⟨op, ops, s, hops, hexec, rfl⟩ | ⟨s, th, hops, hmoves, rfl⟩
  · by_cases ha : a.1 = .sts
    · rw [ha] at hops hexec ⊢
      dsimp only
      rw [Function.update_self]
      have hthread : st.thread .sts = ⟨(st.thread .sts).pc, op :: ops⟩ := by rw [← hops]
      exact woken_exec hexec (hthread ▸ hshape .sts) (hthread ▸ hwoken)
    · dsimp only
      rw [Function.update_of_ne (Ne.symm ha)]
      intro hth
      refine (hwoken hth).trans_le (stsInEmpty_exec hexec ?_)
      rintro rfl
      have hpc := (hshape a.1).wait (by rw [hops]; exact List.mem_cons_self)
      have hhome := (hshape a.1).home
      rw [hpc] at hhome
      exact ha hhome
  · by_cases ha : a.1 = .sts
    · rw [ha] at hmoves hops ⊢
      dsimp only
      rw [Function.update_self]
      have hthread : st.thread .sts = ⟨(st.thread .sts).pc, []⟩ := by rw [← hops]
      cases hmoves with
      | sts hmoves => exact woken_control hmoves (hthread ▸ hwoken)
    · dsimp only
      rw [Function.update_of_ne (Ne.symm ha), stsInEmpty_control hmoves ha]
      exact hwoken

theorem woken_run (h : RunsTo (next cfg) ok (start cfg ALG priorities) st) :
    woken (st.thread .sts) → 0 < st.shared.sem .stsInEmpty := by
  induction h with
  | start =>
    rintro (⟨-, hwait, -⟩ | ⟨kind, prioList, hpc⟩)
    · exact absurd (by simp [start, initialThread, STS.wait]) hwait
    · cases hpc
  | step a hrun hok hnext ih => exact woken_next hnext (wakeShape_run hrun) ih

/-- The total, once only the waiting images and the pending posts count. -/
theorem arrived_eq (hok : ∀ st a, ok st a → ¬ takeInFails st a)
    (h : RunsTo (next cfg) ok (start cfg ALG priorities) st)
    (hpc : wakeUps.pc (st.thread .sts).pc = 0) :
    (st.shared.sem .stsInEmpty : ℤ) + ∑ t ∈ cfg.threads,
      (if (st.thread t).ops.head? = some (.post .stsInEmpty) then 1 else 0) =
        arrived st.shared := by
  have htotal := wakeUps_run hok h
  have hthread : ∀ t ∈ cfg.threads, wakeUps.thread (st.thread t) =
      if (st.thread t).ops.head? = some (.post .stsInEmpty) then 1 else 0 := by
    intro t _
    have hshape := wakeShape_run h t
    have hzero : wakeUps.pc (st.thread t).pc = 0 := by
      by_cases ht : t = .sts
      · rw [ht, hpc]
      · have hhome := hshape.home
        cases hlabel : (st.thread t).pc with
        | popQueue =>
          rw [hlabel] at hhome
          exact absurd hhome ht
        | _ => rfl
    rw [Ledger.thread, hzero, hshape.settled.ops_eq, zero_add]
  rw [Ledger.total, Finset.sum_congr rfl hthread] at htotal
  simp only [wakeUps] at htotal
  omega

theorem arrived_pos (hok : ∀ st a, ok st a → ¬ takeInFails st a)
    (h : RunsTo (next cfg) ok (start cfg ALG priorities) st)
    (hpc : wakeUps.pc (st.thread .sts).pc = 0) (hpos : 0 < st.shared.sem .stsInEmpty) :
    ∃ name : QueueName, st.shared.queue name.queue ≠ [] := by
  have heq := arrived_eq hok h hpc
  have hposts : (0 : ℤ) ≤ ∑ t ∈ cfg.threads,
      (if (st.thread t).ops.head? = some (.post .stsInEmpty) then 1 else 0) := by
    refine Finset.sum_nonneg fun t _ => ?_
    split_ifs <;> decide
  by_contra! hnil
  have hempty : arrived st.shared = 0 := by
    simp only [arrived]
    rw [show st.shared.queue .lpn = [] from hnil .plpn, show st.shared.queue .lpr = [] from
      hnil .plpr, show st.shared.queue .lfq = [] from hnil .plfq, show st.shared.queue .lfio = []
      from hnil .plfio]
    rfl
  omega

/-- A list served by `STS` has a token for each image while `STS` holds none. -/
theorem served_exact (h : RunsTo (next cfg) ok (start cfg ALG priorities) st) (name : QueueName)
    (hpc : popsFrom (st.thread .sts).pc = none) :
    st.shared.sem name.queue.empty = (st.shared.queue name.queue).length := by
  have hexact := queueTokens_run name.queue (fun hq => by cases name <;> cases hq) h
  have hconsumer : consumer name.queue = .sts := by cases name <;> rfl
  have hhand : tokenInHand name.queue (st.thread .sts) = 0 := by simp [tokenInHand, hpc]
  rw [hconsumer, hhand] at hexact
  exact hexact

theorem queuesArray_control {t : Tid} {s s' : Shared} {pc : Label} {th : Thread Operation Label}
    (h : Moves cfg s t pc s' th) : s'.queuesArray = s.queuesArray ∨
      ∃ priorities, pc = .setPriorities priorities ∧
        s'.queuesArray = readPriorities priorities s.queuesArray := by
  cases h with
  | ltsConex h => cases h <;> exact .inl rfl
  | sts h =>
    cases h with
    | orderInsert h => cases h <;> exact .inl rfl
    | _ => exact .inl rfl
  | configure h =>
    cases h with
    | orderInsert h => cases h <;> exact .inl rfl
    | setPriorities priorities => exact .inr ⟨priorities, rfl, rfl⟩
    | _ => exact .inl rfl
  | procer h => cases h <;> exact .inl rfl
  | _ => exact .inl rfl

theorem names_next (h : next cfg st a = some st')
    (hst : (st.shared.queuesArray.map (·.name)).Perm [.plpn, .plpr, .plfq, .plfio]) :
    (st'.shared.queuesArray.map (·.name)).Perm [.plpn, .plpr, .plfq, .plfio] := by
  have hlength : st.shared.queuesArray.length = 4 := by simpa using hst.length_eq
  rcases next_cases h with ⟨op, ops, s, -, hexec, rfl⟩ | ⟨s, th, -, hmoves, rfl⟩
  · rw [(unwritten_exec hexec).queuesArray]
    exact hst
  · rcases queuesArray_control hmoves with heq | ⟨priorities, -, heq⟩
    · rw [heq]
      exact hst
    · rw [heq]
      exact (readPriorities_names priorities hlength).trans hst

/-- Whatever the configuration, a round looks at all four lists. -/
theorem names_run (h : RunsTo (next cfg) ok (start cfg ALG priorities) st) (name : QueueName) :
    ∃ entry ∈ st.shared.queuesArray, entry.name = name := by
  have hperm : (st.shared.queuesArray.map (·.name)).Perm [.plpn, .plpr, .plfq, .plfio] :=
    h.invariant (P := fun st => (st.shared.queuesArray.map (·.name)).Perm
      [.plpn, .plpr, .plfq, .plfio])
      ((@readPriorities_names priorities initialArray rfl).trans (.refl _))
      fun _ _ _ hst _ hnext => names_next hnext hst
  have hmem : name ∈ st.shared.queuesArray.map (·.name) := by
    rw [hperm.mem_iff]
    cases name <;> simp
  simpa using hmem

/-- At the start of a round some list has an image and a token for it. -/
theorem round_finds (hok : ∀ st a, ok st a → ¬ takeInFails st a)
    (h : RunsTo (next cfg) ok (start cfg ALG priorities) st) {kind : Round} {prioList : List Ptr}
    (hpc : (st.thread .sts).pc = .round kind 0 prioList) :
    ∃ entry ∈ st.shared.queuesArray, 0 < st.shared.sem entry.name.queue.empty ∧
      st.shared.queue entry.name.queue ≠ [] := by
  obtain ⟨name, hqueue⟩ := arrived_pos hok h (by rw [hpc]; rfl)
    (woken_run h (.inr ⟨kind, prioList, hpc⟩))
  obtain ⟨entry, hmem, rfl⟩ := names_run h name
  refine ⟨entry, hmem, ?_, hqueue⟩
  rw [served_exact h entry.name (by rw [hpc]; rfl)]
  exact List.length_pos_iff.mpr hqueue

def takesImage (st : PP) (a : Step) : Bool :=
  match st.thread a.1 with
  | ⟨.collect _ _ name _, []⟩ => decide (0 < st.shared.sem name.queue.empty)
  | _ => false

/-- `configure` writes the priorities into `queuesArray`. -/
def reordersQueues (st : PP) (a : Step) : Bool :=
  match st.thread a.1 with
  | ⟨.setPriorities _, []⟩ => true
  | _ => false

def looksAt (queuesArray : List TQueuesArray) (i : ℕ) : Label → Prop
  | .round _ i' _ => i' = i
  | .collect _ i' name _ => i' = i ∧ queuesArray[i]?.map (·.name) = some name
  | _ => False

/-- A list with an image is still to come in the round. -/
def Searching (st : PP) : Prop :=
  ∃ i j entry, looksAt st.shared.queuesArray i (st.thread .sts).pc ∧ i ≤ j ∧
    st.shared.queuesArray[j]? = some entry ∧ st.shared.queue entry.name.queue ≠ []

theorem queue_exec {t : Tid} {op : Operation} {s s' : Shared} {q : Queue}
    (h : op.exec t s = some s') (hq : s.queue q ≠ []) : s'.queue q ≠ [] := by
  cases op with
  | lock m | unlock m | wait m =>
    simp only [Operation.exec] at h
    split_ifs at h
    cases h
    exact hq
  | enqueue q' p =>
    cases h
    by_cases heq : q' = q
    · subst heq
      simp [Shared.post, Shared.setQueue]
    · simpa [Shared.post, Shared.setQueue, Function.update_of_ne (Ne.symm heq)] using hq
  | _ =>
    cases h
    exact hq

/-- Nobody but `STS` takes from the lists it serves. -/
theorem served_control {t : Tid} {s s' : Shared} {pc : Label} {th : Thread Operation Label}
    (h : Moves cfg s t pc s' th) (ht : t ≠ .sts) (name : QueueName) :
    s'.queue name.queue = s.queue name.queue := by
  cases h with
  | ltsConex h => cases h <;> rfl
  | ltsNew => cases name <;> rfl
  | sts => exact absurd rfl ht
  | configure h =>
    cases h with
    | orderInsert h => cases h <;> cases name <;> rfl
    | _ => rfl
  | procer h => cases h <;> cases name <;> rfl
  | _ => rfl

theorem searching_sts {s s' : Shared} {pc : Label} {th : Thread Operation Label} {i j : ℕ}
    {entry : TQueuesArray} (h : STS.Moves s pc s' th) (hlooks : looksAt s.queuesArray i pc)
    (hle : i ≤ j) (hentry : s.queuesArray[j]? = some entry)
    (hqueue : s.queue entry.name.queue ≠ [])
    (hnone : ∀ kind i name prioList, pc = .collect kind i name prioList →
      s.sem name.queue.empty = 0 ∧ s.queue name.queue = []) :
    s' = s ∧ ∃ i', looksAt s.queuesArray i' th.pc ∧ i' ≤ j := by
  cases h with
  | readALG | takeIn | pop => exact hlooks.elim
  | orderInsert h => cases h <;> exact hlooks.elim
  | nextQueue hnext =>
    obtain rfl : _ = i := hlooks
    exact ⟨rfl, _, ⟨rfl, by rw [hnext]; rfl⟩, hle⟩
  | endRound kind prioList hend =>
    obtain rfl : _ = i := hlooks
    have hlength := List.getElem?_eq_none_iff.mp hend
    obtain ⟨hlt, -⟩ := List.getElem?_eq_some_iff.mp hentry
    omega
  | takeToken kind i' prioList hpos =>
    obtain ⟨hzero, -⟩ := hnone _ _ _ _ rfl
    omega
  | @noToken kind i' name prioList =>
    obtain ⟨rfl, hname⟩ := hlooks
    refine ⟨rfl, i' + 1, rfl, ?_⟩
    obtain ⟨-, hnil⟩ := hnone _ _ _ _ rfl
    rcases Nat.lt_or_eq_of_le hle with hlt | rfl
    · exact hlt
    · rw [hentry] at hname
      cases hname
      exact absurd hnil hqueue

/-- A round that has taken nothing so far has not looked at all lists. -/
theorem searching_next (hrun : RunsTo (next cfg) (fun _ _ => True) (start cfg ALG priorities) st)
    (h : next cfg st a = some st') (htakes : ¬ takesImage st a) (hreorders : ¬ reordersQueues st a)
    (hst : Searching st) : Searching st' := by
  obtain ⟨i, j, entry, hlooks, hle, hentry, hqueue⟩ := hst
  rcases next_cases h with ⟨op, ops, s, hops, hexec, rfl⟩ | ⟨s, th, hops, hmoves, rfl⟩
  · have hpc : (Function.update st.thread a.1 ⟨(st.thread a.1).pc, ops⟩ .sts).pc =
        (st.thread .sts).pc := by
      by_cases ha : a.1 = .sts
      · rw [ha, Function.update_self]
      · rw [Function.update_of_ne (Ne.symm ha)]
    refine ⟨i, j, entry, ?_, hle, ?_, queue_exec hexec hqueue⟩
    · rw [hpc, (unwritten_exec hexec).queuesArray]
      exact hlooks
    · rw [(unwritten_exec hexec).queuesArray]
      exact hentry
  · have hthread : st.thread a.1 = ⟨(st.thread a.1).pc, []⟩ := by rw [← hops]
    by_cases ha : a.1 = .sts
    · rw [ha] at hmoves hthread
      cases hmoves with
      | sts hmoves =>
        obtain ⟨rfl, i', hlooks', hle'⟩ := searching_sts hmoves hlooks hle hentry hqueue (by
          intro kind i name prioList hpc
          have hexact := served_exact hrun name (by rw [hpc]; rfl)
          have hzero : st.shared.sem name.queue.empty = 0 := by
            by_contra hpos
            refine htakes ?_
            rw [takesImage, ha, hthread, hpc]
            simpa using Nat.pos_of_ne_zero hpos
          rw [hzero] at hexact
          exact ⟨hzero, List.length_eq_zero_iff.mp hexact.symm⟩)
        refine ⟨i', j, entry, ?_, hle', hentry, hqueue⟩
        rw [ha]
        dsimp only
        rw [Function.update_self]
        exact hlooks'
    · have harray : s.queuesArray = st.shared.queuesArray := by
        refine (queuesArray_control hmoves).resolve_right ?_
        rintro ⟨priorities, hpc, -⟩
        refine hreorders ?_
        rw [reordersQueues, hthread, hpc]
      refine ⟨i, j, entry, ?_, hle, ?_, ?_⟩
      · dsimp only
        rw [Function.update_of_ne (Ne.symm ha), harray]
        exact hlooks
      · rw [harray]
        exact hentry
      · rw [served_control hmoves ha]
        exact hqueue

/-- A round does not end before it has taken an image, unless `configure` reorders the lists
meanwhile. -/
theorem round_takes (hok : ∀ st a, ok st a → ¬ takeInFails st a)
    (h : RunsTo (next cfg) ok (start cfg ALG priorities) st) {kind : Round} {prioList : List Ptr}
    (hpc : (st.thread .sts).pc = .round kind 0 prioList)
    (h' : RunsTo (next cfg) (fun st a => ¬ takesImage st a ∧ ¬ reordersQueues st a) st st')
    {kind' : Round} {i : ℕ} {prioList' : List Ptr}
    (hpc' : (st'.thread .sts).pc = .round kind' i prioList') :
    i < st'.shared.queuesArray.length := by
  have hsearching : Searching st := by
    obtain ⟨entry, hmem, -, hqueue⟩ := round_finds hok h hpc
    obtain ⟨j, hj, hentry⟩ := List.mem_iff_getElem.mp hmem
    refine ⟨0, j, entry, by rw [hpc]; rfl, Nat.zero_le _, ?_, hqueue⟩
    rw [List.getElem?_eq_getElem hj, hentry]
  obtain ⟨-, i', j, entry, hlooks, hle, hentry, -⟩ := h'.invariant
    (P := fun st => RunsTo (next cfg) (fun _ _ => True) (start cfg ALG priorities) st ∧
      Searching st) ⟨h.mono fun _ _ _ => trivial, hsearching⟩ fun st a st' hst ha hnext =>
        ⟨hst.1.step a trivial hnext, searching_next hst.1 hnext ha.1 ha.2 hst.2⟩
  rw [hpc'] at hlooks
  obtain rfl : i = i' := hlooks
  exact lt_of_le_of_lt hle (List.getElem?_eq_some_iff.mp hentry).1

/-- In every run in which the `sem_trywait(STS_in_empty)` of a round never fails, `STS_in_empty`
counts the waiting images while nobody is between two posts and `STS` is not in a round, and
every round finds an image. -/
theorem wake_up_count_exact (cfg : Config) (ALG : Algorithm) (priorities : QueueName → ℤ) (st : PP)
    (h : RunsTo (next cfg) (fun st a => ¬ takeInFails st a) (start cfg ALG priorities) st) :
    ((∀ t ∈ cfg.threads, ¬ betweenPosts (st.thread t)) → (st.thread .sts).pc = .readALG →
      st.shared.sem .stsInEmpty = arrived st.shared) ∧
      ∀ kind prioList, (st.thread .sts).pc = .round kind 0 prioList →
        (∃ entry ∈ st.shared.queuesArray, 0 < st.shared.sem entry.name.queue.empty ∧
          st.shared.queue entry.name.queue ≠ []) ∧
        ∀ st', RunsTo (next cfg) (fun st a => ¬ takesImage st a ∧ ¬ reordersQueues st a) st st' →
          ∀ kind' i prioList', (st'.thread .sts).pc = .round kind' i prioList' →
            i < st'.shared.queuesArray.length := by
  refine ⟨fun hposts hpc => ?_, fun kind prioList hpc => ⟨round_finds (fun _ _ => id) h hpc, ?_⟩⟩
  · have heq := arrived_eq (fun _ _ => id) h (by rw [hpc]; rfl)
    have hzero : ∑ t ∈ cfg.threads,
        (if (st.thread t).ops.head? = some (.post .stsInEmpty) then (1 : ℤ) else 0) = 0 :=
      Finset.sum_eq_zero fun t ht => if_neg (hposts t ht)
    omega
  · intro st' h' kind' i prioList' hpc'
    exact round_takes (fun _ _ => id) h hpc h' hpc'

def startsRound (pc : Label) : Bool :=
  match pc with
  | .round .fifo 0 [] => true
  | _ => false

theorem wake_up_count_exact_once : ∃ st : PP, (st.thread .sts).pc = .round .fifo 0 [] ∧
    ((∀ t ∈ smallConfig.threads, ¬ betweenPosts (st.thread t)) →
      (st.thread .sts).pc = .readALG → st.shared.sem .stsInEmpty = arrived st.shared) ∧
      ∀ kind prioList, (st.thread .sts).pc = .round kind 0 prioList →
        (∃ entry ∈ st.shared.queuesArray, 0 < st.shared.sem entry.name.queue.empty ∧
          st.shared.queue entry.name.queue ≠ []) ∧
        ∀ st', RunsTo (next smallConfig)
          (fun st a => ¬ takesImage st a ∧ ¬ reordersQueues st a) st st' →
          ∀ kind' i prioList', (st'.thread .sts).pc = .round kind' i prioList' →
            i < st'.shared.queuesArray.length := by
  have hrun : ((follow (next smallConfig) (fun st a => !takeInFails st a)
      (start smallConfig .fifo fun _ => 0) (goes .ltsConex 3 ++ submits idleScript 0 ++
        goes .sts 7)).any fun st => startsRound (st.thread .sts).pc) = true := by
    decide +kernel
  obtain ⟨st, hst, hpc⟩ := (Option.any_eq_true _ _).mp hrun
  have hexact := wake_up_count_exact smallConfig .fifo (fun _ => 0) st
    (RunsTo.of_follow (fun st a h => by simpa using h) _ hst)
  unfold startsRound at hpc
  split at hpc
  case h_1 heq => exact ⟨st, heq, hexact⟩
  case h_2 => cases hpc

/-- What a producer does behind its first post. -/
def endsPush : Operation → Bool
  | .post .stsInEmpty | .unlock _ => true
  | _ => false

def atHead (th : Thread Operation Label) : Bool :=
  match th with
  | ⟨.readALG, ops⟩ => ops == STS.wait
  | _ => false

/-- `STS`, in a round, takes the image that `LTSconex` has pushed before its second post. -/
theorem stale_wake_up : ¬ ∀ (cfg : Config) (ALG : Algorithm) (priorities : QueueName → ℤ)
    (st : PP), RunsTo (next cfg) (fun _ _ => True) (start cfg ALG priorities) st →
      (∀ t ∈ cfg.threads, t ≠ .sts → ∀ op ∈ (st.thread t).ops, ¬ endsPush op) →
      (st.thread .sts).pc = .readALG → (st.thread .sts).ops = STS.wait →
      st.shared.sem .stsInEmpty = arrived st.shared := by
  intro h
  have hrun : ((follow (next smallConfig) (fun _ _ => true)
      (start smallConfig .fifo fun _ => 0) (goes .ltsConex 3 ++ submits idleScript 0 ++
        goes .sts 19 ++ (submits idleScript 0).take 8 ++ goes .sts 2 ++ goes .ltsConex 2 ++
          goes .sts 18)).any fun st =>
            decide (∀ t ∈ smallConfig.threads, t ≠ .sts → ∀ op ∈ (st.thread t).ops,
              ¬ endsPush op) &&
            atHead (st.thread .sts) &&
            st.shared.sem .stsInEmpty == 1 && arrived st.shared == 0) = true := by
    decide +kernel
  obtain ⟨st, hst, hvalues⟩ := (Option.any_eq_true _ _).mp hrun
  simp only [Bool.and_eq_true, beq_iff_eq, decide_eq_true_eq] at hvalues
  obtain ⟨⟨⟨hproducers, hsts⟩, hsem⟩, harrived⟩ := hvalues
  have hcount := h smallConfig .fifo (fun _ => 0) st
    (RunsTo.of_follow (fun _ _ _ => trivial) _ hst) hproducers
  unfold atHead at hsts
  split at hsts
  case h_1 hthread =>
    rw [hthread, hsem, harrived] at hcount
    exact absurd (hcount rfl (beq_iff_eq.mp hsts)) (by decide)
  case h_2 => cases hsts

end Runs

end PP
end Sisop
