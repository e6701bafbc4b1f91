import Sisop.LockDiscipline
import Sisop.PoolTest
import Sisop.ProcessConservation
import Sisop.ReadyOrder
import Sisop.WakeUpCount

/-!
# PP at rest

PP is at rest when no thread can go on before a client, the operator or the kernel does something.
No wake-up is ever lost: at rest no mutex is held, the lists that `STS`, `PROCER` and the I/O
threads serve are empty, and so is `LFIFO` unless the tokens of `MMP_sem` are used up. A
`sem_trywait` that fails in a round or in a re-sort leaves a semaphore too high, never too low.
-/

namespace Sisop
namespace PP

variable {cfg : Config} {s s' : Shared} {pc : Label} {th : Thread Operation Label}

/-- Only something from outside brings a thread past these control points. -/
def awaits : Label → Bool
  | .epollWait | .awaitScript _ | .awaitRequest _ | .sending _ _ _ | .awaitReload
  | .awaitSignal => true
  | _ => false

/-- The thread waits for an event, or its next operation is blocked. -/
def Stays (t : Tid) (s : Shared) (th : Thread Operation Label) : Prop :=
  match th.ops with
  | [] => awaits th.pc = true
  | op :: _ => op.exec t s = none

instance (t : Tid) (s : Shared) (th : Thread Operation Label) : Decidable (Stays t s th) := by
  unfold Stays
  split <;> infer_instance

def AtRest (cfg : Config) (st : PP) : Prop :=
  ∀ t ∈ cfg.threads, Stays t st.shared (st.thread t)

instance (cfg : Config) (st : PP) : Decidable (AtRest cfg st) :=
  Finset.decidableDforallFinset

/-- What stands behind a `sem_wait` up to the next control point. -/
def afterWait : Semaphore → List Operation
  | .stsInEmpty => [.post .stsInEmpty, .lock .alg]
  | .lplEmpty => [.lock .lpl]
  | .lfifoEmpty => [.wait .mmpSem, .lock .lfifo]
  | .mmpSem => [.lock .lfifo]
  | .lpbEmpty => [.wait .ioThreads, .lock .lpb]
  | .ioThreads => [.lock .lpb]
  | _ => []

def waitLabel : Semaphore → Label
  | .stsInEmpty => .readALG
  | .lplEmpty => .popReady
  | .lfifoEmpty | .mmpSem => .popFIFO
  | .lpbEmpty | .ioThreads => .popLPB
  | _ => .epollWait

/-- A thread that waits is at the head of its loop. -/
def WaitPlan (_ : Tid) (th : Thread Operation Label) : Prop :=
  ∀ sem ops, .wait sem :: ops <:+ th.ops → ops = afterWait sem ∧ th.pc = waitLabel sem

theorem waitPlan_tail (t : Tid) (pc : Label) (op : Operation) (ops : List Operation)
    (h : WaitPlan t ⟨pc, op :: ops⟩) : WaitPlan t ⟨pc, ops⟩ :=
  fun sem ops' hops' => h sem ops' (hops'.trans (List.suffix_cons op ops))

theorem waitPlan_of_not_mem {t : Tid} (h : ∀ sem, .wait sem ∉ th.ops) : WaitPlan t th :=
  fun sem _ hops => absurd (hops.subset List.mem_cons_self) (h sem)

/-- In front of the head of the loop stands nothing that waits. -/
theorem waitPlan_append {t : Tid} {ops ops' : List Operation} (h : ∀ sem, .wait sem ∉ ops)
    (h' : WaitPlan t ⟨pc, ops'⟩) : WaitPlan t ⟨pc, ops ++ ops'⟩ := by
  induction ops with
  | nil => exact h'
  | cons op ops ih =>
    intro sem rest hrest
    rcases List.suffix_cons_iff.mp hrest with heq | hrest
    · cases heq
      exact absurd List.mem_cons_self (h sem)
    · exact ih (fun sem hmem => h sem (List.mem_cons_of_mem _ hmem)) sem rest hrest

theorem waitPlan_cons {t : Tid} {sem : Semaphore}
    (h : WaitPlan t ⟨waitLabel sem, afterWait sem⟩) :
    WaitPlan t ⟨waitLabel sem, .wait sem :: afterWait sem⟩ := by
  intro sem' ops hops
  rcases List.suffix_cons_iff.mp hops with heq | hops
  · obtain ⟨hsem, rfl⟩ := List.cons.inj heq
    obtain rfl := Operation.wait.inj hsem
    exact ⟨rfl, rfl⟩
  · exact h sem' ops hops

theorem waitPlan_wait (t : Tid) (sem : Semaphore) :
    WaitPlan t ⟨waitLabel sem, .wait sem :: afterWait sem⟩ := by
  apply waitPlan_cons
  cases sem with
  | lfifoEmpty => exact @waitPlan_cons t .mmpSem (waitPlan_of_not_mem (by simp [afterWait]))
  | lpbEmpty => exact @waitPlan_cons t .ioThreads (waitPlan_of_not_mem (by simp [afterWait]))
  | _ => exact waitPlan_of_not_mem (by simp [afterWait])

theorem waitPlan_orderInsert {t : Tid} (h : OrderInsert.Moves s pc s' th) : WaitPlan t th := by
  cases h with
  | finish key caller =>
    cases caller with
    | sts => exact waitPlan_append (by simp) (waitPlan_wait _ .stsInEmpty)
    | configure => exact waitPlan_of_not_mem (by simp [OrderInsert.finish])
  | _ => exact waitPlan_of_not_mem (by simp)

theorem waitPlan_sts (h : STS.Moves s pc s' th) : WaitPlan .sts th := by
  cases h with
  | orderInsert h => exact waitPlan_orderInsert h
  | endRound kind =>
    cases kind with
    | fifo => exact waitPlan_append (by simp) (waitPlan_wait _ .stsInEmpty)
    | _ => exact waitPlan_of_not_mem (by simp [STS.endRound])
  | pop kind =>
    cases kind <;> exact waitPlan_of_not_mem (by simp [STS.takeOver, logWrite, enqueueLocked])
  | _ => exact waitPlan_of_not_mem (by simp [STS.startRound])

theorem waitPlan_procer (h : PROCER.Moves cfg s pc s' th) : WaitPlan .procer th := by
  cases h with
  | @pop p ps code =>
    refine waitPlan_of_not_mem fun sem hmem => ?_
    rcases List.mem_append.mp hmem with hmem | hmem
    · simp [logWrite] at hmem
    · cases Exec.enter_scriptOperation p 0 (s.image p) _ hmem
  | run _ hmoves =>
    refine waitPlan_of_not_mem fun sem hmem => ?_
    cases hmoves.scriptOperation _ hmem
  | finished | suspended | endOfQuantum =>
    exact waitPlan_append (by simp [logWrite, sendMsg, enqueueForSTS]) (waitPlan_wait _ .lplEmpty)
  | blocked | dropped => exact waitPlan_wait _ .lplEmpty

/-- Threads that never wait. -/
theorem waitPlan_of_operationOf {t : Tid} (h : ∀ op ∈ th.ops, OperationOf t op)
    (ht : ∀ sem, ¬ OperationOf t (.wait sem)) : WaitPlan t th :=
  waitPlan_of_not_mem fun sem hmem => ht sem (h _ hmem)

theorem waitPlan_control {t : Tid} (h : Moves cfg s t pc s' th)
    (hops : ∀ op ∈ th.ops, OperationOf t op) : WaitPlan t th := by
  cases h with
  | ltsConex | configure | raise =>
    refine waitPlan_of_operationOf hops fun sem h => ?_
    cases h
  | ltsNew =>
    exact waitPlan_append (by simp [logWrite, enqueueForSTS]) (waitPlan_wait _ .lfifoEmpty)
  | sts h => exact waitPlan_sts h
  | procer h => exact waitPlan_procer h
  | @ioThread i ioProcessing =>
    refine waitPlan_append ?_ (waitPlan_wait _ .lpbEmpty)
    cases hflag : ioProcessing.ioInfo.flagNonBlocking <;>
      simp [IoThread.serve, logWrite, enqueueForSTS, hflag]

theorem waitPlan_initial (t : Tid) : WaitPlan t (initialThread t) := by
  cases t with
  | ltsNew => exact waitPlan_append (by simp) (waitPlan_wait _ .lfifoEmpty)
  | sts => exact waitPlan_append (by simp) (waitPlan_wait _ .stsInEmpty)
  | procer => exact waitPlan_append (by simp) (waitPlan_wait _ .lplEmpty)
  | ioThread i => exact waitPlan_append (by simp) (waitPlan_wait _ .lpbEmpty)
  | _ => exact waitPlan_of_not_mem (by simp [initialThread, logWrite])

/-- The entries that `LPB_empty` promises beyond those in `LPB`; an I/O thread that still has to
wait for its entry owes it. -/
def entries : Ledger Operation Label Shared ℤ where
  held s := s.sem .lpbEmpty - s.LPB.length
  pc
    | .popLPB => 1
    | _ => 0
  op
    | .wait .lpbEmpty => -1
    | .post .lpbEmpty => 1
    | _ => 0

theorem entries_exec {t : Tid} {op : Operation} (h : op.exec t s = some s') :
    entries.held s' = entries.held s + entries.op op := by
  cases op with
  | lock m | unlock m =>
    simp only [Operation.exec] at h
    split_ifs at h
    cases h
    simp [entries, Shared.setOwner]
  | wait sem =>
    simp only [Operation.exec] at h
    split_ifs at h with hpos
    cases h
    cases sem <;> simp [entries, Shared.tryWait]
    omega
  | post sem =>
    cases h
    cases sem <;> simp [entries, Shared.post]
    omega
  | enqueue q p =>
    cases h
    cases q <;> simp [entries, Shared.post, Shared.setQueue, Queue.empty]
  | _ =>
    cases h
    simp [entries, Shared.post, Shared.setConnection]

theorem entries_orderInsert (h : OrderInsert.Moves s pc s' th) :
    entries.held s' = entries.held s := by
  cases h <;> simp [entries, Shared.tryWait, Shared.setQueue]

/-- Outside the I/O threads a control step leaves `LPB` and its semaphore alone. -/
theorem entries_moves {t : Tid} (h : Moves cfg s t pc s' th) (ht : ∀ i, t ≠ .ioThread i) :
    entries.held s' = entries.held s := by
  cases h with
  | ltsConex h => cases h <;> simp [entries, Shared.tryWait, Shared.allocate, Shared.accept,
      Shared.setConnection]
  | sts h =>
    cases h with
    | orderInsert h => exact entries_orderInsert h
    | @takeToken kind i name => cases name <;> rfl
    | _ => rfl
  | configure h =>
    cases h with
    | orderInsert h => exact entries_orderInsert h
    | _ => rfl
  | procer h => cases h <;> rfl
  | ioThread i => exact absurd rfl (ht i)
  | _ => rfl

theorem entries_pc {t : Tid} (h : homeOf pc t) (ht : ∀ i, t ≠ .ioThread i) :
    entries.pc pc = 0 := by
  cases pc with
  | popLPB =>
    obtain ⟨i, rfl⟩ := h
    exact absurd rfl (ht i)
  | _ => rfl

theorem entries_idle {t : Tid} (hpc : homeOf th.pc t) (hops : ∀ op ∈ th.ops, OperationOf t op)
    (ht : ∀ i, t ≠ .ioThread i) : entries.thread th = 0 := by
  rw [Ledger.thread, entries_pc hpc ht, zero_add]
  refine entries.ops_eq_zero fun op hop => ?_
  cases hops op hop with
  | entry => exact absurd rfl (ht _)
  | _ => rfl

theorem entries_control {t : Tid} (h : Moves cfg s t pc s' th) (hhome : homeOf pc t) :
    entries.held s' + entries.thread th = entries.held s + entries.pc pc := by
  by_cases ht : ∃ i, t = .ioThread i
  · obtain ⟨i, rfl⟩ := ht
    cases h with
    | @ioThread _ ioProcessing LPB hLPB =>
      cases hflag : ioProcessing.ioInfo.flagNonBlocking <;>
        simp [entries, Ledger.thread, IoThread.serve, IoThread.wait, logWrite, enqueueForSTS,
          hflag, hLPB] <;> omega
  · push Not at ht
    rw [entries_moves h ht, entries_idle (homeOf_control h hhome) (operationOf_control h hhome) ht,
      entries_pc hhome ht]

theorem wakeUps_le_control {t : Tid} (h : Moves cfg s t pc s' th) :
    wakeUps.held s + wakeUps.pc pc ≤ wakeUps.held s' + wakeUps.thread th := by
  by_cases htoken : ∀ kind i name prioList, pc = .takeIn kind i name prioList →
    0 < s.sem .stsInEmpty
  · exact (wakeUps_control h htoken).ge
  · push Not at htoken
    obtain ⟨kind, i, name, prioList, rfl, hzero⟩ := htoken
    cases h with
    | sts h =>
      cases h with
      | takeIn =>
        simp [wakeUps, arrived, Ledger.thread, Shared.tryWait]
        omega
      | orderInsert h => cases h
    | configure h =>
      cases h with
      | orderInsert h => cases h
    | ltsConex h | procer h => cases h

theorem heldAt_of_awaits (h : awaits pc = true) : heldAt pc = [] := by
  cases pc with
  | epollWait | awaitScript | awaitRequest | sending | awaitReload | awaitSignal => rfl
  | _ => cases h

/-- A thread holds no mutex where it waits for an event. -/
theorem not_owner_of_awaits {t : Tid} (h : OwnsInOrder t s ⟨pc, []⟩) (hpc : awaits pc = true)
    (m : Mutex) : s.owner m ≠ some t := by
  refine h.not_held (fun held hrun => ?_) m
  rw [heldAt_of_awaits hpc] at hrun
  exact Option.some.inj hrun

/-- Nor does it in front of a `sem_wait`. -/
theorem not_owner_of_wait {t : Tid} {sem : Semaphore}
    (h : OwnsInOrder t s ⟨waitLabel sem, .wait sem :: afterWait sem⟩) (m : Mutex) :
    s.owner m ≠ some t := by
  refine h.not_held (fun held hrun => ?_) m
  cases sem with
  | stsInEmpty | lplEmpty | lfifoEmpty | mmpSem | lpbEmpty | ioThreads =>
    simp only [afterWait, waitLabel, heldAt, lockAction, lockRun, List.map_cons, List.map_nil]
      at hrun
    split_ifs at hrun
    exact List.cons_eq_cons.mp (Option.some.inj hrun) |>.2
  | _ => exact Option.some.inj hrun

/-- A thread unlocks only what it holds. -/
theorem OwnsInOrder.owner_of_unlock {t : Tid} {m : Mutex} {ops : List Operation}
    (h : OwnsInOrder t s ⟨pc, .unlock m :: ops⟩) : s.owner m = some t := by
  obtain ⟨held, -, hheld, hrun⟩ := h
  simp only [List.map_cons, lockAction, lockRun] at hrun
  split_ifs at hrun with hmem
  exact (hheld m).mp hmem

/-- Why a thread stays: it waits for an event, for a token that is not there, or for a mutex. -/
theorem stays_cases {t : Tid} (h : Stays t s th) (howns : OwnsInOrder t s th)
    (hshape : WaitPlan t th) : (th.ops = [] ∧ awaits th.pc = true) ∨
      (∃ sem, th = ⟨waitLabel sem, .wait sem :: afterWait sem⟩ ∧ s.sem sem = 0) ∨
      ∃ m, wants th = some m ∧ s.owner m ≠ none := by
  obtain ⟨pc, ops⟩ := th
  rcases ops with _ | ⟨op, ops⟩
  · exact .inl ⟨rfl, h⟩
  · replace h : op.exec t s = none := h
    cases op with
    | lock m =>
      refine .inr (.inr ⟨m, rfl, fun hfree => ?_⟩)
      rw [Operation.exec, if_pos hfree] at h
      cases h
    | unlock m =>
      rw [Operation.exec, if_pos howns.owner_of_unlock] at h
      cases h
    | wait sem =>
      obtain ⟨rfl, rfl⟩ := hshape sem ops List.suffix_rfl
      refine .inr (.inl ⟨sem, rfl, ?_⟩)
      by_contra hpos
      rw [Operation.exec, if_pos (Nat.pos_of_ne_zero hpos)] at h
      cases h
    | _ => cases h

section Runs

variable {ok : PP → Step → Prop} {st st' : PP} {a : Step} {ALG : Algorithm}
  {priorities : QueueName → ℤ}

theorem waitPlan_run (h : RunsTo (next cfg) ok (start cfg ALG priorities) st) (t : Tid) :
    WaitPlan t (st.thread t) :=
  shape_run waitPlan_initial waitPlan_tail (fun hmoves _ hops _ => waitPlan_control hmoves hops)
    h t

/-- What is no thread of this configuration never moves. -/
theorem thread_of_not_mem (h : RunsTo (next cfg) ok (start cfg ALG priorities) st) {t : Tid}
    (ht : t ∉ cfg.threads) : st.thread t = initialThread t := by
  refine h.invariant (P := fun st => st.thread t = initialThread t) rfl
    fun st a st' hst _ hnext => ?_
  have hne : t ≠ a.1 := by
    rintro rfl
    exact ht (next_eq_some hnext).1
  rw [Machine.thread_of_ne (next_eq_some hnext).2 hne, hst]

theorem not_owner_of_not_mem (h : RunsTo (next cfg) ok (start cfg ALG priorities) st) {t : Tid}
    (ht : t ∉ cfg.threads) (howns : OwnsInOrder t st.shared (st.thread t)) (m : Mutex) :
    st.shared.owner m ≠ some t := by
  rw [thread_of_not_mem h ht] at howns
  cases t with
  | ioThread i =>
    -- the log that the thread would create first takes no mutex
    exact @not_owner_of_wait st.shared (.ioThread i) .lpbEmpty howns.other m
  | _ => exact absurd (by simp [Config.threads]) ht

/-- Nobody holds a mutex at rest: a thread that holds one without waiting for another goes on. -/
theorem owner_at_rest (h : RunsTo (next cfg) (fun st a => locksPoolAgain st a = false)
    (start cfg ALG priorities) st) (hrest : AtRest cfg st) (m : Mutex) :
    st.shared.owner m = none := by
  by_contra hheld
  obtain ⟨t, howner⟩ := Option.ne_none_iff_exists'.mp hheld
  have howns := ownsInOrder_run h
  have hbound : ∀ m', rank m' ≤ rank m + 1 := by
    intro m'
    cases m' <;> simp [rank]
  obtain ⟨m', u, howner', hgoing⟩ :=
    (OwnsInOrder.asksUpwards howns).exists_going howner hbound
  by_cases hu : u ∈ cfg.threads
  · have hshape := waitPlan_run h u
    obtain ⟨hops, hawaits⟩ | ⟨sem, hth, -⟩ | ⟨m'', hwants, hne⟩ :=
      stays_cases (hrest u hu) (howns u) hshape
    · have howns' : OwnsInOrder u st.shared ⟨(st.thread u).pc, []⟩ := by
        rw [← hops]
        exact howns u
      exact not_owner_of_awaits howns' hawaits m' howner'
    · have howns' := howns u
      rw [hth] at howns'
      exact not_owner_of_wait howns' m' howner'
    · exact hne (hgoing m'' hwants)
  · exact not_owner_of_not_mem h hu (howns u) m' howner'

/-- At rest a thread waits for an event or for a token that is not there. -/
theorem stays_at_rest (h : RunsTo (next cfg) (fun st a => locksPoolAgain st a = false)
    (start cfg ALG priorities) st) (hrest : AtRest cfg st) {t : Tid} (ht : t ∈ cfg.threads) :
    ((st.thread t).ops = [] ∧ awaits (st.thread t).pc = true) ∨
      ∃ sem, st.thread t = ⟨waitLabel sem, .wait sem :: afterWait sem⟩ ∧
        st.shared.sem sem = 0 ∧ OperationOf t (.wait sem) := by
  rcases stays_cases (hrest t ht) (ownsInOrder_run h t) (waitPlan_run h t) with
    hawaits | ⟨sem, hth, hsem⟩ | ⟨m, -, hheld⟩
  · exact .inl hawaits
  · refine .inr ⟨sem, hth, hsem, ?_⟩
    have hops := (operationOf_run h t).2
    rw [hth] at hops
    exact hops _ List.mem_cons_self
  · exact absurd (owner_at_rest h hrest m) hheld

theorem entries_total (h : RunsTo (next cfg) ok (start cfg ALG priorities) st) :
    entries.total cfg.threads st = 0 := by
  induction h with
  | start =>
    have hzero : ∀ t, entries.thread (initialThread t) = 0 := by
      intro t
      cases t <;> rfl
    rw [Ledger.total, show entries.held (start cfg ALG priorities).shared = 0 from rfl, zero_add]
    exact Finset.sum_eq_zero fun t _ => hzero t
  | step a hrun _ hnext ih =>
    have hhome := (operationOf_run hrun a.1).1
    rw [total_next entries_exec (fun _ _ _ hmoves => entries_control hmoves hhome) hnext]
    exact ih

/-- In every run `STS_in_empty` counts at least the images that wait for `STS`. -/
theorem wakeUps_total_nonneg (h : RunsTo (next cfg) ok (start cfg ALG priorities) st) :
    0 ≤ wakeUps.total cfg.threads st := by
  induction h with
  | start => exact (wakeUps_run (fun _ _ ha => ha) .start).ge
  | step a _ _ hnext ih =>
    exact ih.trans (Ledger.le_total_step (next_eq_some hnext).2 (next_eq_some hnext).1
      (fun _ _ => wakeUps_exec) fun _ _ _ hth => wakeUps_le_control (moves_of_control hth))

/-- In every run `LPL_empty` and the token of `PROCER` cover the ready images. -/
theorem ready_length_le (h : RunsTo (next cfg) ok (start cfg ALG priorities) st) :
    (st.shared.queue .lpl).length ≤
      st.shared.sem .lplEmpty + tokenInHand .lpl (st.thread .procer) := by
  have htotal : 0 ≤ (queueTokens .lpl).total cfg.threads st := by
    induction h with
    | start =>
      rw [queueTokens_total (show ∀ t, TokenShape t ((start cfg ALG priorities).thread t) from
        tokenShape_initial)]
      exact Int.le_refl _
    | step a _ _ hnext ih => exact ih.trans (queueTokens_le_next hnext)
  rw [queueTokens_total (tokenShape_run h)] at htotal
  simp only [queueTokens, consumer, Queue.empty] at htotal
  omega

end Runs

def inner : Tid → Bool
  | .ltsNew | .sts | .procer | .ioThread _ => true
  | _ => false

/-- They never wait for an event. -/
theorem not_awaits {t : Tid} (hpc : homeOf pc t) (ht : inner t = true) : awaits pc = false := by
  cases pc with
  | epollWait | awaitScript | awaitRequest | sending | awaitReload | awaitSignal =>
    obtain rfl := hpc
    cases ht
  | _ => rfl

section Rest

variable {st : PP} {ALG : Algorithm} {priorities : QueueName → ℤ}
  (h : RunsTo (next cfg) (fun st a => locksPoolAgain st a = false) (start cfg ALG priorities) st)
  (hrest : AtRest cfg st)

include h hrest

/-- What a thread accounts for is settled where it stays at rest. -/
theorem idle_at_rest {t : Tid} (ht : t ∈ cfg.threads) :
    wakeUps.thread (st.thread t) = 0 := by
  rcases stays_at_rest h hrest ht with ⟨hops, hawaits⟩ | ⟨sem, hth, -, -⟩
  · rw [Ledger.thread, hops, Ledger.ops_nil, add_zero]
    generalize (st.thread t).pc = pc at hawaits
    cases pc with
    | popQueue => cases hawaits
    | _ => rfl
  · rw [hth]
    cases sem <;> rfl

theorem waits_at_rest {t : Tid} (ht : t ∈ cfg.threads) (hinner : inner t = true) :
    ∃ sem, st.thread t = ⟨waitLabel sem, .wait sem :: afterWait sem⟩ ∧
      st.shared.sem sem = 0 ∧ OperationOf t (.wait sem) := by
  rcases stays_at_rest h hrest ht with ⟨-, hawaits⟩ | hwaits
  · rw [not_awaits (operationOf_run h t).1 hinner] at hawaits
    cases hawaits
  · exact hwaits

theorem arrived_at_rest : arrived st.shared = 0 := by
  obtain ⟨sem, -, hsem, hop⟩ := waits_at_rest h hrest
    (t := .sts) (by simp [Config.threads]) rfl
  cases hop
  have htotal := wakeUps_total_nonneg h
  rw [Ledger.total, Finset.sum_eq_zero fun t ht => idle_at_rest h hrest ht] at htotal
  simp only [wakeUps] at htotal
  omega

theorem ready_at_rest : st.shared.queue .lpl = [] := by
  obtain ⟨sem, hth, hsem, hop⟩ := waits_at_rest h hrest
    (t := .procer) (by simp [Config.threads]) rfl
  cases hop
  have hle := ready_length_le h
  rw [hth] at hle
  have hnone : tokenInHand .lpl ⟨waitLabel .lplEmpty, .wait .lplEmpty :: afterWait .lplEmpty⟩ = 0 :=
    rfl
  rw [hnone, hsem] at hle
  exact List.length_eq_zero_iff.mp (Nat.le_zero.mp hle)

theorem delayed_at_rest :
    st.shared.queue .lfifo = [] ∨ st.shared.sem .mmpSem = 0 := by
  obtain ⟨sem, hth, hsem, hop⟩ := waits_at_rest h hrest
    (t := .ltsNew) (by simp [Config.threads]) rfl
  cases hop with
  | delayed =>
    have hlength := queueTokens_run .lfifo (fun hq => by cases hq) h
    rw [consumer, hth] at hlength
    have hnone : tokenInHand .lfifo
        ⟨waitLabel .lfifoEmpty, .wait .lfifoEmpty :: afterWait .lfifoEmpty⟩ = 0 := rfl
    rw [hnone, Queue.empty, hsem] at hlength
    exact .inl (List.length_eq_zero_iff.mp hlength.symm)
  | token => exact .inr hsem

/-- No I/O thread serves an entry or has a token for one. -/
theorem pool_at_rest : st.shared.sem .ioThreads = cfg.IO_THREADS := by
  have hconserved := pool_conserved h
  have hnone : ∀ f, (f = serving ∨ f = aboutToPop) → threadsThat cfg st f = 0 := by
    intro f hf
    refine Finset.card_eq_zero.mpr (Finset.filter_eq_empty_iff.mpr fun i hi => ?_)
    have hmem : .ioThread i ∈ cfg.threads := by simp [Config.threads, Finset.mem_range.mp hi]
    obtain ⟨sem, hth, -, hop⟩ := waits_at_rest h hrest hmem rfl
    rw [hth]
    rcases hf with rfl | rfl <;> cases hop <;> exact Bool.false_ne_true
  rw [hnone _ (.inl rfl), hnone _ (.inr rfl)] at hconserved
  omega

theorem ioThread_at_rest {i : ℕ} (hi : i < cfg.IO_THREADS) :
    st.thread (.ioThread i) = ⟨waitLabel .lpbEmpty, .wait .lpbEmpty :: afterWait .lpbEmpty⟩ ∧
      st.shared.sem .lpbEmpty = 0 := by
  have hmem : .ioThread i ∈ cfg.threads := by simp [Config.threads, hi]
  obtain ⟨sem, hth, hsem, hop⟩ := waits_at_rest h hrest hmem rfl
  cases hop with
  | entry => exact ⟨hth, hsem⟩
  | busy =>
    rw [pool_at_rest h hrest] at hsem
    omega

theorem blocked_at_rest (hworkers : 0 < cfg.IO_THREADS) : st.shared.LPB = [] := by
  have htotal := entries_total h
  rw [Ledger.total, sum_threads fun t ht =>
    entries_idle (operationOf_run h t).1 (operationOf_run h t).2 ht,
    Finset.sum_eq_zero fun i hi => ?_] at htotal
  · have hsem := (ioThread_at_rest h hrest hworkers).2
    simp only [entries, hsem] at htotal
    exact List.length_eq_zero_iff.mp (by omega)
  · rw [(ioThread_at_rest h hrest (Finset.mem_range.mp hi)).1]
    rfl

theorem inHands_at_rest {t : Tid} (ht : t ∈ cfg.threads) (p : Ptr) :
    inHands p (st.thread t) = 0 := by
  rcases stays_at_rest h hrest ht with ⟨hops, hawaits⟩ | ⟨sem, hth, -, -⟩
  · rw [inHands, hops]
    generalize (st.thread t).pc = pc at hawaits
    cases pc with
    | epollWait | awaitScript | awaitRequest | sending | awaitReload | awaitSignal => rfl
    | _ => cases hawaits
  · rw [hth]
    cases sem <;> rfl

end Rest

/-- A script is suspended at its first dispatch, and nobody resumes it. -/
theorem exists_at_rest : ∃ st : PP,
    RunsTo (next smallConfig) (fun st a => locksPoolAgain st a = false ∧ ¬ drainsIntoEmptyList st a)
      (start smallConfig .fifo fun _ => 0) st ∧ AtRest smallConfig st ∧ st.shared.LPS = [0] ∧
      st.shared.allocated = 1 ∧ st.shared.freed = [] := by
  have hrun : ((follow (next smallConfig)
      (fun st a => !locksPoolAgain st a && !drainsIntoEmptyList st a)
      (start smallConfig .fifo fun _ => 0) (goes .ltsConex 3 ++ goes .ltsNew 1 ++ goes .sts 1 ++
        goes .procer 1 ++ goes (.ioThread 0) 1 ++ goes (.ioThread 1) 1 ++ submits idleScript 0 ++
        goes .sts 27 ++ goes .procer 8 ++ [(.signalHandler, .raise)] ++ goes .procer 15)).any
          fun st => decide (AtRest smallConfig st) && st.shared.LPS == [0] &&
            st.shared.allocated == 1 && st.shared.freed == []) = true := by
    decide +kernel
  obtain ⟨st, hst, hvalues⟩ := (Option.any_eq_true _ _).mp hrun
  simp only [Bool.and_eq_true, beq_iff_eq, decide_eq_true_eq] at hvalues
  obtain ⟨⟨⟨hrest, hLPS⟩, hallocated⟩, hfreed⟩ := hvalues
  exact ⟨st, RunsTo.of_follow (fun st a h => by simpa using h) _ hst, hrest, hLPS, hallocated,
    hfreed⟩

/-- In every run in which `processExecution` never finds an I/O thread free for `v=io(t,0)`, nobody
rests on work: once no thread can go on, no mutex is held, no image waits for `STS`, for `PROCER`
or for I/O, and a delayed one waits for a token of `MMP_sem` that is not there. -/
theorem no_wake_up_lost (cfg : Config) (ALG : Algorithm) (priorities : QueueName → ℤ) (st : PP)
    (h : RunsTo (next cfg) (fun st a => locksPoolAgain st a = false) (start cfg ALG priorities) st)
    (hrest : AtRest cfg st) :
    (∀ m, st.shared.owner m = none) ∧ (∀ q, q ≠ .lfifo → st.shared.queue q = []) ∧
      (0 < cfg.IO_THREADS → st.shared.LPB = []) ∧
      (st.shared.queue .lfifo = [] ∨ st.shared.sem .mmpSem = 0) := by
  refine ⟨owner_at_rest h hrest, fun q hq => ?_, blocked_at_rest h hrest, delayed_at_rest h hrest⟩
  have harrived := arrived_at_rest h hrest
  rw [arrived] at harrived
  cases q with
  | lfifo => exact absurd rfl hq
  | lpl => exact ready_at_rest h hrest
  | _ => exact List.length_eq_zero_iff.mp (by omega)

theorem no_wake_up_lost_suspended : ∃ st : PP, st.shared.LPS = [0] ∧
    (∀ m, st.shared.owner m = none) ∧ (∀ q, q ≠ .lfifo → st.shared.queue q = []) ∧
      (0 < smallConfig.IO_THREADS → st.shared.LPB = []) ∧
      (st.shared.queue .lfifo = [] ∨ st.shared.sem .mmpSem = 0) := by
  obtain ⟨st, hruns, hrest, hLPS, -, -⟩ := exists_at_rest
  exact ⟨st, hLPS, no_wake_up_lost smallConfig .fifo (fun _ => 0) st
    (hruns.mono fun st a ha => ha.1) hrest⟩

/-- At rest every process admitted and not finished is suspended, or it is delayed because `MMP`
is exhausted, if no draining loop has inserted into an empty list before. -/
theorem suspended_or_delayed_at_rest (cfg : Config) (hquantum : 0 ≤ cfg.quantum)
    (hworkers : 0 < cfg.IO_THREADS) (ALG : Algorithm) (priorities : QueueName → ℤ) (st : PP)
    (h : RunsTo (next cfg) (fun st a => locksPoolAgain st a = false ∧ ¬ drainsIntoEmptyList st a)
      (start cfg ALG priorities) st) (hrest : AtRest cfg st) (p : Ptr)
    (hp : p < st.shared.allocated) (hfreed : p ∉ st.shared.freed) :
    st.shared.LPS.count p + (st.shared.queue .lfifo).count p = 1 ∧
      (p ∈ st.shared.queue .lfifo → st.shared.sem .mmpSem = 0) := by
  have hlocks : RunsTo (next cfg) (fun st a => locksPoolAgain st a = false)
      (start cfg ALG priorities) st := h.mono fun st a ha => ha.1
  have htotal := imageCount_eq (p := p)
    (fun st a hrun ha hops => not_loses hquantum hrun ha.2 hops) h
  rw [Ledger.total, Finset.sum_eq_zero fun t ht =>
    (imageCount_thread p _).trans (inHands_at_rest hlocks hrest ht p)] at htotal
  have harrived := arrived_at_rest hlocks hrest
  have hempty : ∀ q, (st.shared.queue q).length = 0 → (st.shared.queue q).count p = 0 := by
    intro q hq
    rw [List.length_eq_zero_iff.mp hq, List.count_nil]
  rw [arrived] at harrived
  simp only [imageCount, stored, blocked_at_rest hlocks hrest hworkers, blockingEntries_nil,
    ready_at_rest hlocks hrest, List.count_nil, List.count_eq_zero.mpr hfreed,
    if_neg (not_le.mpr hp), hempty .lpn (by omega), hempty .lpr (by omega),
    hempty .lfq (by omega), hempty .lfio (by omega)] at htotal
  refine ⟨by omega, fun hmem => ?_⟩
  exact (delayed_at_rest hlocks hrest).resolve_left (List.ne_nil_of_mem hmem)

theorem suspended_at_rest : ∃ st : PP, st.shared.LPS = [0] ∧
    st.shared.LPS.count 0 + (st.shared.queue .lfifo).count 0 = 1 ∧
      (0 ∈ st.shared.queue .lfifo → st.shared.sem .mmpSem = 0) := by
  obtain ⟨st, hruns, hrest, hLPS, hallocated, hfreed⟩ := exists_at_rest
  refine ⟨st, hLPS, suspended_or_delayed_at_rest smallConfig (by decide) (by decide) .fifo
    (fun _ => 0) st hruns hrest 0 ?_ ?_⟩
  · rw [hallocated]
    exact Nat.zero_lt_one
  · rw [hfreed]
    exact List.not_mem_nil

end PP
end Sisop
