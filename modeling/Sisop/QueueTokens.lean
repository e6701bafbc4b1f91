import Sisop.ThreadOperations

/-!
# The semaphores of the lists of images

The semaphore of a list and the token its consumer may hold between taking it and its pop count
the images in the list: `LTSnew` serves `LFIFO`, `PROCER` serves `LPL` and `STS` the others. For
`LPL` this holds as long as the draining loop of a re-sort gets a token for every image it pops.
It does not when `PROCER` has just taken the last token and waits for `LPL_mutex`.
-/

namespace Sisop
namespace PP

variable {cfg : Config} {s s' : Shared} {pc : Label} {th : Thread Operation Label} {q : Queue}

def popsFrom : Label → Option Queue
  | .popFIFO => some .lfifo
  | .popReady => some .lpl
  | .takeIn _ _ name _ | .popQueue _ _ name _ => some name.queue
  | _ => none

def consumer : Queue → Tid
  | .lfifo => .ltsNew
  | .lpl => .procer
  | _ => .sts

/-- What the semaphore promises beyond the length of the list. A thread that still has to wait
for its token owes it. -/
def queueTokens (q : Queue) : Ledger Operation Label Shared ℤ where
  held s := s.sem q.empty - (s.queue q).length
  pc pc := if popsFrom pc = some q then 1 else 0
  op
    | .wait sem => if sem = q.empty then -1 else 0
    | .post sem => if sem = q.empty then 1 else 0
    | _ => 0

theorem empty_injective : Function.Injective Queue.empty := by
  intro q q' h
  cases q <;> cases q' <;> cases h <;> rfl

theorem queueTokens_exec {t : Tid} {op : Operation} (h : op.exec t s = some s') :
    (queueTokens q).held s' = (queueTokens q).held s + (queueTokens q).op op := by
  cases op with
  | lock m | unlock m =>
    simp only [Operation.exec] at h
    split_ifs at h
    cases h
    simp [queueTokens, Shared.setOwner]
  | wait sem =>
    simp only [Operation.exec] at h
    split_ifs at h with hpos
    cases h
    by_cases hsem : sem = q.empty
    · subst hsem
      simp [queueTokens, Shared.tryWait]
      omega
    · simp [queueTokens, Shared.tryWait, hsem, Function.update_of_ne (Ne.symm hsem)]
  | post sem =>
    cases h
    by_cases hsem : sem = q.empty
    · subst hsem
      simp [queueTokens, Shared.post]
      omega
    · simp [queueTokens, Shared.post, hsem, Function.update_of_ne (Ne.symm hsem)]
  | enqueue q' p =>
    cases h
    by_cases hq : q' = q
    · subst hq
      simp [queueTokens, Shared.post, Shared.setQueue]
    · have hempty : q.empty ≠ q'.empty := fun h => hq (empty_injective h).symm
      simp [queueTokens, Shared.post, Shared.setQueue, Function.update_of_ne hempty,
        Function.update_of_ne (Ne.symm hq)]
  | enqueueLPB e =>
    cases h
    cases q <;> simp [queueTokens, Shared.post, Queue.empty]
  | _ =>
    cases h
    simp [queueTokens, Shared.setConnection]

theorem queueTokens_scriptOperations {self : Ptr} {clientfd : ℕ} {ops : List Operation}
    (h : ∀ op ∈ ops, ScriptOperation self clientfd op) : (queueTokens q).ops ops = 0 := by
  refine (queueTokens q).ops_eq_zero fun op hop => ?_
  cases h op hop <;> rfl

theorem queueTokens_enqueues (q' : Queue) (ps : List Ptr) :
    (queueTokens q).ops (ps.map (.enqueue q')) = 0 := by
  refine (queueTokens q).ops_eq_zero fun op hop => ?_
  obtain ⟨p, -, rfl⟩ := List.mem_map.mp hop
  rfl

theorem queueTokens_ltsConex (h : LTSconex.Moves cfg s pc s' th) :
    (queueTokens q).held s' + (queueTokens q).thread th =
      (queueTokens q).held s + (queueTokens q).pc pc := by
  cases h <;> cases q <;> rfl

theorem queueTokens_orderInsert (h : OrderInsert.Moves s pc s' th)
    (htoken : q = .lpl → ∀ key remaining prioList caller,
      pc = .drain key (remaining + 1) prioList caller → 0 < s.sem .lplEmpty) :
    (queueTokens q).held s' + (queueTokens q).thread th =
      (queueTokens q).held s + (queueTokens q).pc pc := by
  cases h with
  | sortStart key prioList caller => simp [queueTokens, popsFrom, Ledger.thread]
  | finish key caller =>
    cases caller with
    | sts =>
      rw [OrderInsert.finish, Ledger.thread, Ledger.ops_append, Ledger.ops_append,
        queueTokens_enqueues]
      cases q <;> simp [queueTokens, popsFrom, STS.wait, Queue.empty]
    | configure priorities =>
      rw [OrderInsert.finish, Ledger.thread, Ledger.ops_append, queueTokens_enqueues]
      simp [queueTokens, popsFrom]
  | drainOne key remaining remaining' prioList caller hqueue =>
    by_cases hq : q = .lpl
    · have hpos := htoken hq key remaining prioList caller rfl
      simp [hq, queueTokens, popsFrom, Ledger.thread, Shared.setQueue, Shared.tryWait, Queue.empty,
        hqueue]
      omega
    · have hempty : q.empty ≠ .lplEmpty := fun h => hq (@empty_injective q .lpl h)
      simp [queueTokens, popsFrom, Ledger.thread, Shared.setQueue, Shared.tryWait,
        Function.update_of_ne hempty, Function.update_of_ne hq]

theorem queueTokens_sts (h : STS.Moves s pc s' th)
    (htoken : q = .lpl → ∀ key remaining prioList caller,
      pc = .drain key (remaining + 1) prioList caller → 0 < s.sem .lplEmpty) :
    (queueTokens q).held s' + (queueTokens q).thread th =
      (queueTokens q).held s + (queueTokens q).pc pc := by
  cases h with
  | orderInsert h => exact queueTokens_orderInsert h htoken
  | readALG kind => simp [queueTokens, popsFrom, Ledger.thread, STS.startRound]
  | endRound kind =>
    cases kind <;> cases q <;>
      simp [queueTokens, popsFrom, Ledger.thread, STS.endRound, STS.wait, Queue.empty]
  | nextQueue | noToken => simp [queueTokens, popsFrom, Ledger.thread]
  | @takeToken kind i name prioList hpos =>
    by_cases hq : name.queue = q
    · subst hq
      simp [queueTokens, popsFrom, Ledger.thread, Shared.tryWait]
      omega
    · have hempty : q.empty ≠ name.queue.empty := fun h => hq (empty_injective h).symm
      simp [queueTokens, popsFrom, Ledger.thread, Shared.tryWait, hq, Function.update_of_ne hempty]
  | takeIn kind i name =>
    cases q <;> simp [queueTokens, popsFrom, Ledger.thread, Shared.tryWait, Queue.empty]
  | @pop kind i name prioList p ps hqueue =>
    have hops : (queueTokens q).thread (STS.takeOver kind i name prioList p) = 0 := by
      cases kind <;>
        simp [queueTokens, popsFrom, Ledger.thread, STS.takeOver, logWrite, enqueueLocked]
    rw [hops]
    by_cases hq : name.queue = q
    · subst hq
      simp [queueTokens, popsFrom, Shared.setQueue, hqueue]
      omega
    · simp [queueTokens, popsFrom, Shared.setQueue, hq, Function.update_of_ne (Ne.symm hq)]

theorem queueTokens_configure (h : Configure.Moves s pc s' th)
    (htoken : q = .lpl → ∀ key remaining prioList caller,
      pc = .drain key (remaining + 1) prioList caller → 0 < s.sem .lplEmpty) :
    (queueTokens q).held s' + (queueTokens q).thread th =
      (queueTokens q).held s + (queueTokens q).pc pc := by
  cases h with
  | orderInsert h => exact queueTokens_orderInsert h htoken
  | setALG ALG priorities =>
    cases ALG <;> simp [queueTokens, popsFrom, Ledger.thread, Configure.afterALG]
  | _ => simp [queueTokens, popsFrom, Ledger.thread]

theorem queueTokens_procer (h : PROCER.Moves cfg s pc s' th) :
    (queueTokens q).held s' + (queueTokens q).thread th =
      (queueTokens q).held s + (queueTokens q).pc pc := by
  cases h with
  | @pop p ps code hqueue =>
    rw [Ledger.thread, PROCER.dispatch, Ledger.ops_append, queueTokens_scriptOperations
      (Exec.enter_scriptOperation p 0 (s.image p))]
    cases q <;> simp [queueTokens, popsFrom, Shared.setQueue, Queue.empty, hqueue, logWrite]
    omega
  | run _ hmoves =>
    rw [Ledger.thread, queueTokens_scriptOperations hmoves.scriptOperation]
    simp [queueTokens, popsFrom]
  | _ => cases q <;> rfl

/-- A control step keeps the account when a draining step finds a token. -/
theorem queueTokens_control {t : Tid} (h : Moves cfg s t pc s' th)
    (htoken : q = .lpl → ∀ key remaining prioList caller,
      pc = .drain key (remaining + 1) prioList caller → 0 < s.sem .lplEmpty) :
    (queueTokens q).held s' + (queueTokens q).thread th =
      (queueTokens q).held s + (queueTokens q).pc pc := by
  cases h with
  | ltsConex h => exact queueTokens_ltsConex h
  | ltsNew hqueue =>
    cases q <;> simp [queueTokens, popsFrom, Ledger.thread, Shared.setQueue, Queue.empty, hqueue,
      LTSnew.deliver, LTSnew.wait, logWrite, enqueueForSTS]
    omega
  | sts h => exact queueTokens_sts h htoken
  | configure h => exact queueTokens_configure h htoken
  | procer h => exact queueTokens_procer h
  | raise => simp [queueTokens, popsFrom, Ledger.thread]
  | @ioThread i ioProcessing LPB =>
    simp only [IoThread.serve]
    split_ifs <;> cases q <;> simp [queueTokens, popsFrom, Ledger.thread, IoThread.wait, logWrite,
      enqueueForSTS, Queue.empty]

/-- Nobody posts the semaphore of a list apart from the pushes, and only a thread about to take
from the list waits for it. -/
def TokenShape (t : Tid) (th : Thread Operation Label) : Prop :=
  homeOf th.pc t ∧ ∀ q : Queue, .post q.empty ∉ th.ops ∧
    th.ops.count (.wait q.empty) ≤ if popsFrom th.pc = some q then 1 else 0

theorem tokenShape_tail (t : Tid) (pc : Label) (op : Operation) (ops : List Operation)
    (h : TokenShape t ⟨pc, op :: ops⟩) : TokenShape t ⟨pc, ops⟩ := by
  refine ⟨h.1, fun q => ⟨fun hmem => (h.2 q).1 (List.mem_cons_of_mem _ hmem), ?_⟩⟩
  exact (List.count_le_count_cons ..).trans (h.2 q).2

def countsList : Semaphore → Bool
  | .lplEmpty | .lfqEmpty | .lfifoEmpty | .lprEmpty | .lpnEmpty | .lfioEmpty => true
  | _ => false

def Quiet (ops : List Operation) : Prop :=
  ∀ op ∈ ops, ∀ sem, op = .wait sem ∨ op = .post sem → countsList sem = false

theorem Quiet.not_mem {ops : List Operation} (h : Quiet ops) (q : Queue) :
    .post q.empty ∉ ops ∧ .wait q.empty ∉ ops := by
  have hcounts : countsList q.empty = true := by cases q <;> rfl
  refine ⟨fun hmem => ?_, fun hmem => ?_⟩
  · rw [h _ hmem _ (.inr rfl)] at hcounts
    cases hcounts
  · rw [h _ hmem _ (.inl rfl)] at hcounts
    cases hcounts

theorem Quiet.tokenShape {t : Tid} (h : Quiet th.ops) (hpc : homeOf th.pc t) :
    TokenShape t th := by
  refine ⟨hpc, fun q => ⟨(h.not_mem q).1, ?_⟩⟩
  rw [List.count_eq_zero.mpr (h.not_mem q).2]
  exact Nat.zero_le _

theorem Quiet.append {ops ops' : List Operation} (h : Quiet ops) (h' : Quiet ops') :
    Quiet (ops ++ ops') := by
  intro op hop
  exact (List.mem_append.mp hop).elim (h op) (h' op)

theorem quiet_scriptOperations {self : Ptr} {clientfd : ℕ} {ops : List Operation}
    (h : ∀ op ∈ ops, ScriptOperation self clientfd op) : Quiet ops := by
  intro op hop sem hsem
  cases h op hop <;> simp at hsem

/-- Only the consumers of `LFIFO` and `LPL` wait for a list as a pending operation. -/
theorem quiet_of_operationOf {t : Tid} (h : ∀ op ∈ th.ops, OperationOf t op)
    (hnew : t ≠ .ltsNew) (hprocer : t ≠ .procer) : Quiet th.ops := by
  intro op hop sem hsem
  cases h op hop <;> simp at hsem hnew hprocer <;> subst hsem <;> rfl

theorem tokenShape_procer (h : PROCER.Moves cfg s pc s' th) : TokenShape .procer th := by
  cases h with
  | @pop p ps code =>
    refine Quiet.tokenShape (Quiet.append ?_ (quiet_scriptOperations
      (Exec.enter_scriptOperation p 0 (s.image p)))) rfl
    simp [Quiet, logWrite]
  | run _ hmoves => exact (quiet_scriptOperations hmoves.scriptOperation).tokenShape rfl
  | _ =>
    refine ⟨rfl, fun q => ?_⟩
    cases q <;> simp [PROCER.finished, PROCER.suspended, PROCER.endOfQuantum, PROCER.wait,
      logWrite, sendMsg, enqueueForSTS, Queue.empty, popsFrom]

theorem tokenShape_control {t : Tid} (h : Moves cfg s t pc s' th) (hhome : homeOf th.pc t)
    (hops : ∀ op ∈ th.ops, OperationOf t op) : TokenShape t th := by
  cases h with
  | ltsNew =>
    refine ⟨hhome, fun q => ?_⟩
    cases q <;> simp [LTSnew.deliver, LTSnew.wait, logWrite, enqueueForSTS, Queue.empty, popsFrom]
  | procer h => exact tokenShape_procer h
  | _ => exact (quiet_of_operationOf hops Tid.noConfusion Tid.noConfusion).tokenShape hhome

theorem tokenShape_initial (t : Tid) : TokenShape t (initialThread t) := by
  have hhome := homeOf_initial t
  cases t with
  | procer | ltsNew =>
    refine ⟨hhome, fun q => ?_⟩
    cases q <;> decide
  | _ =>
    refine Quiet.tokenShape ?_ hhome
    simp [Quiet, initialThread, logWrite, STS.wait, IoThread.wait, countsList]

/-- The token a thread has taken but not yet used for its pop. -/
def tokenInHand (q : Queue) (th : Thread Operation Label) : ℕ :=
  if popsFrom th.pc = some q ∧ .wait q.empty ∉ th.ops then 1 else 0

theorem queueTokens_ops {ops : List Operation} (h : .post q.empty ∉ ops) :
    (queueTokens q).ops ops = -(ops.count (.wait q.empty) : ℤ) := by
  induction ops with
  | nil => rfl
  | cons op ops ih =>
    rw [List.mem_cons, not_or] at h
    rw [Ledger.ops_cons, ih h.2, List.count_cons]
    cases op with
    | wait sem =>
      by_cases hsem : sem = q.empty
      · simp [queueTokens, hsem]
      · simp [queueTokens, hsem]
    | post sem =>
      have hsem : sem ≠ q.empty := fun heq => h.1 (by rw [heq])
      simp [queueTokens, hsem]
    | _ => simp [queueTokens]

theorem queueTokens_thread {t : Tid} (h : TokenShape t th) :
    (queueTokens q).thread th = tokenInHand q th := by
  obtain ⟨hpost, hcount⟩ := h.2 q
  rw [Ledger.thread, queueTokens_ops hpost, tokenInHand]
  by_cases hpops : popsFrom th.pc = some q
  · rw [if_pos hpops] at hcount
    by_cases hwait : .wait q.empty ∈ th.ops
    · have hpos := List.count_pos_iff.mpr hwait
      simp [queueTokens, hpops, hwait]
      omega
    · simp [queueTokens, hpops, hwait, List.count_eq_zero.mpr hwait]
  · rw [if_neg hpops] at hcount
    simp [queueTokens, hpops, Nat.le_zero.mp hcount]

theorem consumer_of_popsFrom {t : Tid} (h : popsFrom pc = some q) (hpc : homeOf pc t) :
    t = consumer q := by
  cases pc with
  | takeIn kind i name | popQueue kind i name =>
    cases h
    cases name <;> exact hpc
  | popFIFO | popReady =>
    cases h
    exact hpc
  | _ => cases h

theorem tokenInHand_other {t : Tid} (h : TokenShape t th) (ht : t ≠ consumer q) :
    tokenInHand q th = 0 :=
  if_neg fun hpops => ht (consumer_of_popsFrom hpops.1 h.1)

section Runs

variable {ok : PP → Step → Prop} {st st' : PP} {a : Step} {ALG : Algorithm}
  {priorities : QueueName → ℤ}

def drainsWithoutToken (st : PP) (a : Step) : Bool :=
  match st.thread a.1 with
  | ⟨.drain _ (_ + 1) _ _, []⟩ => st.shared.sem .lplEmpty == 0
  | _ => false

theorem consumer_mem_threads (cfg : Config) (q : Queue) : consumer q ∈ cfg.threads := by
  cases q <;> simp [consumer, Config.threads]

theorem queueTokens_total (h : ∀ t, TokenShape t (st.thread t)) :
    (queueTokens q).total cfg.threads st =
      (queueTokens q).held st.shared + tokenInHand q (st.thread (consumer q)) := by
  rw [Ledger.total, Finset.sum_eq_single_of_mem (consumer q) (consumer_mem_threads cfg q)
    fun t _ ht => ?_, queueTokens_thread (h _)]
  rw [queueTokens_thread (h t), tokenInHand_other (h t) ht]
  rfl

theorem queueTokens_next (h : next cfg st a = some st')
    (ha : q = .lpl → ¬ drainsWithoutToken st a) :
    (queueTokens q).total cfg.threads st' = (queueTokens q).total cfg.threads st := by
  refine total_next queueTokens_exec (fun s' th hops hmoves => queueTokens_control hmoves ?_) h
  intro hq key remaining prioList caller hpc
  by_contra hzero
  refine ha hq ?_
  have hthread : st.thread a.1 = ⟨.drain key (remaining + 1) prioList caller, []⟩ := by
    rw [← hpc, ← hops]
  rw [drainsWithoutToken, hthread]
  simp only [beq_iff_eq]
  omega

theorem tokenShape_run (h : RunsTo (next cfg) ok (start cfg ALG priorities) st) :
    ∀ t, TokenShape t (st.thread t) :=
  shape_run tokenShape_initial tokenShape_tail
    (fun hmoves hhome hops _ => tokenShape_control hmoves hhome hops) h

/-- A list holds exactly what its semaphore and the token in its consumer's hand promise. -/
theorem queueTokens_run (q : Queue) (hok : q = .lpl → ∀ st a, ok st a → ¬ drainsWithoutToken st a)
    (h : RunsTo (next cfg) ok (start cfg ALG priorities) st) :
    st.shared.sem q.empty + tokenInHand q (st.thread (consumer q)) =
      (st.shared.queue q).length := by
  have htotal : (queueTokens q).total cfg.threads st = 0 := by
    refine h.invariant (P := fun st => (queueTokens q).total cfg.threads st = 0) ?_ ?_
    · rw [queueTokens_total (show ∀ t, TokenShape t ((start cfg ALG priorities).thread t) from
        tokenShape_initial)]
      cases q <;> rfl
    · intro st a st' hst ha hnext
      exact (queueTokens_next hnext fun hq => hok hq st a ha).trans hst
  rw [queueTokens_total (tokenShape_run h)] at htotal
  simp only [queueTokens] at htotal
  omega

/-- In every run in which the draining loop always gets its token, `LPL_empty` and the token of
`PROCER` count the ready images, and `PROCER` never pops from an empty list. -/
theorem ready_semaphore_exact (cfg : Config) (ALG : Algorithm) (priorities : QueueName → ℤ)
    (st : PP) (h : RunsTo (next cfg) (fun st a => ¬ drainsWithoutToken st a)
      (start cfg ALG priorities) st) :
    (st.shared.owner .lpl = none → st.shared.sem .lplEmpty +
      tokenInHand .lpl (st.thread .procer) = (st.shared.queue .lpl).length) ∧
      ((st.thread .procer).pc = .popReady → (st.thread .procer).ops = [] →
        st.shared.queue .lpl ≠ []) := by
  have hexact := queueTokens_run .lpl (fun _ _ _ ha => ha) h
  refine ⟨fun _ => hexact, fun hpc hops hnil => ?_⟩
  have htoken : tokenInHand .lpl (st.thread .procer) = 1 := by
    simp [tokenInHand, hpc, hops, popsFrom]
  simp only [consumer, htoken, hnil, List.length_nil] at hexact
  omega

def popsReady (th : Thread Operation Label) : Bool :=
  match th with
  | ⟨.popReady, []⟩ => true
  | _ => false

theorem ready_semaphore_exact_once : ∃ st : PP,
    (st.thread .procer).pc = .popReady ∧ (st.thread .procer).ops = [] ∧
      (st.shared.owner .lpl = none → st.shared.sem .lplEmpty +
        tokenInHand .lpl (st.thread .procer) = (st.shared.queue .lpl).length) ∧
      ((st.thread .procer).pc = .popReady → (st.thread .procer).ops = [] →
        st.shared.queue .lpl ≠ []) := by
  have hrun : ((follow (next smallConfig) (fun st a => !drainsWithoutToken st a)
      (start smallConfig .pri fun _ => 0) (goes .ltsConex 3 ++ submits idleScript 0 ++
        goes .sts 30 ++ goes .procer 3)).any fun st => popsReady (st.thread .procer)) = true := by
    decide +kernel
  obtain ⟨st, hst, hthread⟩ := (Option.any_eq_true _ _).mp hrun
  have hexact := ready_semaphore_exact smallConfig .pri (fun _ => 0) st
    (RunsTo.of_follow (fun st a h => by simpa using h) _ hst)
  unfold popsReady at hthread
  split at hthread
  case h_1 heq => exact ⟨st, by rw [heq], by rw [heq], hexact⟩
  case h_2 => cases hthread

/-- `PROCER` has taken the token of the only ready image when a round of `STS` re-sorts. -/
theorem resort_overpromises : ¬ ∀ (cfg : Config) (ALG : Algorithm) (priorities : QueueName → ℤ)
    (st : PP), RunsTo (next cfg) (fun _ _ => True) (start cfg ALG priorities) st →
      st.shared.owner .lpl = none → st.shared.sem .lplEmpty +
        tokenInHand .lpl (st.thread .procer) = (st.shared.queue .lpl).length := by
  intro h
  have hrun : ((follow (next smallConfig) (fun _ _ => true)
      (start smallConfig .pri fun _ => 0) (goes .ltsConex 3 ++ submits idleScript 0 ++
        goes .sts 30 ++ goes .procer 2 ++ submits idleScript 0 ++ goes .sts 31)).any fun st =>
          st.shared.owner .lpl == none && st.shared.sem .lplEmpty == 2 &&
            tokenInHand .lpl (st.thread .procer) == 1 &&
              st.shared.queue .lpl == [0, 1]) = true := by
    decide +kernel
  obtain ⟨st, hst, hvalues⟩ := (Option.any_eq_true _ _).mp hrun
  simp only [Bool.and_eq_true, beq_iff_eq] at hvalues
  obtain ⟨⟨⟨howner, hsem⟩, htoken⟩, hqueue⟩ := hvalues
  have hcount := h smallConfig .pri (fun _ => 0) st
    (RunsTo.of_follow (fun _ _ _ => trivial) _ hst) howner
  rw [hsem, htoken, hqueue] at hcount
  exact absurd hcount (by decide)

end Runs

end PP
end Sisop
