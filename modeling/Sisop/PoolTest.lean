import Sisop.ThreadOperations
import Mathlib.Algebra.BigOperators.Ring.Finset

/-!
# The look at the pool

A request that does not block is made when `queue_size(LPB) < semValue`. Every I/O thread either
waits for `io_threads`, or has taken a token and not yet its entry, or serves an entry it has
taken out of `LPB`; the tokens left are those of the threads of the first kind. The entry that a
thread of the second kind is about to take still stands in `LPB`, and the comparison counts it
twice.
-/

namespace Sisop

/-- Among the operations is the `queue_push` of a request that does not block. -/
def MakesRequest (ops : List Operation) : Prop :=
  ∃ e, .enqueueLPB e ∈ ops ∧ e.ioInfo.flagNonBlocking = true

def Operation.makesRequest : Operation → Bool
  | .enqueueLPB e => e.ioInfo.flagNonBlocking
  | _ => false

theorem makesRequest_iff (ops : List Operation) :
    ops.any Operation.makesRequest = true ↔ MakesRequest ops := by
  rw [List.any_eq_true, MakesRequest]
  constructor
  · rintro ⟨op, hop, hmakes⟩
    cases op with
    | enqueueLPB e => exact ⟨e, hop, hmakes⟩
    | _ => cases hmakes
  · rintro ⟨e, hop, hmakes⟩
    exact ⟨.enqueueLPB e, hop, hmakes⟩

instance (ops : List Operation) : Decidable (MakesRequest ops) :=
  decidable_of_iff _ (makesRequest_iff ops)

section Lines

variable {self : Ptr} {image : TProcessImage} {free : Bool} {line : CString} {f : LineEffect}

theorem makesRequest_poolIo {width lineNumber : ℕ} {ioTime : CString} :
    MakesRequest (poolIo width free self image lineNumber ioTime).operations ↔ free = true := by
  cases free <;> simp [MakesRequest, poolIo, nonBlockingRequest, refusedRequest, quietOperations,
    logWrite, sendMsg]

/-- Outside the functions `v=io(t,0)` makes a blocking request, if any. -/
theorem makesRequest_processPoolLine (h : processPoolLine free self image line = some f) :
    MakesRequest f.operations ↔ free = true ∧ processForm line ≠ .assignIo := by
  unfold processPoolLine at h
  split at h
  case h_1 hform =>
    obtain ⟨⟨ioTime, flag⟩, -, h⟩ := Option.bind_eq_some_iff.mp h
    obtain ⟨varName, -, h⟩ := Option.bind_eq_some_iff.mp h
    unfold processAssignPoolIo at h
    split_ifs at h
    all_goals
      obtain ⟨data, -, rfl⟩ := Option.map_eq_some_iff.mp h
      simp [MakesRequest, blockingRequest, refusedRequest, tickOperations, logWrite, sendMsg, hform]
  case h_2 hform =>
    obtain ⟨⟨ioTime, flag⟩, -, h⟩ := Option.bind_eq_some_iff.mp h
    cases h
    simp [makesRequest_poolIo, hform]
  case h_3 => cases h

theorem makesRequest_functionPoolLine {PC : ℕ}
    (h : functionPoolLine free self image PC line = some f) :
    MakesRequest f.operations ↔ free = true := by
  unfold functionPoolLine at h
  split at h
  case h_1 =>
    obtain ⟨⟨ioTime, flag⟩, -, h⟩ := Option.bind_eq_some_iff.mp h
    obtain ⟨varName, -, h⟩ := Option.bind_eq_some_iff.mp h
    unfold functionAssignPoolIo at h
    split_ifs at h with hfree
    all_goals
      obtain ⟨data, -, rfl⟩ := Option.map_eq_some_iff.mp h
      simp [MakesRequest, nonBlockingRequest, refusedRequest, tickOperations, logWrite, sendMsg,
        hfree]
  case h_2 =>
    obtain ⟨⟨ioTime, flag⟩, -, h⟩ := Option.bind_eq_some_iff.mp h
    cases h
    exact makesRequest_poolIo
  case h_3 => cases h

end Lines

def AsksToBlock (code : List CString) (e : Exec) : Prop :=
  e.elements = [] ∧ ∃ line, code[e.processImage.PC]? = some line ∧ processForm line = .assignIo

theorem makesRequest_step {code : List CString} {quantum : ℤ} {self : Ptr} {env : Env}
    {e e' : Exec} {ops : List Operation} {events : List Event} (hpoint : e.point = .poolTest)
    (h : e.step code quantum self env = some (e', ops, events)) :
    MakesRequest ops ↔ env.poolFree = true ∧ ¬ AsksToBlock code e := by
  have hne : e.point ≠ .loopTest ∧ e.point ≠ .algTest := by simp [hpoint]
  cases Exec.moves_of_step h with
  | @asksPool line f _ helements hline hf =>
    rw [makesRequest_processPoolLine hf]
    simp [AsksToBlock, helements, hline]
  | asksPoolInFunction _ helements _ hf =>
    rw [makesRequest_functionPoolLine hf]
    simp [AsksToBlock, helements]
  | counts halg => exact absurd halg hne.2
  | _ hloop => exact absurd hloop hne.1

namespace PP

variable {cfg : Config} {s s' : Shared} {pc : Label} {th : Thread Operation Label}

/-- Between the `queue_pop` and the `sem_post` behind it. -/
def serving (th : Thread Operation Label) : Bool := th.ops.contains (.post .ioThreads)

/-- Behind `sem_wait(io_threads)`, before the `queue_pop`. -/
def aboutToPop (th : Thread Operation Label) : Bool :=
  !serving th && !th.ops.contains (.wait .ioThreads)

def threadsThat (cfg : Config) (st : PP) (f : Thread Operation Label → Bool) : ℕ :=
  ((Finset.range cfg.IO_THREADS).filter fun i => f (st.thread (.ioThread i))).card

def requestsUnderWay (cfg : Config) (st : PP) : ℕ :=
  st.shared.LPB.length + threadsThat cfg st serving

/-- The tokens of `io_threads`: those of the semaphore and those of the I/O threads. -/
def pool : Ledger Operation Label Shared ℤ where
  held s := s.sem .ioThreads
  pc
    | .popLPB => 1
    | _ => 0
  op
    | .post .ioThreads => 1
    | .wait .ioThreads => -1
    | _ => 0

@[simp] theorem ioThreads_ne_empty (q : Queue) : (.ioThreads : Semaphore) ≠ q.empty := by
  cases q <;> decide

theorem pool_exec {t : Tid} {op : Operation} (h : op.exec t s = some s') :
    pool.held s' = pool.held s + pool.op op := by
  cases op with
  | lock m | unlock m =>
    simp only [Operation.exec] at h
    split_ifs at h
    cases h
    simp [pool, Shared.setOwner]
  | wait sem =>
    simp only [Operation.exec] at h
    split_ifs at h with hpos
    cases h
    cases sem <;> simp [pool, Shared.tryWait]
    omega
  | post sem =>
    cases h
    cases sem <;> simp [pool, Shared.post]
  | enqueue q p =>
    cases h
    cases q <;> simp [pool, Shared.post, Shared.setQueue, Queue.empty]
  | _ =>
    cases h
    simp [pool, Shared.post, Shared.setConnection]

theorem pool_orderInsert (h : OrderInsert.Moves s pc s' th) : pool.held s' = pool.held s := by
  cases h <;> simp [pool, Shared.tryWait, Shared.setQueue]

/-- No thread touches `io_threads` outside its pending operations. -/
theorem pool_moves {t : Tid} (h : Moves cfg s t pc s' th) : pool.held s' = pool.held s := by
  cases h with
  | ltsConex h => cases h <;> simp [pool, Shared.tryWait, Shared.allocate, Shared.accept,
      Shared.setConnection]
  | sts h =>
    cases h with
    | orderInsert h => exact pool_orderInsert h
    | _ => simp [pool, Shared.tryWait, Shared.setQueue]
  | configure h =>
    cases h with
    | orderInsert h => exact pool_orderInsert h
    | _ => simp [pool]
  | procer h => cases h <;> simp [pool, Shared.setQueue, Shared.setImage]
  | _ => simp [pool, Shared.setQueue]

theorem pool_pc {t : Tid} (h : homeOf pc t) (ht : ∀ i, t ≠ .ioThread i) : pool.pc pc = 0 := by
  cases pc with
  | popLPB =>
    obtain ⟨i, rfl⟩ := h
    exact absurd rfl (ht i)
  | _ => rfl

theorem pool_op {t : Tid} {op : Operation} (h : OperationOf t op) (ht : ∀ i, t ≠ .ioThread i) :
    pool.op op = 0 := by
  cases h with
  | busy => exact absurd rfl (ht _)
  | available => exact absurd rfl (ht _)
  | _ => rfl

theorem pool_idle {t : Tid} (hpc : homeOf th.pc t) (hops : ∀ op ∈ th.ops, OperationOf t op)
    (ht : ∀ i, t ≠ .ioThread i) : pool.thread th = 0 := by
  rw [Ledger.thread, pool_pc hpc ht, zero_add]
  exact pool.ops_eq_zero fun op hop => pool_op (hops op hop) ht

/-- What is left of the pending operations of an I/O thread, read off what it has to do yet. -/
def PoolShape (t : Tid) (th : Thread Operation Label) : Prop :=
  ∀ i, t = .ioThread i → pool.Tracks (fun ops =>
    if .post .ioThreads ∈ ops then 0 else if .wait .ioThreads ∈ ops then -1 else 0) th.ops

theorem poolShape_tail (t : Tid) (pc : Label) (op : Operation) (ops : List Operation)
    (h : PoolShape t ⟨pc, op :: ops⟩) : PoolShape t ⟨pc, ops⟩ :=
  fun i ht => (pool.tracks_cons.mp (h i ht)).2

theorem poolShape_initial (t : Tid) : PoolShape t (initialThread t) := by
  rintro i rfl
  simp [initialThread, IoThread.wait, Ledger.tracks_cons, Ledger.tracks_nil, pool]

theorem poolShape_control {t : Tid} (h : Moves cfg s t pc s' th) : PoolShape t th := by
  rintro i rfl
  cases h with
  | @ioThread _ ioProcessing LPB =>
    cases hflag : ioProcessing.ioInfo.flagNonBlocking <;>
      simp [IoThread.serve, IoThread.wait, logWrite, enqueueForSTS, hflag, Ledger.tracks_cons,
        Ledger.tracks_nil, pool]

/-- A served entry gives a token back, a token is taken for the next one. -/
theorem pool_serves (ioProcessing : TIoProcessing) :
    pool.ops ([.unlock .lpb] ++ IoThread.serve ioProcessing ++ [.post .ioThreads] ++
      IoThread.wait) = 0 := by
  cases hflag : ioProcessing.ioInfo.flagNonBlocking <;>
    simp [IoThread.serve, IoThread.wait, logWrite, enqueueForSTS, hflag, pool]

theorem pool_control {t : Tid} (h : Moves cfg s t pc s' th) (hhome : homeOf pc t) :
    pool.held s' + pool.thread th = pool.held s + pool.pc pc := by
  rw [pool_moves h]
  by_cases ht : ∃ i, t = .ioThread i
  · obtain ⟨i, rfl⟩ := ht
    cases h with
    | ioThread => rw [Ledger.thread, pool_serves, add_zero]
  · push Not at ht
    rw [pool_idle (homeOf_control h hhome) (operationOf_control h hhome) ht, pool_pc hhome ht]

/-- The token of an I/O thread. -/
theorem pool_ioThread {i : ℕ} (hpc : homeOf th.pc (.ioThread i))
    (h : PoolShape (.ioThread i) th) :
    pool.thread th = (if serving th then 1 else 0) + if aboutToPop th then 1 else 0 := by
  have hops := h i rfl th.ops List.suffix_rfl
  have hpop : pool.pc th.pc = 1 := by
    generalize th.pc = pc at hpc
    cases pc with
    | popLPB => rfl
    | sortStart key prioList caller | drain key remaining prioList caller =>
      cases caller <;> cases hpc
    | _ => cases hpc
  rw [Ledger.thread, hpop, hops]
  simp only [aboutToPop, serving, Bool.and_eq_true, Bool.not_eq_true', List.contains_eq_mem,
    decide_eq_true_eq, decide_eq_false_iff_not]
  split_ifs <;> simp_all

section Runs

variable {ok : PP → Step → Prop} {st st' : PP} {a : Step} {ALG : Algorithm}
  {priorities : QueueName → ℤ}

theorem poolShape_run (h : RunsTo (next cfg) ok (start cfg ALG priorities) st) (t : Tid) :
    PoolShape t (st.thread t) :=
  h.invariant (P := fun st => ∀ t, PoolShape t (st.thread t)) poolShape_initial
    (fun _ _ _ hst _ hnext =>
      shape_next poolShape_tail (fun hmoves _ => poolShape_control hmoves) hnext hst) t

theorem sum_threads {f : Tid → ℤ} (h : ∀ t, (∀ i, t ≠ .ioThread i) → f t = 0) :
    ∑ t ∈ cfg.threads, f t = ∑ i ∈ Finset.range cfg.IO_THREADS, f (.ioThread i) := by
  have hinjective : Function.Injective Tid.ioThread := fun i j hij => Tid.ioThread.inj hij
  calc ∑ t ∈ cfg.threads, f t
      = ∑ t ∈ (Finset.range cfg.IO_THREADS).image .ioThread, f t := by
        refine (Finset.sum_subset Finset.subset_union_right fun t _ hnot => h t ?_).symm
        rintro i rfl
        simp_all
    _ = ∑ i ∈ Finset.range cfg.IO_THREADS, f (.ioThread i) :=
        Finset.sum_image fun _ _ _ _ hij => hinjective hij

theorem pool_total (h : RunsTo (next cfg) ok (start cfg ALG priorities) st) :
    pool.total cfg.threads st = cfg.IO_THREADS := by
  induction h with
  | start =>
    have hidle : ∀ t, pool.thread (initialThread t) = 0 := by
      intro t
      cases t <;> rfl
    have hsum : ∑ t ∈ cfg.threads, pool.thread (initialThread t) = 0 :=
      Finset.sum_eq_zero fun t _ => hidle t
    rw [Ledger.total]
    simp only [start, hsum, add_zero]
    rfl
  | step a hrun _ hnext ih =>
    have hhome := (operationOf_run hrun a.1).1
    rw [total_next pool_exec (fun _ _ _ hmoves => pool_control hmoves hhome) hnext]
    exact ih

/-- Every token of `io_threads` is in the semaphore, with a thread that serves an entry, or with
one that is about to take an entry. -/
theorem pool_conserved (h : RunsTo (next cfg) ok (start cfg ALG priorities) st) :
    st.shared.sem .ioThreads + threadsThat cfg st aboutToPop + threadsThat cfg st serving =
      cfg.IO_THREADS := by
  have htotal := pool_total h
  rw [Ledger.total, sum_threads fun t ht =>
    pool_idle (operationOf_run h t).1 (operationOf_run h t).2 ht] at htotal
  have hthreads : ∑ i ∈ Finset.range cfg.IO_THREADS, pool.thread (st.thread (.ioThread i)) =
      threadsThat cfg st serving + threadsThat cfg st aboutToPop := by
    rw [threadsThat, threadsThat, Finset.card_filter, Finset.card_filter, Nat.cast_sum,
      Nat.cast_sum, ← Finset.sum_add_distrib]
    refine Finset.sum_congr rfl fun i _ => ?_
    rw [pool_ioThread (operationOf_run h _).1 (poolShape_run h _)]
    push_cast
    rfl
  rw [hthreads] at htotal
  have hheld : pool.held st.shared = st.shared.sem .ioThreads := rfl
  omega

theorem step_of_execute {c : Choice} {p : Ptr} {code : List CString} {e : Exec}
    (hthread : st.thread .procer = ⟨.execute p code e, []⟩) (hpoint : e.point ≠ .returned)
    (h : next cfg st (.procer, c) = some st') : ∃ e' events,
      e.step code cfg.quantum p st.shared.env = some (e', (st'.thread .procer).ops, events) := by
  rcases Machine.step_cases (next_eq_some h).2 with
    ⟨op, ops, s, hops, -, -⟩ | ⟨s, th, -, hcontrol, rfl⟩
  · rw [hthread] at hops
    cases hops
  · dsimp only at hcontrol ⊢
    rw [hthread] at hcontrol
    rw [Function.update_self]
    cases c with
    | go =>
      replace hcontrol : PROCER.control cfg st.shared (.execute p code e) .go = some (s, th) :=
        hcontrol
      rw [PROCER.control, if_neg hpoint] at hcontrol
      obtain ⟨⟨e', ops, events⟩, hstep, hth⟩ := Option.map_eq_some_iff.mp hcontrol
      cases hth
      exact ⟨e', events, hstep⟩
    | _ => cases hcontrol

/-- In every run the test makes a request exactly when fewer than `IO_THREADS` are under way, if
and only if, whenever fewer are, there are fewer also with the threads about to pop counted in, and
the line is no `v=io(t,0)` outside the functions. When too many are under way it makes none. -/
theorem pool_exact_iff (cfg : Config) (ALG : Algorithm) (priorities : QueueName → ℤ) (st st' : PP)
    (c : Choice) (p : Ptr) (code : List CString) (e : Exec)
    (h : RunsTo (next cfg) (fun _ _ => True) (start cfg ALG priorities) st)
    (hthread : st.thread .procer = ⟨.execute p code e, []⟩) (hpoint : e.point = .poolTest)
    (hnext : next cfg st (.procer, c) = some st') :
    (MakesRequest (st'.thread .procer).ops ↔ requestsUnderWay cfg st < cfg.IO_THREADS) ↔
      (requestsUnderWay cfg st < cfg.IO_THREADS →
        requestsUnderWay cfg st + threadsThat cfg st aboutToPop < cfg.IO_THREADS ∧
          ¬ AsksToBlock code e) := by
  have hne : e.point ≠ .returned := by simp [hpoint]
  obtain ⟨e', events, hstep⟩ := step_of_execute hthread hne hnext
  have hconserved := pool_conserved h
  have hfree : st.shared.env.poolFree = true ↔
      requestsUnderWay cfg st + threadsThat cfg st aboutToPop < cfg.IO_THREADS := by
    have henv : st.shared.env.poolFree =
        decide (st.shared.LPB.length < st.shared.sem .ioThreads) := rfl
    rw [henv, decide_eq_true_iff, requestsUnderWay]
    omega
  rw [makesRequest_step hpoint hstep, hfree]
  constructor
  · exact fun hiff hfew => hiff.mpr hfew
  · exact fun hroom => ⟨fun hmakes => by omega, hroom⟩

def atPoolTest (th : Thread Operation Label) : Bool :=
  match th with
  | ⟨.execute _ _ e, []⟩ => e.point == .poolTest
  | _ => false

theorem exists_of_atPoolTest {th : Thread Operation Label} (h : atPoolTest th = true) :
    ∃ p code e, th = ⟨.execute p code e, []⟩ ∧ e.point = .poolTest := by
  unfold atPoolTest at h
  split at h
  case h_1 p code e => exact ⟨p, code, e, rfl, eq_of_beq h⟩
  case h_2 => cases h

/-- Along the steps a script reaches the test, and then takes it. -/
theorem exists_pool_test {steps : List Step} {f : PP → PP → Bool}
    (h : ((follow (next smallConfig) (fun _ _ => true) (start smallConfig .fifo fun _ => 0)
      steps).any fun st => atPoolTest (st.thread .procer) &&
        (next smallConfig st (.procer, .go)).any (f st)) = true) :
    ∃ st st' p code e,
      RunsTo (next smallConfig) (fun _ _ => True) (start smallConfig .fifo fun _ => 0) st ∧
      st.thread .procer = ⟨.execute p code e, []⟩ ∧ e.point = .poolTest ∧
      next smallConfig st (.procer, .go) = some st' ∧ f st st' = true := by
  obtain ⟨st, hst, htest⟩ := (Option.any_eq_true _ _).mp h
  rw [Bool.and_eq_true] at htest
  obtain ⟨p, code, e, hthread, hpoint⟩ := exists_of_atPoolTest htest.1
  obtain ⟨st', hnext, hf⟩ := (Option.any_eq_true _ _).mp htest.2
  exact ⟨st, st', p, code, e, RunsTo.of_follow (fun _ _ _ => trivial) _ hst, hthread, hpoint,
    hnext, hf⟩

def asksTwice : CString := cstr "comienzo_programa\nio(1,0)\nio(1,0)\nfin_programa"

theorem pool_exact_idle : ∃ (st st' : PP) (code : List CString) (e : Exec),
    requestsUnderWay smallConfig st = 0 ∧ MakesRequest (st'.thread .procer).ops ∧
      ((MakesRequest (st'.thread .procer).ops ↔ requestsUnderWay smallConfig st < 2) ↔
        (requestsUnderWay smallConfig st < 2 →
          requestsUnderWay smallConfig st + threadsThat smallConfig st aboutToPop < 2 ∧
            ¬ AsksToBlock code e)) := by
  have hrun : ((follow (next smallConfig) (fun _ _ => true) (start smallConfig .fifo fun _ => 0)
      (goes .ltsConex 3 ++ submits asksTwice 0 ++ goes .sts 19 ++ goes .procer 12)).any fun st =>
        atPoolTest (st.thread .procer) && (next smallConfig st (.procer, .go)).any fun st' =>
          requestsUnderWay smallConfig st == 0 && decide (MakesRequest (st'.thread .procer).ops)) =
      true := by
    decide +kernel
  obtain ⟨st, st', p, code, e, hruns, hthread, hpoint, hnext, hvalues⟩ := exists_pool_test hrun
  rw [Bool.and_eq_true, beq_iff_eq, decide_eq_true_iff] at hvalues
  exact ⟨st, st', code, e, hvalues.1, hvalues.2, pool_exact_iff smallConfig .fifo (fun _ => 0) st
    st' .go p code e hruns hthread hpoint hnext⟩

/-- The first request waits in `LPB`, and the thread that will serve it has its token already: the
second one is refused although a thread is left for it. -/
theorem pool_refuses_too_many : ∃ (st st' : PP) (p : Ptr) (code : List CString) (e : Exec),
    RunsTo (next smallConfig) (fun _ _ => True) (start smallConfig .fifo fun _ => 0) st ∧
      st.thread .procer = ⟨.execute p code e, []⟩ ∧ e.point = .poolTest ∧
      next smallConfig st (.procer, .go) = some st' ∧
      ¬ (MakesRequest (st'.thread .procer).ops ↔
        requestsUnderWay smallConfig st < smallConfig.IO_THREADS) := by
  have hrun : ((follow (next smallConfig) (fun _ _ => true) (start smallConfig .fifo fun _ => 0)
      (goes .ltsConex 3 ++ submits asksTwice 0 ++ goes .sts 19 ++ goes .procer 19 ++
        goes (.ioThread 0) 3 ++ goes .procer 2)).any fun st =>
        atPoolTest (st.thread .procer) && (next smallConfig st (.procer, .go)).any fun st' =>
          decide (requestsUnderWay smallConfig st < smallConfig.IO_THREADS) &&
            !decide (MakesRequest (st'.thread .procer).ops)) = true := by
    decide +kernel
  obtain ⟨st, st', p, code, e, hruns, hthread, hpoint, hnext, hvalues⟩ := exists_pool_test hrun
  rw [Bool.and_eq_true, decide_eq_true_iff, Bool.not_eq_true', decide_eq_false_iff_not] at hvalues
  refine ⟨st, st', p, code, e, hruns, hthread, hpoint, hnext, fun hiff => ?_⟩
  exact hvalues.2 (hiff.mpr hvalues.1)

end Runs

end PP
end Sisop
