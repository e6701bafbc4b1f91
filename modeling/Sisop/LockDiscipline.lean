import Sisop.LineOperations
import Sisop.LockOrder
import Sisop.ThreadSteps

/-!
# The mutexes of PP

A thread that takes a second mutex takes `LPL_mutex` under `ALG_mutex`, or the one of the log
under `LPB_mutex`; all others are taken alone. The exception is `v=io(t,0)` of
`processExecution`, which takes `LPB_mutex` a second time when an I/O thread is free.
-/

namespace Sisop
namespace PP

variable {cfg : Config} {s s' : Shared} {pc : Label} {th : Thread Operation Label}

def rank : Mutex → ℕ
  | .lpl | .log => 1
  | _ => 0

def lockAction : Operation → LockAction Mutex
  | .lock m => .lock m
  | .unlock m => .unlock m
  | _ => .other

def heldAtPoint : Point → List Mutex
  | .poolTest => [.lpb]
  | .algTest => [.alg]
  | _ => []

def heldAt : Label → List Mutex
  | .restoring _ => [.lps]
  | .sizing _ | .getting _ => [.sendingList]
  | .popFIFO => [.lfifo]
  | .readALG | .setALG _ _ | .configured _ => [.alg]
  | .popQueue _ _ name _ => [name.queue.mutex]
  | .sortStart _ _ .sts | .drain _ _ _ .sts | .popReady => [.lpl]
  | .sortStart _ _ (.configure _) | .drain _ _ _ (.configure _) => [.lpl, .alg]
  | .setPriorities _ => [.queuePriorities]
  | .execute _ _ e => heldAtPoint e.point
  | .popLPB => [.lpb]
  | _ => []

/-- From the mutexes in `held` the pending operations lead to those of the control point. -/
def Disciplined (held : List Mutex) (th : Thread Operation Label) : Prop :=
  lockRun rank held (th.ops.map lockAction) = some (heldAt th.pc)

theorem disciplined_initial (t : Tid) : Disciplined [] (initialThread t) := by
  cases t <;> rfl

theorem disciplined_ltsConex (h : LTSconex.Moves cfg s pc s' th) :
    Disciplined (heldAt pc) th := by
  cases h <;> rfl

theorem lockRun_enqueues (held : List Mutex) (ps : List Ptr) :
    lockRun rank held ((ps.map (.enqueue .lpl)).map lockAction) = some held := by
  refine lockRun_of_other rank held fun action hmem => ?_
  simp only [List.map_map, List.mem_map] at hmem
  obtain ⟨p, -, rfl⟩ := hmem
  rfl

theorem disciplined_orderInsert (h : OrderInsert.Moves s pc s' th) :
    Disciplined (heldAt pc) th := by
  cases h with
  | sortStart key prioList caller => cases caller <;> rfl
  | finish key caller =>
    cases caller with
    | sts =>
      rw [Disciplined, OrderInsert.finish, List.append_assoc, List.map_append, lockRun_append,
        lockRun_enqueues]
      rfl
    | configure priorities =>
      rw [Disciplined, OrderInsert.finish, List.map_append, lockRun_append, lockRun_enqueues]
      rfl
  | drainOne key remaining remaining' prioList caller => cases caller <;> rfl

theorem disciplined_sts (h : STS.Moves s pc s' th) : Disciplined (heldAt pc) th := by
  cases h with
  | orderInsert h => exact disciplined_orderInsert h
  | endRound kind => cases kind <;> rfl
  | @pop kind i name => cases kind <;> cases name <;> rfl
  | _ => rfl

theorem disciplined_configure (h : Configure.Moves s pc s' th) : Disciplined (heldAt pc) th := by
  cases h with
  | orderInsert h => exact disciplined_orderInsert h
  | setALG ALG => cases ALG <;> rfl
  | _ => rfl

section Script

variable {code : List CString} {quantum : ℤ} {self : Ptr} {image : TProcessImage} {env : Env}
  {blocks : Bool} {ops : List Operation}

theorem lockRun_output (h : LineOutput self image blocks ops) :
    lockRun rank [] (ops.map lockAction) = some [] := by
  cases h <;> rfl

theorem lockRun_lineEnd (ticks : Bool) : lockRun rank [] ((lineEnd ticks).map lockAction) =
    some (heldAtPoint (if ticks then .algTest else .loopTest)) := by
  cases ticks <;> rfl

theorem lockRun_append_lineEnd {held : List Mutex} {output : List Operation} (ticks : Bool)
    (houtput : lockRun rank held (output.map lockAction) = some []) :
    lockRun rank held ((output ++ lineEnd ticks).map lockAction) =
      some (heldAtPoint (if ticks then .algTest else .loopTest)) := by
  rw [List.map_append, lockRun_append, houtput, Option.bind_some, lockRun_lineEnd]

theorem lockRun_shaped {f : LineEffect} (h : f.Shaped self image) :
    lockRun rank [] (f.operations.map lockAction) =
      some (heldAtPoint (if f.ticks then .algTest else .loopTest)) := by
  rcases h with ⟨hops, -, hticks⟩ | ⟨output, houtput, hops⟩
  · rw [hops, hticks]
    rfl
  · rw [hops]
    exact lockRun_append_lineEnd _ (lockRun_output houtput)

/-- A look at the pool gives `LPB_mutex` back, unless it takes it a second time. -/
theorem lockRun_answer (h : PoolAnswer self image blocks ops) (hblocks : blocks = false) :
    lockRun rank [.lpb] (ops.map lockAction) = some [] := by
  cases h with
  | accepted ioTime => rfl
  | refused text => rfl
  | again ioTime => cases hblocks

theorem lockRun_runLine {e e' : Exec} {PC : ℕ} {outcome : LineOutcome} {events : List Event}
    (hpoint : e.point = .loopTest) (heffect : ∀ f, outcome = .effect f → f.Shaped self image)
    (h : e.runLine code PC outcome = some (e', ops, events)) :
    lockRun rank [] (ops.map lockAction) = some (heldAtPoint e'.point) := by
  cases outcome with
  | effect f =>
    cases h
    exact lockRun_shaped (heffect f rfl)
  | asksPool =>
    cases h
    rfl
  | call functionName =>
    obtain ⟨entry, -, rfl, rfl, -⟩ := Exec.runLine_call h
    dsimp only
    rw [hpoint]
    rfl

theorem lockRun_stackExecution {e : Exec} (hpoint : e.point = .loopTest) :
    lockRun rank [] (e.stackExecution.2.map lockAction) =
      some (heldAtPoint e.stackExecution.1.point) := by
  unfold Exec.stackExecution
  split
  · dsimp only
    rw [hpoint]
    rfl
  · dsimp only [Exec.setStack]
    rw [hpoint]
    rfl

theorem leaveFunction_point (finished : Bool) (element : TStack) (rest : List TStack)
    (e : Exec) : (e.leaveFunction finished element rest).point = e.point := by
  unfold Exec.leaveFunction
  dsimp only
  split <;> rfl

/-- `processExecution` finds an I/O thread free for the `v=io(t,0)` it stands at. -/
def findsPoolFree (code : List CString) (free : Bool) (e : Exec) : Bool :=
  e.point == .poolTest && e.elements == [] && free &&
    code[e.processImage.PC]?.any (processForm · == .assignIo)

theorem lockRun_exec {e e' : Exec} {events : List Event}
    (hfree : findsPoolFree code env.poolFree e = false)
    (h : Exec.Moves code quantum self env e e' ops events) :
    lockRun rank (heldAtPoint e.point) (ops.map lockAction) = some (heldAtPoint e'.point) := by
  cases h with
  | returns hpoint =>
    rw [hpoint]
    rfl
  | resumes hpoint =>
    rw [hpoint]
    exact lockRun_stackExecution hpoint
  | @runsLine line next outcome e' ops events hpoint _ _ _ _ _ _ houtcome hrun =>
    have heffect : ∀ f, outcome = .effect f → f.Shaped self e.advanceProcess.processImage := by
      rintro f rfl
      exact shaped_of_processLine houtcome
    rw [hpoint]
    exact lockRun_runLine (e := e.advanceProcess) hpoint heffect hrun
  | leaves hpoint =>
    rw [leaveFunction_point, hpoint]
    rfl
  | @runsFunctionLine element rest line next outcome e' ops events hpoint _ _ _ _ _ houtcome hrun =>
    have heffect : ∀ f, outcome = .effect f → f.Shaped self e.processImage := by
      rintro f rfl
      exact shaped_of_functionLine houtcome
    rw [hpoint]
    exact lockRun_runLine (e := e.advanceFunction element rest) hpoint heffect hrun
  | @asksPool line f hpoint helements hline hf =>
    obtain ⟨⟨answer, hanswer, hops⟩, hagain⟩ := answer_of_processPoolLine hf
    have hblocks : f.blocks = false := by
      by_contra hblocks
      obtain ⟨hpool, hform⟩ := hagain (by simpa using hblocks)
      simp [findsPoolFree, hpoint, helements, hpool, hline, hform] at hfree
    rw [hpoint, hops]
    exact lockRun_append_lineEnd _ (lockRun_answer hanswer hblocks)
  | asksPoolInFunction hpoint _ _ hf =>
    obtain ⟨⟨answer, hanswer, hops⟩, hblocks⟩ := answer_of_functionPoolLine hf
    rw [hpoint, hops]
    exact lockRun_append_lineEnd _ (lockRun_answer hanswer hblocks)
  | counts hpoint =>
    rw [hpoint]
    rfl

end Script

/-- At this step `processExecution` finds an I/O thread free for `v=io(t,0)`. -/
def locksPoolAgain (st : PP) (a : Step) : Bool :=
  match a.1, st.thread a.1 with
  | .procer, ⟨.execute _ code e, []⟩ => findsPoolFree code st.shared.env.poolFree e
  | _, _ => false

theorem disciplined_procer (h : PROCER.Moves cfg s pc s' th)
    (hfree : ∀ p code e, pc = .execute p code e → findsPoolFree code s.env.poolFree e = false) :
    Disciplined (heldAt pc) th := by
  cases h with
  | pop hqueue hcode =>
    rw [Disciplined, PROCER.dispatch, List.map_append, lockRun_append, Exec.enter, List.map_cons]
    exact lockRun_stackExecution rfl
  | run hpoint hmoves => exact lockRun_exec (hfree _ _ _ rfl) hmoves
  | finished hpoint | blocked hpoint | suspended hpoint | endOfQuantum hpoint | dropped hpoint =>
    rw [heldAt, hpoint]
    rfl

theorem disciplined_control {t : Tid} (h : Moves cfg s t pc s' th)
    (hfree : ∀ p code e, t = .procer → pc = .execute p code e →
      findsPoolFree code s.env.poolFree e = false) : Disciplined (heldAt pc) th := by
  cases h with
  | ltsConex h => exact disciplined_ltsConex h
  | ltsNew => rfl
  | sts h => exact disciplined_sts h
  | configure h => exact disciplined_configure h
  | procer h => exact disciplined_procer h fun p code e => hfree p code e rfl
  | raise => rfl
  | @ioThread i ioProcessing =>
    cases hflag : ioProcessing.ioInfo.flagNonBlocking <;>
      simp only [Disciplined, IoThread.serve, hflag, Bool.false_eq_true, if_true, if_false] <;> rfl

/-- Only locking and unlocking change who owns a mutex. -/
theorem owner_control {t : Tid} (h : Moves cfg s t pc s' th) : s'.owner = s.owner := by
  cases h with
  | ltsConex h => cases h <;> rfl
  | sts h =>
    cases h with
    | orderInsert h => cases h <;> rfl
    | _ => rfl
  | configure h =>
    cases h with
    | orderInsert h => cases h <;> rfl
    | _ => rfl
  | procer h => cases h <;> rfl
  | _ => rfl

/-- The thread owns the mutexes from which its operations lead, in order, to those of its control
point. -/
def OwnsInOrder (t : Tid) (s : Shared) (th : Thread Operation Label) : Prop :=
  Follows rank s.owner t (th.ops.map lockAction) (heldAt th.pc)

theorem ownsInOrder_initial (s : Shared) (hs : ∀ m, s.owner m = none) (t : Tid) :
    OwnsInOrder t s (initialThread t) :=
  ⟨[], List.nodup_nil, by simp [hs], disciplined_initial t⟩

/-- An operation of `t` does to the mutexes what it says. -/
theorem follows_exec {t : Tid} {op : Operation} {ops : List Operation} {target : List Mutex}
    (hexec : op.exec t s = some s')
    (h : Follows rank s.owner t ((op :: ops).map lockAction) target) :
    Follows rank s'.owner t (ops.map lockAction) target ∧ ∀ u actions target', u ≠ t →
      Follows rank s.owner u actions target' → Follows rank s'.owner u actions target' := by
  cases op with
  | lock m =>
    simp only [Operation.exec] at hexec
    split_ifs at hexec with hfree
    cases hexec
    refine ⟨h.lock hfree, fun u actions target' hu hfollows => hfollows.update ?_ ?_⟩
    · simp [hfree]
    · intro heq
      exact hu (Option.some.inj heq).symm
  | unlock m =>
    simp only [Operation.exec] at hexec
    split_ifs at hexec with howner
    cases hexec
    refine ⟨h.unlock, fun u actions target' hu hfollows => hfollows.update ?_ (by simp)⟩
    rw [howner]
    intro heq
    exact hu (Option.some.inj heq).symm
  | wait sem =>
    simp only [Operation.exec] at hexec
    split_ifs at hexec
    cases hexec
    exact ⟨h, fun u actions target' _ hfollows => hfollows⟩
  | _ =>
    cases hexec
    exact ⟨h, fun u actions target' _ hfollows => hfollows⟩

section Runs

variable {st st' : PP} {a : Step}

theorem ownsInOrder_next (h : next cfg st a = some st') (ha : locksPoolAgain st a = false)
    (hst : ∀ t, OwnsInOrder t st.shared (st.thread t)) :
    ∀ t, OwnsInOrder t st'.shared (st'.thread t) := by
  have hown := hst a.1
  rcases next_cases h with ⟨op, ops, s, hops, hexec, rfl⟩ | ⟨s, th, hops, hmoves, rfl⟩
  · rw [OwnsInOrder, hops] at hown
    obtain ⟨hself, hother⟩ := follows_exec hexec hown
    refine Machine.forall_thread_step (next_eq_some h).2 hst ?_ fun t ht hfollows => ?_
    · dsimp only
      rw [Function.update_self]
      exact hself
    · exact hother t _ _ ht hfollows
  · rw [OwnsInOrder, hops] at hown
    have howner := owner_control hmoves
    refine Machine.forall_thread_step (next_eq_some h).2 hst ?_ fun t ht hfollows => ?_
    · dsimp only
      rw [Function.update_self, OwnsInOrder, howner]
      refine hown.next (disciplined_control hmoves fun p code e hprocer hpc => ?_)
      have hthread : st.thread a.1 = ⟨.execute p code e, []⟩ := by rw [← hpc, ← hops]
      rw [locksPoolAgain, hthread, hprocer] at ha
      exact ha
    · rw [OwnsInOrder, howner]
      exact hfollows

theorem ownsInOrder_run {ALG : Algorithm} {priorities : QueueName → ℤ}
    (h : RunsTo (next cfg) (fun st a => locksPoolAgain st a = false) (start cfg ALG priorities)
      st) : ∀ t, OwnsInOrder t st.shared (st.thread t) :=
  h.invariant (P := fun st => ∀ t, OwnsInOrder t st.shared (st.thread t))
    (ownsInOrder_initial _ fun _ => rfl) fun _ _ _ hst ha hnext => ownsInOrder_next hnext ha hst

def wants (th : Thread Operation Label) : Option Mutex :=
  match th.ops with
  | .lock m :: _ => some m
  | _ => none

/-- An iteration of `processExecution`, `functionExecution`, one of the three `ordenar` loops, of
`STS` or of `ioThread` has ended. -/
def BetweenIterations (th : Thread Operation Label) : Prop :=
  match th.pc, th.ops with
  | .execute _ _ e, [] => e.point = .loopTest ∨ e.point = .returned
  | .round _ _ _, [] | .collect _ _ _ _, [] => True
  | .readALG, ops => ops = STS.wait
  | .popLPB, ops => ops = IoThread.wait
  | _, _ => False

theorem OwnsInOrder.asksUpwards (hst : ∀ t, OwnsInOrder t st.shared (st.thread t)) :
    AsksUpwards rank st.shared.owner fun t => wants (st.thread t) := by
  intro t m hwants m' howner
  have hfollows := hst t
  dsimp only [wants] at hwants
  split at hwants
  case h_1 m₁ ops hops =>
    rw [OwnsInOrder, hops] at hfollows
    cases hwants
    exact hfollows.ahead howner
  case h_2 => cases hwants

theorem nil_of_lockRun {th : Thread Operation Label} (hth : BetweenIterations th)
    {held : List Mutex}
    (h : lockRun rank held (th.ops.map lockAction) = some (heldAt th.pc)) : held = [] := by
  obtain ⟨pc, ops⟩ := th
  unfold BetweenIterations at hth
  split at hth
  case h_1 p code e heq hops =>
    dsimp only at heq hops h
    rw [heq, hops] at h
    rcases hth with hpoint | hpoint <;> simpa [heldAt, hpoint, heldAtPoint, lockRun] using h
  case h_2 heq hops | h_3 heq hops =>
    dsimp only at heq hops h
    rw [heq, hops] at h
    exact Option.some.inj h
  case h_4 heq | h_5 heq =>
    dsimp only at heq hth h
    rw [heq, hth] at h
    simp only [heldAt, STS.wait, IoThread.wait, lockAction, lockRun, List.map_cons, List.map_nil]
      at h
    split_ifs at h
    exact List.cons_eq_cons.mp (Option.some.inj h) |>.2
  case h_6 => exact hth.elim

/-- In every run in which `processExecution` never finds an I/O thread free for `v=io(t,0)`, no
thread asks for a mutex it owns, no threads wait for each other in a cycle, and no iteration ends
with a mutex held. -/
theorem mutexes_in_order (cfg : Config) (ALG : Algorithm) (priorities : QueueName → ℤ) (st : PP)
    (h : RunsTo (next cfg) (fun st a => locksPoolAgain st a = false) (start cfg ALG priorities)
      st) :
    (∀ t m, wants (st.thread t) = some m → st.shared.owner m ≠ some t) ∧
      (∀ t, ¬ Relation.TransGen (WaitsFor st.shared.owner fun t => wants (st.thread t)) t t) ∧
      ∀ t, BetweenIterations (st.thread t) → ∀ m, st.shared.owner m ≠ some t := by
  have hst := ownsInOrder_run h
  have hupwards := OwnsInOrder.asksUpwards hst
  refine ⟨fun t m hwants => hupwards.not_held hwants, hupwards.no_cycle, fun t ht m => ?_⟩
  exact (hst t).not_held (fun held hrun => nil_of_lockRun ht hrun) m

def atLoopTest (th : Thread Operation Label) : Bool :=
  match th with
  | ⟨.execute _ _ e, []⟩ => e.point == .loopTest
  | _ => false

theorem mutexes_in_order_dispatched : ∃ st : PP, BetweenIterations (st.thread .procer) ∧
    ∀ m, st.shared.owner m ≠ some .procer := by
  have hrun : ((follow (next smallConfig) (fun st a => !locksPoolAgain st a)
      (start smallConfig .fifo fun _ => 0) (goes .ltsConex 3 ++ submits idleScript 0 ++
        goes .sts 19 ++ goes .procer 10)).any fun st => atLoopTest (st.thread .procer)) =
          true := by
    decide +kernel
  obtain ⟨st, hst, hthread⟩ := (Option.any_eq_true _ _).mp hrun
  have hbetween : BetweenIterations (st.thread .procer) := by
    unfold atLoopTest at hthread
    split at hthread
    case h_1 heq =>
      rw [heq]
      exact .inl (beq_iff_eq.mp hthread)
    case h_2 => cases hthread
  exact ⟨st, hbetween, (mutexes_in_order smallConfig .fifo (fun _ => 0) st
    (RunsTo.of_follow (fun st a h => by simpa using h) _ hst)).2.2 .procer hbetween⟩

def poolScript : CString := cstr "comienzo_programa\nvariables a\na=io(5,0)\nfin_programa"

/-- Both I/O threads are idle when the script gets to its request. -/
theorem pool_locked_twice : ¬ ∀ (cfg : Config) (ALG : Algorithm) (priorities : QueueName → ℤ)
    (st : PP), RunsTo (next cfg) (fun _ _ => True) (start cfg ALG priorities) st →
      ∀ t m, wants (st.thread t) = some m → st.shared.owner m ≠ some t := by
  intro h
  have hrun : ((follow (next smallConfig) (fun _ _ => true)
      (start smallConfig .fifo fun _ => 0) (goes .ltsConex 3 ++ submits poolScript 0 ++
        goes .sts 19 ++ goes .procer 18)).any fun st =>
          wants (st.thread .procer) == some .lpb && st.shared.owner .lpb == some .procer) =
            true := by
    decide +kernel
  obtain ⟨st, hst, hvalues⟩ := (Option.any_eq_true _ _).mp hrun
  simp only [Bool.and_eq_true, beq_iff_eq] at hvalues
  obtain ⟨hwants, howner⟩ := hvalues
  exact h smallConfig .fifo (fun _ => 0) st (RunsTo.of_follow (fun _ _ _ => trivial) _ hst)
    .procer .lpb hwants howner

end Runs

end PP
end Sisop
