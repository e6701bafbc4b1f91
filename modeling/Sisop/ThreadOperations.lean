import Sisop.LineOperations
import Sisop.ThreadSteps

/-!
# Which operations a thread carries out

Locks, logs and a look at an image are everybody's; what changes the lists, the semaphores and the
connections belongs to one thread each.
-/

namespace Sisop
namespace PP

variable {cfg : Config} {s s' : Shared} {pc : Label} {th : Thread Operation Label}

inductive OperationOf : Tid → Operation → Prop
  | lock {t : Tid} (m : Mutex) : OperationOf t (.lock m)
  | unlock {t : Tid} (m : Mutex) : OperationOf t (.unlock m)
  | readImage {t : Tid} (p : Ptr) : OperationOf t (.readImage p)
  | logCreate {t : Tid} : OperationOf t .logCreate
  | logDestroy {t : Tid} : OperationOf t .logDestroy
  | work {t : Tid} : OperationOf t (.post .stsInEmpty)
  | reply (fd : ℕ) (m : TDataStream) : OperationOf .ltsConex (.writeStream fd m)
  | close (fd : ℕ) : OperationOf .ltsConex (.close fd)
  | unused : OperationOf .ltsConex (.post .mmpSem)
  | admission (p : Ptr) : OperationOf .ltsConex (.enqueue .lpn p)
  | delay (p : Ptr) : OperationOf .ltsConex (.enqueue .lfifo p)
  | resume (p : Ptr) : OperationOf .ltsConex (.enqueue .lpr p)
  | delayed : OperationOf .ltsNew (.wait .lfifoEmpty)
  | token : OperationOf .ltsNew (.wait .mmpSem)
  | deliver (p : Ptr) : OperationOf .ltsNew (.enqueue .lpn p)
  | waiting : OperationOf .sts (.wait .stsInEmpty)
  | ready (p : Ptr) : OperationOf .sts (.enqueue .lpl p)
  | resorted (p : Ptr) : OperationOf .configure (.enqueue .lpl p)
  | idle : OperationOf .procer (.wait .lplEmpty)
  | clearSUSPEND : OperationOf .procer .clearSUSPEND
  | report (m : TMsg) (p : Ptr) : OperationOf .procer (.addMsg m p)
  | request (e : TIoProcessing) : OperationOf .procer (.enqueueLPB e)
  | suspend (p : Ptr) : OperationOf .procer (.addLPS p)
  | endOfQuantum (p : Ptr) : OperationOf .procer (.enqueue .lfq p)
  | free (p : Ptr) : OperationOf .procer (.freeImage p)
  | inactive : OperationOf .procer (.post .mmpSem)
  | finished : OperationOf .procer (.post .mpsSem)
  | entry {i : ℕ} : OperationOf (.ioThread i) (.wait .lpbEmpty)
  | busy {i : ℕ} : OperationOf (.ioThread i) (.wait .ioThreads)
  | done {i : ℕ} (p : Ptr) : OperationOf (.ioThread i) (.enqueue .lfio p)
  | available {i : ℕ} : OperationOf (.ioThread i) (.post .ioThreads)

namespace OperationOf

attribute [simp] lock unlock readImage logCreate logDestroy work reply close unused admission delay
  resume delayed token deliver waiting ready resorted idle clearSUSPEND report request suspend
  endOfQuantum free inactive finished entry busy done available

end OperationOf

theorem operationOf_ltsConex (h : LTSconex.Moves cfg s pc s' th) :
    ∀ op ∈ th.ops, OperationOf .ltsConex op := by
  cases h <;> simp [LTSconex.refuse, LTSconex.admission, LTSconex.delay, LTSconex.notRestored,
    LTSconex.resume, logWrite, enqueueForSTS, enqueueLocked, writeText]

theorem operationOf_orderInsert {t : Tid} (h : OrderInsert.Moves s pc s' th)
    (hhome : homeOf pc t) : ∀ op ∈ th.ops, OperationOf t op := by
  cases h with
  | finish key caller =>
    cases caller with
    | sts =>
      rw [show t = .sts from hhome]
      simp [OrderInsert.finish, STS.wait, or_imp, forall_and]
    | configure =>
      rw [show t = .configure from hhome]
      simp [OrderInsert.finish, or_imp, forall_and]
  | _ => simp

theorem operationOf_procer (h : PROCER.Moves cfg s pc s' th) :
    ∀ op ∈ th.ops, OperationOf .procer op := by
  cases h with
  | @pop p ps code =>
    rw [PROCER.dispatch, Exec.enter]
    unfold Exec.stackExecution
    split <;> simp [logWrite]
  | run _ hmoves =>
    intro op hmem
    cases hmoves.scriptOperation op hmem <;> simp
  | _ =>
    simp [PROCER.finished, PROCER.suspended, PROCER.endOfQuantum, PROCER.wait, logWrite, sendMsg,
      enqueueForSTS]

theorem operationOf_control {t : Tid} (h : Moves cfg s t pc s' th) (hhome : homeOf pc t) :
    ∀ op ∈ th.ops, OperationOf t op := by
  cases h with
  | ltsConex h => exact operationOf_ltsConex h
  | ltsNew => simp [LTSnew.deliver, LTSnew.wait, logWrite, enqueueForSTS]
  | sts h =>
    cases h with
    | orderInsert h => exact operationOf_orderInsert h hhome
    | endRound kind => cases kind <;> simp [STS.endRound, STS.wait]
    | pop kind => cases kind <;> simp [STS.takeOver, logWrite, enqueueLocked]
    | _ => simp [STS.startRound]
  | configure h =>
    cases h with
    | orderInsert h => exact operationOf_orderInsert h hhome
    | setALG ALG => cases ALG <;> simp [Configure.afterALG]
    | _ => simp
  | procer h => exact operationOf_procer h
  | raise => simp
  | @ioThread i ioProcessing LPB =>
    cases hflag : ioProcessing.ioInfo.flagNonBlocking <;>
      simp [IoThread.serve, IoThread.wait, logWrite, enqueueForSTS, hflag]

theorem operationOf_initial (t : Tid) : ∀ op ∈ (initialThread t).ops, OperationOf t op := by
  cases t <;> simp [initialThread, logWrite, LTSnew.wait, STS.wait, PROCER.wait, IoThread.wait]

section Runs

variable {ok : PP → Step → Prop} {st st' : PP} {a : Step} {ALG : Algorithm}
  {priorities : QueueName → ℤ}

/-- In every reachable state a thread stands in its own code and has its own operations pending. -/
theorem operationOf_run (h : RunsTo (next cfg) ok (start cfg ALG priorities) st) (t : Tid) :
    homeOf (st.thread t).pc t ∧ ∀ op ∈ (st.thread t).ops, OperationOf t op := by
  refine h.invariant (P := fun st => ∀ t, homeOf (st.thread t).pc t ∧
    ∀ op ∈ (st.thread t).ops, OperationOf t op)
    (fun t => ⟨homeOf_initial t, operationOf_initial t⟩) (fun st a st' hst _ hnext => ?_) t
  refine shape_next (P := fun t th => homeOf th.pc t ∧ ∀ op ∈ th.ops, OperationOf t op)
    (fun t pc op ops h => ⟨h.1, fun op' hmem => h.2 op' (List.mem_cons_of_mem _ hmem)⟩)
    (fun hmoves hP => ⟨homeOf_control hmoves hP.1, operationOf_control hmoves hP.1⟩) hnext hst

/-- What a step keeps of every thread, its own operations given, a run keeps. -/
theorem shape_run {P : Tid → Thread Operation Label → Prop}
    (hinitial : ∀ t, P t (initialThread t))
    (htail : ∀ t pc op ops, P t ⟨pc, op :: ops⟩ → P t ⟨pc, ops⟩)
    (hcontrol : ∀ {t pc s s' th}, Moves cfg s t pc s' th → homeOf th.pc t →
      (∀ op ∈ th.ops, OperationOf t op) → P t ⟨pc, []⟩ → P t th)
    (h : RunsTo (next cfg) ok (start cfg ALG priorities) st) (t : Tid) : P t (st.thread t) := by
  refine (h.invariant (P := fun st => ∀ t, homeOf (st.thread t).pc t ∧ P t (st.thread t))
    (fun t => ⟨homeOf_initial t, hinitial t⟩) (fun st a st' hst _ hnext => ?_) t).2
  refine shape_next (P := fun t th => homeOf th.pc t ∧ P t th)
    (fun t pc op ops h => ⟨h.1, htail t pc op ops h.2⟩) (fun hmoves hP => ?_) hnext hst
  have hhome := homeOf_control hmoves hP.1
  exact ⟨hhome, hcontrol hmoves hhome (operationOf_control hmoves hP.1) hP.2⟩

end Runs

end PP
end Sisop
