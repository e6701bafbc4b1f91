import Sisop.ImageLedger
import Sisop.ThreadOperations
import Mathlib.Algebra.BigOperators.Ring.Finset

/-!
# The limits `MMP` and `MPS`

A ledger for each limit: the tokens of its semaphore, the images it counts, and the tokens that
`LTSconex` or `LTSnew` hold before there is an image to go with them. A token is taken before an
image becomes one of those counted and returned after it has ceased to be one. Some steps lose
tokens (a frame that is no request, an image lost), none makes one.
-/

namespace Sisop

/-- The new, resumed and ready images, those at the end of a quantum, blocked, and at the end of
a blocking I/O. -/
def active (s : Shared) : List Ptr :=
  s.queue .lpn ++ s.queue .lpr ++ s.queue .lpl ++ s.queue .lfq ++ PP.blockingEntries s.LPB ++
    s.queue .lfio

/-- These, the delayed and the suspended ones. -/
def admitted (s : Shared) : List Ptr := active s ++ s.queue .lfifo ++ s.LPS

inductive Limit where
  | mmp | mps

namespace Limit

def sem : Limit → Semaphore
  | .mmp => .mmpSem
  | .mps => .mpsSem

def max (cfg : Config) : Limit → ℕ
  | .mmp => cfg.MMP
  | .mps => cfg.MPS

def listed (s : Shared) : Limit → List Ptr
  | .mmp => active s
  | .mps => admitted s

def entering : Limit → Operation → List Ptr
  | .mmp, .enqueue .lfifo _ | .mmp, .addLPS _ | _, .freeImage _ => []
  | _, op => PP.imagesOf op

def inHand : Limit → Label → ℕ
  | .mmp, .popFIFO | .mmp, .awaitRequest _ | .mmp, .restoring _ | .mps, .building _ _ _ => 1
  | _, _ => 0

def returns (l : Limit) : Operation → ℤ
  | .post s => if s = l.sem then 1 else 0
  | .wait s => if s = l.sem then -1 else 0
  | _ => 0

def ledger (l : Limit) : Ledger Operation Label Shared ℤ where
  held s := s.sem l.sem + (l.listed s).length
  pc pc := (PP.imagesAt pc).length + l.inHand pc
  op op := (l.entering op).length + l.returns op

end Limit

namespace PP

variable {cfg : Config} {s s' : Shared} {pc : Label} {th : Thread Operation Label} {l : Limit}

/-- The processes that a limit counts: those in its lists, those the threads have in their
variables, and those about to be put into one of the lists. -/
def processes (l : Limit) (cfg : Config) (st : PP) : ℕ :=
  (l.listed st.shared).length + ∑ t ∈ cfg.threads, ((imagesAt (st.thread t).pc).length +
    ((st.thread t).ops.flatMap l.entering).length)

theorem length_blockingEntries_cons (e : TIoProcessing) (LPB : List TIoProcessing) :
    (blockingEntries (e :: LPB)).length =
      (imagesOf (.enqueueLPB e)).length + (blockingEntries LPB).length := by
  rw [blockingEntries_cons, List.length_append]

theorem sem_ne_empty (l : Limit) (q : Queue) : l.sem ≠ q.empty := by
  cases l <;> cases q <;> exact Semaphore.noConfusion

theorem listed_tryWait (l : Limit) (s : Shared) (sem : Semaphore) :
    l.listed (s.tryWait sem) = l.listed s := by
  cases l <;> rfl

theorem listed_post (l : Limit) (s : Shared) (sem : Semaphore) :
    l.listed (s.post sem) = l.listed s := by
  cases l <;> rfl

theorem held_tryWait_other {sem : Semaphore} (hsem : sem ≠ l.sem) :
    l.ledger.held (s.tryWait sem) = l.ledger.held s := by
  have hvalue : (s.tryWait sem).sem l.sem = s.sem l.sem := Function.update_of_ne (Ne.symm hsem) _ _
  simp only [Limit.ledger, listed_tryWait, hvalue]

theorem held_post_other {sem : Semaphore} (hsem : sem ≠ l.sem) :
    l.ledger.held (s.post sem) = l.ledger.held s := by
  have hvalue : (s.post sem).sem l.sem = s.sem l.sem := Function.update_of_ne (Ne.symm hsem) _ _
  simp only [Limit.ledger, listed_post, hvalue]

theorem held_tryWait (h : 0 < s.sem l.sem) :
    l.ledger.held (s.tryWait l.sem) = l.ledger.held s - 1 := by
  have hvalue : (s.tryWait l.sem).sem l.sem = s.sem l.sem - 1 := Function.update_self _ _ _
  simp only [Limit.ledger, listed_tryWait, hvalue]
  omega

theorem held_post : l.ledger.held (s.post l.sem) = l.ledger.held s + 1 := by
  have hvalue : (s.post l.sem).sem l.sem = s.sem l.sem + 1 := Function.update_self _ _ _
  simp only [Limit.ledger, listed_post, hvalue]
  omega

theorem length_listed_push (l : Limit) (s : Shared) (q : Queue) (p : Ptr) :
    (l.listed (s.setQueue q (s.queue q ++ [p]))).length =
      (l.listed s).length + (l.entering (.enqueue q p)).length := by
  cases l <;> cases q <;>
    simp [Limit.listed, Limit.entering, imagesOf, active, admitted, Shared.setQueue] <;> omega

/-- A control step that leaves the lists and the semaphore alone. -/
theorem limit_of_held (hheld : l.ledger.held s' = l.ledger.held s)
    (hthread : l.ledger.thread th ≤ l.ledger.pc pc) :
    l.ledger.held s' + l.ledger.thread th ≤ l.ledger.held s + l.ledger.pc pc := by
  rw [hheld]
  omega

/-- A control step that takes a token. -/
theorem limit_of_tryWait (hsem : 0 < s.sem l.sem)
    (hheld : l.ledger.held s' = l.ledger.held (s.tryWait l.sem))
    (hthread : l.ledger.thread th ≤ l.ledger.pc pc + 1) :
    l.ledger.held s' + l.ledger.thread th ≤ l.ledger.held s + l.ledger.pc pc := by
  rw [hheld, held_tryWait hsem]
  omega

/-- Both limits count the lists that `STS` serves. -/
theorem length_listed_pop (l : Limit) (name : QueueName) {p : Ptr} {ps : List Ptr}
    (h : s.queue name.queue = p :: ps) :
    (l.listed (s.setQueue name.queue ps)).length + 1 = (l.listed s).length := by
  have hactive : (active (s.setQueue name.queue ps)).length + 1 = (active s).length := by
    cases name <;> simp only [QueueName.queue] at h <;>
      simp [active, Shared.setQueue, QueueName.queue, h] <;> omega
  cases l with
  | mmp => exact hactive
  | mps =>
    have hlfifo : (s.setQueue name.queue ps).queue .lfifo = s.queue .lfifo := by
      cases name <;> rfl
    have hLPS : (s.setQueue name.queue ps).LPS = s.LPS := rfl
    simp only [Limit.listed, admitted, List.length_append, hlfifo, hLPS]
    omega

theorem limit_exec {t : Tid} {op : Operation} (h : op.exec t s = some s') :
    l.ledger.held s' = l.ledger.held s + l.ledger.op op := by
  cases op with
  | lock m | unlock m =>
    simp only [Operation.exec] at h
    split_ifs at h
    cases h
    cases l <;> rfl
  | wait sem =>
    simp only [Operation.exec] at h
    split_ifs at h with hpos
    cases h
    by_cases hsem : sem = l.sem
    · subst hsem
      have hop : l.ledger.op (.wait l.sem) = -1 := by cases l <;> rfl
      rw [held_tryWait hpos, hop, sub_eq_add_neg]
    · have hop : l.ledger.op (.wait sem) = 0 := by cases l <;> simp [Limit.ledger, Limit.entering,
        Limit.returns, imagesOf, hsem]
      rw [held_tryWait_other hsem, hop, add_zero]
  | post sem =>
    cases h
    by_cases hsem : sem = l.sem
    · subst hsem
      have hop : l.ledger.op (.post l.sem) = 1 := by cases l <;> rfl
      rw [held_post, hop]
    · have hop : l.ledger.op (.post sem) = 0 := by cases l <;> simp [Limit.ledger, Limit.entering,
        Limit.returns, imagesOf, hsem]
      rw [held_post_other hsem, hop, add_zero]
  | enqueue q p =>
    cases h
    have hop : l.ledger.op (.enqueue q p) = (l.entering (.enqueue q p)).length := add_zero _
    have hsem : (s.setQueue q (s.queue q ++ [p])).sem = s.sem := rfl
    rw [held_post_other (sem_ne_empty l q).symm, hop]
    simp only [Limit.ledger, hsem, length_listed_push]
    omega
  | enqueueLPB e =>
    cases h
    cases l <;> simp [Limit.ledger, Limit.sem, Limit.listed, Limit.entering, Limit.returns,
      active, admitted, Shared.post, blockingEntries_append, length_blockingEntries_cons] <;>
      omega
  | addLPS p =>
    cases h
    cases l <;> simp [Limit.ledger, Limit.sem, Limit.listed, Limit.entering, Limit.returns,
      imagesOf, active, admitted]
    omega
  | _ =>
    cases h
    cases l <;> exact (add_zero _).symm

theorem limit_ltsConex (h : LTSconex.Moves cfg s pc s' th) :
    l.ledger.held s' + l.ledger.thread th ≤ l.ledger.held s + l.ledger.pc pc := by
  cases h with
  | restored hperm =>
    have hlength := hperm.length_eq
    cases l <;> simp [Limit.ledger, Ledger.thread, Limit.sem, Limit.listed, Limit.entering,
      Limit.returns, Limit.inHand, imagesAt, imagesOf, active, admitted, LTSconex.resume,
      logWrite, enqueueForSTS] at hlength ⊢
    omega
  | readable fd hsem =>
    cases l with
    | mmp => exact limit_of_tryWait hsem rfl (le_refl 1)
    | mps => exact limit_of_held rfl (le_refl 0)
  | script fd data priority hsem =>
    cases l with
    | mmp => exact limit_of_held rfl (le_refl 0)
    | mps => exact limit_of_tryWait hsem rfl (le_refl 1)
  | admission fd data priority code hsem =>
    cases l with
    | mmp => exact limit_of_tryWait hsem rfl (le_refl 1)
    | mps => exact limit_of_held rfl (le_refl 1)
  | notARequest fd =>
    cases l with
    | mmp => exact limit_of_held rfl Int.one_nonneg
    | mps => exact limit_of_held rfl (le_refl 0)
  | _ =>
    apply limit_of_held
    · cases l <;> rfl
    · apply le_of_eq
      cases l <;> rfl

theorem limit_enqueues (q : Queue) (ps : List Ptr) (hq : q ≠ .lfifo) :
    l.ledger.ops (ps.map (.enqueue q)) = ps.length := by
  induction ps with
  | nil => rfl
  | cons p ps ih =>
    have hop : l.ledger.op (.enqueue q p) = 1 := by
      cases q with
      | lfifo => exact absurd rfl hq
      | _ => cases l <;> rfl
    rw [List.map_cons, Ledger.ops_cons, ih, hop, List.length_cons]
    omega

/-- The draining loop may lose an image, and with it a token. -/
theorem limit_orderInsert (h : OrderInsert.Moves s pc s' th) :
    l.ledger.held s' + l.ledger.thread th ≤ l.ledger.held s + l.ledger.pc pc := by
  cases h with
  | sortStart => cases l <;> simp [Limit.ledger, Ledger.thread, Limit.inHand, imagesAt]
  | @finish key prioList sorted caller hperm =>
    have hops := limit_enqueues (l := l) .lpl sorted (by decide)
    rw [hperm.length_eq] at hops
    cases caller <;> simp only [OrderInsert.finish, Ledger.thread, Ledger.ops_append, hops] <;>
      cases l <;> simp [Limit.ledger, Limit.entering, Limit.returns, Limit.sem, Limit.inHand,
        imagesAt, imagesOf, STS.wait]
  | @drainOne key remaining remaining' prioList p ready caller hqueue =>
    have hlength : (listAddInIndex prioList 0 p).length ≤ prioList.length + 1 := by
      cases prioList with
      | nil => simp
      | cons p' prioList => exact (listAddInIndex_perm (by simp) p).length_eq.le
    cases l <;> simp [Limit.ledger, Ledger.thread, Limit.sem, Limit.listed, Limit.inHand, imagesAt,
      active, admitted, Shared.tryWait, Shared.setQueue, hqueue] <;> omega

theorem limit_sts (h : STS.Moves s pc s' th) :
    l.ledger.held s' + l.ledger.thread th ≤ l.ledger.held s + l.ledger.pc pc := by
  cases h with
  | orderInsert h => exact limit_orderInsert h
  | readALG kind =>
    apply limit_of_held rfl
    cases l <;> cases kind <;> simp [Limit.ledger, Ledger.thread, Limit.entering, Limit.returns,
      Limit.inHand, imagesAt, imagesOf, collected, STS.startRound]
  | endRound kind =>
    apply limit_of_held rfl
    cases l <;> cases kind <;> simp [Limit.ledger, Ledger.thread, Limit.entering, Limit.returns,
      Limit.sem, Limit.inHand, imagesAt, imagesOf, collected, STS.endRound, STS.wait]
  | @pop kind i name prioList p ps hqueue =>
    have hlength := length_listed_pop l name hqueue
    have hthread : l.ledger.thread (STS.takeOver kind i name prioList p) =
        1 + l.ledger.pc (.popQueue kind i name prioList) := by
      cases l <;> cases kind <;>
        simp [Limit.ledger, Ledger.thread, Limit.entering, Limit.returns, Limit.inHand, imagesAt,
          imagesOf, collected, STS.takeOver, logWrite, enqueueLocked] <;> omega
    have hheld : l.ledger.held (s.setQueue name.queue ps) + 1 = l.ledger.held s := by
      simp only [Limit.ledger, Shared.setQueue] at hlength ⊢
      omega
    omega
  | @takeToken kind i name prioList =>
    apply limit_of_held (held_tryWait_other (sem_ne_empty l name.queue).symm)
    cases l <;> simp [Limit.ledger, Ledger.thread, Limit.inHand, imagesAt]
  | takeIn =>
    apply limit_of_held
    · cases l <;> rfl
    · cases l <;> simp [Limit.ledger, Ledger.thread, Limit.entering, Limit.returns, Limit.inHand,
        imagesAt, imagesOf]
  | nextQueue | noToken =>
    apply limit_of_held rfl
    cases l <;> simp [Limit.ledger, Ledger.thread, Limit.inHand, imagesAt]

theorem limit_configure (h : Configure.Moves s pc s' th) :
    l.ledger.held s' + l.ledger.thread th ≤ l.ledger.held s + l.ledger.pc pc := by
  cases h with
  | orderInsert h => exact limit_orderInsert h
  | setALG ALG =>
    apply limit_of_held
    · cases l <;> rfl
    · cases l <;> cases ALG <;> exact le_refl 0
  | _ =>
    apply limit_of_held
    · cases l <;> rfl
    · cases l <;> exact le_refl 0

theorem limit_weighs (l : Limit) (p : Ptr) : Weighs l.ledger p 1 := by
  refine ⟨fun code e => ?_, fun ioInfo => ?_, ?_, ?_, ?_, ?_, ?_, ?_, ?_⟩
  · cases l <;> cases hio : e.ioBlockInterrupt <;>
      simp [Limit.ledger, Limit.inHand, imagesAt, hio]
  · cases l <;> cases hflag : ioInfo.flagNonBlocking <;>
      simp [Limit.ledger, Limit.entering, Limit.returns, imagesOf, hflag]
  all_goals
    intros
    cases l <;> rfl

theorem limit_procer (h : PROCER.Moves cfg s pc s' th)
    (hsound : ∀ p code e, pc = .execute p code e → e.Sound code) :
    l.ledger.held s' + l.ledger.thread th ≤ l.ledger.held s + l.ledger.pc pc := by
  cases h with
  | @pop p ps code hqueue =>
    rw [(limit_weighs l p).dispatch]
    cases l <;> simp only [Limit.ledger, Limit.sem, Limit.listed, admitted, active,
      List.append_assoc, List.length_append, Nat.cast_add, imagesAt, Limit.inHand, Shared.setQueue,
      ne_eq, reduceCtorEq, not_false_eq_true, Function.update_of_ne, Function.update_self, hqueue,
      List.length_cons, Nat.cast_one, List.length_nil, Nat.cast_zero, add_zero] <;> omega
  | run _ hmoves => exact (congrArg (_ + ·)
      ((limit_weighs l _).interpreter hmoves (hsound _ _ _ rfl))).le
  | @finished p code e _ hfin =>
    have hio : e.ioBlockInterrupt = false := by
      by_contra hblocked
      rw [(hsound _ _ _ rfl).blocked (by simpa using hblocked)] at hfin
      cases hfin
    apply limit_of_held
    · cases l <;> rfl
    · rw [(limit_weighs l p).running, hio]
      cases l <;> simp [Limit.ledger, Ledger.thread, Limit.sem, Limit.entering, Limit.returns,
        Limit.inHand, imagesAt, imagesOf, PROCER.finished, PROCER.wait, logWrite, sendMsg]
  | blocked _ _ hio | suspended _ _ hio | endOfQuantum _ _ hio | dropped _ _ hio =>
    apply limit_of_held
    · cases l <;> rfl
    · rw [(limit_weighs l _).running, hio]
      cases l <;> simp [Limit.ledger, Ledger.thread, Limit.sem, Limit.entering, Limit.returns,
        Limit.inHand, imagesAt, imagesOf, PROCER.suspended, PROCER.endOfQuantum, PROCER.wait,
        logWrite, enqueueForSTS, sendMsg]

/-- No control step makes a token. -/
theorem limit_control {t : Tid} (h : Moves cfg s t pc s' th)
    (hsound : ∀ p code e, pc = .execute p code e → e.Sound code) :
    l.ledger.held s' + l.ledger.thread th ≤ l.ledger.held s + l.ledger.pc pc := by
  cases h with
  | ltsConex h => exact limit_ltsConex h
  | @ltsNew p ps hqueue =>
    cases l with
    | mmp => exact limit_of_held rfl (le_refl 1)
    | mps =>
      have hthread : Limit.mps.ledger.thread ⟨.popFIFO, LTSnew.deliver p⟩ = 1 := rfl
      have hpc : Limit.mps.ledger.pc .popFIFO = 0 := rfl
      have hactive : active (s.setQueue .lfifo ps) = active s := rfl
      have hlfifo : (s.setQueue .lfifo ps).queue .lfifo = ps := rfl
      have hsem : (s.setQueue .lfifo ps).sem = s.sem := rfl
      have hLPS : (s.setQueue .lfifo ps).LPS = s.LPS := rfl
      rw [hthread, hpc]
      simp only [Limit.ledger, Limit.listed, admitted, List.length_append, hactive, hlfifo, hsem,
        hLPS, hqueue, List.length_cons]
      omega
  | sts h => exact limit_sts h
  | configure h => exact limit_configure h
  | procer h => exact limit_procer h hsound
  | raise =>
    apply limit_of_held
    · cases l <;> rfl
    · cases l <;> exact le_refl 0
  | @ioThread i ioProcessing LPB hLPB =>
    cases l <;> cases hflag : ioProcessing.ioInfo.flagNonBlocking <;>
      simp only [Limit.ledger, Limit.sem, Limit.listed, admitted, active, List.append_assoc,
        List.length_append, Nat.cast_add, imagesAt, Limit.inHand, Limit.entering, imagesOf,
        Limit.returns, Ledger.thread, List.length_nil, Nat.cast_zero, add_zero, IoThread.serve,
        hflag, Bool.false_eq_true, if_true, if_false, logWrite, List.cons_append, List.nil_append,
        enqueueForSTS, IoThread.wait, Ledger.ops_cons, List.length_cons, zero_add, Nat.cast_one,
        reduceCtorEq, Ledger.ops_nil, hLPB, length_blockingEntries_cons] <;> omega

/-- A thread waits for a token only where it has not got it yet. -/
def WaitShape (_ : Tid) (th : Thread Operation Label) : Prop :=
  ∀ l : Limit, th.ops.count (.wait l.sem) ≤ l.inHand th.pc

theorem waitShape_tail (t : Tid) (pc : Label) (op : Operation) (ops : List Operation)
    (h : WaitShape t ⟨pc, op :: ops⟩) : WaitShape t ⟨pc, ops⟩ :=
  fun l => ((List.sublist_cons_self op ops).count_le _).trans (h l)

theorem waitShape_of_no_wait {t : Tid} (h : ∀ l : Limit, .wait l.sem ∉ th.ops) :
    WaitShape t th := by
  intro l
  rw [List.count_eq_zero.mpr (h l)]
  exact Nat.zero_le _

theorem OperationOf.waits_limit {t : Tid} (h : OperationOf t (.wait l.sem)) : t = .ltsNew := by
  cases l with
  | mmp =>
    cases h
    rfl
  | mps => cases h

theorem waitShape_of_other {t : Tid} (ht : t ≠ .ltsNew) (h : ∀ op ∈ th.ops, OperationOf t op) :
    WaitShape t th :=
  waitShape_of_no_wait fun _ hmem => ht (h _ hmem).waits_limit

theorem waitShape_control {t : Tid} (h : Moves cfg s t pc s' th)
    (hops : ∀ op ∈ th.ops, OperationOf t op) : WaitShape t th := by
  cases h with
  | ltsNew =>
    intro l
    cases l <;> simp [LTSnew.deliver, LTSnew.wait, logWrite, enqueueForSTS, Limit.sem,
      Limit.inHand]
  | _ => exact waitShape_of_other Tid.noConfusion hops

theorem waitShape_initial (t : Tid) : WaitShape t (initialThread t) := by
  by_cases ht : t = .ltsNew
  · subst ht
    intro l
    cases l <;> decide
  · exact waitShape_of_other ht (operationOf_initial t)

/-- The pending operations put no more than their images into the ledger, but for the tokens still
to be waited for. -/
theorem entering_le (ops : List Operation) :
    ((ops.flatMap l.entering).length : ℤ) ≤ l.ledger.ops ops + ops.count (.wait l.sem) := by
  induction ops with
  | nil => simp
  | cons op ops ih =>
    have hop : ((l.entering op).length : ℤ) ≤ l.ledger.op op + [op].count (.wait l.sem) := by
      cases op with
      | post sem | wait sem =>
        by_cases hsem : sem = l.sem <;> simp [Limit.ledger, Limit.returns, hsem]
      | _ => simp [Limit.ledger, Limit.returns]
    rw [List.flatMap_cons, List.length_append, Ledger.ops_cons, List.count_cons]
    rw [List.count_singleton] at hop
    omega

section Runs

variable {ok : PP → Step → Prop} {st st' : PP} {a : Step} {ALG : Algorithm}
  {priorities : QueueName → ℤ}

theorem waitShape_run (h : RunsTo (next cfg) ok (start cfg ALG priorities) st) (t : Tid) :
    WaitShape t (st.thread t) :=
  shape_run waitShape_initial waitShape_tail
    (fun hmoves _ hops _ => waitShape_control hmoves hops) h t

theorem limit_initial :
    l.ledger.total cfg.threads (start cfg ALG priorities) = l.max cfg := by
  have hzero : ∀ t, l.ledger.thread (initialThread t) = 0 := by
    intro t
    cases l <;> cases t <;> rfl
  have hsum : ∑ t ∈ cfg.threads, l.ledger.thread (initialThread t) = 0 :=
    Finset.sum_eq_zero fun t _ => hzero t
  rw [Ledger.total]
  simp only [start, hsum, add_zero]
  cases l <;> simp [Limit.ledger, Limit.sem, Limit.listed, Limit.max, active, admitted,
    initialValue]

theorem limit_total_le (h : RunsTo (next cfg) ok (start cfg ALG priorities) st) :
    l.ledger.total cfg.threads st ≤ l.max cfg := by
  refine (h.invariant (P := fun st => RunsTo (next cfg) (fun _ _ => True)
    (start cfg ALG priorities) st ∧ l.ledger.total cfg.threads st ≤ l.max cfg)
    ⟨.start, limit_initial.le⟩ fun st a st' hst _ hnext => ⟨hst.1.step a trivial hnext, ?_⟩).2
  refine (Ledger.total_step_le (next_eq_some hnext).2 (next_eq_some hnext).1
    (fun _ _ => limit_exec) fun s' th _ hth => ?_).trans hst.2
  exact limit_control (moves_of_control hth)
    (sound_of_thread (home_run hst.1 a.1) (processorSound_run hst.1))

theorem processes_le_total (h : ∀ t, WaitShape t (st.thread t)) :
    (processes l cfg st : ℤ) ≤ l.ledger.total cfg.threads st := by
  have hthread : ∀ t, (((imagesAt (st.thread t).pc).length +
      ((st.thread t).ops.flatMap l.entering).length : ℕ) : ℤ) ≤
        l.ledger.thread (st.thread t) := by
    intro t
    have hops := entering_le (l := l) (st.thread t).ops
    have htokens := h t l
    have hpc : l.ledger.pc (st.thread t).pc =
        (imagesAt (st.thread t).pc).length + l.inHand (st.thread t).pc := rfl
    rw [Ledger.thread, hpc]
    omega
  have hsum := Finset.sum_le_sum fun t (_ : t ∈ cfg.threads) => hthread t
  have hheld : ((l.listed st.shared).length : ℤ) ≤ l.ledger.held st.shared := by
    simp [Limit.ledger]
  rw [processes, Ledger.total, Nat.cast_add, Nat.cast_sum]
  exact add_le_add hheld hsum

/-- In every state of every run there are at most `MMP` processes that are new, resumed, ready,
executing, at the end of their quantum, blocked or at the end of an I/O, on the way between two
of these included, and at most `MPS` with the delayed and the suspended ones. -/
theorem limits_respected (cfg : Config) (ALG : Algorithm) (priorities : QueueName → ℤ) (st : PP)
    (h : RunsTo (next cfg) (fun _ _ => True) (start cfg ALG priorities) st) :
    processes .mmp cfg st ≤ cfg.MMP ∧ processes .mps cfg st ≤ cfg.MPS := by
  have hle : ∀ l : Limit, processes l cfg st ≤ l.max cfg := fun l =>
    Int.ofNat_le.mp ((processes_le_total (waitShape_run h)).trans (limit_total_le h))
  exact ⟨hle .mmp, hle .mps⟩

/-- The limits are reached. -/
theorem limits_respected_reached : ∃ st : PP,
    processes .mmp smallConfig st = 2 ∧ processes .mps smallConfig st = 2 ∧
      processes .mmp smallConfig st ≤ smallConfig.MMP ∧
        processes .mps smallConfig st ≤ smallConfig.MPS := by
  have hrun : ((follow (next smallConfig) (fun _ _ => true)
      (start smallConfig .fifo fun _ => 0) (goes .ltsConex 3 ++ submits idleScript 0 ++
        submits idleScript 0)).any fun st => processes .mmp smallConfig st == 2 &&
          processes .mps smallConfig st == 2) = true := by
    decide +kernel
  obtain ⟨st, hst, hvalues⟩ := (Option.any_eq_true _ _).mp hrun
  simp only [Bool.and_eq_true, beq_iff_eq] at hvalues
  exact ⟨st, hvalues.1, hvalues.2, limits_respected smallConfig .fifo (fun _ => 0) st
    (RunsTo.of_follow (fun _ _ _ => trivial) _ hst)⟩

end Runs

end PP
end Sisop
