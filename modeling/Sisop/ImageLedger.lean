import Sisop.RunningProcess

/-!
# Where the images are

An image is in a list, in a blocking entry of `LPB`, or in the hands of a thread: at the control
point where the thread has it in a variable, or in an operation that will put it somewhere. The
ledger of an image counts these places, whether it has been freed, and whether it has not been
built yet. No step counts it twice; a step loses it only when the draining loop inserts into an
empty list, or when a dispatch ends in none of the ways `PROCER` knows.
-/

namespace Sisop
namespace PP

variable {cfg : Config} {s s' : Shared} {pc : Label} {th : Thread Operation Label} {p : Ptr}

/-- `ordenarFIFO` has no list. -/
def collected : Round → List Ptr → List Ptr
  | .fifo, _ => []
  | _, prioList => prioList

/-- The images a thread has in its variables. One that `PROCER` has put into `LPB` counts as
handed over. -/
def imagesAt : Label → List Ptr
  | .round kind _ prioList | .collect kind _ _ prioList | .takeIn kind _ _ prioList
  | .popQueue kind _ _ prioList => collected kind prioList
  | .sortStart _ prioList _ | .drain _ _ prioList _ => prioList
  | .execute p _ e => if e.ioBlockInterrupt then [] else [p]
  | _ => []

def imagesOf : Operation → List Ptr
  | .enqueue _ p | .addLPS p | .freeImage p => [p]
  | .enqueueLPB e => if e.ioInfo.flagNonBlocking then [] else [e.processImage]
  | _ => []

def blockingEntries (LPB : List TIoProcessing) : List Ptr :=
  (LPB.filter fun e => !e.ioInfo.flagNonBlocking).map (·.processImage)

def stored (p : Ptr) (s : Shared) : ℕ :=
  (s.queue .lfifo).count p + (s.queue .lpn).count p + (s.queue .lpr).count p +
    (s.queue .lfq).count p + (s.queue .lfio).count p + (s.queue .lpl).count p + s.LPS.count p +
    (blockingEntries s.LPB).count p

def imageCount (p : Ptr) : Ledger Operation Label Shared ℕ where
  held s := stored p s + s.freed.count p + if s.allocated ≤ p then 1 else 0
  pc pc := (imagesAt pc).count p
  op op := (imagesOf op).count p

@[simp] theorem blockingEntries_nil : blockingEntries [] = [] := rfl

theorem blockingEntries_append (LPB LPB' : List TIoProcessing) :
    blockingEntries (LPB ++ LPB') = blockingEntries LPB ++ blockingEntries LPB' := by
  rw [blockingEntries, List.filter_append, List.map_append]
  rfl

theorem blockingEntries_cons (e : TIoProcessing) (LPB : List TIoProcessing) :
    blockingEntries (e :: LPB) = imagesOf (.enqueueLPB e) ++ blockingEntries LPB := by
  cases hflag : e.ioInfo.flagNonBlocking <;> simp [blockingEntries, imagesOf, hflag]

theorem imageCount_exec {t : Tid} {op : Operation} (h : op.exec t s = some s') :
    (imageCount p).held s' = (imageCount p).held s + (imageCount p).op op := by
  cases op with
  | lock m | unlock m | wait m =>
    simp only [Operation.exec] at h
    split_ifs at h
    cases h
    rfl
  | enqueue q p' =>
    cases h
    cases q <;> simp [imageCount, stored, imagesOf, Shared.post, Shared.setQueue] <;> omega
  | enqueueLPB e =>
    cases h
    simp [imageCount, stored, Shared.post, blockingEntries_append, blockingEntries_cons]
    omega
  | addLPS p' =>
    cases h
    simp [imageCount, stored, imagesOf]
    omega
  | freeImage p' =>
    cases h
    simp [imageCount, stored, imagesOf, List.count_cons]
    omega
  | _ =>
    cases h
    rfl

theorem imageCount_enqueues (q : Queue) (ps : List Ptr) :
    (imageCount p).ops (ps.map (.enqueue q)) = ps.count p := by
  induction ps with
  | nil => rfl
  | cons p' ps ih =>
    rw [List.map_cons, Ledger.ops_cons, ih, List.count_cons]
    simp [imageCount, imagesOf, List.count_singleton]
    omega

theorem unbuilt_succ (n p : ℕ) :
    (if n + 1 ≤ p then 1 else 0) + (if n = p then 1 else 0) = if n ≤ p then 1 else 0 := by
  split_ifs <;> omega

theorem imageCount_ltsConex (h : LTSconex.Moves cfg s pc s' th) :
    (imageCount p).held s' + (imageCount p).thread th =
      (imageCount p).held s + (imageCount p).pc pc := by
  cases h with
  | admission | delay =>
    simp [imageCount, stored, imagesAt, imagesOf, Ledger.thread, Shared.tryWait, Shared.allocate,
      LTSconex.admission, LTSconex.delay, logWrite, enqueueForSTS, enqueueLocked, writeText,
      List.count_singleton]
    rw [add_assoc]
    exact congrArg (_ + ·) (unbuilt_succ s.allocated p)
  | restored hperm =>
    simp [imageCount, stored, imagesAt, imagesOf, Ledger.thread, LTSconex.resume, logWrite,
      enqueueForSTS, hperm.count_eq, List.count_cons]
    omega
  | _ =>
    simp [imageCount, stored, imagesAt, imagesOf, Ledger.thread, Shared.accept,
      Shared.setConnection, Shared.tryWait, LTSconex.refuse, LTSconex.notRestored, logWrite,
      writeText]

def Loses (cfg : Config) (s : Shared) : Label → Prop
  | .drain _ (_ + 1) prioList _ => prioList = []
  | .execute _ code e => e.point = .returned ∧ e.atFinPrograma code = false ∧
      e.ioBlockInterrupt = false ∧ s.SUSPEND = false ∧ (e.quantumCount : ℤ) ≠ cfg.quantum
  | _ => False

theorem imageCount_orderInsert (h : OrderInsert.Moves s pc s' th) :
    (imageCount p).held s' + (imageCount p).thread th ≤
        (imageCount p).held s + (imageCount p).pc pc ∧
      (¬ Loses cfg s pc → (imageCount p).held s' + (imageCount p).thread th =
        (imageCount p).held s + (imageCount p).pc pc) := by
  cases h with
  | sortStart =>
    have heq : (imageCount p).held s + 0 = (imageCount p).held s := rfl
    simp [imageCount, imagesAt, Ledger.thread]
  | @finish key prioList sorted caller hperm =>
    have heq : (imageCount p).thread (OrderInsert.finish sorted caller) = prioList.count p := by
      rw [← hperm.count_eq, ← imageCount_enqueues .lpl sorted]
      cases caller <;>
        simp [OrderInsert.finish, Ledger.thread, STS.wait, imageCount, imagesAt, imagesOf]
    rw [heq]
    exact ⟨le_rfl, fun _ => rfl⟩
  | @drainOne key remaining remaining' prioList p' ready caller hqueue =>
    have hheld : (imageCount p).held ((s.tryWait .lplEmpty).setQueue .lpl ready) +
        [p'].count p = (imageCount p).held s := by
      simp [imageCount, stored, Shared.tryWait, Shared.setQueue, hqueue, List.count_cons]
      omega
    cases prioList with
    | nil =>
      refine ⟨?_, fun hloses => absurd rfl hloses⟩
      rw [← hheld]
      simp [imageCount, imagesAt, Ledger.thread]
    | cons p'' prioList =>
      have heq : (imageCount p).thread ⟨.drain key remaining'
          (listAddInIndex (p'' :: prioList) 0 p') caller, []⟩ =
            [p'].count p + (p'' :: prioList).count p := by
        simp only [imageCount, imagesAt, Ledger.thread, Ledger.ops_nil, add_zero]
        rw [(listAddInIndex_perm (by simp) p').count_eq, List.count_cons, List.count_singleton,
          add_comm]
      rw [heq, ← hheld, add_assoc]
      exact ⟨le_rfl, fun _ => rfl⟩

theorem imageCount_sts (h : STS.Moves s pc s' th) :
    (imageCount p).held s' + (imageCount p).thread th ≤
        (imageCount p).held s + (imageCount p).pc pc ∧
      (¬ Loses cfg s pc → (imageCount p).held s' + (imageCount p).thread th =
        (imageCount p).held s + (imageCount p).pc pc) := by
  cases h with
  | orderInsert h => exact imageCount_orderInsert h
  | readALG kind =>
    cases kind <;>
      simp [imageCount, imagesAt, imagesOf, collected, Ledger.thread, STS.startRound]
  | endRound kind =>
    cases kind <;>
      simp [imageCount, imagesAt, imagesOf, collected, Ledger.thread, STS.endRound, STS.wait]
  | @pop kind i name prioList p' ps hqueue =>
    have hheld : (imageCount p).held (s.setQueue name.queue ps) + [p'].count p =
        (imageCount p).held s := by
      cases name <;> simp only [QueueName.queue] at hqueue <;>
        simp [imageCount, stored, Shared.setQueue, QueueName.queue, hqueue, List.count_cons] <;>
        omega
    have hthread : (imageCount p).thread (STS.takeOver kind i name prioList p') =
        [p'].count p + (collected kind prioList).count p := by
      cases kind <;> simp [imageCount, imagesAt, imagesOf, collected, Ledger.thread, STS.takeOver,
        logWrite, enqueueLocked, add_comm]
    rw [hthread, ← hheld, add_assoc]
    exact ⟨le_rfl, fun _ => rfl⟩
  | _ =>
    simp [imageCount, stored, imagesAt, imagesOf, Ledger.thread, Shared.tryWait]

theorem imageCount_configure (h : Configure.Moves s pc s' th) :
    (imageCount p).held s' + (imageCount p).thread th ≤
        (imageCount p).held s + (imageCount p).pc pc ∧
      (¬ Loses cfg s pc → (imageCount p).held s' + (imageCount p).thread th =
        (imageCount p).held s + (imageCount p).pc pc) := by
  cases h with
  | orderInsert h => exact imageCount_orderInsert h
  | setALG ALG =>
    cases ALG <;> simp [imageCount, stored, imagesAt, imagesOf, Ledger.thread, Configure.afterALG]
  | _ => simp [imageCount, stored, imagesAt, imagesOf, Ledger.thread]

/-- A ledger in which a running image weighs `w` until the entry that blocks it is to go into
`LPB`, and in which nothing else that happens during a dispatch weighs anything. -/
structure Weighs {N : Type*} [AddCommMonoid N] (L : Ledger Operation Label Shared N) (p : Ptr)
    (w : N) : Prop where
  running : ∀ code e, L.pc (.execute p code e) = if e.ioBlockInterrupt then 0 else w
  request : ∀ ioInfo, L.op (.enqueueLPB ⟨p, ioInfo⟩) = if ioInfo.flagNonBlocking then 0 else w
  lock : ∀ m, L.op (.lock m) = 0
  unlock : ∀ m, L.op (.unlock m) = 0
  logCreate : L.op .logCreate = 0
  logDestroy : L.op .logDestroy = 0
  message : ∀ m, L.op (.addMsg m p) = 0
  readImage : L.op (.readImage p) = 0
  clearSUSPEND : L.op .clearSUSPEND = 0

namespace Weighs

variable {N : Type*} [AddCommMonoid N] {L : Ledger Operation Label Shared N} {self : Ptr} {w : N}
  {code : List CString} {e e' : Exec} {ops : List Operation} {events : List Event}

theorem lineEnd (hL : Weighs L self w) (ticks : Bool) : L.ops (lineEnd ticks) = 0 := by
  cases ticks <;> simp [Sisop.lineEnd, tickOperations, quietOperations, hL.lock, hL.unlock]

theorem lineOutput (hL : Weighs L self w) {image : TProcessImage} {blocks : Bool}
    {output : List Operation} (h : LineOutput self image blocks output) :
    L.ops output = if blocks then w else 0 := by
  cases h <;>
    simp [sendMsg, blockingRequest, logWrite, hL.lock, hL.unlock, hL.message, hL.request]

theorem poolAnswer (hL : Weighs L self w) {image : TProcessImage} {blocks : Bool}
    {answer : List Operation} (h : PoolAnswer self image blocks answer) :
    L.ops answer = if blocks then w else 0 := by
  cases h <;> simp [nonBlockingRequest, refusedRequest, sendMsg, blockingRequest, logWrite,
    hL.lock, hL.unlock, hL.message, hL.request]

theorem shaped (hL : Weighs L self w) {image : TProcessImage} {f : LineEffect}
    (h : f.Shaped self image) : L.ops f.operations = if f.blocks then w else 0 := by
  rcases h with ⟨hops, hblocks, -⟩ | ⟨output, houtput, hops⟩
  · rw [hops, hblocks]
    rfl
  · rw [hops, Ledger.ops_append, hL.lineEnd, hL.lineOutput houtput, add_zero]

theorem answered (hL : Weighs L self w) {image : TProcessImage} {f : LineEffect}
    (h : ∃ answer, PoolAnswer self image f.blocks answer ∧
      f.operations = answer ++ Sisop.lineEnd f.ticks) :
    L.ops f.operations = if f.blocks then w else 0 := by
  obtain ⟨answer, hanswer, hops⟩ := h
  rw [hops, Ledger.ops_append, hL.lineEnd, hL.poolAnswer hanswer, add_zero]

/-- A line that blocks hands the image over to `LPB`. -/
theorem perform (hL : Weighs L self w) {f : LineEffect} (hio : e.ioBlockInterrupt = false)
    (hops : L.ops f.operations = if f.blocks then w else 0) :
    L.thread ⟨.execute self code (e.perform f), f.operations⟩ = w := by
  rw [Ledger.thread, hops, hL.running]
  cases hblocks : f.blocks <;> simp [Exec.perform, hio, hblocks]

theorem runLine (hL : Weighs L self w) {PC : ℕ} {outcome : LineOutcome} {image : TProcessImage}
    (hio : e.ioBlockInterrupt = false)
    (hshaped : ∀ f, outcome = .effect f → f.Shaped self image)
    (h : e.runLine code PC outcome = some (e', ops, events)) :
    L.thread ⟨.execute self code e', ops⟩ = w := by
  cases outcome with
  | effect f =>
    cases h
    exact hL.perform hio (hL.shaped (hshaped f rfl))
  | asksPool =>
    cases h
    simp [Ledger.thread, hL.running, hL.lock, hio]
  | call functionName =>
    obtain ⟨entry, -, rfl, rfl, -⟩ := Exec.runLine_call h
    simp [Ledger.thread, hL.running, hL.logCreate, hio]

theorem interpreter (hL : Weighs L self w) {quantum : ℤ} {env : Env}
    (h : Exec.Moves code quantum self env e e' ops events) (he : e.Sound code) :
    L.thread ⟨.execute self code e', ops⟩ = L.pc (.execute self code e) := by
  rw [hL.running]
  cases h with
  | returns | counts =>
    simp [Ledger.thread, hL.running, hL.logDestroy, hL.unlock, Exec.algStep]
  | resumes =>
    have hops : L.ops e.stackExecution.2 = 0 := by
      unfold Exec.stackExecution
      split <;> simp [hL.logCreate]
    obtain ⟨stack, elements, heq⟩ := Exec.stackExecution_eq e
    rw [Ledger.thread, hops, heq, hL.running, add_zero]
    rfl
  | @leaves element rest line =>
    have hio : (e.leaveFunction (isFinFuncion line element.functionName) element
        rest).ioBlockInterrupt = e.ioBlockInterrupt := by
      obtain ⟨stack, elements, heq⟩ :=
        Exec.leaveFunction_eq (isFinFuncion line element.functionName) element rest e
      rw [heq]
      rfl
    simp [Ledger.thread, hL.running, hL.logDestroy, hio]
  | runsLine _ _ _ _ _ hkeep _ houtcome hrun =>
    have hio := (Exec.io_of_keepsRunning hkeep).2.1
    rw [if_neg (by simp [hio])]
    exact hL.runLine (e := e.advanceProcess) hio
      (fun f hf => shaped_of_processLine (hf ▸ houtcome)) hrun
  | @runsFunctionLine element rest _ _ _ _ _ _ _ _ _ _ hkeep _ houtcome hrun =>
    have hio := (Exec.io_of_keepsRunning hkeep).2.1
    rw [if_neg (by simp [hio])]
    exact hL.runLine (e := e.advanceFunction element rest) hio
      (fun f hf => shaped_of_functionLine (hf ▸ houtcome)) hrun
  | asksPool hpoint _ _ hf =>
    rw [if_neg (by simp [he.pool hpoint])]
    exact hL.perform (he.pool hpoint) (hL.answered (answer_of_processPoolLine hf).1)
  | asksPoolInFunction hpoint _ _ hf =>
    rw [if_neg (by simp [he.pool hpoint])]
    exact hL.perform (he.pool hpoint) (hL.answered (answer_of_functionPoolLine hf).1)

theorem dispatch (hL : Weighs L self w) (image : TProcessImage) :
    L.thread ⟨.execute self code (Exec.enter image).1,
      PROCER.dispatch self (Exec.enter image).2⟩ = w := by
  have hops : L.ops (PROCER.dispatch self (Exec.enter image).2) = 0 := by
    rw [PROCER.dispatch, Exec.enter]
    unfold Exec.stackExecution
    split <;> simp [logWrite, hL.lock, hL.unlock, hL.readImage, hL.clearSUSPEND, hL.logCreate]
  obtain ⟨stack, elements, heq⟩ := Exec.stackExecution_eq (Exec.atEntry image)
  rw [Ledger.thread, hops, hL.running, Exec.enter, heq]
  exact add_zero w

end Weighs

theorem imageCount_weighs (p self : Ptr) : Weighs (imageCount p) self ([self].count p) := by
  refine ⟨fun code e => ?_, fun ioInfo => ?_, fun _ => rfl, fun _ => rfl, rfl, rfl, fun _ => rfl,
    rfl, rfl⟩
  · cases hio : e.ioBlockInterrupt <;> simp [imageCount, imagesAt, hio]
  · cases hflag : ioInfo.flagNonBlocking <;> simp [imageCount, imagesOf, hflag]

theorem imageCount_running {self : Ptr} {code : List CString} {e : Exec}
    (hio : e.ioBlockInterrupt = false) :
    (imageCount p).pc (.execute self code e) = [self].count p := by
  rw [(imageCount_weighs p self).running, hio]
  rfl

theorem imageCount_procer (h : PROCER.Moves cfg s pc s' th)
    (hsound : ∀ p code e, pc = .execute p code e → e.Sound code) :
    (imageCount p).held s' + (imageCount p).thread th ≤
        (imageCount p).held s + (imageCount p).pc pc ∧
      (¬ Loses cfg s pc → (imageCount p).held s' + (imageCount p).thread th =
        (imageCount p).held s + (imageCount p).pc pc) := by
  cases h with
  | @pop p' ps code hqueue =>
    rw [(imageCount_weighs p p').dispatch]
    simp [imageCount, stored, imagesAt, Shared.setQueue, hqueue, List.count_cons]
    omega
  | run _ hmoves =>
    rw [(imageCount_weighs p _).interpreter hmoves (hsound _ _ _ rfl)]
    exact ⟨le_rfl, fun _ => rfl⟩
  | @finished p' code e _ hfin =>
    have hio : e.ioBlockInterrupt = false := by
      by_contra hblocked
      rw [(hsound _ _ _ rfl).blocked (by simpa using hblocked)] at hfin
      cases hfin
    rw [imageCount_running hio]
    simp [imageCount, stored, imagesAt, imagesOf, Ledger.thread, Shared.setImage, PROCER.finished,
      PROCER.wait, logWrite, sendMsg]
  | blocked _ _ hio =>
    simp [imageCount, stored, imagesAt, imagesOf, Ledger.thread, Shared.setImage, PROCER.wait, hio]
  | suspended _ _ hio =>
    rw [imageCount_running hio]
    simp [imageCount, stored, imagesAt, imagesOf, Ledger.thread, Shared.setImage, PROCER.suspended,
      PROCER.wait, logWrite, sendMsg]
  | endOfQuantum _ _ hio =>
    rw [imageCount_running hio]
    simp [imageCount, stored, imagesAt, imagesOf, Ledger.thread, Shared.setImage,
      PROCER.endOfQuantum, PROCER.wait, logWrite, enqueueForSTS]
  | dropped hpoint hfin hio hsuspend hquantum =>
    refine ⟨?_, fun hloses => absurd ⟨hpoint, hfin, hio, hsuspend, hquantum⟩ hloses⟩
    simp [imageCount, stored, imagesAt, imagesOf, Ledger.thread, Shared.setImage, PROCER.wait]

/-- No control step counts an image twice, and one that does not lose it keeps the count. -/
theorem imageCount_control {t : Tid} (h : Moves cfg s t pc s' th)
    (hsound : ∀ p code e, pc = .execute p code e → e.Sound code) :
    (imageCount p).held s' + (imageCount p).thread th ≤
        (imageCount p).held s + (imageCount p).pc pc ∧
      (¬ Loses cfg s pc → (imageCount p).held s' + (imageCount p).thread th =
        (imageCount p).held s + (imageCount p).pc pc) := by
  cases h with
  | ltsConex h => exact ⟨(imageCount_ltsConex h).le, fun _ => imageCount_ltsConex h⟩
  | ltsNew hqueue =>
    simp [imageCount, stored, imagesAt, imagesOf, Ledger.thread, Shared.setQueue, hqueue,
      LTSnew.deliver, LTSnew.wait, logWrite, enqueueForSTS, List.count_cons]
    omega
  | sts h => exact imageCount_sts h
  | configure h => exact imageCount_configure h
  | procer h => exact imageCount_procer h hsound
  | raise => exact ⟨le_rfl, fun _ => rfl⟩
  | @ioThread i ioProcessing LPB hLPB =>
    cases hflag : ioProcessing.ioInfo.flagNonBlocking <;>
      simp [imageCount, stored, imagesAt, imagesOf, Ledger.thread, hLPB, blockingEntries_cons,
        hflag, IoThread.serve, IoThread.wait, logWrite, enqueueForSTS, List.count_cons]
    omega

theorem freed_exec {t : Tid} {op : Operation} (h : op.exec t s = some s') :
    s'.freed = s.freed ∨ ∃ p, op = .freeImage p ∧ s'.freed = p :: s.freed := by
  cases op with
  | lock m | unlock m | wait m =>
    simp only [Operation.exec] at h
    split_ifs at h
    cases h
    exact .inl rfl
  | freeImage p =>
    cases h
    exact .inr ⟨p, rfl, rfl⟩
  | _ =>
    cases h
    exact .inl rfl

theorem freed_control {t : Tid} (h : Moves cfg s t pc s' th) : s'.freed = s.freed := by
  cases h with
  | ltsConex h => cases h <;> rfl
  | sts h =>
    cases h with
    | orderInsert h => cases h <;> rfl
    | _ => rfl
  | configure h =>
    cases h with
    | orderInsert h => cases h <;> rfl
    | _ => rfl
  | procer h => cases h <;> rfl
  | _ => rfl

section Runs

variable {ok : PP → Step → Prop} {st st' : PP} {a : Step} {ALG : Algorithm}
  {priorities : QueueName → ℤ}

theorem imageCount_initial :
    (imageCount p).total cfg.threads (start cfg ALG priorities) = 1 := by
  have hzero : ∀ t, (imageCount p).thread (initialThread t) = 0 := by
    intro t
    cases t <;> simp [imageCount, imagesAt, imagesOf, Ledger.thread, initialThread, logWrite,
      LTSnew.wait, STS.wait, IoThread.wait, PROCER.wait]
  have hsum : ∑ t ∈ cfg.threads, (imageCount p).thread (initialThread t) = 0 :=
    Finset.sum_eq_zero fun t _ => hzero t
  rw [Ledger.total]
  simp only [start, hsum, add_zero]
  simp [imageCount, stored]

theorem sound_of_thread {t : Tid} (h : homeOf (st.thread t).pc t) (hst : ProcessorSound st)
    (p : Ptr) (code : List CString) (e : Exec) (hpc : (st.thread t).pc = .execute p code e) :
    e.Sound code := by
  rw [hpc] at h
  rw [show t = .procer from h] at hpc
  exact (hst.runs p code e hpc).sound

theorem home_run (h : RunsTo (next cfg) ok (start cfg ALG priorities) st) (t : Tid) :
    homeOf (st.thread t).pc t :=
  h.invariant (P := fun st => ∀ t, homeOf (st.thread t).pc t) homeOf_initial
    (fun _ _ _ hst _ hnext => shape_next (P := fun t th => homeOf th.pc t) (fun _ _ _ _ => id)
      homeOf_control hnext hst) t

/-- In every reachable state an image is in at most one place, and in none once it is freed. -/
theorem imageCount_le (h : RunsTo (next cfg) ok (start cfg ALG priorities) st) :
    (imageCount p).total cfg.threads st ≤ 1 := by
  refine (h.invariant (P := fun st => RunsTo (next cfg) (fun _ _ => True)
    (start cfg ALG priorities) st ∧ (imageCount p).total cfg.threads st ≤ 1)
    ⟨.start, imageCount_initial.le⟩ fun st a st' hst _ hnext => ⟨hst.1.step a trivial hnext, ?_⟩).2
  refine (Ledger.total_step_le (next_eq_some hnext).2 (next_eq_some hnext).1
    (fun _ _ => imageCount_exec) fun s' th _ hth => ?_).trans hst.2
  exact (imageCount_control (moves_of_control hth)
    (sound_of_thread (home_run hst.1 a.1) (processorSound_run hst.1))).1

/-- As long as no step loses an image, every image is in exactly one place. -/
theorem imageCount_eq
    (hok : ∀ st a, RunsTo (next cfg) ok (start cfg ALG priorities) st → ok st a →
      (st.thread a.1).ops = [] → ¬ Loses cfg st.shared (st.thread a.1).pc)
    (h : RunsTo (next cfg) ok (start cfg ALG priorities) st) :
    (imageCount p).total cfg.threads st = 1 := by
  induction h with
  | start => exact imageCount_initial
  | step a hrun ha hnext ih =>
    rw [← ih]
    refine total_next imageCount_exec (fun s' th hops hmoves => ?_) hnext
    exact (imageCount_control hmoves
      (sound_of_thread (home_run hrun a.1) (processorSound_run hrun))).2 (hok _ a hrun ha hops)

/-- An image in one of the lists or in somebody's hands has been built and is not freed. -/
theorem live_of_place (h : RunsTo (next cfg) ok (start cfg ALG priorities) st) {p : Ptr}
    (hp : 0 < stored p st.shared ∨
      ∃ t ∈ cfg.threads, 0 < (imageCount p).thread (st.thread t)) :
    p < st.shared.allocated ∧ p ∉ st.shared.freed := by
  have hle := imageCount_le (p := p) h
  have hpos : 0 < stored p st.shared +
      ∑ t ∈ cfg.threads, (imageCount p).thread (st.thread t) := by
    rcases hp with hstored | ⟨t, ht, hthread⟩
    · omega
    · have hsingle := Finset.single_le_sum (f := fun t => (imageCount p).thread (st.thread t))
        (fun _ _ => Nat.zero_le _) ht
      omega
  rw [Ledger.total] at hle
  simp only [imageCount] at hle hpos
  refine ⟨?_, fun hfreed => ?_⟩
  · by_contra hge
    rw [if_pos (not_lt.mp hge)] at hle
    omega
  · have hcount := List.count_pos_iff.mpr hfreed
    omega

theorem not_freed_next (h : next cfg st a = some st') {p : Ptr} (hp : p ∉ st.shared.freed)
    (hfrees : ∀ ops, (st.thread a.1).ops ≠ .freeImage p :: ops) : p ∉ st'.shared.freed := by
  rcases shared_next h with ⟨op, ops, hops, hexec, -⟩ | ⟨-, hmoves, -⟩
  · rcases freed_exec hexec with heq | ⟨p', rfl, heq⟩
    · rw [heq]
      exact hp
    · rw [heq, List.mem_cons, not_or]
      exact ⟨fun hpp' => hfrees ops (by rw [hpp', hops]), hp⟩
  · rw [freed_control hmoves]
    exact hp

end Runs

end PP
end Sisop
