import Sisop.InterpretersAgree
import Sisop.ThreadOperations
import Mathlib.Algebra.BigOperators.Ring.Finset

/-!
# The open streams of the logs

`processExecution`, `functionExecution` and the three `ordenar` functions begin with `logCreate`;
all but `ordenarSPN` close the stream again before they return. Book is kept of the streams every
thread has open, and for every call of these functions of how many they were when it was entered
and when it returned.
-/

namespace Sisop

inductive LogCall where
  | processExecution | functionExecution
  | ordenar (kind : Round)
  deriving DecidableEq, Repr

structure CallRecord where
  call : LogCall
  entered : ℤ
  left : ℤ
  deriving DecidableEq, Repr

/-- The streams the threads have open; the numbers with which the calls under way were entered,
the innermost one first; the calls that have returned. -/
structure Streams where
  opened : Tid → ℤ
  entered : Tid → List ℤ
  returned : List CallRecord

def Operation.opens : Operation → ℤ
  | .logCreate => 1
  | .logDestroy => -1
  | _ => 0

def SortKey.ordenar : SortKey → Round
  | .priority => .pri
  | .tspn => .spn

namespace Label

def calls : Label → ℕ
  | .round _ _ _ | .collect _ _ _ _ | .takeIn _ _ _ _ | .popQueue _ _ _ _
  | .sortStart _ _ .sts | .drain _ _ _ .sts => 1
  | .execute _ _ e => if e.point = .returned then 0 else e.elements.length + 1
  | _ => 0

def innermost : Label → LogCall
  | .round kind _ _ | .collect kind _ _ _ | .takeIn kind _ _ _ | .popQueue kind _ _ _ =>
    .ordenar kind
  | .sortStart key _ _ | .drain key _ _ _ => .ordenar key.ordenar
  | .execute _ _ e => if e.elements = [] then .processExecution else .functionExecution
  | _ => .processExecution

/-- The streams that the calls under way and the thread itself hold. `ordenarPRI` has closed its
own when it sorts. -/
def streams : Label → ℕ
  | .awaitReload | .setALG _ _ | .configured _ | .setPriorities _ | .awaitSignal
  | .sortStart _ _ (.configure _) | .drain _ _ _ (.configure _) => 0
  | .sortStart .priority _ .sts | .drain .priority _ _ .sts => 1
  | .sortStart .tspn _ .sts | .drain .tspn _ _ .sts => 2
  | .round _ _ _ | .collect _ _ _ _ | .takeIn _ _ _ _ | .popQueue _ _ _ _ => 2
  | .execute _ _ e => if e.point = .returned then 1 else e.elements.length + 2
  | _ => 1

def nested : Label → ℕ
  | .execute _ _ e => e.elements.length
  | _ => 0

end Label

def pendingStreams (ops : List Operation) : ℤ := (ops.map Operation.opens).sum

/-- A call begins with its `logCreate`: the streams open before each of them, the last one
first. -/
def enterings (n : ℤ) : List Operation → List ℤ
  | [] => []
  | op :: ops => enterings (n + op.opens) ops ++ if op = .logCreate then [n] else []

/-- A control step enters the calls that its operations begin, or leaves the innermost one, which
returns once they are carried out. -/
def Streams.advance (b : Streams) (t : Tid) (th th' : Thread Operation Label) : Streams :=
  match th.ops with
  | op :: _ => { b with opened := Function.update b.opened t (b.opened t + op.opens) }
  | [] =>
    if th'.pc.calls < th.pc.calls then
      match b.entered t with
      | [] => b
      | n :: rest => { b with
          entered := Function.update b.entered t rest
          returned := ⟨th.pc.innermost, n, b.opened t + pendingStreams th'.ops⟩ :: b.returned }
    else { b with
      entered := Function.update b.entered t (enterings (b.opened t) th'.ops ++ b.entered t) }

namespace PP

variable {cfg : Config} {s s' : Shared} {pc : Label} {th : Thread Operation Label}

def nextStreams (cfg : Config) (x : PP × Streams) (a : Step) : Option (PP × Streams) :=
  (next cfg x.1 a).map fun st => (st, x.2.advance a.1 (x.1.thread a.1) (st.thread a.1))

def startStreams (cfg : Config) (ALG : Algorithm) (priorities : QueueName → ℤ) : PP × Streams :=
  (start cfg ALG priorities, ⟨fun _ => 0, fun _ => [], []⟩)

/-- Every call that has returned left the streams as it found them, and the streams open are
bounded by the threads and the calls under way. -/
def BalancedStreams (cfg : Config) (x : PP × Streams) : Prop :=
  (∀ r ∈ x.2.returned, r.left = r.entered) ∧
    x.1.shared.openLogs ≤ 3 * cfg.threads.card + (x.1.thread .procer).pc.nested

end PP

def KeepsLogs (ops : List Operation) : Prop := ∀ op ∈ ops, op ≠ .logCreate ∧ op ≠ .logDestroy

section Operations

variable {ops : List Operation} {n : ℤ}

@[simp] theorem pendingStreams_nil : pendingStreams [] = 0 := rfl

@[simp] theorem pendingStreams_cons (op : Operation) (ops : List Operation) :
    pendingStreams (op :: ops) = op.opens + pendingStreams ops := List.sum_cons

@[simp] theorem pendingStreams_append (ops ops' : List Operation) :
    pendingStreams (ops ++ ops') = pendingStreams ops + pendingStreams ops' := by
  rw [pendingStreams, List.map_append, List.sum_append]
  rfl

theorem Operation.opens_le (op : Operation) : op.opens ≤ if op = .logCreate then 1 else 0 := by
  cases op <;> simp [Operation.opens]

theorem pendingStreams_le (ops : List Operation) : pendingStreams ops ≤ ops.count .logCreate := by
  induction ops with
  | nil => rfl
  | cons op ops ih =>
    have hop := op.opens_le
    rw [pendingStreams_cons, List.count_cons]
    simp only [beq_iff_eq]
    push_cast
    split_ifs at hop ⊢ <;> omega

theorem Operation.neg_opens_le (op : Operation) :
    -op.opens ≤ if op = .logDestroy then 1 else 0 := by
  cases op <;> simp [Operation.opens]

theorem neg_pendingStreams_le (ops : List Operation) :
    -pendingStreams ops ≤ ops.count .logDestroy := by
  induction ops with
  | nil => rfl
  | cons op ops ih =>
    have hop := op.neg_opens_le
    rw [pendingStreams_cons, List.count_cons]
    simp only [beq_iff_eq]
    push_cast
    split_ifs at hop ⊢ <;> omega

theorem KeepsLogs.opens (h : KeepsLogs ops) : ∀ op ∈ ops, op.opens = 0 := by
  intro op hop
  obtain ⟨hcreate, hdestroy⟩ := h op hop
  cases op with
  | logCreate => exact absurd rfl hcreate
  | logDestroy => exact absurd rfl hdestroy
  | _ => rfl

theorem KeepsLogs.pending (h : KeepsLogs ops) : pendingStreams ops = 0 := by
  refine List.sum_eq_zero fun n hn => ?_
  obtain ⟨op, hop, rfl⟩ := List.mem_map.mp hn
  exact h.opens op hop

theorem KeepsLogs.count (h : KeepsLogs ops) : ops.count .logCreate = 0 :=
  List.count_eq_zero.mpr fun hmem => (h _ hmem).1 rfl

theorem KeepsLogs.count_destroy (h : KeepsLogs ops) : ops.count .logDestroy = 0 :=
  List.count_eq_zero.mpr fun hmem => (h _ hmem).2 rfl

/-- Without a `logCreate` no call is entered. -/
theorem enterings_of_count (n : ℤ) (h : ops.count .logCreate = 0) : enterings n ops = [] := by
  induction ops generalizing n with
  | nil => rfl
  | cons op ops ih =>
    have hmem := List.count_eq_zero.mp h
    rw [List.mem_cons, not_or] at hmem
    rw [enterings, if_neg (Ne.symm hmem.1), List.append_nil]
    exact ih _ (List.count_eq_zero.mpr hmem.2)

/-- The numbers with which `k` calls inside one another are entered. -/
def levels (n : ℤ) : ℕ → List ℤ
  | 0 => []
  | k + 1 => (n + k) :: levels n k

theorem levels_succ (n : ℤ) (k : ℕ) : levels n (k + 1) = levels (n + 1) k ++ [n] := by
  induction k with
  | zero => simp [levels]
  | succ k ih =>
    rw [levels, ih, levels, List.cons_append]
    push_cast
    congr 1
    omega

theorem levels_add (n : ℤ) (k j : ℕ) : levels (n + j) k ++ levels n j = levels n (j + k) := by
  induction k with
  | zero => rfl
  | succ k ih =>
    rw [levels, List.cons_append, ih, ← Nat.add_assoc, levels]
    push_cast
    congr 1
    omega

theorem pendingStreams_replicate (k : ℕ) :
    pendingStreams (List.replicate k .logCreate) = k := by
  rw [pendingStreams, List.map_replicate, List.sum_replicate, nsmul_eq_mul]
  exact mul_one _

theorem enterings_append (n : ℤ) (ops ops' : List Operation) :
    enterings n (ops ++ ops') = enterings (n + pendingStreams ops) ops' ++ enterings n ops := by
  induction ops generalizing n with
  | nil => simp [enterings]
  | cons op ops ih =>
    rw [List.cons_append, enterings, ih, enterings, pendingStreams_cons, List.append_assoc,
      add_assoc]

theorem enterings_replicate (n : ℤ) (k : ℕ) :
    enterings n (List.replicate k .logCreate) = levels n k := by
  induction k generalizing n with
  | zero => rfl
  | succ k ih =>
    rw [List.replicate_succ, enterings, ih, if_pos rfl, levels_succ]
    rfl

end Operations

section Lines

variable {self : Ptr} {image : TProcessImage} {ops ops' : List Operation}

theorem KeepsLogs.append (h : KeepsLogs ops) (h' : KeepsLogs ops') : KeepsLogs (ops ++ ops') :=
  List.forall_mem_append.mpr ⟨h, h'⟩

theorem keepsLogs_lineEnd (ticks : Bool) : KeepsLogs (lineEnd ticks) := by
  cases ticks <;> simp [KeepsLogs, lineEnd, tickOperations, quietOperations]

theorem LineOutput.keepsLogs {blocks : Bool} (h : LineOutput self image blocks ops) :
    KeepsLogs ops := by
  cases h <;> simp [KeepsLogs, sendMsg, blockingRequest, logWrite]

theorem PoolAnswer.keepsLogs {again : Bool} (h : PoolAnswer self image again ops) :
    KeepsLogs ops := by
  cases h <;> simp [KeepsLogs, nonBlockingRequest, refusedRequest, blockingRequest, sendMsg,
    logWrite]

theorem LineEffect.Shaped.keepsLogs {f : LineEffect} (h : f.Shaped self image) :
    KeepsLogs f.operations := by
  rcases h with ⟨hops, -, -⟩ | ⟨output, houtput, hops⟩
  · rw [hops]
    exact List.forall_mem_nil _
  · rw [hops]
    exact houtput.keepsLogs.append (keepsLogs_lineEnd _)

end Lines

/-- What a control step does to the calls and the streams. -/
inductive Shifts (pc : Label) (th : Thread Operation Label) : Prop
  | stays : th.pc.calls = pc.calls → (pc.streams : ℤ) + pendingStreams th.ops = th.pc.streams →
      th.ops.count .logCreate = 0 → th.ops.count .logDestroy ≤ 1 → Shifts pc th
  | enters (before : List Operation) (k : ℕ) : th.pc.calls = pc.calls + k →
      pc.streams = pc.calls + 1 → th.pc.streams = th.pc.calls + 1 → KeepsLogs before →
      th.ops = before ++ List.replicate k .logCreate → Shifts pc th
  | returns : pc.calls = th.pc.calls + 1 → th.pc.streams = th.pc.calls + 1 →
      (pc.streams : ℤ) + pendingStreams th.ops =
        th.pc.streams + (if pc.innermost = .ordenar .spn then 1 else 0) →
      th.ops.count .logCreate = 0 → th.ops.count .logDestroy ≤ 1 → Shifts pc th

theorem Shifts.quiet {pc : Label} {th : Thread Operation Label} (hcalls : th.pc.calls = pc.calls)
    (hstreams : th.pc.streams = pc.streams) (hops : KeepsLogs th.ops) : Shifts pc th := by
  refine .stays hcalls ?_ hops.count (hops.count_destroy.trans_le zero_le_one)
  rw [hops.pending, hstreams, add_zero]

section Processor

variable {cfg : Config} {s s' : Shared} {pc : Label} {th : Thread Operation Label}
  {code : List CString} {quantum : ℤ} {self : Ptr} {env : Env} {e e' : Exec}
  {ops : List Operation} {events : List Event}

theorem calls_execute (p : Ptr) (code : List CString) (h : e.point ≠ .returned) :
    (Label.execute p code e).calls = e.elements.length + 1 := if_neg h

theorem streams_execute (p : Ptr) (code : List CString) (h : e.point ≠ .returned) :
    (Label.execute p code e).streams = e.elements.length + 2 := if_neg h

/-- Within a dispatch: `k` functions are entered. -/
theorem shifts_enters {p : Ptr} (before : List Operation) (k : ℕ) (h : e.point ≠ .returned)
    (h' : e'.point ≠ .returned) (helements : e'.elements.length = e.elements.length + k)
    (hbefore : KeepsLogs before) (hops : ops = before ++ List.replicate k .logCreate) :
    Shifts (.execute p code e) ⟨.execute p code e', ops⟩ := by
  refine .enters before k ?_ ?_ ?_ hbefore hops
  · rw [calls_execute p code h, calls_execute p code h', helements]
    omega
  · rw [calls_execute p code h, streams_execute p code h]
  · rw [calls_execute p code h', streams_execute p code h']

theorem perform_point (e : Exec) (f : LineEffect) : (e.perform f).point ≠ .returned := by
  rw [Exec.perform]
  cases f.ticks <;> simp

theorem shifts_perform {p : Ptr} {f : LineEffect} (h : e.point ≠ .returned)
    (helements : e'.elements.length = e.elements.length) (hops : KeepsLogs f.operations) :
    Shifts (.execute p code e) ⟨.execute p code (e'.perform f), f.operations⟩ :=
  shifts_enters f.operations 0 h (perform_point e' f) helements hops (List.append_nil _).symm

/-- A line calls a function or none. -/
theorem shifts_runLine {p : Ptr} {PC : ℕ} {outcome : LineOutcome} (h : e.point ≠ .returned)
    (hpoint : e'.point ≠ .returned) (helements : e'.elements.length = e.elements.length)
    (hshaped : ∀ f, outcome = .effect f → KeepsLogs f.operations) {e'' : Exec}
    (hrun : e'.runLine code PC outcome = some (e'', ops, events)) :
    Shifts (.execute p code e) ⟨.execute p code e'', ops⟩ := by
  cases outcome with
  | effect f =>
    cases hrun
    exact shifts_perform h helements (hshaped f rfl)
  | asksPool =>
    cases hrun
    refine shifts_enters [.lock .lpb] 0 h (by simp) helements ?_ rfl
    simp [KeepsLogs]
  | call functionName =>
    obtain ⟨entry, -, rfl, rfl, -⟩ := Exec.runLine_call hrun
    refine shifts_enters [] 1 h hpoint ?_ (List.forall_mem_nil _) rfl
    rw [List.length_cons, helements]

theorem shifts_exec {p : Ptr} (hne : e.point ≠ .returned)
    (h : Exec.Moves code quantum p env e e' ops events) :
    Shifts (.execute p code e) ⟨.execute p code e', ops⟩ := by
  cases h with
  | returns _ helements =>
    refine .returns ?_ rfl ?_ rfl le_rfl
    · rw [calls_execute p code hne, helements]
      rfl
    · rw [streams_execute p code hne, Label.innermost, if_pos helements, helements]
      rfl
  | resumes _ _ _ _ _ hstack =>
    obtain ⟨stack, element, hconcat⟩ := (List.eq_nil_or_concat e.stack).resolve_left hstack
    rw [Exec.stackExecution_of_concat (List.concat_eq_append ▸ hconcat)]
    exact shifts_enters [] 1 hne hne rfl (List.forall_mem_nil _) rfl
  | runsLine _ _ _ _ _ _ _ houtcome hrun =>
    have hadvance : e.advanceProcess.point ≠ .returned := hne
    refine shifts_runLine hne hadvance rfl (fun f hf => ?_) hrun
    subst hf
    exact (shaped_of_processLine houtcome).keepsLogs
  | @leaves element rest line hpoint helements =>
    have hleft : (e.leaveFunction (isFinFuncion line element.functionName) element
        rest).point ≠ .returned := by
      unfold Exec.leaveFunction
      dsimp only
      split <;> exact hne
    have hlength : e.elements.length = rest.length + 1 := by rw [helements, List.length_cons]
    have hinnermost : (Label.execute p code e).innermost = .functionExecution := by
      rw [Label.innermost, if_neg (by simp [helements])]
    refine .returns ?_ ?_ ?_ rfl le_rfl
    · rw [calls_execute p code hne, calls_execute p code hleft, Exec.length_leaveFunction, hlength]
    · rw [calls_execute p code hleft, streams_execute p code hleft]
    · rw [streams_execute p code hne, streams_execute p code hleft, Exec.length_leaveFunction,
        hlength, hinnermost]
      simp [Operation.opens]
      omega
  | @runsFunctionLine element rest _ _ _ _ _ _ _ helements _ _ _ _ houtcome hrun =>
    have hadvance : (e.advanceFunction element rest).point ≠ .returned := hne
    refine shifts_runLine hne hadvance (by rw [helements]; rfl) (fun f hf => ?_) hrun
    subst hf
    exact (shaped_of_functionLine houtcome).keepsLogs
  | asksPool _ _ _ hf =>
    obtain ⟨⟨answer, hanswer, hops⟩, -⟩ := answer_of_processPoolLine hf
    exact shifts_perform hne rfl (hops ▸ hanswer.keepsLogs.append (keepsLogs_lineEnd _))
  | asksPoolInFunction _ _ _ hf =>
    obtain ⟨⟨answer, hanswer, hops⟩, -⟩ := answer_of_functionPoolLine hf
    exact shifts_perform hne rfl (hops ▸ hanswer.keepsLogs.append (keepsLogs_lineEnd _))
  | counts =>
    refine shifts_enters [.unlock .alg] 0 hne (by simp [Exec.algStep]) rfl ?_ rfl
    simp [KeepsLogs]

theorem shifts_orderInsert (h : OrderInsert.Moves s pc s' th) : Shifts pc th := by
  cases h with
  | sortStart key prioList caller =>
    cases caller <;> cases key <;> exact .quiet rfl rfl (List.forall_mem_nil _)
  | drainOne key remaining remaining' prioList caller =>
    cases caller <;> cases key <;> exact .quiet rfl rfl (List.forall_mem_nil _)
  | @finish key prioList sorted caller hperm =>
    cases caller with
    | sts =>
      have hkeeps : KeepsLogs (sorted.map (.enqueue .lpl) ++ [.unlock .lpl] ++ STS.wait) := by
        simp [KeepsLogs, STS.wait, or_imp, forall_and]
      have hpending : pendingStreams (OrderInsert.finish sorted .sts).ops = 0 := hkeeps.pending
      refine .returns rfl rfl ?_ hkeeps.count (hkeeps.count_destroy.trans_le zero_le_one)
      rw [hpending]
      cases key <;> rfl
    | configure priorities =>
      have hkeeps : KeepsLogs (sorted.map (.enqueue .lpl) ++ [.unlock .lpl]) := by
        simp [KeepsLogs, or_imp, forall_and]
      cases key <;> exact .quiet rfl rfl hkeeps

theorem shifts_sts (h : STS.Moves s pc s' th) : Shifts pc th := by
  cases h with
  | readALG kind =>
    refine .enters [.unlock .alg] 1 rfl rfl rfl ?_ rfl
    simp [KeepsLogs]
  | nextQueue | takeToken | noToken => exact .quiet rfl rfl (List.forall_mem_nil _)
  | endRound kind =>
    cases kind with
    | fifo => exact .returns rfl rfl rfl rfl le_rfl
    | pri => exact .stays rfl rfl rfl le_rfl
    | spn => exact .quiet rfl rfl (by simp [STS.endRound, KeepsLogs])
  | takeIn => exact .quiet rfl rfl (by simp [KeepsLogs])
  | pop kind =>
    cases kind <;>
      exact .quiet rfl rfl (by simp [STS.takeOver, KeepsLogs, logWrite, enqueueLocked])
  | orderInsert h => exact shifts_orderInsert h

theorem shifts_configure (h : Configure.Moves s pc s' th) : Shifts pc th := by
  cases h with
  | setALG ALG => cases ALG <;> exact .quiet rfl rfl (by simp [Configure.afterALG, KeepsLogs])
  | orderInsert h => exact shifts_orderInsert h
  | _ => exact .quiet rfl rfl (by simp [KeepsLogs])

theorem shifts_ltsConex (h : LTSconex.Moves cfg s pc s' th) : Shifts pc th := by
  cases h <;> exact .quiet rfl rfl (by simp [KeepsLogs, LTSconex.refuse, LTSconex.admission,
    LTSconex.delay, LTSconex.notRestored, LTSconex.resume, logWrite, enqueueForSTS, enqueueLocked,
    writeText])

/-- A dispatch enters `processExecution`, and with a saved stack a function in it. -/
theorem shifts_pop {p : Ptr} {code : List CString} (image : TProcessImage) :
    Shifts .popReady ⟨.execute p code (Exec.enter image).1,
      PROCER.dispatch p (Exec.enter image).2⟩ := by
  have hkeeps : KeepsLogs ([.unlock .lpl, .readImage p] ++ logWrite ++ [.clearSUSPEND]) := by
    simp [KeepsLogs, logWrite]
  rcases List.eq_nil_or_concat (Exec.atEntry image).stack with hnil | ⟨stack, element, hconcat⟩
  · rw [Exec.enter, Exec.stackExecution_of_nil hnil]
    exact .enters _ 1 rfl rfl rfl hkeeps rfl
  · rw [Exec.enter, Exec.stackExecution_of_concat (List.concat_eq_append ▸ hconcat)]
    exact .enters _ 2 rfl rfl rfl hkeeps rfl

theorem shifts_procer (h : PROCER.Moves cfg s pc s' th) : Shifts pc th := by
  cases h with
  | pop => exact shifts_pop _
  | run hpoint hmoves => exact shifts_exec hpoint hmoves
  | finished hpoint | blocked hpoint | suspended hpoint | endOfQuantum hpoint | dropped hpoint =>
    refine .quiet (if_pos hpoint).symm (if_pos hpoint).symm ?_
    simp [KeepsLogs, PROCER.finished, PROCER.suspended, PROCER.endOfQuantum, PROCER.wait, logWrite,
      sendMsg, enqueueForSTS]

theorem shifts_control {t : Tid} (h : PP.Moves cfg s t pc s' th) : Shifts pc th := by
  cases h with
  | ltsConex h => exact shifts_ltsConex h
  | ltsNew =>
    refine .quiet rfl rfl ?_
    simp [KeepsLogs, LTSnew.deliver, LTSnew.wait, logWrite, enqueueForSTS]
  | sts h => exact shifts_sts h
  | configure h => exact shifts_configure h
  | procer h => exact shifts_procer h
  | raise => exact .quiet rfl rfl (List.forall_mem_nil _)
  | @ioThread i ioProcessing LPB =>
    refine .quiet rfl rfl ?_
    cases hflag : ioProcessing.ioInfo.flagNonBlocking <;>
      simp [KeepsLogs, IoThread.serve, IoThread.wait, logWrite, enqueueForSTS, hflag]

end Processor

def spnCalls (returned : List CallRecord) : ℕ := returned.countP (·.call = .ordenar .spn)

/-- The streams a thread has lost: `STS` one in every `ordenarSPN`. -/
def lostStreams (returned : List CallRecord) (t : Tid) : ℤ :=
  if t = .sts then spnCalls returned else 0

theorem lostStreams_nonneg (returned : List CallRecord) (t : Tid) :
    0 ≤ lostStreams returned t := by
  rw [lostStreams]
  split_ifs <;> omega

/-- What the book says of one thread. -/
structure ThreadBooked (b : Streams) (t : Tid) (th : Thread Operation Label) : Prop where
  home : PP.homeOf th.pc t
  settled : b.opened t + pendingStreams th.ops = th.pc.streams + lostStreams b.returned t
  covered : th.ops.count .logCreate ≤ th.pc.streams
  closing : th.ops.count .logDestroy ≤ 1
  entered : b.entered t = levels (1 + lostStreams b.returned t) th.pc.calls

def CallRecord.Booked (r : CallRecord) : Prop :=
  r.left = r.entered + if r.call = .ordenar .spn then 1 else 0

section Threads

variable {cfg : Config} {s s' : Shared} {b b' : Streams} {t : Tid} {pc : Label}
  {th th' : Thread Operation Label} {op : Operation} {ops : List Operation}

/-- Nobody has fewer than no streams open. -/
theorem ThreadBooked.opened_nonneg (h : ThreadBooked b t th) : 0 ≤ b.opened t := by
  have hsettled := h.settled
  have hcovered := h.covered
  have hpending := pendingStreams_le th.ops
  have hlost := lostStreams_nonneg b.returned t
  omega

theorem ThreadBooked.opened_pos (h : ThreadBooked b t ⟨pc, .logDestroy :: ops⟩) :
    0 < b.opened t := by
  have hsettled := h.settled
  have hcovered := h.covered
  have hpending := pendingStreams_le ops
  have hlost := lostStreams_nonneg b.returned t
  rw [pendingStreams_cons] at hsettled
  rw [List.count_cons_of_ne (by simp)] at hcovered
  simp only [Operation.opens] at hsettled
  dsimp only at hcovered hsettled
  omega

theorem ThreadBooked.opened_le (h : ThreadBooked b t th) :
    b.opened t ≤ th.pc.streams + 1 + lostStreams b.returned t := by
  have hsettled := h.settled
  have hclosing := h.closing
  have hpending := neg_pendingStreams_le th.ops
  omega

theorem ThreadBooked.congr (h : ThreadBooked b t th) (hopened : b'.opened t = b.opened t)
    (hentered : b'.entered t = b.entered t)
    (hlost : lostStreams b'.returned t = lostStreams b.returned t) :
    ThreadBooked b' t th := by
  refine ⟨h.home, ?_, h.covered, h.closing, ?_⟩
  · rw [hopened, hlost]
    exact h.settled
  · rw [hentered, hlost]
    exact h.entered

theorem ThreadBooked.exec (h : ThreadBooked b t ⟨pc, op :: ops⟩) :
    ThreadBooked (b.advance t ⟨pc, op :: ops⟩ th') t ⟨pc, ops⟩ := by
  refine ⟨h.home, ?_, le_trans ?_ h.covered, le_trans ?_ h.closing, h.entered⟩
  · have hsettled := h.settled
    rw [pendingStreams_cons, ← add_assoc] at hsettled
    simpa [Streams.advance] using hsettled
  · exact (List.sublist_cons_self op ops).count_le _
  · exact (List.sublist_cons_self op ops).count_le _

/-- A step without a return enters `k` calls, if any. -/
theorem ThreadBooked.enter (h : ThreadBooked b t ⟨pc, []⟩) (hhome : PP.homeOf th.pc t)
    (k : ℕ) (hcalls : th.pc.calls = pc.calls + k)
    (hstreams : (pc.streams : ℤ) + pendingStreams th.ops = th.pc.streams)
    (hcovered : th.ops.count .logCreate ≤ th.pc.streams)
    (hclosing : th.ops.count .logDestroy ≤ 1)
    (henterings : enterings (b.opened t) th.ops =
      levels (1 + lostStreams b.returned t + pc.calls) k) :
    ThreadBooked (b.advance t ⟨pc, []⟩ th) t th := by
  have hnot : ¬ th.pc.calls < pc.calls := by omega
  have hbook : b.advance t ⟨pc, []⟩ th = { b with
      entered := Function.update b.entered t (enterings (b.opened t) th.ops ++ b.entered t) } :=
    if_neg hnot
  rw [hbook]
  refine ⟨hhome, ?_, hcovered, hclosing, ?_⟩
  · have hsettled := h.settled
    rw [pendingStreams_nil, add_zero] at hsettled
    dsimp only at hsettled ⊢
    omega
  · have hentered := h.entered
    dsimp only at hentered ⊢
    rw [Function.update_self, hentered, henterings, levels_add, ← hcalls]

/-- The scheduling algorithms are called by `STS`, one at a time. -/
theorem sts_of_innermost {kind : Round} {n : ℕ} (hhome : PP.homeOf pc t) (hcalls : pc.calls = n + 1)
    (hinnermost : pc.innermost = .ordenar kind) : t = .sts ∧ n = 0 := by
  cases pc with
  | round | collect | takeIn | popQueue => exact ⟨hhome, (Nat.succ.inj hcalls).symm⟩
  | sortStart key prioList caller | drain key remaining prioList caller =>
    cases caller with
    | sts => exact ⟨hhome, (Nat.succ.inj hcalls).symm⟩
    | configure => cases hcalls
  | execute p code e =>
    rw [Label.innermost] at hinnermost
    split_ifs at hinnermost
  | _ => cases hcalls

theorem lostStreams_cons (r : CallRecord) (returned : List CallRecord) (t : Tid) :
    lostStreams (r :: returned) t =
      lostStreams returned t + if t = .sts ∧ r.call = .ordenar .spn then 1 else 0 := by
  rw [lostStreams, lostStreams, spnCalls, spnCalls, List.countP_cons]
  by_cases ht : t = .sts <;> by_cases hcall : r.call = .ordenar .spn <;> simp [ht, hcall]

def returning (b : Streams) (t : Tid) (pc : Label) (th : Thread Operation Label) : CallRecord :=
  ⟨pc.innermost, 1 + lostStreams b.returned t + th.pc.calls, b.opened t + pendingStreams th.ops⟩

theorem ThreadBooked.advance_return (h : ThreadBooked b t ⟨pc, []⟩)
    (hcalls : pc.calls = th.pc.calls + 1) :
    b.advance t ⟨pc, []⟩ th = { b with
      entered := Function.update b.entered t (levels (1 + lostStreams b.returned t) th.pc.calls)
      returned := returning b t pc th :: b.returned } := by
  have hentered := h.entered
  dsimp only at hentered
  rw [hcalls, levels] at hentered
  have hlt : th.pc.calls < pc.calls := by omega
  rw [Streams.advance]
  dsimp only
  rw [if_pos hlt, hentered]
  rfl

theorem ThreadBooked.return (h : ThreadBooked b t ⟨pc, []⟩) (hhome : PP.homeOf th.pc t)
    (hcalls : pc.calls = th.pc.calls + 1)
    (hstreams : (pc.streams : ℤ) + pendingStreams th.ops =
      th.pc.streams + if pc.innermost = .ordenar .spn then 1 else 0)
    (hcovered : th.ops.count .logCreate ≤ th.pc.streams)
    (hclosing : th.ops.count .logDestroy ≤ 1) : ThreadBooked (b.advance t ⟨pc, []⟩ th) t th := by
  have hsettled := h.settled
  rw [pendingStreams_nil, add_zero] at hsettled
  rw [h.advance_return hcalls]
  have hcall : (returning b t pc th).call = pc.innermost := rfl
  by_cases hspn : pc.innermost = .ordenar .spn
  · obtain ⟨rfl, hzero⟩ := sts_of_innermost h.home hcalls hspn
    rw [if_pos hspn] at hstreams
    refine ⟨hhome, ?_, hcovered, hclosing, ?_⟩
    · dsimp only at hsettled ⊢
      rw [lostStreams_cons, if_pos ⟨rfl, hcall.trans hspn⟩]
      omega
    · dsimp only
      rw [Function.update_self, hzero]
      rfl
  · rw [if_neg hspn, add_zero] at hstreams
    have hlost : lostStreams (returning b t pc th :: b.returned) t =
        lostStreams b.returned t := by
      rw [lostStreams_cons, if_neg fun hand => hspn (hcall.symm.trans hand.2), add_zero]
    refine ⟨hhome, ?_, hcovered, hclosing, ?_⟩
    · dsimp only at hsettled ⊢
      rw [hlost]
      omega
    · dsimp only
      rw [Function.update_self, hlost]

theorem ThreadBooked.booked_return (h : ThreadBooked b t ⟨pc, []⟩)
    (hlevel : th.pc.streams = th.pc.calls + 1)
    (hstreams : (pc.streams : ℤ) + pendingStreams th.ops =
      th.pc.streams + if pc.innermost = .ordenar .spn then 1 else 0) :
    (returning b t pc th).Booked := by
  have hsettled := h.settled
  rw [pendingStreams_nil, add_zero] at hsettled
  dsimp only at hsettled
  rw [hlevel] at hstreams
  push_cast at hstreams
  rw [CallRecord.Booked, returning]
  dsimp only
  omega

/-- After a control step of `t` the book is right again about `t`, and the same about the other
threads. -/
structure ControlBooked (b b' : Streams) (t : Tid) (th : Thread Operation Label) : Prop where
  own : ThreadBooked b' t th
  opened : b'.opened = b.opened
  others : ∀ u, u ≠ t → b'.entered u = b.entered u ∧
    lostStreams b'.returned u = lostStreams b.returned u
  returned : ∀ r ∈ b'.returned, r.Booked

theorem ThreadBooked.control_enter (h : ThreadBooked b t ⟨pc, []⟩) (hhome : PP.homeOf th.pc t)
    (k : ℕ) (hcalls : th.pc.calls = pc.calls + k)
    (hstreams : (pc.streams : ℤ) + pendingStreams th.ops = th.pc.streams)
    (hcovered : th.ops.count .logCreate ≤ th.pc.streams)
    (hclosing : th.ops.count .logDestroy ≤ 1)
    (henterings : enterings (b.opened t) th.ops =
      levels (1 + lostStreams b.returned t + pc.calls) k)
    (hreturned : ∀ r ∈ b.returned, r.Booked) :
    ControlBooked b (b.advance t ⟨pc, []⟩ th) t th := by
  have hown := h.enter hhome k hcalls hstreams hcovered hclosing henterings
  have hnot : ¬ th.pc.calls < pc.calls := by omega
  rw [Streams.advance] at hown ⊢
  dsimp only at hown ⊢
  rw [if_neg hnot] at hown ⊢
  exact ⟨hown, rfl, fun u hu => ⟨Function.update_of_ne hu _ _, rfl⟩, hreturned⟩

theorem ThreadBooked.control (h : ThreadBooked b t ⟨pc, []⟩) (hhome : PP.homeOf th.pc t)
    (hshifts : Shifts pc th) (hreturned : ∀ r ∈ b.returned, r.Booked) :
    ControlBooked b (b.advance t ⟨pc, []⟩ th) t th := by
  cases hshifts with
  | stays hcalls hstreams hcount hclosing =>
    exact h.control_enter hhome 0 hcalls hstreams (hcount.trans_le (Nat.zero_le _)) hclosing
      (enterings_of_count _ hcount) hreturned
  | enters before k hcalls hlevel hlevel' hkeeps hops =>
    have hsettled := h.settled
    rw [pendingStreams_nil, add_zero] at hsettled
    dsimp only at hsettled
    have hopened : b.opened t = 1 + lostStreams b.returned t + pc.calls := by omega
    refine h.control_enter hhome k hcalls ?_ ?_ ?_ ?_ hreturned
    · rw [hops, pendingStreams_append, hkeeps.pending, pendingStreams_replicate]
      omega
    · rw [hops, List.count_append, hkeeps.count, List.count_replicate_self]
      omega
    · rw [hops, List.count_append, hkeeps.count_destroy, List.count_replicate]
      exact zero_le_one
    · rw [hops, enterings_append, enterings_of_count _ hkeeps.count, List.append_nil,
        hkeeps.pending, add_zero, enterings_replicate, hopened]
  | returns hcalls hlevel hstreams hcount hclosing =>
    have hown := h.return hhome hcalls hstreams (hcount.trans_le (Nat.zero_le _)) hclosing
    have hrecord := h.booked_return hlevel hstreams
    have hothers : ∀ u, u ≠ t → lostStreams (returning b t pc th :: b.returned) u =
        lostStreams b.returned u := by
      intro u hu
      rw [lostStreams_cons, if_neg, add_zero]
      rintro ⟨rfl, hspn⟩
      exact hu (sts_of_innermost h.home hcalls hspn).1.symm
    rw [h.advance_return hcalls] at hown ⊢
    exact ⟨hown, rfl, fun u hu => ⟨Function.update_of_ne hu _ _, hothers u hu⟩,
      List.forall_mem_cons.mpr ⟨hrecord, hreturned⟩⟩

theorem openLogs_exec (h : op.exec t s = some s') (hpos : op = .logDestroy → 0 < s.openLogs) :
    (s'.openLogs : ℤ) = s.openLogs + op.opens := by
  cases op with
  | lock m | unlock m | wait m =>
    simp only [Operation.exec] at h
    split_ifs at h
    cases h
    exact (add_zero _).symm
  | logCreate =>
    cases h
    exact Nat.cast_succ _
  | logDestroy =>
    cases h
    have hopen := hpos rfl
    simp only [Operation.opens]
    omega
  | _ =>
    cases h
    exact (add_zero _).symm

theorem openLogs_moves (h : PP.Moves cfg s t pc s' th) : s'.openLogs = s.openLogs := by
  cases h with
  | ltsConex h => cases h <;> rfl
  | sts h =>
    cases h with
    | orderInsert h => cases h <;> rfl
    | _ => rfl
  | configure h =>
    cases h with
    | orderInsert h => cases h <;> rfl
    | _ => rfl
  | procer h => cases h <;> rfl
  | _ => rfl

end Threads

namespace PP

structure Books (cfg : Config) (x : PP × Streams) : Prop where
  threads : ∀ t, ThreadBooked x.2 t (x.1.thread t)
  returned : ∀ r ∈ x.2.returned, r.Booked
  total : (x.1.shared.openLogs : ℤ) = ∑ t ∈ cfg.threads, x.2.opened t

section Runs

variable {cfg : Config} {ALG : Algorithm} {priorities : QueueName → ℤ} {x x' : PP × Streams}
  {a : Step}

theorem books_start : Books cfg (startStreams cfg ALG priorities) := by
  refine ⟨fun t => ⟨homeOf_initial t, ?_, ?_, ?_, ?_⟩, List.forall_mem_nil _, ?_⟩
  · cases t <;> rfl
  · cases t <;> simp [startStreams, start, initialThread, logWrite, LTSnew.wait, STS.wait,
      PROCER.wait, IoThread.wait, Label.streams]
  · cases t <;> simp [startStreams, start, initialThread, logWrite, LTSnew.wait, STS.wait,
      PROCER.wait, IoThread.wait]
  · cases t <;> rfl
  · simp [startStreams, start]

theorem Books.exec {op : Operation} {ops : List Operation} {s : Shared} (hx : Books cfg x)
    (ha : a.1 ∈ cfg.threads) (hops : (x.1.thread a.1).ops = op :: ops)
    (hexec : op.exec a.1 x.1.shared = some s) (th' : Thread Operation Label) :
    Books cfg (⟨s, Function.update x.1.thread a.1 ⟨(x.1.thread a.1).pc, ops⟩⟩,
      x.2.advance a.1 (x.1.thread a.1) th') := by
  have hthread : x.1.thread a.1 = ⟨(x.1.thread a.1).pc, op :: ops⟩ := by rw [← hops]
  have hbooked := hx.threads a.1
  rw [hthread] at hbooked
  have hadvance : x.2.advance a.1 (x.1.thread a.1) th' = { x.2 with
      opened := Function.update x.2.opened a.1 (x.2.opened a.1 + op.opens) } := by
    rw [hthread]
    rfl
  refine ⟨fun t => ?_, ?_, ?_⟩
  · dsimp only
    by_cases ht : t = a.1
    · subst ht
      rw [Function.update_self, hthread]
      exact hbooked.exec
    · rw [Function.update_of_ne ht, hadvance]
      exact (hx.threads t).congr (Function.update_of_ne ht _ _) rfl rfl
  · rw [hadvance]
    exact hx.returned
  · have hpos : op = .logDestroy → 0 < x.1.shared.openLogs := by
      rintro rfl
      have hle := Finset.single_le_sum (fun t _ => (hx.threads t).opened_nonneg) ha
      have hopened := hbooked.opened_pos
      have htotal := hx.total
      omega
    dsimp only
    rw [hadvance, openLogs_exec hexec hpos, hx.total, Finset.sum_update_of_mem ha,
      ← Finset.add_sum_erase _ _ ha, Finset.sdiff_singleton_eq_erase]
    omega

theorem Books.control {s : Shared} {th : Thread Operation Label} (hx : Books cfg x)
    (hops : (x.1.thread a.1).ops = [])
    (hmoves : Moves cfg x.1.shared a.1 (x.1.thread a.1).pc s th) :
    Books cfg (⟨s, Function.update x.1.thread a.1 th⟩,
      x.2.advance a.1 (x.1.thread a.1) th) := by
  have hthread : x.1.thread a.1 = ⟨(x.1.thread a.1).pc, []⟩ := by rw [← hops]
  have hbooked := hx.threads a.1
  have hhome := homeOf_control hmoves hbooked.home
  rw [hthread] at hbooked
  obtain ⟨hown, hopened, hothers, hreturned⟩ :=
    hbooked.control hhome (shifts_control hmoves) hx.returned
  rw [← hthread] at hown hopened hothers hreturned
  refine ⟨fun t => ?_, hreturned, ?_⟩
  · dsimp only
    by_cases ht : t = a.1
    · rw [ht, Function.update_self]
      exact hown
    · rw [Function.update_of_ne ht]
      exact (hx.threads t).congr (congrFun hopened t) (hothers t ht).1 (hothers t ht).2
  · dsimp only
    rw [openLogs_moves hmoves, hopened]
    exact hx.total

theorem books_next (h : nextStreams cfg x a = some x') (hx : Books cfg x) : Books cfg x' := by
  obtain ⟨st, hnext, rfl⟩ := Option.map_eq_some_iff.mp h
  rcases Machine.step_cases (next_eq_some hnext).2 with
    ⟨op, ops, s, hops, hexec, rfl⟩ | ⟨s, th, hops, hcontrol, rfl⟩
  · exact hx.exec (next_eq_some hnext).1 hops hexec _
  · have hadvanced := hx.control hops (moves_of_control hcontrol)
    dsimp only
    rw [Function.update_self]
    exact hadvanced

theorem books_run (h : RunsTo (nextStreams cfg) (fun _ _ => True)
    (startStreams cfg ALG priorities) x) : Books cfg x :=
  h.invariant books_start fun _ _ _ hx _ hnext => books_next hnext hx

theorem streams_le_nested (pc : Label) : pc.streams ≤ pc.nested + 2 := by
  cases pc with
  | execute p code e =>
    simp only [Label.streams, Label.nested]
    split_ifs <;> omega
  | sortStart key prioList caller | drain key remaining prioList caller =>
    cases caller <;> cases key <;> simp [Label.streams, Label.nested]
  | _ => simp [Label.streams, Label.nested]

theorem nested_eq_zero {t : Tid} {pc : Label} (hhome : homeOf pc t) (ht : t ≠ .procer) :
    pc.nested = 0 := by
  cases pc with
  | execute => exact absurd hhome ht
  | _ => rfl

/-- Only the calls of `ordenarSPN` make more of the streams than there is use for. -/
theorem Books.openLogs_le (hx : Books cfg x) : x.1.shared.openLogs ≤
    3 * cfg.threads.card + (x.1.thread .procer).pc.nested + spnCalls x.2.returned := by
  have hprocer : (.procer : Tid) ∈ cfg.threads := by simp [Config.threads]
  have hsts : (.sts : Tid) ∈ cfg.threads := by simp [Config.threads]
  have hnested : ∑ t ∈ cfg.threads, ((x.1.thread t).pc.nested : ℤ) =
      (x.1.thread .procer).pc.nested :=
    Finset.sum_eq_single_of_mem _ hprocer fun t _ ht =>
      congrArg Nat.cast (nested_eq_zero (hx.threads t).home ht)
  have hlost : ∑ t ∈ cfg.threads, lostStreams x.2.returned t = spnCalls x.2.returned := by
    have hother : ∀ t ∈ cfg.threads, t ≠ .sts → lostStreams x.2.returned t = 0 :=
      fun t _ ht => if_neg ht
    rw [Finset.sum_eq_single_of_mem _ hsts hother]
    exact if_pos rfl
  have hle : (x.1.shared.openLogs : ℤ) ≤ ∑ t ∈ cfg.threads,
      (3 + ((x.1.thread t).pc.nested : ℤ) + lostStreams x.2.returned t) := by
    rw [hx.total]
    refine Finset.sum_le_sum fun t _ => ?_
    have hopened := (hx.threads t).opened_le
    have hstreams := streams_le_nested (x.1.thread t).pc
    omega
  rw [Finset.sum_add_distrib, Finset.sum_add_distrib, hnested, hlost, Finset.sum_const,
    nsmul_eq_mul] at hle
  omega

/-- Every call of `ordenarSPN` leaves a stream open for good. -/
theorem Books.spnCalls_le (hx : Books cfg x) : spnCalls x.2.returned ≤ x.1.shared.openLogs := by
  have hsts : (.sts : Tid) ∈ cfg.threads := by simp [Config.threads]
  have hle := Finset.single_le_sum (fun t _ => (hx.threads t).opened_nonneg) hsts
  have hsettled := (hx.threads .sts).settled
  have hcovered := (hx.threads .sts).covered
  have hpending := pendingStreams_le (x.1.thread .sts).ops
  have htotal := hx.total
  have hlost : lostStreams x.2.returned .sts = spnCalls x.2.returned := if_pos rfl
  omega

/-- In every run the streams are balanced, call by call and in their number, if and only if no
call of `ordenarSPN` has returned; at least as many streams are open as have. -/
theorem streams_balanced_iff (cfg : Config) (ALG : Algorithm) (priorities : QueueName → ℤ)
    (x : PP × Streams)
    (h : RunsTo (nextStreams cfg) (fun _ _ => True) (startStreams cfg ALG priorities) x) :
    (BalancedStreams cfg x ↔ ∀ r ∈ x.2.returned, r.call ≠ .ordenar .spn) ∧
      spnCalls x.2.returned ≤ x.1.shared.openLogs := by
  have hx := books_run h
  refine ⟨?_, hx.spnCalls_le⟩
  constructor
  · rintro ⟨hbalanced, -⟩ r hr hspn
    have hbooked := hx.returned r hr
    rw [CallRecord.Booked, if_pos hspn, hbalanced r hr] at hbooked
    omega
  · intro hother
    refine ⟨fun r hr => ?_, ?_⟩
    · have hbooked := hx.returned r hr
      rw [CallRecord.Booked, if_neg (hother r hr), add_zero] at hbooked
      exact hbooked
    · have hnone : spnCalls x.2.returned = 0 := by
        rw [spnCalls, List.countP_eq_zero]
        intro r hr
        simpa using hother r hr
      have hle := hx.openLogs_le
      rwa [hnone, add_zero] at hle

def callingScript : CString :=
  cstr "comienzo_programa\nf()\nfin_programa\ncomienzo_funcion f\nfin_funcion f"

def schedules (n : ℕ) : List Step :=
  goes .ltsConex 3 ++ submits callingScript 0 ++ goes .sts 27 ++ goes .procer n

theorem streams_balanced_fifo : ∃ x : PP × Streams,
    x.2.returned.map (·.call) = [.processExecution, .functionExecution, .ordenar .fifo] ∧
      (BalancedStreams smallConfig x ↔ ∀ r ∈ x.2.returned, r.call ≠ .ordenar .spn) ∧
      spnCalls x.2.returned ≤ x.1.shared.openLogs := by
  have hrun : ((follow (nextStreams smallConfig) (fun _ _ => true)
      (startStreams smallConfig .fifo fun _ => 0) (schedules 18)).any fun x =>
        x.2.returned.map (·.call) ==
          [.processExecution, .functionExecution, .ordenar .fifo]) = true := by
    decide +kernel
  obtain ⟨x, hx, hcalls⟩ := (Option.any_eq_true _ _).mp hrun
  exact ⟨x, eq_of_beq hcalls, streams_balanced_iff smallConfig .fifo (fun _ => 0) x
    (RunsTo.of_follow (fun _ _ _ => trivial) _ hx)⟩

/-- One round of `ordenarSPN`: entered with one stream open, left with two. -/
theorem streams_lost_spn : ∃ x : PP × Streams,
    RunsTo (nextStreams smallConfig) (fun _ _ => True)
      (startStreams smallConfig .spn fun _ => 0) x ∧
      x.2.returned = [⟨.ordenar .spn, 1, 2⟩] ∧ ¬ BalancedStreams smallConfig x := by
  have hrun : ((follow (nextStreams smallConfig) (fun _ _ => true)
      (startStreams smallConfig .spn fun _ => 0) (schedules 0)).any fun x =>
        x.2.returned == [⟨.ordenar .spn, 1, 2⟩]) = true := by
    decide +kernel
  obtain ⟨x, hx, hreturned⟩ := (Option.any_eq_true _ _).mp hrun
  have hreturned := eq_of_beq hreturned
  refine ⟨x, RunsTo.of_follow (fun _ _ _ => trivial) _ hx, hreturned, fun hbalanced => ?_⟩
  have hleft := hbalanced.1 ⟨.ordenar .spn, 1, 2⟩ (hreturned ▸ List.mem_singleton_self _)
  cases hleft

end Runs

end PP

end Sisop
