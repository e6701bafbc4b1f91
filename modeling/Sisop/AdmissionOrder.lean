import Sisop.RunningProcess

/-!
# The order in which scripts become new processes

A script is accepted when `LTSconex` builds its image, and images get growing addresses. The order
is kept from there to `LPN` along one line: what `LTSnew` has taken out of `LFIFO`, `LFIFO` itself,
and what `LTSconex` has accepted and put nowhere yet. A script for which `LTSconex` gets a token of
`MMP_sem` goes past the others in this line, if there are any.
-/

namespace Sisop
namespace PP

variable {cfg : Config} {s s' : Shared} {pc : Label} {th : Thread Operation Label}

def enters (st : PP) (a : Step) : List Ptr :=
  match (st.thread a.1).ops with
  | .enqueue .lpn p :: _ => [p]
  | _ => []

def nextEntered (cfg : Config) (x : PP × List Ptr) (a : Step) : Option (PP × List Ptr) :=
  (next cfg x.1 a).map fun st => (st, x.2 ++ enters x.1 a)

/-- The accepted scripts that an operation moves on. -/
def delayedOf : Operation → List Ptr
  | .enqueue .lpn p | .enqueue .lfifo p => [p]
  | _ => []

def onTheWay (th : Thread Operation Label) : List Ptr := th.ops.flatMap delayedOf

/-- The accepted scripts that have not entered `LPN`, in the order in which they would without
anybody going past. -/
def line (st : PP) : List Ptr :=
  onTheWay (st.thread .ltsNew) ++ st.shared.queue .lfifo ++ onTheWay (st.thread .ltsConex)

/-- `LTSconex` gets a token for a new script while accepted ones still wait for theirs or are on
their way from `LFIFO` to `LPN`. -/
def overtakes (st : PP) (a : Step) : Bool :=
  match a.1, st.thread a.1 with
  | .ltsConex, ⟨.building _ _ _, []⟩ =>
    decide (0 < st.shared.sem .mmpSem) &&
      !(onTheWay (st.thread .ltsNew) ++ st.shared.queue .lfifo).isEmpty
  | _, _ => false

/-- `LTSconex` sends accepted scripts on their way, `LTSnew` only to `LPN`, and nobody else; one
at a time. -/
structure WayShape (t : Tid) (th : Thread Operation Label) : Prop where
  movers : t ≠ .ltsConex → t ≠ .ltsNew → onTheWay th = []
  delays : ∀ p, .enqueue .lfifo p ∈ th.ops → t = .ltsConex
  one : (onTheWay th).length ≤ 1

theorem onTheWay_eq_nil : onTheWay th = [] ↔ ∀ op ∈ th.ops, delayedOf op = [] :=
  List.flatMap_eq_nil_iff

theorem WayShape.of_idle {t : Tid} (h : ∀ op ∈ th.ops, delayedOf op = []) : WayShape t th := by
  have hnil := onTheWay_eq_nil.mpr h
  refine ⟨fun _ _ => hnil, fun p hmem => ?_, ?_⟩
  · cases h _ hmem
  · rw [hnil]
    exact Nat.zero_le 1

theorem wayShape_tail (t : Tid) (pc : Label) (op : Operation) (ops : List Operation)
    (h : WayShape t ⟨pc, op :: ops⟩) : WayShape t ⟨pc, ops⟩ := by
  have hsuffix : onTheWay ⟨pc, ops⟩ <:+ onTheWay ⟨pc, op :: ops⟩ := List.suffix_append ..
  refine ⟨fun hconex hnew => ?_, fun p hmem => h.delays p (List.mem_cons_of_mem _ hmem),
    hsuffix.length_le.trans h.one⟩
  rw [h.movers hconex hnew, List.suffix_nil] at hsuffix
  exact hsuffix

theorem idle_orderInsert (h : OrderInsert.Moves s pc s' th) : ∀ op ∈ th.ops, delayedOf op = [] := by
  cases h with
  | @finish key prioList sorted caller =>
    have hsorted : ∀ op ∈ sorted.map (.enqueue .lpl), delayedOf op = [] := by
      intro op hmem
      obtain ⟨p, -, rfl⟩ := List.mem_map.mp hmem
      rfl
    intro op hmem
    cases caller <;> simp only [OrderInsert.finish, List.mem_append] at hmem
    · rcases hmem with (hmem | hmem) | hmem
      · exact hsorted op hmem
      · rw [List.mem_singleton.mp hmem]
        rfl
      · simp [STS.wait] at hmem
        rcases hmem with rfl | rfl | rfl <;> rfl
    · rcases hmem with hmem | hmem
      · exact hsorted op hmem
      · rw [List.mem_singleton.mp hmem]
        rfl
  | _ => simp

theorem idle_sts (h : STS.Moves s pc s' th) : ∀ op ∈ th.ops, delayedOf op = [] := by
  cases h with
  | orderInsert h => exact idle_orderInsert h
  | endRound kind => cases kind <;> simp [delayedOf, STS.endRound, STS.wait]
  | pop kind => cases kind <;> simp [delayedOf, STS.takeOver, logWrite, enqueueLocked]
  | _ => simp [delayedOf, STS.startRound]

theorem idle_configure (h : Configure.Moves s pc s' th) : ∀ op ∈ th.ops, delayedOf op = [] := by
  cases h with
  | orderInsert h => exact idle_orderInsert h
  | setALG ALG => cases ALG <;> simp [delayedOf, Configure.afterALG]
  | _ => simp [delayedOf]

theorem idle_procer (h : PROCER.Moves cfg s pc s' th) : ∀ op ∈ th.ops, delayedOf op = [] := by
  cases h with
  | @pop p ps code =>
    rw [PROCER.dispatch, Exec.enter]
    unfold Exec.stackExecution
    split <;> simp [delayedOf, logWrite]
  | run _ hmoves =>
    intro op hmem
    cases hmoves.scriptOperation op hmem <;> rfl
  | _ =>
    simp [delayedOf, PROCER.finished, PROCER.suspended, PROCER.endOfQuantum, PROCER.wait, logWrite,
      sendMsg, enqueueForSTS]

/-- A script that `LTSconex` accepts is the last one; all others have been accepted before. -/
theorem accepted_control (h : LTSconex.Moves cfg s pc s' th) :
    (onTheWay th = [] ∧ s'.allocated = s.allocated ∧ ∀ p, .enqueue .lpn p ∉ th.ops) ∨
      (onTheWay th = [s.allocated] ∧ s'.allocated = s.allocated + 1 ∧
        (0 < s.sem .mmpSem ∧ (∃ fd data priority, pc = .building fd data priority) ∨
          ∀ p, .enqueue .lpn p ∉ th.ops)) := by
  cases h with
  | admission fd data priority code hsem =>
    exact .inr ⟨rfl, rfl, .inl ⟨hsem, fd, data, priority, rfl⟩⟩
  | delay =>
    refine .inr ⟨rfl, rfl, .inr ?_⟩
    simp [LTSconex.delay, logWrite, enqueueLocked, writeText]
  | _ =>
    refine .inl ⟨?_, rfl, ?_⟩ <;> simp [onTheWay, delayedOf, LTSconex.refuse, LTSconex.resume,
      LTSconex.notRestored, logWrite, enqueueForSTS, writeText]

theorem wayShape_control {t : Tid} (h : Moves cfg s t pc s' th) : WayShape t th := by
  cases h with
  | ltsConex h =>
    refine ⟨fun hconex => absurd rfl hconex, fun _ _ => rfl, ?_⟩
    rcases accepted_control h with ⟨hway, -, -⟩ | ⟨hway, -, -⟩ <;> simp [hway]
  | ltsNew =>
    refine ⟨fun _ hnew => absurd rfl hnew, fun p hmem => ?_, le_rfl⟩
    simp [LTSnew.deliver, LTSnew.wait, logWrite, enqueueForSTS] at hmem
  | sts h => exact .of_idle (idle_sts h)
  | configure h => exact .of_idle (idle_configure h)
  | procer h => exact .of_idle (idle_procer h)
  | raise => exact .of_idle (by simp)
  | @ioThread i ioProcessing LPB =>
    apply WayShape.of_idle
    cases hflag : ioProcessing.ioInfo.flagNonBlocking <;>
      simp [delayedOf, IoThread.serve, IoThread.wait, logWrite, enqueueForSTS, hflag]

theorem wayShape_initial (t : Tid) : WayShape t (initialThread t) := by
  apply WayShape.of_idle
  cases t <;> simp [delayedOf, initialThread, logWrite, LTSnew.wait, STS.wait, PROCER.wait,
    IoThread.wait]

theorem lfifo_exec {t : Tid} {op : Operation} (h : op.exec t s = some s') :
    (∃ p, op = .enqueue .lfifo p ∧ s'.queue .lfifo = s.queue .lfifo ++ [p]) ∨
      ((∀ p, op ≠ .enqueue .lfifo p) ∧ s'.queue .lfifo = s.queue .lfifo) := by
  cases op with
  | enqueue q p =>
    cases h
    cases q with
    | lfifo => exact .inl ⟨p, rfl, by simp [Shared.post, Shared.setQueue]⟩
    | _ => exact .inr ⟨by simp, rfl⟩
  | lock m | unlock m | wait m =>
    simp only [Operation.exec] at h
    split_ifs at h
    cases h
    exact .inr ⟨by simp, rfl⟩
  | _ =>
    cases h
    exact .inr ⟨by simp, rfl⟩

section Steps

variable {st st' : PP} {a : Step} {entered : List Ptr}

theorem lfifo_control {t : Tid} (h : Moves cfg s t pc s' th) (ht : t ≠ .ltsNew) :
    s'.queue .lfifo = s.queue .lfifo := by
  cases h with
  | ltsNew => exact absurd rfl ht
  | ltsConex h => cases h <;> rfl
  | sts h =>
    cases h with
    | orderInsert h => cases h <;> rfl
    | @pop kind i name => cases name <;> rfl
    | _ => rfl
  | configure h =>
    cases h with
    | orderInsert h => cases h <;> rfl
    | _ => rfl
  | procer h => cases h <;> rfl
  | _ => rfl

theorem allocated_control {t : Tid} (h : Moves cfg s t pc s' th) (ht : t ≠ .ltsConex) :
    s'.allocated = s.allocated := by
  cases h with
  | ltsConex => exact absurd rfl ht
  | sts h =>
    cases h with
    | orderInsert h => cases h <;> rfl
    | _ => rfl
  | configure h =>
    cases h with
    | orderInsert h => cases h <;> rfl
    | _ => rfl
  | procer h => cases h <;> rfl
  | _ => rfl

/-- The scripts enter in the order of their addresses, and whoever has a token from `LTSconex`
is alone in the line. -/
structure InLine (st : PP) (entered : List Ptr) : Prop where
  shape : ∀ t, WayShape t (st.thread t)
  sorted : (entered ++ line st).Pairwise (· < ·)
  accepted : ∀ p ∈ entered ++ line st, p < st.shared.allocated
  alone : ∀ p, .enqueue .lpn p ∈ (st.thread .ltsConex).ops →
    onTheWay (st.thread .ltsNew) ++ st.shared.queue .lfifo = []

theorem onTheWay_cons (pc : Label) (op : Operation) (ops : List Operation) :
    onTheWay ⟨pc, op :: ops⟩ = delayedOf op ++ onTheWay ⟨pc, ops⟩ := rfl

theorem onTheWay_ops (th : Thread Operation Label) : onTheWay th = onTheWay ⟨th.pc, th.ops⟩ := rfl

theorem delayedOf_ne_nil {op : Operation} (h : delayedOf op ≠ []) :
    (∃ p, op = .enqueue .lpn p) ∨ ∃ p, op = .enqueue .lfifo p := by
  cases op with
  | enqueue q p =>
    cases q with
    | lpn => exact .inl ⟨p, rfl⟩
    | lfifo => exact .inr ⟨p, rfl⟩
    | _ => exact absurd rfl h
  | _ => exact absurd rfl h

/-- An operation of nobody in the line leaves it as it is. -/
theorem line_idle {op : Operation} {ops : List Operation}
    (hops : (st.thread a.1).ops = op :: ops) (hexec : op.exec a.1 st.shared = some s)
    (hop : delayedOf op = []) :
    enters st a ++ line ⟨s, Function.update st.thread a.1 ⟨(st.thread a.1).pc, ops⟩⟩ = line st := by
  have henters : enters st a = [] := by
    unfold enters
    split
    case h_1 hops' =>
      rw [hops] at hops'
      cases hops'
      cases hop
    case h_2 => rfl
  have hsame : ∀ t, onTheWay (Function.update st.thread a.1 ⟨(st.thread a.1).pc, ops⟩ t) =
      onTheWay (st.thread t) := by
    intro t
    by_cases ht : t = a.1
    · rw [ht, Function.update_self, onTheWay_ops (st.thread a.1), hops, onTheWay_cons, hop]
      rfl
    · rw [Function.update_of_ne ht]
  rcases lfifo_exec hexec with ⟨p, rfl, -⟩ | ⟨-, hlfifo⟩
  · cases hop
  · rw [henters, line, hsame, hsame, hlfifo]
    rfl

/-- The first script of the line enters, or `LTSconex` moves its script on to `LFIFO`. -/
theorem line_mover {op : Operation} {ops : List Operation} (hst : InLine st entered)
    (hops : (st.thread a.1).ops = op :: ops) (hexec : op.exec a.1 st.shared = some s)
    (hop : delayedOf op ≠ []) :
    enters st a ++ line ⟨s, Function.update st.thread a.1 ⟨(st.thread a.1).pc, ops⟩⟩ = line st := by
  have hway : onTheWay (st.thread a.1) = delayedOf op ++ onTheWay ⟨(st.thread a.1).pc, ops⟩ := by
    rw [onTheWay_ops, hops, onTheWay_cons]
  have hmem : op ∈ (st.thread a.1).ops := by
    rw [hops]
    exact List.mem_cons_self
  have hmover : a.1 = .ltsConex ∨ a.1 = .ltsNew := by
    by_contra hneither
    push Not at hneither
    have hnil := (hst.shape a.1).movers hneither.1 hneither.2
    rw [hway, List.append_eq_nil_iff] at hnil
    exact hop hnil.1
  rcases delayedOf_ne_nil hop with ⟨p, rfl⟩ | ⟨p, rfl⟩
  · have hlfifo : s.queue .lfifo = st.shared.queue .lfifo := by
      rcases lfifo_exec hexec with ⟨p', heq, -⟩ | ⟨-, hlfifo⟩
      · cases heq
      · exact hlfifo
    rcases hmover with hconex | hnew
    · rw [hconex] at hops hmem hway
      have hnil := hst.alone p hmem
      rw [List.append_eq_nil_iff] at hnil
      simp only [enters, hconex, hops, line, hlfifo, hway, hnil.1, hnil.2, Function.update_self,
        Function.update_of_ne (show Tid.ltsNew ≠ .ltsConex by decide)]
      rfl
    · rw [hnew] at hops hway
      simp only [enters, hnew, hops, line, hlfifo, hway, Function.update_self,
        Function.update_of_ne (show Tid.ltsConex ≠ .ltsNew by decide)]
      rfl
  · have hconex := (hst.shape a.1).delays p hmem
    have hlfifo : s.queue .lfifo = st.shared.queue .lfifo ++ [p] := by
      rcases lfifo_exec hexec with ⟨p', heq, hlfifo⟩ | ⟨hne, -⟩
      · cases heq
        exact hlfifo
      · exact absurd rfl (hne p)
    rw [hconex] at hops hway
    simp only [enters, hconex, hops, line, hlfifo, hway, Function.update_self,
      Function.update_of_ne (show Tid.ltsNew ≠ .ltsConex by decide)]
    simp [delayedOf]

/-- A control step moves the line on within itself, or a new script joins it at its end. -/
theorem line_control {s : Shared} {th : Thread Operation Label}
    (hops : (st.thread a.1).ops = []) (h : Moves cfg st.shared a.1 (st.thread a.1).pc s th) :
    (line ⟨s, Function.update st.thread a.1 th⟩ = line st ∧ s.allocated = st.shared.allocated) ∨
      (line ⟨s, Function.update st.thread a.1 th⟩ = line st ++ [st.shared.allocated] ∧
        s.allocated = st.shared.allocated + 1) := by
  have hnil : onTheWay (st.thread a.1) = [] := by rw [onTheWay_ops, hops]; rfl
  by_cases hconex : a.1 = .ltsConex
  · rw [hconex] at h hnil ⊢
    have hlfifo := lfifo_control h (by decide)
    simp only [line, hlfifo, hnil, Function.update_self,
      Function.update_of_ne (show Tid.ltsNew ≠ .ltsConex by decide)]
    cases h with
    | ltsConex h =>
      rcases accepted_control h with ⟨hway, hallocated, -⟩ | ⟨hway, hallocated, -⟩
      · exact .inl ⟨by rw [hway], hallocated⟩
      · exact .inr ⟨by rw [hway, List.append_nil], hallocated⟩
  · refine .inl ⟨?_, allocated_control h hconex⟩
    by_cases hnew : a.1 = .ltsNew
    · rw [hnew] at h hnil ⊢
      simp only [line, hnil, Function.update_self,
        Function.update_of_ne (show Tid.ltsConex ≠ .ltsNew by decide)]
      generalize (st.thread .ltsNew).pc = pc₀ at h
      cases h with
      | @ltsNew p ps hqueue =>
        rw [hqueue]
        have hlfifo : (st.shared.setQueue .lfifo ps).queue .lfifo = ps := by
          simp [Shared.setQueue]
        rw [hlfifo]
        rfl
    · simp only [line, lfifo_control h hnew, Function.update_of_ne (Ne.symm hnew),
        Function.update_of_ne (Ne.symm hconex)]

theorem mem_onTheWay {p : Ptr} (h : .enqueue .lpn p ∈ th.ops) : p ∈ onTheWay th :=
  List.mem_flatMap.mpr ⟨_, h, List.mem_singleton_self p⟩

/-- Nobody puts a script into `LFIFO` or takes one out of it behind the back of `LTSconex`. -/
theorem nobody_next (h : next cfg st a = some st') (ha : a.1 ≠ .ltsConex)
    (hshape : ∀ t, WayShape t (st.thread t))
    (hst : onTheWay (st.thread .ltsNew) ++ st.shared.queue .lfifo = []) :
    onTheWay (st'.thread .ltsNew) ++ st'.shared.queue .lfifo = [] := by
  obtain ⟨hway, hqueue⟩ := List.append_eq_nil_iff.mp hst
  rw [List.append_eq_nil_iff]
  rcases shared_next h with ⟨op, ops, hops, hexec, hthreads⟩ | ⟨-, hmoves, hothers⟩
  · refine ⟨?_, ?_⟩
    · rw [onTheWay_eq_nil] at hway ⊢
      exact fun op hmem => hway op ((hthreads .ltsNew).2 hmem)
    · rcases lfifo_exec hexec with ⟨p, rfl, -⟩ | ⟨-, hlfifo⟩
      · refine absurd ((hshape a.1).delays p ?_) ha
        rw [hops]
        exact List.mem_cons_self
      · rw [hlfifo, hqueue]
  · by_cases hnew : a.1 = .ltsNew
    · rw [hnew] at hmoves
      generalize (st.thread .ltsNew).pc = pc₀ at hmoves
      generalize st'.thread .ltsNew = th at hmoves
      generalize st'.shared = s' at hmoves
      cases hmoves with
      | ltsNew hcons =>
        rw [hqueue] at hcons
        cases hcons
    · rw [hothers .ltsNew (Ne.symm hnew), lfifo_control hmoves hnew]
      exact ⟨hway, hqueue⟩

theorem alone_next (h : next cfg st a = some st') (ha : ¬ overtakes st a)
    (hst : InLine st entered) {p : Ptr} (hp : .enqueue .lpn p ∈ (st'.thread .ltsConex).ops) :
    onTheWay (st'.thread .ltsNew) ++ st'.shared.queue .lfifo = [] := by
  rcases thread_next h .ltsConex with ⟨hne, hth⟩ | ⟨op, ops, hconex, hthread, hexec, hth⟩ |
    ⟨hconex, hthread, hmoves⟩
  · exact nobody_next h hne hst.shape (hst.alone p (hth ▸ hp))
  · have hnew : st'.thread .ltsNew = st.thread .ltsNew :=
      Machine.thread_of_ne (next_eq_some h).2 (by rw [hconex]; decide)
    rw [hth] at hp
    have hnil := hst.alone p (by rw [hthread]; exact List.mem_cons_of_mem op hp)
    rcases lfifo_exec hexec with ⟨p', rfl, -⟩ | ⟨-, hlfifo⟩
    · have hone := (hst.shape .ltsConex).one
      rw [hthread, onTheWay_cons, List.length_append] at hone
      have hpos := List.length_pos_of_mem (mem_onTheWay hp)
      have htwo : (delayedOf (.enqueue .lfifo p')).length = 1 := rfl
      omega
    · rw [hnew, hlfifo]
      exact hnil
  · have hnew : st'.thread .ltsNew = st.thread .ltsNew :=
      Machine.thread_of_ne (next_eq_some h).2 (by rw [hconex]; decide)
    rw [hnew, lfifo_control hmoves (by decide)]
    generalize hpc : (st.thread .ltsConex).pc = pc₀ at hmoves hthread
    generalize st'.thread .ltsConex = th at hmoves hp
    generalize st'.shared = s' at hmoves
    cases hmoves with
    | ltsConex hmoves =>
      rcases accepted_control hmoves with
        ⟨-, -, hno⟩ | ⟨-, -, ⟨hsem, fd, data, priority, rfl⟩ | hno⟩
      · exact absurd hp (hno p)
      · rw [overtakes, hconex, hthread] at ha
        simpa [hsem] using ha
      · exact absurd hp (hno p)

theorem inLine_next (h : next cfg st a = some st') (ha : ¬ overtakes st a)
    (hst : InLine st entered) : InLine st' (entered ++ enters st a) := by
  have hshape := shape_next wayShape_tail (fun hmoves _ => wayShape_control hmoves) h hst.shape
  have halone := fun p => alone_next h ha hst (p := p)
  have hline : (entered ++ enters st a ++ line st' = entered ++ line st ∧
      st'.shared.allocated = st.shared.allocated) ∨
      (entered ++ enters st a ++ line st' = entered ++ line st ++ [st.shared.allocated] ∧
        st'.shared.allocated = st.shared.allocated + 1) := by
    rcases next_cases h with ⟨op, ops, s, hops, hexec, rfl⟩ | ⟨s, th, hops, hmoves, rfl⟩
    · refine .inl ⟨?_, (unwritten_exec hexec).allocated⟩
      rw [List.append_assoc]
      by_cases hop : delayedOf op = []
      · rw [line_idle hops hexec hop]
      · rw [line_mover hst hops hexec hop]
    · have henters : enters st a = [] := by simp [enters, hops]
      rw [henters, List.append_nil]
      rcases line_control hops hmoves with ⟨hline, hallocated⟩ | ⟨hline, hallocated⟩
      · exact .inl ⟨by rw [hline], hallocated⟩
      · exact .inr ⟨by rw [hline, List.append_assoc], hallocated⟩
  rcases hline with ⟨hline, hallocated⟩ | ⟨hline, hallocated⟩
  · refine ⟨hshape, hline ▸ hst.sorted, ?_, halone⟩
    rw [hline, hallocated]
    exact hst.accepted
  · refine ⟨hshape, ?_, ?_, halone⟩
    · rw [hline]
      refine List.pairwise_append.mpr
        ⟨hst.sorted, List.pairwise_singleton .., fun p hp p' hp' => ?_⟩
      rw [List.mem_singleton.mp hp']
      exact hst.accepted p hp
    · rw [hline, hallocated]
      intro p hp
      rcases List.mem_append.mp hp with hp | hp
      · exact (hst.accepted p hp).trans (Nat.lt_succ_self _)
      · rw [List.mem_singleton.mp hp]
        exact Nat.lt_succ_self _

end Steps

section Runs

variable {ALG : Algorithm} {priorities : QueueName → ℤ} {x : PP × List Ptr}

theorem inLine_start : InLine (start cfg ALG priorities) [] := by
  have hway : ∀ t, onTheWay (initialThread t) = [] := by
    intro t
    cases t <;> rfl
  have hline : line (start cfg ALG priorities) = [] := by
    simp [line, start, hway]
  refine ⟨wayShape_initial, ?_, ?_, ?_⟩
  · rw [hline]
    exact .nil
  · rw [hline]
    exact List.forall_mem_nil _
  · intro p hmem
    simp [start, initialThread, logWrite] at hmem

theorem inLine_run (h : RunsTo (nextEntered cfg) (fun x a => ¬ overtakes x.1 a)
    (start cfg ALG priorities, []) x) : InLine x.1 x.2 := by
  refine h.invariant (P := fun x => InLine x.1 x.2) inLine_start fun x a x' hx ha hnext => ?_
  obtain ⟨st, hst, rfl⟩ := Option.map_eq_some_iff.mp hnext
  exact inLine_next hst ha hx

/-- In every run in which `LTSconex` never gets a token for a new script while accepted ones still
wait for theirs, the scripts enter `LPN` in the order in which they were accepted, and none
enters while one accepted earlier has not. -/
theorem scripts_enter_in_order (cfg : Config) (ALG : Algorithm) (priorities : QueueName → ℤ)
    (x : PP × List Ptr) (h : RunsTo (nextEntered cfg) (fun x a => ¬ overtakes x.1 a)
      (start cfg ALG priorities, []) x) :
    x.2.Pairwise (· < ·) ∧ ∀ p ∈ x.2, ∀ p' ∈ line x.1, p < p' := by
  have hx := (inLine_run h).sorted
  rw [List.pairwise_append] at hx
  exact ⟨hx.1, hx.2.2⟩

def narrowConfig : Config := { smallConfig with MPS := 3, MMP := 1 }

def submitsDelayed (script : CString) : List Step := (submits script 0).dropLast

theorem scripts_enter_in_order_delayed : ∃ x : PP × List Ptr, x.2 = [0] ∧ line x.1 = [1, 2] ∧
    x.2.Pairwise (· < ·) ∧ ∀ p ∈ x.2, ∀ p' ∈ line x.1, p < p' := by
  have hrun : ((follow (nextEntered narrowConfig) (fun x a => !overtakes x.1 a)
      (start narrowConfig .fifo fun _ => 0, []) (goes .ltsConex 3 ++ submits idleScript 0 ++
        submitsDelayed idleScript ++ submitsDelayed idleScript)).any fun x =>
          x.2 == [0] && line x.1 == [1, 2]) = true := by
    decide +kernel
  obtain ⟨x, hx, hvalues⟩ := (Option.any_eq_true _ _).mp hrun
  simp only [Bool.and_eq_true, beq_iff_eq] at hvalues
  exact ⟨x, hvalues.1, hvalues.2, scripts_enter_in_order narrowConfig .fifo (fun _ => 0) x
    (RunsTo.of_follow (fun x a h => by simpa using h) _ hx)⟩

/-- The process that runs ends and returns its token; the next client arrives before `LTSnew` has
taken it for the script that waits. -/
theorem newcomer_overtakes : ¬ ∀ (cfg : Config) (ALG : Algorithm) (priorities : QueueName → ℤ)
    (x : PP × List Ptr), RunsTo (nextEntered cfg) (fun _ _ => True)
      (start cfg ALG priorities, []) x →
      x.2.Pairwise (· < ·) ∧ ∀ p ∈ x.2, ∀ p' ∈ line x.1, p < p' := by
  intro h
  have hrun : ((follow (nextEntered narrowConfig) (fun _ _ => true)
      (start narrowConfig .fifo fun _ => 0, []) (goes .ltsConex 3 ++ submits idleScript 0 ++
        submitsDelayed idleScript ++ goes .sts 19 ++ goes .procer 24 ++ submits idleScript 0)).any
          fun x => x.2 == [0, 2] && line x.1 == [1]) = true := by
    decide +kernel
  obtain ⟨x, hx, hvalues⟩ := (Option.any_eq_true _ _).mp hrun
  simp only [Bool.and_eq_true, beq_iff_eq] at hvalues
  obtain ⟨hentered, hline⟩ := hvalues
  have horder := (h narrowConfig .fifo (fun _ => 0) x
    (RunsTo.of_follow (fun _ _ _ => trivial) _ hx)).2 2 (by rw [hentered]; decide) 1
      (by rw [hline]; decide)
  exact absurd horder (by decide)

end Runs

end PP
end Sisop
