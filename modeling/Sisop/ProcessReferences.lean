import Sisop.ImageLedger

/-!
# Pointers to freed images

The lists and the blocking entries of `LPB` never hold an image that has been freed: the ledger
counts it once. A non-blocking entry shares its image with the processor; it is safe as long as
`PROCER` does not free an image that such an entry, or an I/O thread serving it, still refers to.
-/

namespace Sisop
namespace PP

variable {cfg : Config} {s s' : Shared} {pc : Label} {th : Thread Operation Label}

theorem LPB_exec {t : Tid} {op : Operation} (h : op.exec t s = some s') :
    s'.LPB = s.LPB ∨ ∃ e, op = .enqueueLPB e ∧ s'.LPB = s.LPB ++ [e] := by
  cases op with
  | lock m | unlock m | wait m =>
    simp only [Operation.exec] at h
    split_ifs at h
    cases h
    exact .inl rfl
  | enqueueLPB e =>
    cases h
    exact .inr ⟨e, rfl, rfl⟩
  | _ =>
    cases h
    exact .inl rfl

/-- Apart from the I/O threads nobody takes an entry. -/
theorem LPB_control {t : Tid} (h : Moves cfg s t pc s' th) : s'.LPB ⊆ s.LPB := by
  cases h with
  | ltsConex h => cases h <;> exact List.Subset.refl _
  | sts h =>
    cases h with
    | orderInsert h => cases h <;> exact List.Subset.refl _
    | _ => exact List.Subset.refl _
  | configure h =>
    cases h with
    | orderInsert h => cases h <;> exact List.Subset.refl _
    | _ => exact List.Subset.refl _
  | procer h => cases h <;> exact List.Subset.refl _
  | ioThread i hLPB =>
    rw [hLPB]
    exact List.subset_cons_self _ _
  | _ => exact List.Subset.refl _

/-- Only `PROCER` makes requests, while it runs a script, and only it frees images, between two
of them. -/
structure RequestShape (t : Tid) (th : Thread Operation Label) : Prop where
  requests : ∀ e, .enqueueLPB e ∈ th.ops → t = .procer ∧ th.pc ≠ .popReady
  frees : ∀ p, .freeImage p ∈ th.ops → t = .procer ∧ th.pc = .popReady

theorem requestShape_tail (t : Tid) (pc : Label) (op : Operation) (ops : List Operation)
    (h : RequestShape t ⟨pc, op :: ops⟩) : RequestShape t ⟨pc, ops⟩ :=
  ⟨fun e hmem => h.requests e (List.mem_cons_of_mem _ hmem),
    fun p hmem => h.frees p (List.mem_cons_of_mem _ hmem)⟩

def Harmless (ops : List Operation) : Prop :=
  (∀ e, .enqueueLPB e ∉ ops) ∧ ∀ p, .freeImage p ∉ ops

theorem Harmless.requestShape {t : Tid} (h : Harmless th.ops) : RequestShape t th :=
  ⟨fun e hmem => absurd hmem (h.1 e), fun p hmem => absurd hmem (h.2 p)⟩

theorem harmless_orderInsert (h : OrderInsert.Moves s pc s' th) : Harmless th.ops := by
  cases h with
  | finish key caller => cases caller <;> simp [Harmless, OrderInsert.finish, STS.wait]
  | _ => simp [Harmless]

theorem harmless_sts (h : STS.Moves s pc s' th) : Harmless th.ops := by
  cases h with
  | orderInsert h => exact harmless_orderInsert h
  | endRound kind => cases kind <;> simp [Harmless, STS.endRound, STS.wait]
  | pop kind => cases kind <;> simp [Harmless, STS.takeOver, logWrite, enqueueLocked]
  | _ => simp [Harmless, STS.startRound]

theorem harmless_configure (h : Configure.Moves s pc s' th) : Harmless th.ops := by
  cases h with
  | orderInsert h => exact harmless_orderInsert h
  | setALG ALG => cases ALG <;> simp [Harmless, Configure.afterALG]
  | _ => simp [Harmless]

theorem harmless_dispatch (p : Ptr) (image : TProcessImage) :
    Harmless (PROCER.dispatch p (Exec.enter image).2) := by
  rw [PROCER.dispatch, Exec.enter]
  unfold Exec.stackExecution
  split <;> simp [Harmless, logWrite]

theorem requestShape_procer (h : PROCER.Moves cfg s pc s' th) : RequestShape .procer th := by
  cases h with
  | @pop p ps code => exact (harmless_dispatch p (s.image p)).requestShape
  | run _ hmoves =>
    refine ⟨fun e _ => ⟨rfl, by simp⟩, fun p hmem => ?_⟩
    cases hmoves.scriptOperation _ hmem
  | _ =>
    refine ⟨fun e hmem => ?_, fun p _ => ⟨rfl, rfl⟩⟩
    simp [PROCER.finished, PROCER.suspended, PROCER.endOfQuantum, PROCER.wait, logWrite, sendMsg,
      enqueueForSTS] at hmem

theorem requestShape_control {t : Tid} (h : Moves cfg s t pc s' th) : RequestShape t th := by
  cases h with
  | ltsConex h =>
    apply Harmless.requestShape
    cases h <;> simp [Harmless, LTSconex.refuse, LTSconex.admission, LTSconex.delay,
      LTSconex.notRestored, LTSconex.resume, logWrite, enqueueForSTS, enqueueLocked, writeText]
  | ltsNew =>
    apply Harmless.requestShape
    simp [Harmless, LTSnew.deliver, LTSnew.wait, logWrite, enqueueForSTS]
  | sts h => exact (harmless_sts h).requestShape
  | configure h => exact (harmless_configure h).requestShape
  | procer h => exact requestShape_procer h
  | raise => exact ⟨by simp, by simp⟩
  | @ioThread i ioProcessing LPB =>
    apply Harmless.requestShape
    cases hflag : ioProcessing.ioInfo.flagNonBlocking <;>
      simp [Harmless, IoThread.serve, IoThread.wait, logWrite, enqueueForSTS, hflag]

theorem requestShape_initial (t : Tid) : RequestShape t (initialThread t) := by
  apply Harmless.requestShape
  cases t <;> simp [Harmless, initialThread, logWrite, LTSnew.wait, STS.wait, PROCER.wait,
    IoThread.wait]

/-- Apart from the ends of a loop or a count, only a dispatch that has not blocked leaves
operations behind. -/
theorem running_of_output {code : List CString} {quantum : ℤ} {self : Ptr} {env : Env}
    {e e' : Exec} {ops : List Operation} {events : List Event} {op : Operation}
    (h : Exec.Moves code quantum self env e e' ops events) (he : e.Sound code) (hmem : op ∈ ops)
    (hlog : op ≠ .logDestroy) (halg : op ≠ .unlock .alg) : e.ioBlockInterrupt = false := by
  cases h with
  | returns | leaves => exact absurd (List.mem_singleton.mp hmem) hlog
  | counts => exact absurd (List.mem_singleton.mp hmem) halg
  | resumes _ _ _ _ hkeep | runsLine _ _ _ _ _ hkeep | runsFunctionLine _ _ _ _ hkeep =>
    exact (Exec.io_of_keepsRunning hkeep).2.1
  | asksPool hpoint | asksPoolInFunction hpoint => exact he.pool hpoint

section Runs

variable {ok : PP → Step → Prop} {st st' : PP} {a : Step} {ALG : Algorithm}
  {priorities : QueueName → ℤ}

/-- Every pointer that somebody will still follow. -/
def Referenced (cfg : Config) (st : PP) (p : Ptr) : Prop :=
  (∃ q, p ∈ st.shared.queue q) ∨ p ∈ st.shared.LPS ∨
    (∃ e ∈ st.shared.LPB, e.processImage = p) ∨
    ∃ i < cfg.IO_THREADS, .readImage p ∈ (st.thread (.ioThread i)).ops

/-- `PROCER` frees an image that a non-blocking request, in `LPB` or in the hands of an I/O
thread, refers to. -/
def freesReferenced (cfg : Config) (st : PP) (a : Step) : Bool :=
  match (st.thread a.1).ops with
  | .freeImage p :: _ =>
    st.shared.LPB.any (fun e => e.ioInfo.flagNonBlocking && e.processImage == p) ||
      (List.range cfg.IO_THREADS).any fun i =>
        (st.thread (.ioThread i)).ops.contains (.readImage p)
  | _ => false

structure NotDangling (cfg : Config) (st : PP) : Prop where
  nonBlocking : ∀ e ∈ st.shared.LPB, e.ioInfo.flagNonBlocking = true →
    e.processImage ∉ st.shared.freed
  served : ∀ i < cfg.IO_THREADS, ∀ p, .readImage p ∈ (st.thread (.ioThread i)).ops →
    p ∉ st.shared.freed
  requested : ∀ e, .enqueueLPB e ∈ (st.thread .procer).ops → e.processImage ∉ st.shared.freed

theorem stored_pos {p : Ptr} (h : (∃ q, p ∈ s.queue q) ∨ p ∈ s.LPS ∨ p ∈ blockingEntries s.LPB) :
    0 < stored p s := by
  rcases h with ⟨q, hq⟩ | hLPS | hLPB
  · have hpos := List.count_pos_iff.mpr hq
    cases q <;> simp only [stored] <;> omega
  · have hpos := List.count_pos_iff.mpr hLPS
    simp only [stored]
    omega
  · have hpos := List.count_pos_iff.mpr hLPB
    simp only [stored]
    omega

theorem mem_blockingEntries {e : TIoProcessing} {LPB : List TIoProcessing} (h : e ∈ LPB)
    (hflag : e.ioInfo.flagNonBlocking = false) : e.processImage ∈ blockingEntries LPB :=
  List.mem_map_of_mem (List.mem_filter.mpr ⟨h, by simp [hflag]⟩)

/-- Every entry of `LPB`, blocking or not, refers to an image not freed. -/
theorem entry_not_freed (h : RunsTo (next cfg) ok (start cfg ALG priorities) st)
    (hst : NotDangling cfg st) {e : TIoProcessing} (he : e ∈ st.shared.LPB) :
    e.processImage ∉ st.shared.freed := by
  cases hflag : e.ioInfo.flagNonBlocking with
  | true => exact hst.nonBlocking e he hflag
  | false =>
    exact (live_of_place h (.inl (stored_pos (.inr (.inr (mem_blockingEntries he hflag)))))).2

theorem entry_next (h : next cfg st a = some st') {e : TIoProcessing} (he : e ∈ st'.shared.LPB) :
    e ∈ st.shared.LPB ∨ ∃ ops, (st.thread a.1).ops = .enqueueLPB e :: ops := by
  rcases shared_next h with ⟨op, ops, hops, hexec, -⟩ | ⟨-, hmoves, -⟩
  · rcases LPB_exec hexec with heq | ⟨e', rfl, heq⟩
    · exact .inl (heq ▸ he)
    · rw [heq, List.mem_append, List.mem_singleton] at he
      exact he.imp_right fun (heq : e = e') => ⟨ops, heq ▸ hops⟩
  · exact .inl (LPB_control hmoves he)

theorem served_next (h : next cfg st a = some st') {i : ℕ} {p : Ptr}
    (hp : .readImage p ∈ (st'.thread (.ioThread i)).ops) :
    .readImage p ∈ (st.thread (.ioThread i)).ops ∨
      (st.thread a.1).ops = [] ∧ ∃ e ∈ st.shared.LPB, e.processImage = p := by
  rcases thread_next h (.ioThread i) with ⟨-, hth⟩ | ⟨op, ops, -, hthread, -, hth⟩ |
    ⟨ha, hthread, hmoves⟩
  · exact .inl (hth ▸ hp)
  · rw [hth] at hp
    rw [hthread]
    exact .inl (List.mem_cons_of_mem _ hp)
  · refine .inr ⟨by rw [ha, hthread], ?_⟩
    generalize st'.thread (.ioThread i) = th at hp hmoves
    generalize (st.thread (.ioThread i)).pc = pc at hmoves
    generalize st'.shared = s' at hmoves
    cases hmoves with
    | @ioThread _ ioProcessing LPB hLPB =>
      refine ⟨ioProcessing, by rw [hLPB]; exact List.mem_cons_self, ?_⟩
      cases hflag : ioProcessing.ioInfo.flagNonBlocking <;>
        simp [IoThread.serve, hflag, logWrite, enqueueForSTS, IoThread.wait] at hp <;>
        exact hp.symm

theorem requested_next (h : next cfg st a = some st') (hst : ProcessorSound st)
    {e : TIoProcessing} (he : .enqueueLPB e ∈ (st'.thread .procer).ops) :
    .enqueueLPB e ∈ (st.thread .procer).ops ∨ (st.thread a.1).ops = [] ∧
      0 < (imageCount e.processImage).thread (st.thread .procer) := by
  rcases thread_next h .procer with ⟨-, hth⟩ | ⟨op, ops, -, hthread, -, hth⟩ |
    ⟨ha, hthread, hmoves⟩
  · exact .inl (hth ▸ he)
  · rw [hth] at he
    rw [hthread]
    exact .inl (List.mem_cons_of_mem _ he)
  · refine .inr ⟨by rw [ha, hthread], ?_⟩
    generalize hth : st'.thread .procer = th at he hmoves
    generalize hpc : (st.thread .procer).pc = pc at hmoves
    generalize st'.shared = s' at hmoves
    cases hmoves with
    | procer hmoves =>
      cases hmoves with
      | @pop p ps code => exact absurd he ((harmless_dispatch p (st.shared.image p)).1 e)
      | run _ hmoves =>
        have hio := running_of_output hmoves (hst.runs _ _ _ hpc).sound he (by simp) (by simp)
        rw [Ledger.thread, hpc, imageCount_running hio]
        cases hmoves.scriptOperation _ he
        simp
      | _ =>
        simp [PROCER.finished, PROCER.suspended, PROCER.endOfQuantum, PROCER.wait, logWrite,
          sendMsg, enqueueForSTS] at he

theorem notDangling_next (hrun : RunsTo (next cfg) (fun _ _ => True) (start cfg ALG priorities) st)
    (h : next cfg st a = some st') (ha : ¬ freesReferenced cfg st a)
    (hshape : ∀ t, RequestShape t (st.thread t)) (hst : NotDangling cfg st) :
    NotDangling cfg st' := by
  refine ⟨fun e he hflag => ?_, fun i hi p hp => ?_, fun e he => ?_⟩
  · rcases entry_next h he with hmem | ⟨ops, hops⟩
    · refine not_freed_next h (hst.nonBlocking e hmem hflag) fun ops hops => ha ?_
      rw [freesReferenced, hops]
      simp only [Bool.or_eq_true, List.any_eq_true]
      exact .inl ⟨e, hmem, by simp [hflag]⟩
    · have hprocer := ((hshape a.1).requests e (by rw [hops]; exact List.mem_cons_self)).1
      refine not_freed_next h (hst.requested e ?_) fun ops' hops' => ?_
      · rw [← hprocer, hops]
        exact List.mem_cons_self
      · rw [hops] at hops'
        cases hops'
  · rcases served_next h hp with hmem | ⟨hops, e, he, rfl⟩
    · refine not_freed_next h (hst.served i hi p hmem) fun ops hops => ha ?_
      rw [freesReferenced, hops]
      simp only [Bool.or_eq_true, List.any_eq_true]
      exact .inr ⟨i, List.mem_range.mpr hi, by simpa using hmem⟩
    · refine not_freed_next h (entry_not_freed hrun hst he) fun ops' hops' => ?_
      rw [hops] at hops'
      cases hops'
  · rcases requested_next h (processorSound_run hrun) he with hmem | ⟨hops, hplace⟩
    · refine not_freed_next h (hst.requested e hmem) fun ops hops => ?_
      obtain ⟨hprocer, hpc⟩ := (hshape a.1).frees _ (by rw [hops]; exact List.mem_cons_self)
      rw [hprocer] at hpc
      exact ((hshape .procer).requests e hmem).2 hpc
    · refine not_freed_next h ?_ fun ops' hops' => ?_
      · exact (live_of_place hrun (.inr ⟨.procer, by simp [Config.threads], hplace⟩)).2
      · rw [hops] at hops'
        cases hops'

theorem notDangling_run
    (h : RunsTo (next cfg) (fun st a => ¬ freesReferenced cfg st a) (start cfg ALG priorities)
      st) : NotDangling cfg st := by
  refine (h.invariant (P := fun st => RunsTo (next cfg) (fun _ _ => True)
    (start cfg ALG priorities) st ∧ (∀ t, RequestShape t (st.thread t)) ∧ NotDangling cfg st)
    ⟨.start, requestShape_initial, ⟨by simp [start], ?_, ?_⟩⟩ fun st a st' hst ha hnext => ?_).2.2
  · intro i _ p hp
    simp [start, initialThread, IoThread.wait] at hp
  · intro e he
    simp [start, initialThread, PROCER.wait] at he
  · obtain ⟨hrun, hshape, hdangling⟩ := hst
    exact ⟨hrun.step a trivial hnext,
      shape_next requestShape_tail (fun hmoves _ => requestShape_control hmoves) hnext hshape,
      notDangling_next hrun hnext ha hshape hdangling⟩

/-- In every run in which `PROCER` never frees an image that a non-blocking request refers to, no
list, no entry of `LPB` and no I/O thread refers to a freed image. -/
theorem no_dangling_references (cfg : Config) (ALG : Algorithm) (priorities : QueueName → ℤ)
    (st : PP) (h : RunsTo (next cfg) (fun st a => ¬ freesReferenced cfg st a)
      (start cfg ALG priorities) st) (p : Ptr) (hp : Referenced cfg st p) :
    p ∉ st.shared.freed := by
  have hst := notDangling_run h
  rcases hp with hqueue | hLPS | ⟨e, he, rfl⟩ | ⟨i, hi, hread⟩
  · exact (live_of_place h (.inl (stored_pos (.inl hqueue)))).2
  · exact (live_of_place h (.inl (stored_pos (.inr (.inl hLPS))))).2
  · exact entry_not_freed h hst he
  · exact hst.served i hi p hread

theorem no_dangling_references_admitted : ∃ (st : PP) (p : Ptr), Referenced smallConfig st p ∧
    p ∉ st.shared.freed := by
  have hrun : ((follow (next smallConfig) (fun st a => !freesReferenced smallConfig st a)
      (start smallConfig .pri fun _ => 0) (goes .ltsConex 3 ++ submits idleScript 0)).any
        fun st => st.shared.queue .lpn == [0]) = true := by
    decide +kernel
  obtain ⟨st, hst, hqueue⟩ := (Option.any_eq_true _ _).mp hrun
  have hp : Referenced smallConfig st 0 := by
    refine .inl ⟨.lpn, ?_⟩
    rw [beq_iff_eq.mp hqueue]
    exact List.mem_singleton_self 0
  exact ⟨st, 0, hp, no_dangling_references smallConfig .pri (fun _ => 0) st
    (RunsTo.of_follow (fun st a h => by simpa using h) _ hst) 0 hp⟩

def unattendedScript : CString := cstr "comienzo_programa\nio(5,0)\nfin_programa"

/-- The script ends before an I/O thread has taken its request. -/
theorem request_outlives_process : ¬ ∀ (cfg : Config) (ALG : Algorithm)
    (priorities : QueueName → ℤ) (st : PP),
    RunsTo (next cfg) (fun _ _ => True) (start cfg ALG priorities) st →
      ∀ p, Referenced cfg st p → p ∉ st.shared.freed := by
  intro h
  have hrun : ((follow (next smallConfig) (fun _ _ => true)
      (start smallConfig .fifo fun _ => 0) (goes .ltsConex 3 ++ submits unattendedScript 0 ++
        goes .sts 19 ++ goes .procer 31)).any fun st =>
          st.shared.LPB == [⟨0, 5, true⟩] && st.shared.freed == [0]) = true := by
    decide +kernel
  obtain ⟨st, hst, hvalues⟩ := (Option.any_eq_true _ _).mp hrun
  simp only [Bool.and_eq_true, beq_iff_eq] at hvalues
  obtain ⟨hLPB, hfreed⟩ := hvalues
  refine h smallConfig .fifo (fun _ => 0) st (RunsTo.of_follow (fun _ _ _ => trivial) _ hst) 0
    (.inr (.inr (.inl ⟨⟨0, 5, true⟩, ?_, rfl⟩))) ?_
  · rw [hLPB]
    exact List.mem_singleton_self _
  · rw [hfreed]
    exact List.mem_singleton_self 0

end Runs

end PP
end Sisop
