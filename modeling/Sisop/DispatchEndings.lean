import Sisop.ProcessConservation

/-!
# How a dispatch ends

With a quantum of at least one the cascade of `PROCER` always finds one of its four cases. The
counter only moves while `ALG` is `RR`, so a dispatch that ends with its quantum has seen `RR`.
Each case has a place of its own for the image, and `PROCER` does not wait for the next one before
the image is there.
-/

namespace Sisop

namespace Exec

variable {code : List CString} {quantum : ℤ} {self : Ptr} {env : Env}

theorem Moves.quantumCount {e e' : Exec} {ops : List Operation} {events : List Event}
    (h : Moves code quantum self env e e' ops events) (hrr : env.rr = false) :
    e'.quantumCount = e.quantumCount := by
  cases h with
  | returns | asksPool | asksPoolInFunction => rfl
  | resumes =>
    obtain ⟨stack, elements, heq⟩ := stackExecution_eq e
    rw [heq]
    rfl
  | @leaves element rest line =>
    obtain ⟨stack, elements, heq⟩ :=
      leaveFunction_eq (isFinFuncion line element.functionName) element rest e
    rw [heq]
    rfl
  | runsLine _ _ _ _ _ _ _ _ hrun | runsFunctionLine _ _ _ _ _ _ _ hrun =>
    obtain ⟨f, -, rfl⟩ | ⟨-, rfl⟩ | ⟨elements, rfl⟩ := runLine_eq hrun <;> rfl
  | counts => simp [algStep, hrr]

end Exec

namespace PROCER

inductive Ending where
  | finished | blocked | suspended | endOfQuantum
  deriving DecidableEq, Repr

def ending (cfg : Config) (s : Shared) (code : List CString) (e : Exec) : Option Ending :=
  if e.atFinPrograma code then some .finished
  else if e.ioBlockInterrupt then some .blocked
  else if s.SUSPEND then some .suspended
  else if (e.quantumCount : ℤ) = cfg.quantum then some .endOfQuantum
  else none

/-- The operation that hands the image over. A process that blocks has been handed over before. -/
def Ending.handsOver (p : Ptr) : Ending → List Operation
  | .finished => [.freeImage p]
  | .blocked => []
  | .suspended => [.addLPS p]
  | .endOfQuantum => [.enqueue .lfq p]

def Ending.Left (p : Ptr) (s : Shared) : Ending → Prop
  | .finished => p ∈ s.freed
  | .blocked => p ∈ PP.blockingEntries s.LPB
  | .suspended => p ∈ s.LPS
  | .endOfQuantum => p ∈ s.queue .lfq

theorem cascade_of_ending {cfg : Config} {s : Shared} {p : Ptr} {code : List CString} {e : Exec}
    {ending' : Ending} (h : ending cfg s code e = some ending') :
    (cascade cfg s p code e).2.ops.filter (fun op => PP.imagesOf op ≠ []) =
      ending'.handsOver p := by
  unfold ending at h
  unfold cascade
  split_ifs at h ⊢ <;> cases h <;>
    simp [finished, suspended, endOfQuantum, wait, logWrite, sendMsg, enqueueForSTS, PP.imagesOf,
      Ending.handsOver]

/-- An operation of the case puts the image where it is left. -/
theorem Ending.left_exec {ending : Ending} {p : Ptr} {t : Tid} {s s' : Shared} {op : Operation}
    (hop : op ∈ ending.handsOver p) (h : op.exec t s = some s') : ending.Left p s' := by
  cases ending with
  | blocked => cases hop
  | finished | suspended | endOfQuantum =>
    obtain rfl := List.mem_singleton.mp hop
    cases h
    simp [Ending.Left, Shared.post, Shared.setQueue]

theorem quantumCount_of_ending {cfg : Config} {s : Shared} {code : List CString} {e : Exec}
    (h : ending cfg s code e = some .endOfQuantum) : (e.quantumCount : ℤ) = cfg.quantum := by
  by_contra hcount
  unfold ending at h
  rw [if_neg hcount] at h
  split_ifs at h <;> cases h

theorem blocks_of_ending {cfg : Config} {s : Shared} {code : List CString} {e : Exec}
    (h : ending cfg s code e = some .blocked) : e.ioBlockInterrupt = true := by
  unfold ending at h
  split_ifs at h with hfin hio <;> cases h
  exact hio

/-- What the cascade still has to do hands the image over, unless it has been before. -/
theorem pending_of_ending {cfg : Config} {s : Shared} {p : Ptr} {code : List CString} {e : Exec}
    {ending' : Ending} (h : ending cfg s code e = some ending') (hne : ending' ≠ .blocked) :
    ∃ op ∈ ending'.handsOver p, op ∈ (cascade cfg s p code e).2.ops := by
  have hsubset : ∀ op ∈ ending'.handsOver p, op ∈ (cascade cfg s p code e).2.ops := by
    intro op hop
    rw [← cascade_of_ending h] at hop
    exact List.mem_of_mem_filter hop
  cases ending' with
  | blocked => exact absurd rfl hne
  | finished | suspended | endOfQuantum =>
    exact ⟨_, List.mem_singleton_self _, hsubset _ (List.mem_singleton_self _)⟩

theorem notMem_wait {ending : Ending} {p : Ptr} {op : Operation} (h : op ∈ ending.handsOver p) :
    op ∉ wait := by
  cases ending with
  | blocked => cases h
  | finished | suspended | endOfQuantum =>
    obtain rfl := List.mem_singleton.mp h
    simp [wait]

theorem ending_isSome {cfg : Config} {s : Shared} {code : List CString} {e : Exec}
    (h : e.atFinPrograma code = true ∨ e.ioBlockInterrupt = true ∨
      (e.quantumCount : ℤ) = cfg.quantum ∨ s.SUSPEND = true) : (ending cfg s code e).isSome := by
  unfold ending
  split_ifs with hfin hio hsuspend hcount
  · rfl
  · rfl
  · rfl
  · rfl
  · simp [hfin, hio, hsuspend, hcount] at h

end PROCER

namespace PP

variable {cfg : Config}

def dispatching (st : PP) : Bool :=
  match (st.thread .procer).pc with
  | .execute _ _ _ => true
  | _ => false

theorem dispatching_of_execute {st : PP} {p : Ptr} {code : List CString} {e : Exec}
    (h : (st.thread .procer).pc = .execute p code e) : dispatching st = true := by
  rw [dispatching, h]

def dispatch (before : List PP) (st : PP) : List PP := (st :: before).takeWhile dispatching

section Runs

variable {st st' st₁ : PP} {a : Step} {before after : List PP}

theorem dispatch_cons (h : dispatching st' = true) (st : PP) (before : List PP) :
    dispatch (st :: before) st' = st' :: dispatch before st := by
  rw [dispatch, List.takeWhile_cons_of_pos h, dispatch]

theorem mem_dispatch_self (h : dispatching st = true) : st ∈ dispatch before st := by
  rw [dispatch, List.takeWhile_cons_of_pos h]
  exact List.mem_cons_self

/-- What the states of the dispatch under way show of the image run. -/
structure Shown (th : Thread Operation Label) (during : List PP) (p : Ptr) (e : Exec) : Prop where
  rr : 0 < e.quantumCount → ∃ st ∈ during, st.shared.ALG = .rr
  blocked : e.ioBlockInterrupt = true →
    p ∈ th.ops.flatMap imagesOf ∨ ∃ st ∈ during, p ∈ blockingEntries st.shared.LPB
  requests : ∀ op ∈ th.ops, imagesOf op = [] ∨ ∃ entry, op = .enqueueLPB entry
  returned : e.point = .returned → th.ops.flatMap imagesOf = []

theorem Shown.mono {th : Thread Operation Label} {during during' : List PP} {p : Ptr} {e : Exec}
    (h : Shown th during p e) (hsub : during ⊆ during') : Shown th during' p e :=
  ⟨fun hcount => (h.rr hcount).imp fun _ hst => ⟨hsub hst.1, hst.2⟩,
    fun hio => (h.blocked hio).imp_right fun hst => hst.imp fun _ hst => ⟨hsub hst.1, hst.2⟩,
    h.requests, h.returned⟩

/-- A request that blocks hands the image over to `LPB`. -/
theorem Shown.exec {pc : Label} {op : Operation} {ops : List Operation} {during : List PP}
    {p : Ptr} {e : Exec} (h : Shown ⟨pc, op :: ops⟩ during p e)
    (hexec : op.exec .procer st.shared = some st'.shared) :
    Shown ⟨pc, ops⟩ (st' :: during) p e := by
  refine ⟨(h.mono (List.subset_cons_self ..)).rr, fun hio => ?_,
    fun op' hmem => h.requests op' (List.mem_cons_of_mem _ hmem), fun hreturned => ?_⟩
  · rcases h.blocked hio with hpending | ⟨st₁, hst₁, hp⟩
    · rw [List.flatMap_cons, List.mem_append] at hpending
      rcases hpending with hp | hp
      · rcases h.requests op List.mem_cons_self with hnil | ⟨entry, rfl⟩
        · rw [hnil] at hp
          cases hp
        · refine .inr ⟨st', List.mem_cons_self, ?_⟩
          have hLPB : st'.shared.LPB = st.shared.LPB ++ [entry] := by
            rw [← Option.some.inj hexec]
            rfl
          rw [hLPB, blockingEntries_append, blockingEntries_cons]
          exact List.mem_append_right _ (List.mem_append_left _ hp)
      · exact .inl hp
    · exact .inr ⟨st₁, List.mem_cons_of_mem _ hst₁, hp⟩
  · exact (List.append_eq_nil_iff.mp (h.returned hreturned)).2

theorem requests_of_script {self : Ptr} {clientfd : ℕ} {ops : List Operation}
    (h : ∀ op ∈ ops, ScriptOperation self clientfd op) :
    ∀ op ∈ ops, imagesOf op = [] ∨ ∃ entry, op = .enqueueLPB entry := by
  intro op hmem
  cases h op hmem with
  | request ioInfo => exact .inr ⟨_, rfl⟩
  | _ => exact .inl rfl

theorem shown_enter (during : List PP) (p : Ptr) (code : List CString) (image : TProcessImage) :
    Shown ⟨.execute p code (Exec.enter image).1, PROCER.dispatch p (Exec.enter image).2⟩ during p
      (Exec.enter image).1 := by
  obtain ⟨stack, elements, heq⟩ := Exec.stackExecution_eq (Exec.atEntry image)
  refine ⟨fun hcount => ?_, fun hio => ?_, fun op hmem => ?_, fun hreturned => ?_⟩
  · rw [enter_quantumCount] at hcount
    exact absurd hcount (Nat.lt_irrefl 0)
  · rw [Exec.enter, heq] at hio
    cases hio
  · rcases List.mem_append.mp hmem with hmem | hmem
    · refine .inl ?_
      simp only [logWrite, List.mem_append, List.mem_cons, List.not_mem_nil, or_false] at hmem
      rcases hmem with ((rfl | rfl) | rfl | rfl) | rfl <;> rfl
    · exact requests_of_script (Exec.enter_scriptOperation p 0 image) op hmem
  · rw [enter_point] at hreturned
    cases hreturned

/-- A step of the interpreter in a state that shows what it has done before. -/
theorem Shown.run {p : Ptr} {code : List CString} {e e' : Exec} {ops : List Operation}
    {events : List Event} {during : List PP} (h : Shown ⟨.execute p code e, []⟩ during p e)
    (hsound : e.Sound code) (hst : st ∈ during)
    (hmoves : Exec.Moves code cfg.quantum p st.shared.env e e' ops events) :
    Shown ⟨.execute p code e', ops⟩ during p e' := by
  refine ⟨fun hcount => ?_, fun hio' => ?_, requests_of_script hmoves.scriptOperation,
    fun hreturned => ?_⟩
  · by_cases hALG : st.shared.ALG = .rr
    · exact ⟨st, hst, hALG⟩
    · exact h.rr (hmoves.quantumCount (by simpa [Shared.env] using hALG) ▸ hcount)
  · cases hio : e.ioBlockInterrupt with
    | true => exact .inr ((h.blocked hio).resolve_left List.not_mem_nil)
    | false =>
      have hcount := (imageCount_weighs p p).interpreter hmoves hsound
      rw [imageCount_running hio, imageCount_thread, inHands] at hcount
      have hnil : imagesAt (.execute p code e') = [] := if_pos hio'
      rw [hnil, List.count_nil, zero_add, List.count_singleton_self] at hcount
      exact .inl (List.count_pos_iff.mp (hcount ▸ Nat.zero_lt_one))
  · rw [(hmoves.of_returned hreturned).2.1]
    rfl

def ShownSoFar (before : List PP) (st : PP) : Prop :=
  ∀ p code e, (st.thread .procer).pc = .execute p code e →
    Shown (st.thread .procer) (dispatch before st) p e

theorem shownSoFar_next {ok : PP → Step → Prop} {ALG : Algorithm} {priorities : QueueName → ℤ}
    (hrun : RunsTo (next cfg) ok (start cfg ALG priorities) st)
    (hnext : next cfg st a = some st') (h : ShownSoFar before st) :
    ShownSoFar (st :: before) st' := by
  intro p code e hpc
  have hdispatch := dispatch_cons (dispatching_of_execute hpc) st before
  rcases thread_next hnext .procer with ⟨-, hth⟩ | ⟨op, ops, -, hthread, hexec, hth⟩ |
    ⟨-, hthread, hmoves⟩
  · rw [hth] at hpc ⊢
    rw [hdispatch]
    exact (h p code e hpc).mono (List.subset_cons_self ..)
  · rw [hth] at hpc ⊢
    have hshown := h p code e hpc
    rw [hthread] at hshown
    rw [hdispatch]
    exact hshown.exec hexec
  · have hsound := (processorSound_run hrun).runs
    generalize hth' : st'.thread .procer = th at hpc hmoves
    generalize hpc' : (st.thread .procer).pc = pc at hthread hmoves
    generalize st'.shared = s' at hmoves
    cases hmoves with
    | procer hmoves =>
      cases hmoves with
      | pop =>
        cases hpc
        exact shown_enter _ p code _
      | @run p' code' e₀ e' ops events _ hmoves =>
        cases hpc
        have hshown := h _ _ _ hpc'
        rw [hthread] at hshown
        have hst : st ∈ dispatch before st := mem_dispatch_self (dispatching_of_execute hpc')
        rw [hdispatch]
        exact (hshown.run (hsound _ _ _ hpc').sound hst hmoves).mono (List.subset_cons_self ..)
      | _ => cases hpc

theorem shownSoFar_run {ok : PP → Step → Prop} {ALG : Algorithm} {priorities : QueueName → ℤ}
    (h : RunsThrough (next cfg) ok (start cfg ALG priorities) before st) :
    ShownSoFar before st := by
  refine h.invariant (P := ShownSoFar) (fun p code e hpc => ?_)
    fun before st a st' hrun hshown _ hnext => shownSoFar_next hrun.runsTo hnext hshown
  cases hpc

/-- Once `PROCER` has no more of the operation to carry out, the image has been put. -/
theorem left_of_run {ending : PROCER.Ending} {p : Ptr} {op : Operation}
    (hop : op ∈ ending.handsOver p) (hpending : op ∈ (st.thread .procer).ops)
    (h : RunsThrough (next cfg) (fun _ _ => True) st after st') :
    op ∈ (st'.thread .procer).ops ∨ ∃ st₁ ∈ st' :: after, ending.Left p st₁.shared := by
  refine h.invariant (P := fun after st' => op ∈ (st'.thread .procer).ops ∨
    ∃ st₁ ∈ st' :: after, ending.Left p st₁.shared) (.inl hpending)
    fun after st a st' _ hst _ hnext => ?_
  rcases hst with hpending | ⟨st₁, hst₁, hleft⟩
  · rcases thread_next hnext .procer with ⟨-, hth⟩ | ⟨op', ops, -, hthread, hexec, hth⟩ |
      ⟨-, hthread, -⟩
    · rw [hth]
      exact .inl hpending
    · rw [hthread] at hpending
      rw [hth]
      rcases List.mem_cons.mp hpending with rfl | hpending
      · exact .inr ⟨st', List.mem_cons_self, ending.left_exec hop hexec⟩
      · exact .inl hpending
    · rw [hthread] at hpending
      cases hpending
  · exact .inr ⟨st₁, List.mem_cons_of_mem _ hst₁, hleft⟩

/-- The case that a dispatch ends in. `blocked` has put the image into `LPB` in the dispatch
itself; the others put it where they leave it before `PROCER` waits for the next one. -/
structure EndsIn (cfg : Config) (before : List PP) (st : PP) (p : Ptr) (code : List CString)
    (e : Exec) (ending : PROCER.Ending) : Prop where
  taken : PROCER.ending cfg st.shared code e = some ending
  handsOver : (PROCER.cascade cfg st.shared p code e).2.ops.filter (fun op => imagesOf op ≠ []) =
    ending.handsOver p
  blocked : ending = .blocked → ∃ st' ∈ dispatch before st, ending.Left p st'.shared
  left : ending ≠ .blocked → (st.thread .procer).ops = [] → ∀ st' after st'',
    next cfg st (.procer, .go) = some st' →
      RunsThrough (next cfg) (fun _ _ => True) st' after st'' →
        (st''.thread .procer).ops = PROCER.wait → ∃ st₁ ∈ st'' :: after, ending.Left p st₁.shared
  endOfQuantum : ending = .endOfQuantum → (e.quantumCount : ℤ) = cfg.quantum ∧
    ∃ st' ∈ dispatch before st, st'.shared.ALG = .rr

theorem cascade_of_next {p : Ptr} {code : List CString} {e : Exec}
    (hpc : (st.thread .procer).pc = .execute p code e) (hreturned : e.point = .returned)
    (hops : (st.thread .procer).ops = []) (hnext : next cfg st (.procer, .go) = some st') :
    st'.thread .procer = (PROCER.cascade cfg st.shared p code e).2 := by
  rcases Machine.step_cases (next_eq_some hnext).2 with
    ⟨op, ops, s, hops', -, -⟩ | ⟨s, th, -, hcontrol, rfl⟩
  · rw [hops] at hops'
    cases hops'
  · change PROCER.control cfg st.shared (st.thread .procer).pc .go = some (s, th) at hcontrol
    rw [hpc, PROCER.control, if_pos hreturned] at hcontrol
    rw [Option.some.inj hcontrol]
    exact Function.update_self Tid.procer th st.thread

/-- When `processExecution` has returned, its quantum is kept and the dispatch ends in exactly one
of the four cases, each of which leaves the image in its own place; the one for the end of the
quantum only if `ALG` was `RR` in a state of the dispatch. -/
theorem dispatch_ends_once (cfg : Config) (ALG : Algorithm) (priorities : QueueName → ℤ)
    (before : List PP) (st : PP) (hquantum : 1 ≤ cfg.quantum)
    (h : RunsThrough (next cfg) (fun _ _ => True) (start cfg ALG priorities) before st) (p : Ptr)
    (code : List CString) (e : Exec) (hpc : (st.thread .procer).pc = .execute p code e)
    (hreturned : e.point = .returned) :
    (e.quantumCount : ℤ) ≤ cfg.quantum ∧ ∃! ending, EndsIn cfg before st p code e ending := by
  obtain ⟨hbounded, hended⟩ := accounted_run (zero_le_one.trans hquantum) h.runsTo p code e hpc
  have hshown := shownSoFar_run h p code e hpc
  obtain ⟨ending, hending⟩ := Option.isSome_iff_exists.mp
    (PROCER.ending_isSome (hended hreturned))
  refine ⟨hbounded.le, ending, ⟨hending, PROCER.cascade_of_ending hending, ?_, ?_, ?_⟩,
    fun ending' h' => Option.some.inj (h'.taken.symm.trans hending)⟩
  · rintro rfl
    refine (hshown.blocked (PROCER.blocks_of_ending hending)).resolve_left ?_
    rw [hshown.returned hreturned]
    exact List.not_mem_nil
  · intro hne hops st' after st'' hnext hrun hwaits
    obtain ⟨op, hop, hpending⟩ := PROCER.pending_of_ending (p := p) hending hne
    rw [← cascade_of_next hpc hreturned hops hnext] at hpending
    refine (left_of_run hop hpending hrun).resolve_left fun hmem => ?_
    rw [hwaits] at hmem
    exact PROCER.notMem_wait hop hmem
  · rintro rfl
    have hcount := PROCER.quantumCount_of_ending hending
    exact ⟨hcount, hshown.rr (by omega)⟩

def returnedAfter (n : ℕ) (pc : Label) : Bool :=
  match pc with
  | .execute _ _ e => e.point == .returned && e.quantumCount == n
  | _ => false

theorem of_returnedAfter {n : ℕ} {pc : Label} (h : returnedAfter n pc) :
    ∃ p code e, pc = .execute p code e ∧ e.point = .returned ∧ e.quantumCount = n := by
  unfold returnedAfter at h
  split at h
  case h_1 p code e =>
    simp only [Bool.and_eq_true, beq_iff_eq] at h
    exact ⟨p, code, e, rfl, h.1, h.2⟩
  case h_2 => cases h

def roundScript : CString :=
  cstr "comienzo_programa\nvariables a\na=1\na=2\na=3\nfin_programa"

theorem dispatch_ends_once_counted : ∃ (before : List PP) (st : PP) (p : Ptr)
    (code : List CString) (e : Exec), e.quantumCount = 2 ∧
      (e.quantumCount : ℤ) ≤ smallConfig.quantum ∧
        ∃! ending, EndsIn smallConfig before st p code e ending := by
  have hrun : ((follow (next smallConfig) (fun _ _ => true) (start smallConfig .rr fun _ => 0)
      (goes .ltsConex 3 ++ submits roundScript 0 ++ goes .sts 19 ++ goes .procer 29)).any
        fun st => returnedAfter 2 (st.thread .procer).pc) = true := by
    decide +kernel
  obtain ⟨st, hst, hreturned⟩ := (Option.any_eq_true _ _).mp hrun
  obtain ⟨p, code, e, hpc, hpoint, hcount⟩ := of_returnedAfter hreturned
  have hruns : RunsTo (next smallConfig) (fun _ _ => True) (start smallConfig .rr fun _ => 0) st :=
    .of_follow (fun _ _ _ => trivial) _ hst
  obtain ⟨before, hbefore⟩ := hruns.through
  exact ⟨before, st, p, code, e, hcount, dispatch_ends_once smallConfig .rr (fun _ => 0) before st
    (by decide) hbefore p code e hpc hpoint⟩

end Runs

end PP
end Sisop
