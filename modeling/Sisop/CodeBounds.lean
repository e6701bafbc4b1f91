import Sisop.CodeAccesses
import Sisop.RunningProcess

/-!
# No `PC` leaves the code

Every `PC` of a process indexes a line of the array: an iteration that has a next line moves on
to it, and a jump or a call to a line that was found. What `PROCER` reads next stays in the array
exactly when the interpreter does not go on or finds a complete line.
-/

namespace Sisop

variable {code : List CString} {quantum : ℤ} {env : Env} {self : Ptr} {image : TProcessImage}
  {line : CString}

theorem findLine_lt {text : CString} {i : ℕ} (h : findLine code text = some i) :
    i < code.length := by
  rw [findLine, List.findIdx?_eq_some_iff_findIdx_eq] at h
  exact h.1

/-- A jump lands on a line; everything else leaves `PC`. -/
theorem jumpLine_PC {jumps : Int32 → Bool} {f : LineEffect}
    (h : jumpLine code image line jumps = some f) : f.PC = image.PC ∨ f.PC < code.length := by
  obtain ⟨varName, -, h⟩ := Option.bind_eq_some_iff.mp h
  obtain ⟨varValue, -, h⟩ := Option.bind_eq_some_iff.mp h
  obtain ⟨PC, hPC, h⟩ := Option.bind_eq_some_iff.mp h
  cases h
  rw [jumpTarget] at hPC
  split_ifs at hPC
  · exact .inr (findLine_lt hPC)
  · exact .inl (Option.some.inj hPC).symm

theorem variablesLine_PC {f : LineEffect} (h : variablesLine image line = some f) :
    f.PC = image.PC := by
  unfold variablesLine at h
  split_ifs at h
  obtain ⟨data, -, rfl⟩ := Option.map_eq_some_iff.mp h
  rfl

theorem processLine_PC {self : Ptr} {f : LineEffect}
    (h : processLine code self image line = some (.effect f)) :
    f.PC = image.PC ∨ f.PC < code.length := by
  unfold processLine at h
  cases hform : processForm line with
  | skip | other =>
    rw [hform] at h
    cases h
    exact .inl rfl
  | «variables» =>
    rw [hform] at h
    exact .inl (variablesLine_PC (effect_of_map h))
  | imprimir =>
    rw [hform] at h
    exact .inl (imprimirLine_PC (effect_of_map h))
  | ssc | snc =>
    rw [hform] at h
    exact jumpLine_PC (effect_of_map h)
  | assign =>
    rw [hform] at h
    exact .inl (assignLine_PC (effect_of_map h))
  | assignIo | io =>
    rw [hform] at h
    exact .inl (ioLine_PC h)
  | call =>
    rw [hform] at h
    cases h

theorem charAt_le {i : ℕ} {c : UInt8} (h : charAt line i = some c) : i ≤ line.length := by
  rw [charAt] at h
  split_ifs at h with hend
  · exact hend.le
  · exact (List.getElem?_eq_some_iff.mp h).1.le

theorem listedNames_length {varList : CString} {names : List UInt8}
    (h : listedNames varList = some names) : varList.length % 2 = 1 := by
  fun_induction listedNames varList generalizing names with
  | case1 => cases h
  | case2 => rfl
  | case3 a b rest ih =>
    obtain ⟨names', hnames, -⟩ := Option.map_eq_some_iff.mp h
    have hrest := ih hnames
    rw [List.length_cons, List.length_cons]
    omega

theorem variablesLine_complete {f : LineEffect} (h : variablesLine image line = some f) :
    variablesComplete image line = true := by
  have hoffset : (cstr "variables,").length = 10 := rfl
  rw [variablesLine, hoffset] at h
  split_ifs at h with hlong
  obtain ⟨data, hdata, -⟩ := Option.map_eq_some_iff.mp h
  obtain ⟨varCount, -, hdata⟩ := Option.bind_eq_some_iff.mp hdata
  obtain ⟨names, hnames, -⟩ := Option.bind_eq_some_iff.mp hdata
  have hlength := listedNames_length hnames
  rw [List.length_drop] at hlength
  rw [variablesComplete, Bool.or_eq_true, Bool.and_eq_true, decide_eq_true_iff, beq_iff_eq,
    hoffset]
  omega

theorem imprimirLine_complete {f : LineEffect} (h : imprimirLine self image line = some f) :
    imprimirComplete line = true := by
  obtain ⟨varName, hvarName, -⟩ := Option.bind_eq_some_iff.mp h
  exact decide_eq_true (charAt_le hvarName)

theorem contains_of_findLine {text : CString} {i : ℕ} (h : findLine code text = some i) :
    code.contains text = true := by
  rw [findLine, List.findIdx?_eq_some_iff_getElem] at h
  obtain ⟨hlt, heq, -⟩ := h
  exact List.contains_iff_mem.mpr (eq_of_beq heq ▸ List.getElem_mem hlt)

theorem jumpLine_complete {jumps : Int32 → Bool} {f : LineEffect}
    (h : jumpLine code image line jumps = some f) : jumpComplete code image line jumps = true := by
  obtain ⟨varName, hvarName, h⟩ := Option.bind_eq_some_iff.mp h
  obtain ⟨varValue, hvarValue, h⟩ := Option.bind_eq_some_iff.mp h
  obtain ⟨PC, hPC, -⟩ := Option.bind_eq_some_iff.mp h
  have hvalue : (charAt line (cstr "ssc,").length).bind (readData image.data) = some varValue :=
    Option.bind_eq_some_iff.mpr ⟨varName, hvarName, hvarValue⟩
  rw [jumpComplete, hvalue, Option.all_some, Bool.and_eq_true, decide_eq_true_iff]
  refine ⟨charAt_le hvarName, ?_⟩
  rw [jumpTarget] at hPC
  split_ifs at hPC with hjumps hlong
  · rw [decide_eq_true hlong, jumpTag, contains_of_findLine hPC]
    exact Bool.or_true _
  · simp [hjumps]

theorem ioLine_complete {width offset : ℕ} {outcome : LineOutcome}
    (h : ioLine width offset self image line = some outcome) :
    (line.drop offset).contains 44 = true := by
  obtain ⟨request, hrequest, -⟩ := Option.bind_eq_some_iff.mp h
  simp only [ioRequest] at hrequest
  split_ifs at hrequest with hwhole
  by_contra hcomma
  refine hwhole (congrArg List.length (List.takeWhile_eq_self_iff.mpr fun c hc => ?_))
  have hne : c ≠ 44 := fun heq => hcomma (List.contains_iff_mem.mpr (heq ▸ hc))
  simpa using hne

theorem commonForm_of_processForm {form : Form} (h : processForm line = form)
    (hform : form ∉ [.skip, .variables, .imprimir, .ssc, .snc]) : commonForm line = form := by
  unfold processForm at h
  split_ifs at h
  · exact absurd (by simp [← h]) hform
  · exact absurd (by simp [← h]) hform
  · exact absurd (by simp [← h]) hform
  · exact absurd (by simp [← h]) hform
  · exact absurd (by simp [← h]) hform
  · exact h

theorem commonForm_of_functionForm {form : Form} (h : functionForm line = form)
    (hform : form ∉ [.skip, .imprimir]) : commonForm line = form := by
  unfold functionForm at h
  split_ifs at h
  · exact absurd (by simp [← h]) hform
  · exact absurd (by simp [← h]) hform
  · exact h

theorem processLine_complete {outcome : LineOutcome}
    (h : processLine code self image line = some outcome)
    (hheader : ∀ functionName, outcome = .call functionName →
      code.contains (cstr "comienzo_funcion " ++ functionName) = true) :
    processComplete code image line = true := by
  rw [processLine] at h
  rw [processComplete]
  cases hform : processForm line with
  | skip => rfl
  | «variables» =>
    rw [hform] at h
    obtain ⟨f, hf, -⟩ := Option.map_eq_some_iff.mp h
    exact variablesLine_complete hf
  | imprimir =>
    rw [hform] at h
    obtain ⟨f, hf, -⟩ := Option.map_eq_some_iff.mp h
    exact imprimirLine_complete hf
  | ssc | snc =>
    rw [hform] at h
    obtain ⟨f, hf, -⟩ := Option.map_eq_some_iff.mp h
    exact jumpLine_complete hf
  | assignIo | io =>
    rw [hform] at h
    simp only [commonComplete, commonForm_of_processForm hform (by simp)]
    exact ioLine_complete h
  | call =>
    rw [hform] at h
    cases h
    simp only [commonComplete, commonForm_of_processForm hform (by simp)]
    exact hheader _ rfl
  | assign | other => simp only [commonComplete, commonForm_of_processForm hform (by simp)]

theorem functionLine_complete {outcome : LineOutcome}
    (h : functionLine self image line = some outcome)
    (hheader : ∀ functionName, outcome = .call functionName →
      code.contains (cstr "comienzo_funcion " ++ functionName) = true) :
    functionComplete code line = true := by
  rw [functionLine] at h
  rw [functionComplete]
  cases hform : functionForm line with
  | skip => rfl
  | imprimir =>
    rw [hform] at h
    obtain ⟨f, hf, -⟩ := Option.map_eq_some_iff.mp h
    exact imprimirLine_complete hf
  | assignIo | io =>
    rw [hform] at h
    simp only [commonComplete, commonForm_of_functionForm hform (by simp)]
    exact ioLine_complete h
  | call =>
    rw [hform] at h
    cases h
    simp only [commonComplete, commonForm_of_functionForm hform (by simp)]
    exact hheader _ rfl
  | _ => simp only [commonComplete, commonForm_of_functionForm hform (by simp)]

namespace Exec

variable {e e' : Exec} {ops : List Operation} {events : List Event}

theorem stackExecution_inCode (h : e.InCode code) : e.stackExecution.1.InCode code := by
  rcases List.eq_nil_or_concat e.stack with hstack | ⟨stack, element, hstack⟩
  · rw [stackExecution_of_nil hstack]
    exact h
  · rw [List.concat_eq_append] at hstack
    have hpopped : ∀ element' ∈ stack ++ [element], element'.PC < code.length := hstack ▸ h.stack
    obtain ⟨hrest, hlast⟩ := List.forall_mem_append.mp hpopped
    rw [stackExecution_of_concat hstack]
    exact ⟨h.image, List.forall_mem_cons.mpr ⟨hlast element List.mem_cons_self, h.elements⟩, hrest⟩

theorem leaveFunction_inCode {finished : Bool} {element : TStack} {rest : List TStack}
    (h : e.InCode code) (helements : e.elements = element :: rest) :
    (e.leaveFunction finished element rest).InCode code := by
  have hactive := h.elements
  rw [helements, List.forall_mem_cons] at hactive
  have hstack : ∀ element' ∈ (if finished then e.stack else e.stack ++ [element]),
      element'.PC < code.length := by
    split_ifs
    · exact h.stack
    · exact List.forall_mem_append.mpr ⟨h.stack, List.forall_mem_singleton.mpr hactive.1⟩
  unfold leaveFunction
  dsimp only
  split
  · rename_i caller callers newElement hlast
    obtain ⟨hcaller, hcallers⟩ := List.forall_mem_cons.mp hactive.2
    refine ⟨h.image, List.forall_mem_cons.mpr ⟨?_, hcallers⟩,
      List.forall_mem_cons.mpr ⟨hcaller, ?_⟩⟩
    · exact hstack newElement (List.mem_of_getLast? hlast)
    · exact fun element' hmem => hstack element' (List.dropLast_subset _ hmem)
  · exact ⟨h.image, hactive.2, hstack⟩

/-- A line that is run leaves every `PC` on a line when it leaves its own on one. -/
theorem runLine_inCode {PC : ℕ} {outcome : LineOutcome} (h : e.InCode code)
    (hrun : e.runLine code PC outcome = some (e', ops, events))
    (hPC : ∀ f, outcome = .effect f → f.PC < code.length) : e'.InCode code := by
  cases outcome with
  | effect f =>
    cases hrun
    exact ⟨hPC f rfl, h.elements, h.stack⟩
  | asksPool =>
    cases hrun
    exact ⟨h.image, h.elements, h.stack⟩
  | call functionName =>
    obtain ⟨entry, hentry, rfl, -, -⟩ := runLine_call hrun
    exact ⟨h.image, List.forall_mem_cons.mpr ⟨findLine_lt hentry, h.elements⟩, h.stack⟩

theorem Moves.inCode (h : Moves code quantum self env e e' ops events) (he : e.InCode code) :
    e'.InCode code := by
  cases h with
  | returns | counts => exact ⟨he.image, he.elements, he.stack⟩
  | resumes => exact stackExecution_inCode he
  | runsLine _ _ _ _ _ _ hnext houtcome hrun =>
    have hlt := (List.getElem?_eq_some_iff.mp hnext).1
    have hadvanced : e.advanceProcess.InCode code := ⟨hlt, he.elements, he.stack⟩
    refine runLine_inCode hadvanced hrun fun f hf => ?_
    rcases processLine_PC (hf ▸ houtcome) with hPC | hPC
    · exact hPC ▸ hlt
    · exact hPC
  | leaves _ helements => exact leaveFunction_inCode he helements
  | @runsFunctionLine element rest _ _ _ _ _ _ _ helements _ _ _ hnext houtcome hrun =>
    have hlt := (List.getElem?_eq_some_iff.mp hnext).1
    have hactive := he.elements
    rw [helements, List.forall_mem_cons] at hactive
    have hadvanced : (e.advanceFunction element rest).InCode code :=
      ⟨he.image, List.forall_mem_cons.mpr ⟨hlt, hactive.2⟩, he.stack⟩
    refine runLine_inCode hadvanced hrun fun f hf => ?_
    rw [functionLine_PC (hf ▸ houtcome)]
    exact he.image
  | asksPool _ _ _ hf =>
    refine ⟨?_, he.elements, he.stack⟩
    rw [perform, processPoolLine_PC hf]
    exact he.image
  | asksPoolInFunction _ _ _ hf =>
    refine ⟨?_, he.elements, he.stack⟩
    rw [perform, functionPoolLine_PC hf]
    exact he.image

theorem staysInCode_of_returned (h : e.point = .returned) :
    e.staysInCode code quantum env = true := by
  rw [staysInCode, h]

theorem runLine_header {PC : ℕ} {functionName : CString}
    (h : e.runLine code PC (.call functionName) = some (e', ops, events)) :
    code.contains (cstr "comienzo_funcion " ++ functionName) = true := by
  obtain ⟨entry, hentry, -⟩ := runLine_call h
  exact contains_of_findLine hentry

/-- The interpreter has a result only for a step whose reads stay in the code. -/
theorem Moves.staysInCode (h : Moves code quantum self env e e' ops events) :
    e.staysInCode code quantum env = true := by
  cases h with
  | returns hpoint helements hline hstop =>
    have hgoes : e.processGoesOn code quantum env = false := by
      rcases hstop with rfl | hstop
      · simp [processGoesOn, atFinPrograma, hline]
      · simp [processGoesOn, hstop]
    simp [Exec.staysInCode, hpoint, helements, hgoes]
  | resumes hpoint helements _ _ _ hstack =>
    have hgoes : e.processGoesOn code quantum env = false := by
      simp [processGoesOn, hstack]
    simp [Exec.staysInCode, hpoint, helements, hgoes]
  | runsLine hpoint helements _ _ _ _ hnext houtcome hrun =>
    have hcomplete := processLine_complete houtcome fun functionName hcall =>
      runLine_header (hcall ▸ hrun)
    simpa [Exec.staysInCode, hpoint, helements, hnext] using .inr hcomplete
  | leaves hpoint helements hline hstop =>
    rename_i element rest line
    have hgoes : e.functionGoesOn code quantum env element = false := by
      rcases hstop with hstop | hstop <;> simp [functionGoesOn, hline, hstop]
    simp [Exec.staysInCode, hpoint, helements, hgoes]
  | runsFunctionLine hpoint helements _ _ _ hnext houtcome hrun =>
    have hcomplete := functionLine_complete houtcome fun functionName hcall =>
      runLine_header (hcall ▸ hrun)
    simpa [Exec.staysInCode, hpoint, helements, hnext] using .inr hcomplete
  | asksPool hpoint | asksPoolInFunction hpoint | counts hpoint =>
    simp [Exec.staysInCode, hpoint]

end Exec

theorem codeSegmentLines_ne_nil {fuel : ℕ} {script : CString} {code : List CString}
    (h : codeSegmentLines fuel script = some code) : code ≠ [] := by
  cases fuel with
  | zero => cases h
  | succ fuel =>
    simp only [codeSegmentLines] at h
    split_ifs at h
    · cases h
      exact List.cons_ne_nil _ _
    · obtain ⟨rest, -, rfl⟩ := Option.map_eq_some_iff.mp h
      exact List.cons_ne_nil _ _

structure TProcessImage.InCode (code : List CString) (image : TProcessImage) : Prop where
  PC : image.PC < code.length
  stack : ∀ element ∈ image.stack, element.PC < code.length

def Indexed (image : TProcessImage) : Prop :=
  ∀ code, codeSegmentCreator image.code = some code → image.InCode code

theorem indexed_of_new {image : TProcessImage} (hstack : image.stack = []) (hPC : image.PC = 0) :
    Indexed image := by
  intro code hcode
  refine ⟨?_, ?_⟩
  · rw [hPC]
    exact List.length_pos_iff.mpr (codeSegmentLines_ne_nil hcode)
  · rw [hstack]
    exact List.forall_mem_nil _

namespace PP

variable {cfg : Config} {s s' : Shared} {pc : Label} {th : Thread Operation Label}

def ReadsWithin (cfg : Config) (st : PP) : Prop :=
  ∀ p code e, (st.thread .procer).pc = .execute p code e →
    ∀ a ∈ e.accesses code cfg.quantum st.shared.env, a.within code = true

/-- `PROCER` does not go on to a next line, or it finds one, and a complete one. -/
def findsCompleteLine (cfg : Config) (st : PP) : Bool :=
  match (st.thread .procer).pc with
  | .execute _ code e => e.staysInCode code cfg.quantum st.shared.env
  | _ => true

section Runs

variable {ok : PP → Step → Prop} {st st' : PP} {a : Step} {ALG : Algorithm}
  {priorities : QueueName → ℤ}

structure InCode (st : PP) : Prop where
  images : ∀ p, Indexed (st.shared.image p)
  exec : ∀ p code e, (st.thread .procer).pc = .execute p code e →
    codeSegmentCreator e.processImage.code = some code ∧ e.InCode code

theorem indexed_update {image : Ptr → TProcessImage} (h : ∀ p, Indexed (image p)) {p : Ptr}
    {processImage : TProcessImage} (hp : Indexed processImage) (p' : Ptr) :
    Indexed (Function.update image p processImage p') := by
  by_cases heq : p' = p
  · rw [heq, Function.update_self]
    exact hp
  · rw [Function.update_of_ne heq]
    exact h p'

/-- After a dispatch the image keeps the `PC`s it had at its end. -/
theorem indexed_estimate {code : List CString} {e : Exec}
    (hcode : codeSegmentCreator e.processImage.code = some code) (h : e.InCode code) :
    Indexed (PROCER.estimate cfg e) := by
  intro code' hcode'
  obtain rfl : code = code' := Option.some.inj (hcode.symm.trans hcode')
  exact ⟨h.image, h.stack⟩

theorem images_next (h : next cfg st a = some st') (hst : InCode st) (p : Ptr) :
    Indexed (st'.shared.image p) := by
  rcases shared_next h with ⟨op, ops, -, hexec, -⟩ | ⟨-, hmoves, -⟩
  · rw [(unwritten_exec hexec).image]
    exact hst.images p
  · rcases image_control hmoves with heq | ⟨image, heq, hstack, hPC⟩ |
      ⟨p', code, e, ha, hpc, heq⟩
    · rw [heq]
      exact hst.images p
    · rw [heq]
      exact indexed_update hst.images (indexed_of_new hstack hPC) p
    · rw [ha] at hpc
      obtain ⟨hcode, he⟩ := hst.exec _ _ _ hpc
      rw [heq]
      exact indexed_update hst.images (indexed_estimate hcode he) p

theorem exec_control (h : PROCER.Moves cfg s pc s' th) (himages : ∀ p, Indexed (s.image p))
    (hexec : ∀ p code e, pc = .execute p code e →
      codeSegmentCreator e.processImage.code = some code ∧ e.InCode code)
    {p : Ptr} {code : List CString} {e : Exec} (hth : th.pc = .execute p code e) :
    codeSegmentCreator e.processImage.code = some code ∧ e.InCode code := by
  cases h with
  | @pop p ps code hqueue hcode =>
    cases hth
    obtain ⟨hPC, hstack⟩ := himages p code hcode
    have hentry : (Exec.atEntry (s.image p)).InCode code :=
      ⟨hPC, List.forall_mem_nil _, hstack⟩
    obtain ⟨stack, elements, heq⟩ := Exec.stackExecution_eq (Exec.atEntry (s.image p))
    refine ⟨?_, Exec.stackExecution_inCode hentry⟩
    rw [Exec.enter, heq]
    exact hcode
  | run _ hmoves =>
    cases hth
    obtain ⟨hcode, he⟩ := hexec _ _ _ rfl
    exact ⟨hmoves.identity.2.1 ▸ hcode, hmoves.inCode he⟩
  | _ => cases hth

theorem inCode_next (h : next cfg st a = some st') (hst : InCode st) : InCode st' := by
  refine ⟨images_next h hst, ?_⟩
  rcases thread_next h .procer with ⟨-, hth⟩ | ⟨op, ops, -, -, -, hth⟩ | ⟨-, -, hmoves⟩
  · rw [hth]
    exact hst.exec
  · rw [hth]
    exact hst.exec
  · cases hmoves with
    | procer hmoves => exact fun p code e => exec_control hmoves hst.images hst.exec

theorem inCode_run (h : RunsTo (next cfg) ok (start cfg ALG priorities) st) : InCode st :=
  h.invariant ⟨fun _ => indexed_of_new rfl rfl, fun _ _ _ hpc => by cases hpc⟩
    fun _ _ _ hst _ hnext => inCode_next hnext hst

/-- The model has a step of `PROCER` only where the code is not left. -/
theorem findsCompleteLine_of_next (h : next cfg st a = some st') (ha : a.1 = .procer)
    (hops : (st.thread .procer).ops = []) : findsCompleteLine cfg st = true := by
  rcases shared_next h with ⟨op, ops, hne, -⟩ | ⟨-, hmoves, -⟩
  · rw [ha, hops] at hne
    cases hne
  · rw [ha] at hmoves
    rw [findsCompleteLine]
    generalize (st.thread .procer).pc = pc at hmoves ⊢
    generalize st'.shared = s' at hmoves
    generalize st'.thread .procer = th at hmoves
    cases hmoves with
    | procer hmoves =>
      cases hmoves with
      | run _ hmoves => exact hmoves.staysInCode
      | pop => rfl
      | finished hpoint | blocked hpoint | suspended hpoint | endOfQuantum hpoint
      | dropped hpoint => exact Exec.staysInCode_of_returned hpoint

/-- In every state that is reached, every `PC` is on a line; and the next step of `PROCER` reads
nothing outside the code exactly when it does not go on to a next line or finds a complete one. -/
theorem reads_within_code_iff (cfg : Config) (ALG : Algorithm) (priorities : QueueName → ℤ)
    (st : PP) (h : RunsTo (next cfg) (fun _ _ => True) (start cfg ALG priorities) st) :
    InCode st ∧ (ReadsWithin cfg st ↔ findsCompleteLine cfg st = true) := by
  have hst := inCode_run h
  refine ⟨hst, ?_⟩
  rw [findsCompleteLine, ReadsWithin]
  split
  · rename_i p code e hpc
    obtain ⟨-, he⟩ := hst.exec p code e hpc
    rw [← he.accesses_within_iff]
    constructor
    · exact fun hreads => hreads p code e hpc
    · intro hreads p' code' e' hpc'
      cases hpc.symm.trans hpc'
      exact hreads
  · rename_i hpc
    exact iff_of_true (fun p code e hpc' => absurd hpc' (hpc p code e)) rfl

def dispatches (script : CString) : List Step :=
  goes .ltsConex 3 ++ submits script 0 ++ goes .sts 19 ++ goes .procer 10

theorem reads_within_code_idle : ∃ st : PP, (∃ p code e,
    (st.thread .procer).pc = .execute p code e) ∧ findsCompleteLine smallConfig st = true ∧
    InCode st ∧ (ReadsWithin smallConfig st ↔ findsCompleteLine smallConfig st = true) := by
  have hrun : ((follow (next smallConfig) (fun _ _ => true)
      (start smallConfig .fifo fun _ => 0) (dispatches idleScript)).any fun st =>
        match (st.thread .procer).pc with
        | .execute _ _ _ => findsCompleteLine smallConfig st
        | _ => false) = true := by
    decide +kernel
  obtain ⟨st, hst, hvalues⟩ := (Option.any_eq_true _ _).mp hrun
  have hresult := reads_within_code_iff smallConfig .fifo (fun _ => 0) st
    (RunsTo.of_follow (fun _ _ _ => trivial) _ hst)
  split at hvalues
  · rename_i p code e hpc
    exact ⟨st, ⟨p, code, e, hpc⟩, hvalues, hresult⟩
  · cases hvalues

/-- A script of one line has no `fin_programa`: the next line is the `NULL` of the array. -/
theorem missing_end_leaves_code : ¬ ∀ (cfg : Config) (ALG : Algorithm)
    (priorities : QueueName → ℤ) (st : PP),
      RunsTo (next cfg) (fun _ _ => True) (start cfg ALG priorities) st →
        InCode st ∧ ReadsWithin cfg st := by
  intro h
  have hrun : ((follow (next smallConfig) (fun _ _ => true) (start smallConfig .fifo fun _ => 0)
      (dispatches (cstr "comienzo_programa"))).any fun st => match (st.thread .procer).pc with
        | .execute _ code e =>
          (e.accesses code smallConfig.quantum st.shared.env).any (!·.within code)
        | _ => false) = true := by
    decide +kernel
  obtain ⟨st, hst, hleaves⟩ := (Option.any_eq_true _ _).mp hrun
  obtain ⟨-, hreads⟩ := h smallConfig .fifo (fun _ => 0) st
    (RunsTo.of_follow (fun _ _ _ => trivial) _ hst)
  split at hleaves
  · rename_i p code e hpc
    obtain ⟨access, haccess, hout⟩ := List.any_eq_true.mp hleaves
    rw [hreads p code e hpc access haccess] at hout
    cases hout
  · cases hleaves

end Runs

end PP
end Sisop
