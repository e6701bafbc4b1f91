import Sisop.InterpreterSteps

/-!
# The operations a line leaves behind

Every line makes at most one request and then ends in one of two ways. `LineOutput` lists the
requests, `PoolAnswer` those that follow a look at the pool.
-/

namespace Sisop

variable {code : List CString} {quantum : ℤ} {self : Ptr} {image : TProcessImage} {env : Env}

inductive LineOutput (self : Ptr) (image : TProcessImage) : Bool → List Operation → Prop
  | nothing : LineOutput self image false []
  | prints (text : CString) : LineOutput self image false (sendMsg ⟨image.clientfd, 78, text⟩ self)
  | blocks (ioTime : ℕ) : LineOutput self image true (blockingRequest self ioTime)

/-- `again` is the branch of `v=io(t,0)` that takes `LPB_mutex` a second time. -/
inductive PoolAnswer (self : Ptr) (image : TProcessImage) : Bool → List Operation → Prop
  | accepted (ioTime : ℕ) : PoolAnswer self image false (nonBlockingRequest self ioTime)
  | refused (text : CString) : PoolAnswer self image false (refusedRequest self image text)
  | again (ioTime : ℕ) : PoolAnswer self image true (blockingRequest self ioTime)

def lineEnd (ticks : Bool) : List Operation := if ticks then tickOperations else quietOperations

/-- A line that is skipped, or one with an output and an end. -/
def LineEffect.Shaped (self : Ptr) (image : TProcessImage) (f : LineEffect) : Prop :=
  (f.operations = [] ∧ f.blocks = false ∧ f.ticks = false) ∨
    ∃ output, LineOutput self image f.blocks output ∧ f.operations = output ++ lineEnd f.ticks

theorem shaped_of_ioLine {width offset : ℕ} {line : CString} {f : LineEffect}
    (h : ioLine width offset self image line = some (.effect f)) : f.Shaped self image := by
  obtain ⟨⟨ioTime, flag⟩, -, h⟩ := Option.bind_eq_some_iff.mp h
  dsimp only at h
  split_ifs at h with hflag hoffset
  · cases h
  · cases h
    exact .inr ⟨_, .blocks _, rfl⟩
  · obtain ⟨varName, -, h⟩ := Option.bind_eq_some_iff.mp h
    obtain ⟨effect, heffect, h⟩ := Option.bind_eq_some_iff.mp h
    cases h
    obtain ⟨data, -, rfl⟩ := Option.map_eq_some_iff.mp heffect
    exact .inr ⟨_, .blocks _, rfl⟩

theorem shaped_of_imprimirLine {line : CString} {f : LineEffect}
    (h : imprimirLine self image line = some f) : f.Shaped self image := by
  obtain ⟨varName, -, h⟩ := Option.bind_eq_some_iff.mp h
  obtain ⟨varValue, -, h⟩ := Option.bind_eq_some_iff.mp h
  cases h
  exact .inr ⟨_, .prints _, rfl⟩

theorem shaped_of_assignLine {line : CString} {f : LineEffect}
    (h : assignLine image line = some f) : f.Shaped self image := by
  obtain ⟨varName, -, h⟩ := Option.bind_eq_some_iff.mp h
  obtain ⟨varValue, -, h⟩ := Option.bind_eq_some_iff.mp h
  obtain ⟨data, -, h⟩ := Option.bind_eq_some_iff.mp h
  cases h
  exact .inr ⟨[], .nothing, rfl⟩

theorem shaped_of_variablesLine {line : CString} {f : LineEffect}
    (h : variablesLine image line = some f) : f.Shaped self image := by
  unfold variablesLine at h
  split_ifs at h
  obtain ⟨data, -, rfl⟩ := Option.map_eq_some_iff.mp h
  exact .inr ⟨[], .nothing, rfl⟩

theorem shaped_of_jumpLine {line : CString} {jumps : Int32 → Bool} {f : LineEffect}
    (h : jumpLine code image line jumps = some f) : f.Shaped self image := by
  obtain ⟨varName, -, h⟩ := Option.bind_eq_some_iff.mp h
  obtain ⟨varValue, -, h⟩ := Option.bind_eq_some_iff.mp h
  obtain ⟨PC, -, h⟩ := Option.bind_eq_some_iff.mp h
  cases h
  exact .inr ⟨[], .nothing, rfl⟩

theorem effect_of_map {x : Option LineEffect} {f : LineEffect}
    (h : x.map LineOutcome.effect = some (.effect f)) : x = some f := by
  obtain ⟨f', hf, heq⟩ := Option.map_eq_some_iff.mp h
  cases heq
  exact hf

theorem shaped_of_processLine {line : CString} {f : LineEffect}
    (h : processLine code self image line = some (.effect f)) : f.Shaped self image := by
  unfold processLine at h
  cases hform : processForm line with
  | skip | other =>
    rw [hform] at h
    cases h
    exact .inl ⟨rfl, rfl, rfl⟩
  | «variables» =>
    rw [hform] at h
    exact shaped_of_variablesLine (effect_of_map h)
  | imprimir =>
    rw [hform] at h
    exact shaped_of_imprimirLine (effect_of_map h)
  | ssc | snc =>
    rw [hform] at h
    exact shaped_of_jumpLine (effect_of_map h)
  | assign =>
    rw [hform] at h
    exact shaped_of_assignLine (effect_of_map h)
  | assignIo | io =>
    rw [hform] at h
    exact shaped_of_ioLine h
  | call =>
    rw [hform] at h
    cases h

theorem shaped_of_functionLine {line : CString} {f : LineEffect}
    (h : functionLine self image line = some (.effect f)) : f.Shaped self image := by
  unfold functionLine at h
  cases hform : functionForm line with
  | imprimir =>
    rw [hform] at h
    exact shaped_of_imprimirLine (effect_of_map h)
  | assign =>
    rw [hform] at h
    exact shaped_of_assignLine (effect_of_map h)
  | assignIo | io =>
    rw [hform] at h
    exact shaped_of_ioLine h
  | call =>
    rw [hform] at h
    cases h
  | _ =>
    rw [hform] at h
    cases h
    exact .inl ⟨rfl, rfl, rfl⟩

theorem answer_of_poolIo {width lineNumber : ℕ} {free : Bool} {ioTime : CString} :
    ∃ answer, PoolAnswer self image (poolIo width free self image lineNumber ioTime).blocks answer ∧
      (poolIo width free self image lineNumber ioTime).operations =
        answer ++ lineEnd (poolIo width free self image lineNumber ioTime).ticks := by
  cases free with
  | true => exact ⟨_, .accepted _, rfl⟩
  | false => exact ⟨_, .refused _, rfl⟩

/-- Only `v=io(t,0)` of `processExecution` asks again, and only when a thread is free. -/
theorem answer_of_processPoolLine {free : Bool} {line : CString} {f : LineEffect}
    (h : processPoolLine free self image line = some f) :
    (∃ answer, PoolAnswer self image f.blocks answer ∧
      f.operations = answer ++ lineEnd f.ticks) ∧
      (f.blocks = true → free = true ∧ processForm line = .assignIo) := by
  unfold processPoolLine at h
  split at h
  case h_1 hform =>
    obtain ⟨⟨ioTime, flag⟩, -, h⟩ := Option.bind_eq_some_iff.mp h
    obtain ⟨varName, -, h⟩ := Option.bind_eq_some_iff.mp h
    unfold processAssignPoolIo at h
    split_ifs at h with hfree
    · obtain ⟨data, -, rfl⟩ := Option.map_eq_some_iff.mp h
      exact ⟨⟨_, .again _, rfl⟩, fun _ => ⟨hfree, hform⟩⟩
    · obtain ⟨data, -, rfl⟩ := Option.map_eq_some_iff.mp h
      exact ⟨⟨_, .refused _, rfl⟩, fun hblocks => by cases hblocks⟩
  case h_2 =>
    obtain ⟨⟨ioTime, flag⟩, -, h⟩ := Option.bind_eq_some_iff.mp h
    cases h
    refine ⟨answer_of_poolIo, fun hblocks => ?_⟩
    cases free <;> cases hblocks
  case h_3 => cases h

theorem answer_of_functionPoolLine {free : Bool} {PC : ℕ} {line : CString} {f : LineEffect}
    (h : functionPoolLine free self image PC line = some f) :
    (∃ answer, PoolAnswer self image f.blocks answer ∧
      f.operations = answer ++ lineEnd f.ticks) ∧ f.blocks = false := by
  unfold functionPoolLine at h
  split at h
  case h_1 =>
    obtain ⟨⟨ioTime, flag⟩, -, h⟩ := Option.bind_eq_some_iff.mp h
    obtain ⟨varName, -, h⟩ := Option.bind_eq_some_iff.mp h
    unfold functionAssignPoolIo at h
    split_ifs at h
    · obtain ⟨data, -, rfl⟩ := Option.map_eq_some_iff.mp h
      exact ⟨⟨_, .accepted _, rfl⟩, rfl⟩
    · obtain ⟨data, -, rfl⟩ := Option.map_eq_some_iff.mp h
      exact ⟨⟨_, .refused _, rfl⟩, rfl⟩
  case h_2 =>
    obtain ⟨⟨ioTime, flag⟩, -, h⟩ := Option.bind_eq_some_iff.mp h
    cases h
    refine ⟨answer_of_poolIo, ?_⟩
    cases free <;> rfl
  case h_3 => cases h

/-- What a running script may ask of the shared state: nothing about the lists of images. -/
inductive ScriptOperation (self : Ptr) (clientfd : ℕ) : Operation → Prop
  | lock (m : Mutex) : ScriptOperation self clientfd (.lock m)
  | unlock (m : Mutex) : ScriptOperation self clientfd (.unlock m)
  | logCreate : ScriptOperation self clientfd .logCreate
  | logDestroy : ScriptOperation self clientfd .logDestroy
  | message (text : CString) : ScriptOperation self clientfd (.addMsg ⟨clientfd, 78, text⟩ self)
  | request (ioInfo : TIoInfo) : ScriptOperation self clientfd (.enqueueLPB ⟨self, ioInfo⟩)

theorem scriptOperation_lineEnd {clientfd : ℕ} {ticks : Bool} :
    ∀ op ∈ lineEnd ticks, ScriptOperation self clientfd op := by
  intro op hop
  cases ticks <;> simp only [lineEnd, tickOperations, quietOperations, if_true, Bool.false_eq_true,
    if_false, List.mem_cons, List.not_mem_nil, or_false] at hop
  · rcases hop with rfl | rfl | rfl | rfl
    · exact .lock _
    · exact .unlock _
    · exact .lock _
    · exact .unlock _
  · rcases hop with rfl | rfl | rfl
    · exact .lock _
    · exact .unlock _
    · exact .lock _

theorem scriptOperation_sendMsg {clientfd : ℕ} {text : CString} :
    ∀ op ∈ sendMsg ⟨clientfd, 78, text⟩ self, ScriptOperation self clientfd op := by
  simp only [sendMsg, List.mem_cons, List.not_mem_nil, or_false]
  rintro op (rfl | rfl | rfl)
  · exact .lock _
  · exact .message text
  · exact .unlock _

theorem scriptOperation_logWrite {clientfd : ℕ} :
    ∀ op ∈ logWrite, ScriptOperation self clientfd op := by
  simp only [logWrite, List.mem_cons, List.not_mem_nil, or_false]
  rintro op (rfl | rfl)
  · exact .lock _
  · exact .unlock _

theorem scriptOperation_blockingRequest {clientfd ioTime : ℕ} :
    ∀ op ∈ blockingRequest self ioTime, ScriptOperation self clientfd op := by
  intro op hop
  rw [blockingRequest, List.append_assoc, List.mem_append, List.mem_append] at hop
  rcases hop with hop | hop | hop
  · rw [List.mem_singleton] at hop
    exact hop ▸ .lock _
  · exact scriptOperation_logWrite op hop
  · simp only [List.mem_cons, List.not_mem_nil, or_false] at hop
    rcases hop with rfl | rfl
    · exact .request _
    · exact .unlock _

theorem LineOutput.scriptOperation {blocks : Bool} {output : List Operation}
    (h : LineOutput self image blocks output) :
    ∀ op ∈ output, ScriptOperation self image.clientfd op := by
  cases h with
  | nothing => exact fun op hop => absurd hop List.not_mem_nil
  | prints text => exact scriptOperation_sendMsg
  | blocks ioTime => exact scriptOperation_blockingRequest

theorem PoolAnswer.scriptOperation {blocks : Bool} {answer : List Operation}
    (h : PoolAnswer self image blocks answer) :
    ∀ op ∈ answer, ScriptOperation self image.clientfd op := by
  cases h with
  | accepted ioTime =>
    simp only [nonBlockingRequest, List.mem_cons, List.not_mem_nil, or_false]
    rintro op (rfl | rfl)
    · exact .request _
    · exact .unlock _
  | refused text =>
    intro op hop
    rw [refusedRequest, List.append_assoc, List.mem_append, List.mem_append] at hop
    rcases hop with hop | hop | hop
    · rw [List.mem_singleton] at hop
      exact hop ▸ .unlock _
    · exact scriptOperation_logWrite op hop
    · exact scriptOperation_sendMsg op hop
  | again ioTime => exact scriptOperation_blockingRequest

theorem LineEffect.Shaped.scriptOperation {f : LineEffect} (h : f.Shaped self image) :
    ∀ op ∈ f.operations, ScriptOperation self image.clientfd op := by
  intro op hop
  rcases h with ⟨hnil, -, -⟩ | ⟨output, houtput, heq⟩
  · rw [hnil] at hop
    exact absurd hop List.not_mem_nil
  · rw [heq, List.mem_append] at hop
    exact hop.elim (houtput.scriptOperation op) (scriptOperation_lineEnd op)

namespace Exec

theorem runLine_scriptOperation {e e' : Exec} {PC : ℕ} {outcome : LineOutcome}
    {ops : List Operation} {events : List Event} {clientfd : ℕ}
    (heffect : ∀ f, outcome = .effect f → ∀ op ∈ f.operations, ScriptOperation self clientfd op)
    (h : e.runLine code PC outcome = some (e', ops, events)) :
    ∀ op ∈ ops, ScriptOperation self clientfd op := by
  cases outcome with
  | effect f =>
    cases h
    exact heffect f rfl
  | asksPool =>
    cases h
    intro op hop
    rw [List.mem_singleton] at hop
    exact hop ▸ .lock _
  | call functionName =>
    obtain ⟨entry, -, -, rfl, -⟩ := runLine_call h
    intro op hop
    rw [List.mem_singleton] at hop
    exact hop ▸ .logCreate

theorem stackExecution_scriptOperation (e : Exec) {clientfd : ℕ} :
    ∀ op ∈ e.stackExecution.2, ScriptOperation self clientfd op := by
  intro op hop
  unfold stackExecution at hop
  split at hop
  · exact absurd hop List.not_mem_nil
  · rw [List.mem_singleton] at hop
    exact hop ▸ .logCreate

theorem Moves.scriptOperation {e e' : Exec} {ops : List Operation} {events : List Event}
    (h : Moves code quantum self env e e' ops events) :
    ∀ op ∈ ops, ScriptOperation self e.processImage.clientfd op := by
  cases h with
  | returns | leaves =>
    intro op hop
    rw [List.mem_singleton] at hop
    exact hop ▸ .logDestroy
  | resumes => exact stackExecution_scriptOperation e
  | runsLine _ _ _ _ _ _ _ houtcome hrun =>
    refine runLine_scriptOperation (fun f hf => ?_) hrun
    subst hf
    exact (shaped_of_processLine houtcome).scriptOperation
  | runsFunctionLine _ _ _ _ _ _ houtcome hrun =>
    refine runLine_scriptOperation (fun f hf => ?_) hrun
    subst hf
    exact (shaped_of_functionLine houtcome).scriptOperation
  | asksPool _ _ _ hf =>
    intro op hop
    obtain ⟨⟨answer, hanswer, heq⟩, -⟩ := answer_of_processPoolLine hf
    rw [heq, List.mem_append] at hop
    exact hop.elim (hanswer.scriptOperation op) (scriptOperation_lineEnd op)
  | asksPoolInFunction _ _ _ hf =>
    intro op hop
    obtain ⟨⟨answer, hanswer, heq⟩, -⟩ := answer_of_functionPoolLine hf
    rw [heq, List.mem_append] at hop
    exact hop.elim (hanswer.scriptOperation op) (scriptOperation_lineEnd op)
  | counts =>
    intro op hop
    rw [List.mem_singleton] at hop
    exact hop ▸ .unlock _

theorem enter_scriptOperation (self : Ptr) (clientfd : ℕ) (image : TProcessImage) :
    ∀ op ∈ (enter image).2, ScriptOperation self clientfd op := by
  intro op hop
  rw [enter, List.mem_cons] at hop
  rcases hop with rfl | hop
  · exact .logCreate
  · exact stackExecution_scriptOperation _ op hop

end Exec
end Sisop
