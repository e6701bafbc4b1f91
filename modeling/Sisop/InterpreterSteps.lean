import Sisop.Interpreter

/-!
# The steps of the interpreter, one by one

`Exec.Moves` lists everything one step of `processExecution` or `functionExecution` can do; the
invariants of the processor are proved from this list.
-/

namespace Sisop

variable {code : List CString} {quantum : ℤ} {self : Ptr} {image : TProcessImage} {env : Env}

theorem imprimirLine_PC {line : CString} {f : LineEffect}
    (h : imprimirLine self image line = some f) : f.PC = image.PC := by
  obtain ⟨varName, -, h⟩ := Option.bind_eq_some_iff.mp h
  obtain ⟨varValue, -, h⟩ := Option.bind_eq_some_iff.mp h
  exact Option.some.inj h ▸ rfl

theorem assignLine_PC {line : CString} {f : LineEffect}
    (h : assignLine image line = some f) : f.PC = image.PC := by
  obtain ⟨varName, -, h⟩ := Option.bind_eq_some_iff.mp h
  obtain ⟨varValue, -, h⟩ := Option.bind_eq_some_iff.mp h
  obtain ⟨data, -, h⟩ := Option.bind_eq_some_iff.mp h
  exact Option.some.inj h ▸ rfl

theorem assignBlockingIo_PC {width : ℕ} {varName : UInt8} {ioTime : CString} {f : LineEffect}
    (h : assignBlockingIo width self image varName ioTime = some f) : f.PC = image.PC := by
  obtain ⟨data, -, rfl⟩ := Option.map_eq_some_iff.mp h
  rfl

theorem ioLine_PC {width offset : ℕ} {line : CString} {f : LineEffect}
    (h : ioLine width offset self image line = some (.effect f)) : f.PC = image.PC := by
  obtain ⟨⟨ioTime, flag⟩, -, h⟩ := Option.bind_eq_some_iff.mp h
  dsimp only at h
  split_ifs at h with hflag hoffset
  · cases h
  · cases h
    rfl
  · obtain ⟨varName, -, h⟩ := Option.bind_eq_some_iff.mp h
    obtain ⟨effect, heffect, h⟩ := Option.bind_eq_some_iff.mp h
    cases h
    exact assignBlockingIo_PC heffect

theorem ioLine_ne_call {width offset : ℕ} {line functionName : CString} :
    ioLine width offset self image line ≠ some (.call functionName) := by
  intro h
  obtain ⟨⟨ioTime, flag⟩, -, h⟩ := Option.bind_eq_some_iff.mp h
  dsimp only at h
  split_ifs at h with hflag hoffset
  · cases h
  · cases h
  · obtain ⟨varName, -, h⟩ := Option.bind_eq_some_iff.mp h
    obtain ⟨effect, -, h⟩ := Option.bind_eq_some_iff.mp h
    cases h

/-- Only a jump or a declaration would change `PC`, and a function knows no jumps. -/
theorem functionLine_PC {line : CString} {f : LineEffect}
    (h : functionLine self image line = some (.effect f)) : f.PC = image.PC := by
  unfold functionLine at h
  split at h
  · obtain ⟨f', hf, hff⟩ := Option.map_eq_some_iff.mp h
    cases hff
    exact imprimirLine_PC hf
  · obtain ⟨f', hf, hff⟩ := Option.map_eq_some_iff.mp h
    cases hff
    exact assignLine_PC hf
  · exact ioLine_PC h
  · exact ioLine_PC h
  · cases h
  · cases h
    rfl

theorem commonForm_call {line : CString} (h : commonForm line = .call) :
    stringEndsWith line (cstr "()") := by
  unfold commonForm at h
  split_ifs at h with h₁ h₂ h₃ h₄
  exact h₄

theorem processForm_call {line : CString} (h : processForm line = .call) :
    stringEndsWith line (cstr "()") := by
  unfold processForm at h
  split_ifs at h
  exact commonForm_call h

theorem processLine_call {line functionName : CString}
    (h : processLine code self image line = some (.call functionName)) :
    stringEndsWith line (cstr "()") := by
  cases hform : processForm line with
  | call => exact processForm_call hform
  | assignIo | io =>
    rw [processLine, hform] at h
    exact absurd h ioLine_ne_call
  | _ => simp [processLine, hform] at h

theorem functionLine_call {line functionName : CString}
    (h : functionLine self image line = some (.call functionName)) :
    functionForm line = .call := by
  cases hform : functionForm line with
  | call => rfl
  | assignIo | io =>
    rw [functionLine, hform] at h
    exact absurd h ioLine_ne_call
  | _ => simp [functionLine, hform] at h

theorem poolIo_PC {width : ℕ} {free : Bool} {lineNumber : ℕ} {ioTime : CString} :
    (poolIo width free self image lineNumber ioTime).PC = image.PC := by
  cases free <;> rfl

theorem processPoolLine_PC {free : Bool} {line : CString} {f : LineEffect}
    (h : processPoolLine free self image line = some f) : f.PC = image.PC := by
  unfold processPoolLine at h
  split at h
  · obtain ⟨⟨ioTime, flag⟩, -, h⟩ := Option.bind_eq_some_iff.mp h
    obtain ⟨varName, -, h⟩ := Option.bind_eq_some_iff.mp h
    unfold processAssignPoolIo at h
    split_ifs at h
    all_goals
      obtain ⟨data, -, rfl⟩ := Option.map_eq_some_iff.mp h
      rfl
  · obtain ⟨⟨ioTime, flag⟩, -, h⟩ := Option.bind_eq_some_iff.mp h
    cases h
    exact poolIo_PC
  · cases h

theorem functionPoolLine_PC {free : Bool} {PC : ℕ} {line : CString} {f : LineEffect}
    (h : functionPoolLine free self image PC line = some f) : f.PC = image.PC := by
  unfold functionPoolLine at h
  split at h
  · obtain ⟨⟨ioTime, flag⟩, -, h⟩ := Option.bind_eq_some_iff.mp h
    obtain ⟨varName, -, h⟩ := Option.bind_eq_some_iff.mp h
    unfold functionAssignPoolIo at h
    split_ifs at h
    all_goals
      obtain ⟨data, -, rfl⟩ := Option.map_eq_some_iff.mp h
      rfl
  · obtain ⟨⟨ioTime, flag⟩, -, h⟩ := Option.bind_eq_some_iff.mp h
    cases h
    exact poolIo_PC
  · cases h

theorem ne_finPrograma {line : CString} (h : stringEndsWith line (cstr "()")) :
    line ≠ finPrograma := by
  rintro rfl
  exact absurd h (by decide)

namespace Exec

inductive Moves (code : List CString) (quantum : ℤ) (self : Ptr) (env : Env) (e : Exec) :
    Exec → List Operation → List Event → Prop
  | returns {line : CString} : e.point = .loopTest → e.elements = [] →
      code[e.processImage.PC]? = some line →
      line = finPrograma ∨ e.keepsRunning quantum env = false →
      Moves code quantum self env e { e with point := .returned } [.logDestroy] []
  | resumes {line : CString} : e.point = .loopTest → e.elements = [] →
      code[e.processImage.PC]? = some line → line ≠ finPrograma →
      e.keepsRunning quantum env = true → e.stack ≠ [] →
      Moves code quantum self env e e.stackExecution.1 e.stackExecution.2 []
  | runsLine {line next : CString} {outcome : LineOutcome} {e' : Exec} {ops : List Operation}
      {events : List Event} : e.point = .loopTest → e.elements = [] → e.stack = [] →
      code[e.processImage.PC]? = some line → line ≠ finPrograma →
      e.keepsRunning quantum env = true → code[nextPC e.processImage.PC]? = some next →
      processLine code self e.advanceProcess.processImage next = some outcome →
      e.advanceProcess.runLine code (nextPC e.processImage.PC) outcome = some (e', ops, events) →
      Moves code quantum self env e e' ops events
  | leaves {element : TStack} {rest : List TStack} {line : CString} : e.point = .loopTest →
      e.elements = element :: rest → code[element.PC]? = some line →
      isFinFuncion line element.functionName = true ∨ e.keepsRunning quantum env = false →
      Moves code quantum self env e
        (e.leaveFunction (isFinFuncion line element.functionName) element rest) [.logDestroy] []
  | runsFunctionLine {element : TStack} {rest : List TStack} {line next : CString}
      {outcome : LineOutcome} {e' : Exec} {ops : List Operation} {events : List Event} :
      e.point = .loopTest → e.elements = element :: rest → code[element.PC]? = some line →
      isFinFuncion line element.functionName = false → e.keepsRunning quantum env = true →
      code[nextPC element.PC]? = some next →
      functionLine self e.processImage next = some outcome →
      (e.advanceFunction element rest).runLine code (nextPC element.PC) outcome =
        some (e', ops, events) →
      Moves code quantum self env e e' ops events
  | asksPool {line : CString} {f : LineEffect} : e.point = .poolTest → e.elements = [] →
      code[e.processImage.PC]? = some line →
      processPoolLine env.poolFree self e.processImage line = some f →
      Moves code quantum self env e (e.perform f) f.operations f.events
  | asksPoolInFunction {element : TStack} {rest : List TStack} {line : CString} {f : LineEffect} :
      e.point = .poolTest → e.elements = element :: rest → code[element.PC]? = some line →
      functionPoolLine env.poolFree self e.processImage element.PC line = some f →
      Moves code quantum self env e (e.perform f) f.operations f.events
  | counts : e.point = .algTest →
      Moves code quantum self env e (e.algStep env).1 [.unlock .alg] []

theorem step_process {e : Exec} (hpoint : e.point = .loopTest) (helements : e.elements = []) :
    e.step code quantum self env = e.processStep code quantum self env := by
  rw [step, hpoint, helements]

theorem step_function {e : Exec} {element : TStack} {rest : List TStack}
    (hpoint : e.point = .loopTest) (helements : e.elements = element :: rest) :
    e.step code quantum self env = e.functionStep code quantum self env element rest := by
  rw [step, hpoint, helements]

theorem moves_of_step {e e' : Exec} {ops : List Operation} {events : List Event}
    (h : e.step code quantum self env = some (e', ops, events)) :
    Moves code quantum self env e e' ops events := by
  rcases hpoint : e.point with _ | _ | _ | _
  · rcases helements : e.elements with _ | ⟨element, rest⟩
    · rw [step_process hpoint helements, processStep] at h
      obtain ⟨line, hline, h⟩ := Option.bind_eq_some_iff.mp h
      split_ifs at h with hkeep hstack
      · cases h
        exact .resumes hpoint helements hline hkeep.1 hkeep.2 hstack
      · obtain ⟨next, hnext, h⟩ := Option.bind_eq_some_iff.mp h
        obtain ⟨outcome, houtcome, h⟩ := Option.bind_eq_some_iff.mp h
        exact .runsLine hpoint helements (not_not.mp hstack) hline hkeep.1 hkeep.2 hnext houtcome h
      · cases h
        refine .returns hpoint helements hline ?_
        by_contra hnot
        push Not at hnot
        exact hkeep ⟨hnot.1, by simpa using hnot.2⟩
    · rw [step_function hpoint helements, functionStep] at h
      obtain ⟨line, hline, h⟩ := Option.bind_eq_some_iff.mp h
      split_ifs at h with hkeep
      · obtain ⟨next, hnext, h⟩ := Option.bind_eq_some_iff.mp h
        obtain ⟨outcome, houtcome, h⟩ := Option.bind_eq_some_iff.mp h
        exact .runsFunctionLine hpoint helements hline (by simpa using hkeep.1) hkeep.2 hnext
          houtcome h
      · cases h
        refine .leaves hpoint helements hline ?_
        by_contra hnot
        push Not at hnot
        exact hkeep ⟨by simpa using hnot.1, by simpa using hnot.2⟩
  · rw [step, hpoint] at h
    simp only [poolStep] at h
    rcases helements : e.elements with _ | ⟨element, rest⟩
    · rw [helements] at h
      obtain ⟨f, hf, h⟩ := Option.bind_eq_some_iff.mp h
      obtain ⟨line, hline, hf⟩ := Option.bind_eq_some_iff.mp hf
      cases h
      exact .asksPool hpoint helements hline hf
    · rw [helements] at h
      obtain ⟨f, hf, h⟩ := Option.bind_eq_some_iff.mp h
      obtain ⟨line, hline, hf⟩ := Option.bind_eq_some_iff.mp hf
      cases h
      exact .asksPoolInFunction hpoint helements hline hf
  · simp only [step, hpoint] at h
    cases h
    exact .counts hpoint
  · simp only [step, hpoint] at h
    cases h

theorem step_of_moves {e e' : Exec} {ops : List Operation} {events : List Event}
    (h : Moves code quantum self env e e' ops events) :
    e.step code quantum self env = some (e', ops, events) := by
  cases h with
  | returns hpoint helements hline hstop =>
    rw [step_process hpoint helements, processStep, hline]
    exact if_neg fun hkeep => hstop.elim hkeep.1 (by simp [hkeep.2])
  | resumes hpoint helements hline hne hkeep hstack =>
    rw [step_process hpoint helements, processStep, hline]
    exact (if_pos ⟨hne, hkeep⟩).trans (if_pos hstack)
  | runsLine hpoint helements hstack hline hne hkeep hnext houtcome hrun =>
    rw [step_process hpoint helements, processStep, hline]
    refine (if_pos ⟨hne, hkeep⟩).trans ((if_neg (not_not.mpr hstack)).trans ?_)
    refine Option.bind_eq_some_iff.mpr ⟨_, hnext, ?_⟩
    exact Option.bind_eq_some_iff.mpr ⟨_, houtcome, hrun⟩
  | leaves hpoint helements hline hstop =>
    rw [step_function hpoint helements, functionStep, hline]
    exact if_neg fun hkeep => hstop.elim hkeep.1 (by simp [hkeep.2])
  | runsFunctionLine hpoint helements hline hfin hkeep hnext houtcome hrun =>
    rw [step_function hpoint helements, functionStep, hline]
    refine (if_pos ⟨by simp [hfin], hkeep⟩).trans ?_
    refine Option.bind_eq_some_iff.mpr ⟨_, hnext, ?_⟩
    exact Option.bind_eq_some_iff.mpr ⟨_, houtcome, hrun⟩
  | asksPool hpoint helements hline hf =>
    rw [step, hpoint]
    simp only [poolStep, helements, hline, Option.bind_some, hf]
    rfl
  | asksPoolInFunction hpoint helements hline hf =>
    rw [step, hpoint]
    simp only [poolStep, helements, hline, Option.bind_some, hf]
    rfl
  | counts hpoint =>
    rw [step, hpoint]
    rfl

theorem stackExecution_of_nil {e : Exec} (h : e.stack = []) : e.stackExecution = (e, []) := by
  rw [stackExecution, h, List.getLast?_nil]

theorem stackExecution_of_concat {e : Exec} {element : TStack} {stack : List TStack}
    (h : e.stack = stack ++ [element]) :
    e.stackExecution =
      ({ e.setStack stack with elements := element :: e.elements }, [.logCreate]) := by
  rw [stackExecution, h, List.getLast?_concat, List.dropLast_concat]

/-- A call runs in a function of its own; the list of the image is as it was. -/
theorem call_eq (e : Exec) (linecall : ℕ) (functionName : CString) :
    e.call code linecall functionName = (findFunctionLine code functionName).map fun PC =>
      ({ e with elements := ⟨functionName, PC, linecall⟩ :: e.elements }, [.logCreate]) := by
  refine congrArg (Option.map · _) (funext fun PC => ?_)
  have hstack : (e.setStack (e.stack ++ [⟨functionName, PC, linecall⟩])).stack =
      e.stack ++ [⟨functionName, PC, linecall⟩] := rfl
  rw [stackExecution_of_concat hstack]
  rfl

@[simp] theorem stackExecution_PC (e : Exec) :
    e.stackExecution.1.processImage.PC = e.processImage.PC := by
  unfold stackExecution
  split <;> rfl

@[simp] theorem leaveFunction_PC (finished : Bool) (element : TStack) (rest : List TStack)
    (e : Exec) :
    (e.leaveFunction finished element rest).processImage.PC = e.processImage.PC := by
  unfold leaveFunction
  dsimp only
  split <;> rfl

/-- While calls are active, `processImage->PC` stays on the line of the outermost one. -/
def AtCall (code : List CString) (e : Exec) : Prop :=
  e.elements ≠ [] ∨ e.stack ≠ [] →
    ∃ line, code[e.processImage.PC]? = some line ∧ stringEndsWith line (cstr "()") = true

theorem AtCall.of_PC_eq {e e' : Exec} (h : e.AtCall code)
    (hactive : e.elements ≠ [] ∨ e.stack ≠ []) (hPC : e'.processImage.PC = e.processImage.PC) :
    e'.AtCall code := by
  intro _
  rw [hPC]
  exact h hactive

theorem runLine_call {e e' : Exec} {PC : ℕ} {functionName : CString} {ops : List Operation}
    {events : List Event}
    (h : e.runLine code PC (.call functionName) = some (e', ops, events)) :
    ∃ entry, findFunctionLine code functionName = some entry ∧
      e' = { e with elements := ⟨functionName, entry, PC⟩ :: e.elements } ∧
      ops = [.logCreate] ∧ events = [.line PC] := by
  obtain ⟨⟨e₁, ops₁⟩, hcall, h⟩ := Option.map_eq_some_iff.mp h
  cases h
  rw [call_eq] at hcall
  obtain ⟨entry, hentry, hcall⟩ := Option.map_eq_some_iff.mp hcall
  cases hcall
  exact ⟨entry, hentry, rfl, rfl, rfl⟩

/-- A line leaves the list of the image alone, and only a call starts a function. -/
theorem runLine_frames {e e' : Exec} {PC : ℕ} {outcome : LineOutcome} {ops : List Operation}
    {events : List Event} (h : e.runLine code PC outcome = some (e', ops, events))
    (hpoint : e.point ≠ .returned) :
    e'.point ≠ .returned ∧ e'.stack = e.stack ∧
      (e'.elements = e.elements ∨
        (∃ functionName, outcome = .call functionName) ∧ e'.elements.tail = e.elements) := by
  cases outcome with
  | effect f =>
    cases h
    refine ⟨?_, rfl, .inl rfl⟩
    rw [perform]
    cases f.ticks <;> simp
  | asksPool =>
    cases h
    exact ⟨by simp, rfl, .inl rfl⟩
  | call functionName =>
    obtain ⟨entry, -, rfl, -, -⟩ := runLine_call h
    exact ⟨hpoint, rfl, .inr ⟨⟨functionName, rfl⟩, rfl⟩⟩

theorem Moves.atCall {e e' : Exec} {ops : List Operation} {events : List Event}
    (h : Moves code quantum self env e e' ops events) (he : e.AtCall code) : e'.AtCall code := by
  cases h with
  | returns => exact he
  | resumes _ _ _ _ _ hstack => exact he.of_PC_eq (.inr hstack) (stackExecution_PC e)
  | @runsLine line next outcome e' ops events _ helements hstack _ _ _ hnext houtcome hrun =>
    have hidle : ¬ (e.elements ≠ [] ∨ e.stack ≠ []) := by simp [helements, hstack]
    cases outcome with
    | effect f =>
      cases hrun
      exact fun hactive => absurd hactive hidle
    | asksPool =>
      cases hrun
      exact fun hactive => absurd hactive hidle
    | call functionName =>
      obtain ⟨entry, -, rfl, -, -⟩ := runLine_call hrun
      exact fun _ => ⟨next, hnext, processLine_call houtcome⟩
  | @leaves element rest line _ helements =>
    exact he.of_PC_eq (.inl (by simp [helements])) (leaveFunction_PC _ _ _ e)
  | @runsFunctionLine element rest line next outcome e' ops events _ helements _ _ _ _ houtcome
      hrun =>
    have hactive : e.elements ≠ [] ∨ e.stack ≠ [] := .inl (by simp [helements])
    cases outcome with
    | effect f =>
      cases hrun
      exact he.of_PC_eq hactive (functionLine_PC houtcome)
    | asksPool =>
      cases hrun
      exact he.of_PC_eq hactive rfl
    | call functionName =>
      obtain ⟨entry, -, rfl, -, -⟩ := runLine_call hrun
      exact he.of_PC_eq hactive rfl
  | @asksPool line f _ _ _ hf =>
    intro hactive
    rw [perform, processPoolLine_PC hf]
    exact he hactive
  | @asksPoolInFunction element rest line f _ _ _ hf =>
    intro hactive
    rw [perform, functionPoolLine_PC hf]
    exact he hactive
  | counts => exact he

end Exec
end Sisop
