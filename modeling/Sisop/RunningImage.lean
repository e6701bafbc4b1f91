import Sisop.LineOperations

/-!
# What holds of a running image

A dispatch ends at `fin_programa`, blocked, at the end of its quantum or suspended, and never
blocked at `fin_programa`. A line that blocks is not `fin_programa`, and in a function
`processImage->PC` stays on the line of the outermost call.
-/

namespace Sisop

variable {code : List CString} {quantum : ℤ} {self : Ptr} {image : TProcessImage} {env : Env}

theorem effect_blocks_of_map {x : Option LineEffect} {f : LineEffect}
    (hx : ∀ f, x = some f → f.blocks = false)
    (h : x.map LineOutcome.effect = some (.effect f)) : f.blocks = false :=
  hx f (effect_of_map h)

theorem variablesLine_blocks {line : CString} {f : LineEffect}
    (h : variablesLine image line = some f) : f.blocks = false := by
  unfold variablesLine at h
  split_ifs at h
  obtain ⟨data, -, rfl⟩ := Option.map_eq_some_iff.mp h
  rfl

theorem imprimirLine_blocks {line : CString} {f : LineEffect}
    (h : imprimirLine self image line = some f) : f.blocks = false := by
  obtain ⟨varName, -, h⟩ := Option.bind_eq_some_iff.mp h
  obtain ⟨varValue, -, h⟩ := Option.bind_eq_some_iff.mp h
  cases h
  rfl

theorem assignLine_blocks {line : CString} {f : LineEffect}
    (h : assignLine image line = some f) : f.blocks = false := by
  obtain ⟨varName, -, h⟩ := Option.bind_eq_some_iff.mp h
  obtain ⟨varValue, -, h⟩ := Option.bind_eq_some_iff.mp h
  obtain ⟨data, -, h⟩ := Option.bind_eq_some_iff.mp h
  cases h
  rfl

theorem jumpLine_blocks {line : CString} {jumps : Int32 → Bool} {f : LineEffect}
    (h : jumpLine code image line jumps = some f) : f.blocks = false := by
  obtain ⟨varName, -, h⟩ := Option.bind_eq_some_iff.mp h
  obtain ⟨varValue, -, h⟩ := Option.bind_eq_some_iff.mp h
  obtain ⟨PC, -, h⟩ := Option.bind_eq_some_iff.mp h
  cases h
  rfl

/-- A line of the main program that blocks stays where it is and does not end the script. -/
theorem blocked_processLine {line : CString} {f : LineEffect}
    (h : processLine code self image line = some (.effect f)) (hblocks : f.blocks = true) :
    f.PC = image.PC ∧ line ≠ finPrograma := by
  unfold processLine at h
  cases hform : processForm line with
  | skip | other =>
    rw [hform] at h
    cases h
    cases hblocks
  | «variables» =>
    rw [hform] at h
    rw [effect_blocks_of_map (fun _ => variablesLine_blocks) h] at hblocks
    cases hblocks
  | imprimir =>
    rw [hform] at h
    rw [effect_blocks_of_map (fun _ => imprimirLine_blocks) h] at hblocks
    cases hblocks
  | ssc | snc =>
    rw [hform] at h
    rw [effect_blocks_of_map (fun _ => jumpLine_blocks) h] at hblocks
    cases hblocks
  | assign =>
    rw [hform] at h
    rw [effect_blocks_of_map (fun _ => assignLine_blocks) h] at hblocks
    cases hblocks
  | assignIo | io =>
    rw [hform] at h
    refine ⟨ioLine_PC h, ?_⟩
    rintro rfl
    exact absurd hform (by decide)
  | call =>
    rw [hform] at h
    cases h

theorem blocked_processPoolLine {free : Bool} {line : CString} {f : LineEffect}
    (h : processPoolLine free self image line = some f) (hblocks : f.blocks = true) :
    f.PC = image.PC ∧ line ≠ finPrograma := by
  refine ⟨processPoolLine_PC h, ?_⟩
  rintro rfl
  exact absurd ((answer_of_processPoolLine h).2 hblocks).2 (by decide)

namespace Exec

theorem io_of_keepsRunning {e : Exec} (h : e.keepsRunning quantum env = true) :
    env.SUSPEND = false ∧ e.ioBlockInterrupt = false ∧ (e.quantumCount : ℤ) < quantum := by
  simpa [keepsRunning, and_assoc] using h

theorem atFinPrograma_eq_false {e : Exec} {line : CString}
    (h : code[e.processImage.PC]? = some line) (hline : line ≠ finPrograma) :
    e.atFinPrograma code = false := by
  simpa [atFinPrograma, h] using hline

theorem AtCall.atFinPrograma {e : Exec} (h : e.AtCall code)
    (hactive : e.elements ≠ [] ∨ e.stack ≠ []) : e.atFinPrograma code = false := by
  obtain ⟨line, hline, hcall⟩ := h hactive
  exact atFinPrograma_eq_false hline (ne_finPrograma hcall)

theorem leaveFunction_eq (finished : Bool) (element : TStack) (rest : List TStack) (e : Exec) :
    ∃ stack elements, e.leaveFunction finished element rest =
      { e.setStack stack with elements } := by
  unfold leaveFunction
  dsimp only
  split <;> exact ⟨_, _, rfl⟩

theorem stackExecution_eq (e : Exec) :
    ∃ stack elements, e.stackExecution.1 = { e.setStack stack with elements } := by
  unfold stackExecution
  split
  · exact ⟨e.stack, e.elements, rfl⟩
  · exact ⟨_, _, rfl⟩

/-- What a line makes of the other fields than the elements: a call leaves all of them. -/
theorem runLine_eq {e e' : Exec} {PC : ℕ} {outcome : LineOutcome} {ops : List Operation}
    {events : List Event} (h : e.runLine code PC outcome = some (e', ops, events)) :
    (∃ f, outcome = .effect f ∧ e' = e.perform f) ∨
      (outcome = .asksPool ∧ e' = { e with point := .poolTest }) ∨
      ∃ elements, e' = { e with elements } := by
  cases outcome with
  | effect f =>
    cases h
    exact .inl ⟨f, rfl, rfl⟩
  | asksPool =>
    cases h
    exact .inr (.inl ⟨rfl, rfl⟩)
  | call functionName =>
    obtain ⟨entry, -, rfl, -, -⟩ := runLine_call h
    exact .inr (.inr ⟨_, rfl⟩)

/-- The connection, the text and the priority of a script stay what they were. -/
theorem Moves.identity {e e' : Exec} {ops : List Operation} {events : List Event}
    (h : Moves code quantum self env e e' ops events) :
    e'.processImage.clientfd = e.processImage.clientfd ∧
      e'.processImage.code = e.processImage.code ∧
      e'.processImage.priority = e.processImage.priority := by
  cases h with
  | returns | counts | asksPool | asksPoolInFunction => exact ⟨rfl, rfl, rfl⟩
  | resumes =>
    obtain ⟨stack, elements, heq⟩ := stackExecution_eq e
    rw [heq]
    exact ⟨rfl, rfl, rfl⟩
  | leaves =>
    rename_i element rest line _ _ _ _
    obtain ⟨stack, elements, heq⟩ :=
      leaveFunction_eq (isFinFuncion line element.functionName) element rest e
    rw [heq]
    exact ⟨rfl, rfl, rfl⟩
  | runsLine _ _ _ _ _ _ _ _ hrun | runsFunctionLine _ _ _ _ _ _ _ hrun =>
    obtain ⟨f, -, rfl⟩ | ⟨-, rfl⟩ | ⟨elements, rfl⟩ := runLine_eq hrun <;> exact ⟨rfl, rfl, rfl⟩

/-- A dispatch that has blocked does not run on and is not at `fin_programa`. -/
structure Sound (code : List CString) (e : Exec) : Prop where
  atCall : e.AtCall code
  pool : e.point = .poolTest → e.ioBlockInterrupt = false
  blocked : e.ioBlockInterrupt = true → e.atFinPrograma code = false

theorem perform_point (e : Exec) (f : LineEffect) : (e.perform f).point ≠ .poolTest := by
  rw [perform]
  cases f.ticks <;> simp

theorem perform_blocked {e : Exec} {f : LineEffect} (h : e.ioBlockInterrupt = false)
    (hblocked : (e.perform f).ioBlockInterrupt = true) : f.blocks = true := by
  simpa [perform, h] using hblocked

theorem Sound.of_running {e : Exec} (hatCall : e.AtCall code) (h : e.ioBlockInterrupt = false) :
    e.Sound code :=
  ⟨hatCall, fun _ => h, fun hblocked => absurd hblocked (by simp [h])⟩

/-- A line that blocks, run by a dispatch that has not blocked. -/
theorem Sound.perform {e : Exec} {f : LineEffect} (hatCall : (e.perform f).AtCall code)
    (hio : e.ioBlockInterrupt = false)
    (hblocks : f.blocks = true → ∃ line, code[f.PC]? = some line ∧ line ≠ finPrograma) :
    (e.perform f).Sound code := by
  refine ⟨hatCall, fun hpool => absurd hpool (perform_point e f), fun hblocked => ?_⟩
  obtain ⟨line, hline, hne⟩ := hblocks (perform_blocked hio hblocked)
  exact atFinPrograma_eq_false hline hne

theorem Moves.sound {e e' : Exec} {ops : List Operation} {events : List Event}
    (h : Moves code quantum self env e e' ops events) (he : e.Sound code) : e'.Sound code := by
  have hatCall := h.atCall he.atCall
  cases h with
  | returns => exact ⟨hatCall, by simp, he.blocked⟩
  | resumes _ _ _ _ hkeep =>
    refine .of_running hatCall ?_
    obtain ⟨stack, elements, heq⟩ := stackExecution_eq e
    rw [heq]
    exact (io_of_keepsRunning hkeep).2.1
  | @leaves element rest line =>
    obtain ⟨stack, elements, heq⟩ :=
      leaveFunction_eq (isFinFuncion line element.functionName) element rest e
    rw [heq] at hatCall ⊢
    exact ⟨hatCall, he.pool, he.blocked⟩
  | runsLine _ _ _ _ _ hkeep hnext houtcome hrun =>
    have hio := (io_of_keepsRunning hkeep).2.1
    obtain ⟨f, rfl, rfl⟩ | ⟨-, rfl⟩ | ⟨elements, rfl⟩ := runLine_eq hrun
    · refine .perform hatCall hio fun hblocks => ?_
      obtain ⟨hPC, hne⟩ := blocked_processLine houtcome hblocks
      rw [hPC]
      exact ⟨_, hnext, hne⟩
    · exact .of_running hatCall hio
    · exact .of_running hatCall hio
  | runsFunctionLine _ helements _ _ hkeep _ houtcome hrun =>
    have hio := (io_of_keepsRunning hkeep).2.1
    obtain ⟨f, rfl, rfl⟩ | ⟨-, rfl⟩ | ⟨elements, rfl⟩ := runLine_eq hrun
    · obtain ⟨line, hline, hcall⟩ := he.atCall (.inl (by simp [helements]))
      refine .perform hatCall hio fun _ => ⟨line, ?_, ne_finPrograma hcall⟩
      rw [functionLine_PC houtcome]
      exact hline
    · exact .of_running hatCall hio
    · exact .of_running hatCall hio
  | asksPool hpoint _ hline hf =>
    refine .perform hatCall (he.pool hpoint) fun hblocks => ?_
    obtain ⟨hPC, hne⟩ := blocked_processPoolLine hf hblocks
    rw [hPC]
    exact ⟨_, hline, hne⟩
  | asksPoolInFunction hpoint _ _ hf =>
    refine .of_running hatCall ?_
    rw [Exec.perform, (answer_of_functionPoolLine hf).2, he.pool hpoint]
    rfl
  | counts => exact ⟨hatCall, (by cases ·), he.blocked⟩

structure Bounded (quantum : ℤ) (e : Exec) : Prop where
  le : (e.quantumCount : ℤ) ≤ quantum
  lt : e.point = .poolTest ∨ e.point = .algTest → (e.quantumCount : ℤ) < quantum

theorem Bounded.of_lt {e : Exec} (h : (e.quantumCount : ℤ) < quantum) : e.Bounded quantum :=
  ⟨h.le, fun _ => h⟩

theorem Moves.bounded {e e' : Exec} {ops : List Operation} {events : List Event}
    (h : Moves code quantum self env e e' ops events) (he : e.Bounded quantum) :
    e'.Bounded quantum := by
  cases h with
  | returns => exact ⟨he.le, by simp⟩
  | resumes _ _ _ _ hkeep =>
    obtain ⟨stack, elements, heq⟩ := stackExecution_eq e
    rw [heq]
    exact .of_lt (io_of_keepsRunning hkeep).2.2
  | @leaves element rest line =>
    obtain ⟨stack, elements, heq⟩ :=
      leaveFunction_eq (isFinFuncion line element.functionName) element rest e
    rw [heq]
    exact ⟨he.le, he.lt⟩
  | runsLine _ _ _ _ _ hkeep _ _ hrun | runsFunctionLine _ _ _ _ hkeep _ _ hrun =>
    have hlt := (io_of_keepsRunning hkeep).2.2
    obtain ⟨f, -, rfl⟩ | ⟨-, rfl⟩ | ⟨elements, rfl⟩ := runLine_eq hrun <;> exact .of_lt hlt
  | asksPool hpoint | asksPoolInFunction hpoint => exact .of_lt (he.lt (.inl hpoint))
  | counts hpoint =>
    have hlt := he.lt (.inr hpoint)
    refine ⟨?_, by simp [algStep]⟩
    simp only [algStep]
    split_ifs
    · push_cast
      omega
    · exact hlt.le

/-- A dispatch that has returned is over in one of four ways. -/
def Ended (code : List CString) (quantum : ℤ) (SUSPEND : Bool) (e : Exec) : Prop :=
  e.point = .returned → e.atFinPrograma code = true ∨ e.ioBlockInterrupt = true ∨
    (e.quantumCount : ℤ) = quantum ∨ SUSPEND = true

/-- Only one move leads out of `processExecution`. -/
theorem Moves.of_returned {e e' : Exec} {ops : List Operation} {events : List Event}
    (h : Moves code quantum self env e e' ops events) (hreturned : e'.point = .returned) :
    e' = { e with point := .returned } ∧ ops = [.logDestroy] ∧
      (e.atFinPrograma code = true ∨ e.keepsRunning quantum env = false) := by
  cases h with
  | returns _ _ hline hstop =>
    exact ⟨rfl, rfl, hstop.imp_left fun hfin => by simp [atFinPrograma, hline, hfin]⟩
  | resumes hpoint =>
    obtain ⟨stack, elements, heq⟩ := stackExecution_eq e
    rw [heq] at hreturned
    rw [show e.point = .returned from hreturned] at hpoint
    cases hpoint
  | @leaves element rest line hpoint =>
    obtain ⟨stack, elements, heq⟩ :=
      leaveFunction_eq (isFinFuncion line element.functionName) element rest e
    rw [heq] at hreturned
    rw [show e.point = .returned from hreturned] at hpoint
    cases hpoint
  | runsLine hpoint _ _ _ _ _ _ _ hrun | runsFunctionLine hpoint _ _ _ _ _ _ hrun =>
    exact absurd hreturned (runLine_frames hrun (by simp [advanceProcess, advanceFunction,
      hpoint])).1
  | asksPool | asksPoolInFunction =>
    rw [perform] at hreturned
    dsimp only at hreturned
    split_ifs at hreturned
  | counts => cases hreturned

theorem Moves.ended {e e' : Exec} {ops : List Operation} {events : List Event}
    (h : Moves code quantum self env e e' ops events) (he : e.Bounded quantum) :
    e'.Ended code quantum env.SUSPEND := by
  intro hreturned
  obtain ⟨rfl, -, hfin | hstop⟩ := h.of_returned hreturned
  · exact .inl hfin
  · have hle := he.le
    simp only [keepsRunning, Bool.and_eq_false_iff, Bool.not_eq_false', decide_eq_false_iff_not]
      at hstop
    rcases hstop with (hsuspend | hio) | hquantum
    · exact .inr (.inr (.inr hsuspend))
    · exact .inr (.inl hio)
    · exact .inr (.inr (.inl (le_antisymm hle (not_lt.mp hquantum))))

end Exec
end Sisop
