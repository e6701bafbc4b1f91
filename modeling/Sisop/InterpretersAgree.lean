import Sisop.PreemptionTransparency

/-!
# Where the two interpreters agree

One iteration of `processExecution` and one of `functionExecution` start on the same line with
the same process. An iteration ends back at the loop test it began with, so that of a call
includes the run of the function. While a called function is active, who called it plays no role
for the steps: the two runs go on in lockstep until it returns.
-/

namespace Sisop

variable {code : List CString} {quantum : ℤ} {self : Ptr} {image : TProcessImage} {env : Env}

def Operation.entry : Operation → Option TIoProcessing
  | .enqueueLPB e => some e
  | _ => none

def Operation.recipient : Operation → Option ℕ
  | .addMsg m _ => some m.fd
  | _ => none

/-- What an iteration leaves behind, the texts of the messages aside. -/
structure IterationEffect where
  data : DataArray
  entries : List TIoProcessing
  recipients : List ℕ
  ioBlockInterrupt : Bool
  quantumCount : ℕ
  rafaga : ℕ
  deriving DecidableEq

/-- The part of a line's effect that an iteration adds to the state before it. -/
structure LineSummary where
  data : DataArray
  entries : List TIoProcessing
  recipients : List ℕ
  blocks : Bool
  ticks : Bool
  deriving DecidableEq

def LineEffect.summary (f : LineEffect) : LineSummary :=
  ⟨f.data, f.operations.filterMap Operation.entry, f.operations.filterMap Operation.recipient,
    f.blocks, f.ticks⟩

namespace Exec

def effect (e : Exec) (ops : List Operation) : IterationEffect :=
  ⟨e.processImage.data, ops.filterMap Operation.entry, ops.filterMap Operation.recipient,
    e.ioBlockInterrupt, e.quantumCount, e.rafaga⟩

/-- The same process inside the functions of `callers`, the outermost one called at `PC`. -/
def within (PC : ℕ) (callers : List TStack) (e : Exec) : Exec :=
  { e with
    processImage := { e.processImage with PC }
    elements := e.elements ++ callers }

/-- Back at the loop test of an interpreter with `depth` active functions. -/
def atIterationEnd (depth : ℕ) (e : Exec) : Bool :=
  e.point == .loopTest && decide (e.elements.length ≤ depth)

def iteration (code : List CString) (quantum : ℤ) (self : Ptr) (depth : ℕ) :
    List Env → Exec → Option (Exec × List Operation)
  | [], _ => none
  | env :: envs, e =>
    (e.step code quantum self env).bind fun r =>
      if r.1.atIterationEnd depth then if envs = [] then some (r.1, r.2.1) else none
      else (iteration code quantum self depth envs r.1).map fun last =>
        (last.1, r.2.1 ++ last.2)

def iterationEffect (code : List CString) (quantum : ℤ) (self : Ptr) (depth : ℕ)
    (envs : List Env) (e : Exec) : Option IterationEffect :=
  (e.iteration code quantum self depth envs).map fun r => r.1.effect r.2

end Exec

/-- The environments of an iteration that the loop test lets through and that finds, where it
asks the pool, what `free` says. -/
structure Lets (free : Bool) (envs : List Env) : Prop where
  enters : ∀ env ∈ envs.head?, env.SUSPEND = false
  asks : ∀ env ∈ envs.tail.head?, env.poolFree = free

/-- Both iterations end after the same steps with the same effect, or neither one ends. -/
def Agree (code : List CString) (quantum : ℤ) (self : Ptr) (free : Bool) (e f : Exec) : Prop :=
  ∀ envs, Lets free envs → e.iterationEffect code quantum self e.elements.length envs =
    f.iterationEffect code quantum self f.elements.length envs

/-- `processExecution` is about to run the line that `element` would run next. -/
structure SameLine (code : List CString) (quantum : ℤ) (e : Exec) (element : TStack)
    (line : CString) : Prop where
  point : e.point = .loopTest
  elements : e.elements = []
  stack : e.stack = []
  PC : element.PC = e.processImage.PC
  goesOn : ∃ before, code[e.processImage.PC]? = some before ∧ before ≠ finPrograma ∧
    isFinFuncion before element.functionName = false
  unblocked : e.ioBlockInterrupt = false
  underQuantum : (e.quantumCount : ℤ) < quantum
  line : code[nextPC e.processImage.PC]? = some line

/-- The condition on the line: an I/O time must fit in sixteen bits, `v=io(t,0)` must find no
thread free, and the name of a called function must not read as an instruction of
`processExecution` alone, unless both interpreters leave the script or its variables. -/
def Agreeable (code : List CString) (self : Ptr) (free : Bool) (image : TProcessImage)
    (line : CString) : Prop :=
  match processForm line with
  | .assignIo =>
    (∀ varName ∈ (line)[0]?, (readData image.data varName).isSome) →
      ∀ request ∈ ioRequest line 5,
        if request.2 = 48 then free = false else ioTimeOf 32 request.1 < 2 ^ 16
  | .io =>
    ∀ request ∈ ioRequest line 3,
      (request.2 = 48 ∧ free = false) ∨ ioTimeOf 32 request.1 < 2 ^ 16
  | .variables | .ssc | .snc =>
    processLine code self image line = none ∧
      findFunctionLine code (line.takeWhile (· != 40)) = none
  | _ => True

theorem lets_nil {free : Bool} (atTest : Env) (h : atTest.SUSPEND = false) :
    Lets free [atTest] := by
  constructor <;> simp [h]

theorem lets_cons {free : Bool} (atTest atPool : Env) (envs : List Env) (h : atTest.SUSPEND = false)
    (hfree : atPool.poolFree = free) : Lets free (atTest :: atPool :: envs) := by
  constructor <;> simp [h, hfree]

section Summary

/-- How an iteration ends once its line has had the effect `s`. -/
def LineSummary.ending (e : Exec) (s : LineSummary) : List Env → Option IterationEffect
  | [] =>
    if s.ticks then none
    else some ⟨s.data, s.entries, s.recipients, e.ioBlockInterrupt || s.blocks, e.quantumCount,
      e.rafaga⟩
  | [env] =>
    if s.ticks then
      some ⟨s.data, s.entries, s.recipients, e.ioBlockInterrupt || s.blocks,
        if env.rr then e.quantumCount + 1 else e.quantumCount, e.rafaga + 1⟩
    else none
  | _ => none

theorem LineSummary.ending_inj {e : Exec} (he : e.ioBlockInterrupt = false) {s s' : LineSummary}
    {env : Env} (hnil : s.ending e [] = s'.ending e [])
    (hone : s.ending e [env] = s'.ending e [env]) : s = s' := by
  obtain ⟨data, entries, recipients, blocks, ticks⟩ := s
  obtain ⟨data', entries', recipients', blocks', ticks'⟩ := s'
  cases ticks <;> cases ticks' <;> simp_all [ending]

theorem LineSummary.ending_isSome (e : Exec) (s : LineSummary) (env : Env) :
    (s.ending e []).isSome ∨ (s.ending e [env]).isSome := by
  obtain ⟨data, entries, recipients, blocks, ticks⟩ := s
  cases ticks <;> simp [ending]

/-- Two lines that may be undefined end alike exactly when they have the same summary. -/
theorem ending_congr_iff {e : Exec} (he : e.ioBlockInterrupt = false)
    {x y : Option LineSummary} (env : Env) :
    (x.bind (·.ending e []) = y.bind (·.ending e []) ∧
      x.bind (·.ending e [env]) = y.bind (·.ending e [env])) ↔ x = y := by
  constructor
  · rintro ⟨hnil, hone⟩
    rcases x with _ | s <;> rcases y with _ | s' <;>
      simp only [Option.bind_none, Option.bind_some] at hnil hone
    · rfl
    · have hsome := s'.ending_isSome e env
      rw [← hnil, ← hone] at hsome
      simp at hsome
    · have hsome := s.ending_isSome e env
      rw [hnil, hone] at hsome
      simp at hsome
    · exact congrArg some (LineSummary.ending_inj he hnil hone)
  · rintro rfl
    exact ⟨rfl, rfl⟩

end Summary

/-- What the later steps leave, with the operations of the first one in front. -/
def IterationEffect.after (ops : List Operation) (later : IterationEffect) : IterationEffect :=
  { later with
    entries := ops.filterMap Operation.entry ++ later.entries
    recipients := ops.filterMap Operation.recipient ++ later.recipients }

section Iteration

variable {e e' : Exec} {depth : ℕ} {envs : List Env} {ops : List Operation} {events : List Event}

namespace Exec

theorem iterationEffect_nil : e.iterationEffect code quantum self depth [] = none := rfl

theorem iterationEffect_stuck (h : e.step code quantum self env = none) :
    e.iterationEffect code quantum self depth (env :: envs) = none := by
  rw [iterationEffect, iteration, h]
  rfl

theorem iterationEffect_last (h : e.step code quantum self env = some (e', ops, events))
    (hend : e'.atIterationEnd depth = true) :
    e.iterationEffect code quantum self depth (env :: envs) =
      if envs = [] then some (e'.effect ops) else none := by
  rw [iterationEffect, iteration, h]
  simp only [Option.bind_some, hend, if_true]
  split_ifs <;> rfl

theorem iterationEffect_step (h : e.step code quantum self env = some (e', ops, events))
    (hend : e'.atIterationEnd depth = false) :
    e.iterationEffect code quantum self depth (env :: envs) =
      (e'.iterationEffect code quantum self depth envs).map (IterationEffect.after ops) := by
  rw [iterationEffect, iteration, h]
  simp only [Option.bind_some, hend, Bool.false_eq_true, if_false, iterationEffect,
    Option.map_map]
  refine congrArg (Option.map · _) (funext fun r => ?_)
  simp [effect, IterationEffect.after]

theorem perform_atIterationEnd (f : LineEffect) (h : e.elements.length ≤ depth) :
    (e.perform f).atIterationEnd depth = !f.ticks := by
  cases hticks : f.ticks <;> simp [atIterationEnd, h, perform, hticks]

/-- A line with an effect of its own ends its iteration, at once or behind one more step. -/
theorem iterationEffect_perform {e₁ : Exec} {f : LineEffect} (before : List Operation)
    (h : e.step code quantum self env = some (e₁.perform f, before ++ f.operations, events))
    (hdepth : e₁.elements.length ≤ depth) (hentries : before.filterMap Operation.entry = [])
    (hrecipients : before.filterMap Operation.recipient = []) :
    e.iterationEffect code quantum self depth (env :: envs) = f.summary.ending e₁ envs := by
  cases hticks : f.ticks with
  | false =>
    have hend := perform_atIterationEnd f hdepth
    rw [hticks] at hend
    rw [iterationEffect_last h hend]
    cases envs with
    | nil => simp [LineSummary.ending, LineEffect.summary, hticks, effect, perform, hentries,
        hrecipients]
    | cons env envs => cases envs <;> simp [LineSummary.ending, LineEffect.summary, hticks]
  | true =>
    have hend := perform_atIterationEnd f hdepth
    rw [hticks] at hend
    rw [iterationEffect_step h hend]
    cases envs with
    | nil => simp [LineSummary.ending, LineEffect.summary, hticks, iterationEffect_nil]
    | cons env envs =>
      have hstep : (e₁.perform f).step code quantum self env =
          some ((e₁.perform f).algStep env) := by
        simp [step, perform, hticks]
      have hback : ((e₁.perform f).algStep env).1.atIterationEnd depth = true := by
        simp [atIterationEnd, algStep, perform, hdepth]
      rw [iterationEffect_last hstep hback]
      cases envs with
      | nil =>
        simp [LineSummary.ending, LineEffect.summary, hticks, effect, perform, hentries,
          hrecipients, IterationEffect.after, Operation.entry, Operation.recipient]
      | cons env' envs => simp [LineSummary.ending]

theorem step_asksPool {line : CString} (helements : e.elements = [])
    (hline : code[e.processImage.PC]? = some line) :
    ({ e with point := .poolTest } : Exec).step code quantum self env =
      (processPoolLine env.poolFree self e.processImage line).map
        fun f => (e.perform f, f.operations, f.events) := by
  obtain ⟨image, elements, ioBlockInterrupt, quantumCount, rafaga, point⟩ := e
  obtain rfl : elements = [] := helements
  refine (congrArg (· >>= _) (congrArg (Option.bind · _) hline)).trans ?_
  rw [Option.bind_some]
  cases processPoolLine env.poolFree self image line <;> rfl

theorem step_asksPoolInFunction {element : TStack} {rest : List TStack} {line : CString}
    (helements : e.elements = element :: rest) (hline : code[element.PC]? = some line) :
    ({ e with point := .poolTest } : Exec).step code quantum self env =
      (functionPoolLine env.poolFree self e.processImage element.PC line).map
        fun f => (e.perform f, f.operations, f.events) := by
  obtain ⟨image, elements, ioBlockInterrupt, quantumCount, rafaga, point⟩ := e
  obtain rfl : elements = element :: rest := helements
  refine (congrArg (· >>= _) (congrArg (Option.bind · _) hline)).trans ?_
  rw [Option.bind_some]
  cases functionPoolLine env.poolFree self image element.PC line <;> rfl

/-- A line that asks the pool has its effect one step later. -/
theorem iterationEffect_asksPool {e₁ : Exec} (x : Bool → Option LineEffect)
    (h : e.step code quantum self env =
      some ({ e₁ with point := .poolTest }, [.lock .lpb], events))
    (hpool : ∀ env, ({ e₁ with point := .poolTest } : Exec).step code quantum self env =
      (x env.poolFree).map fun f => (e₁.perform f, f.operations, f.events))
    (hdepth : e₁.elements.length ≤ depth) :
    e.iterationEffect code quantum self depth (env :: envs) =
      envs.head?.bind fun env => ((x env.poolFree).map (·.summary)).bind
        (·.ending e₁ envs.tail) := by
  rw [iterationEffect_step h (by simp [atIterationEnd])]
  cases envs with
  | nil => rfl
  | cons env envs =>
    have hafter : IterationEffect.after [.lock .lpb] = id := rfl
    rw [hafter, Option.map_id, id]
    cases hx : x env.poolFree with
    | none =>
      rw [iterationEffect_stuck (by rw [hpool, hx]; rfl)]
      simp [hx]
    | some f =>
      have hstep := hpool env
      rw [hx, Option.map_some] at hstep
      rw [iterationEffect_perform [] hstep hdepth rfl rfl]
      simp [hx]

end Exec

end Iteration

section PCIndependence

variable {line : CString} {PC : ℕ}

def LineEffect.withPC (PC : ℕ) (f : LineEffect) : LineEffect := { f with PC }

def LineOutcome.withPC (PC : ℕ) : LineOutcome → LineOutcome
  | .effect f => .effect (f.withPC PC)
  | .asksPool => .asksPool
  | .call functionName => .call functionName

@[simp] theorem LineEffect.summary_withPC (PC : ℕ) (f : LineEffect) :
    (f.withPC PC).summary = f.summary := rfl

theorem imprimirLine_withPC : imprimirLine self { image with PC } line =
    (imprimirLine self image line).map (LineEffect.withPC PC) := by
  simp only [imprimirLine]
  cases charAt line (cstr "imprimir,").length with
  | none => rfl
  | some varName => cases h : readData image.data varName <;> simp [h, LineEffect.withPC]

theorem assignLine_withPC : assignLine { image with PC } line =
    (assignLine image line).map (LineEffect.withPC PC) := by
  simp only [assignLine]
  cases (line)[0]? with
  | none => rfl
  | some varName =>
    cases hvalue : evalTerms image.data (line.drop 2) 61 [] 0 with
    | none => simp
    | some varValue =>
      cases h : writeData image.data varName varValue <;> simp [h, LineEffect.withPC]

theorem assignBlockingIo_withPC {width : ℕ} {varName : UInt8} {ioTime : CString} :
    assignBlockingIo width self { image with PC } varName ioTime =
      (assignBlockingIo width self image varName ioTime).map (LineEffect.withPC PC) := by
  simp only [assignBlockingIo, Option.map_map]
  rfl

theorem ioLine_withPC {width offset : ℕ} : ioLine width offset self { image with PC } line =
    (ioLine width offset self image line).map (LineOutcome.withPC PC) := by
  simp only [ioLine]
  cases ioRequest line offset with
  | none => rfl
  | some request =>
    simp only [Option.bind_eq_bind, Option.bind_some]
    split_ifs with hflag hoffset
    · rfl
    · rfl
    · cases (line)[0]? with
      | none => rfl
      | some varName =>
        rw [Option.bind_some, Option.bind_some, assignBlockingIo_withPC]
        cases assignBlockingIo width self image varName request.1 <;> rfl

/-- A function reads the line of the outermost call nowhere. -/
theorem functionLine_withPC : functionLine self { image with PC } line =
    (functionLine self image line).map (LineOutcome.withPC PC) := by
  unfold functionLine
  cases functionForm line with
  | imprimir =>
    simp only [imprimirLine_withPC, Option.map_map]
    rfl
  | assign =>
    simp only [assignLine_withPC, Option.map_map]
    rfl
  | assignIo | io => exact ioLine_withPC
  | _ => rfl

theorem functionPoolLine_withPC {free : Bool} {n : ℕ} :
    functionPoolLine free self { image with PC } n line =
      (functionPoolLine free self image n line).map (LineEffect.withPC PC) := by
  unfold functionPoolLine
  cases functionForm line with
  | assignIo =>
    cases ioRequest line 5 with
    | none => rfl
    | some request =>
      cases (line)[0]? with
      | none => rfl
      | some varName =>
        simp only [functionAssignPoolIo, Option.bind_eq_bind, Option.bind_some]
        split_ifs <;> simp only [Option.map_map] <;> rfl
  | io =>
    cases ioRequest line 3 with
    | none => rfl
    | some request => cases free <;> rfl
  | _ => rfl

end PCIndependence

section Lockstep

namespace Exec

variable {e e' : Exec} {element : TStack} {rest callers : List TStack} {PC : ℕ}
  {ops : List Operation} {events : List Event}

theorem runLine_within {n : ℕ} {outcome : LineOutcome} :
    (e.within PC callers).runLine code n (outcome.withPC PC) =
      (e.runLine code n outcome).map fun r => (r.1.within PC callers, r.2) := by
  cases outcome with
  | effect f => rfl
  | asksPool => rfl
  | call functionName =>
    simp only [LineOutcome.withPC, runLine, call_eq, Option.map_map]
    rfl

/-- With a caller of its own, a function leaves the ones further out alone. -/
theorem leaveFunction_within (finished : Bool) (h : rest ≠ []) :
    (e.within PC callers).leaveFunction finished element (rest ++ callers) =
      (e.leaveFunction finished element rest).within PC callers := by
  have hstack : (e.within PC callers).stack = e.stack := rfl
  cases rest with
  | nil => exact absurd rfl h
  | cons caller outer =>
    simp only [leaveFunction, hstack, List.cons_append]
    generalize (if finished = true then e.stack else e.stack ++ [element]) = stack
    cases stack.getLast? <;> rfl

theorem length_leaveFunction (finished : Bool) :
    (e.leaveFunction finished element rest).elements.length = rest.length := by
  unfold leaveFunction
  dsimp only
  split <;> rfl

/-- The end of a function moves elements, whatever the number of its callers. -/
theorem leaveFunction_ends (e : Exec) (finished : Bool) (element : TStack) (rest : List TStack)
    (h : e.point = .loopTest) (ops : List Operation) :
    (e.leaveFunction finished element rest).atIterationEnd rest.length = true ∧
      (e.leaveFunction finished element rest).effect ops = e.effect ops := by
  have hlength : (e.leaveFunction finished element rest).elements.length = rest.length :=
    length_leaveFunction finished
  constructor
  · have hpoint : (e.leaveFunction finished element rest).point = e.point := by
      unfold leaveFunction
      dsimp only
      split <;> rfl
    simp [atIterationEnd, hpoint, h, hlength]
  · unfold leaveFunction
    dsimp only
    split <;> rfl

/-- The loop test of a called function and its iteration, when it goes on or returns to another
function. -/
theorem functionStep_within
    (h : rest ≠ [] ∨ ∀ line, code[element.PC]? = some line →
      isFinFuncion line element.functionName = false ∧ e.keepsRunning quantum env = true) :
    (e.within PC callers).functionStep code quantum self env element (rest ++ callers) =
      (e.functionStep code quantum self env element rest).map
        fun r => (r.1.within PC callers, r.2) := by
  have hkeeps : (e.within PC callers).keepsRunning quantum env = e.keepsRunning quantum env := rfl
  simp only [functionStep, hkeeps]
  cases hline : code[element.PC]? with
  | none => rfl
  | some line =>
    simp only [Option.bind_eq_bind, Option.bind_some]
    split_ifs with hgoes
    · cases code[nextPC element.PC]? with
      | none => rfl
      | some next =>
        have hadvance : ((e.within PC callers).advanceFunction element (rest ++ callers)) =
            (e.advanceFunction element rest).within PC callers := rfl
        have himage : ((e.advanceFunction element rest).within PC callers).processImage =
            { e.processImage with PC } := rfl
        have hrest : (e.advanceFunction element rest).processImage = e.processImage := rfl
        simp only [Option.bind_some, hadvance, himage, hrest, functionLine_withPC]
        cases functionLine self e.processImage next with
        | none => rfl
        | some outcome => exact runLine_within
    · have hrest : rest ≠ [] := by
        refine h.resolve_right fun hline' => hgoes ?_
        exact ⟨by simp [(hline' line hline).1], (hline' line hline).2⟩
      rw [leaveFunction_within _ hrest]
      rfl

theorem poolStep_within (helements : e.elements = element :: rest) :
    (e.within PC callers).poolStep code self env =
      (e.poolStep code self env).map fun r => (r.1.within PC callers, r.2) := by
  have hwithin : (e.within PC callers).elements = element :: (rest ++ callers) := by
    rw [within, helements]
    rfl
  have himage : (e.within PC callers).processImage = { e.processImage with PC } := rfl
  simp only [poolStep, hwithin, helements, himage]
  cases code[element.PC]? with
  | none => rfl
  | some line =>
    simp only [Option.bind_some, functionPoolLine_withPC]
    cases functionPoolLine env.poolFree self e.processImage element.PC line <;> rfl

theorem step_within (helements : e.elements = element :: rest)
    (h : rest ≠ [] ∨ e.point ≠ .loopTest ∨ ∀ line, code[element.PC]? = some line →
      isFinFuncion line element.functionName = false ∧ e.keepsRunning quantum env = true) :
    (e.within PC callers).step code quantum self env =
      (e.step code quantum self env).map fun r => (r.1.within PC callers, r.2) := by
  have hwithin : (e.within PC callers).elements = element :: (rest ++ callers) := by
    rw [within, helements]
    rfl
  have hsame : (e.within PC callers).point = e.point := rfl
  cases hpoint : e.point with
  | loopTest =>
    rw [step_function hpoint helements, step_function (hsame.trans hpoint) hwithin]
    exact functionStep_within (h.imp_right fun h => h.resolve_left (not_not.mpr hpoint))
  | poolTest =>
    simp only [step, hsame, hpoint]
    exact poolStep_within helements
  | algTest =>
    simp only [step, hsame, hpoint]
    rfl
  | returned =>
    simp only [step, hsame, hpoint]
    rfl

theorem within_atIterationEnd :
    (e.within PC callers).atIterationEnd callers.length = e.atIterationEnd 0 := by
  simp [atIterationEnd, within]

theorem elements_ne_nil_of_step (helements : e.elements = element :: rest)
    (h : rest ≠ [] ∨ e.point ≠ .loopTest ∨ ∀ line, code[element.PC]? = some line →
      isFinFuncion line element.functionName = false ∧ e.keepsRunning quantum env = true)
    (hstep : e.step code quantum self env = some (e', ops, events)) : e'.elements ≠ [] := by
  have hne : e.elements ≠ [] := by simp [helements]
  have hmoves := moves_of_step hstep
  cases hmoves with
  | returns _ hnil | resumes _ hnil | runsLine _ hnil | asksPool _ hnil => exact absurd hnil hne
  | leaves hpoint hcons hline hstop =>
    cases helements.symm.trans hcons
    have hrest : rest ≠ [] := by
      refine h.resolve_right fun hgoes => ?_
      obtain ⟨hfin, hkeeps⟩ := hgoes.resolve_left (not_not.mpr hpoint) _ hline
      rcases hstop with hstop | hstop
      · simp [hfin] at hstop
      · simp [hkeeps] at hstop
    rw [← List.length_pos_iff, length_leaveFunction, List.length_pos_iff]
    exact hrest
  | runsFunctionLine hpoint hcons _ _ _ _ _ hrun =>
    have hcalled := (runLine_frames hrun (by simp [advanceFunction, hpoint])).2.2
    rcases hcalled with heq | ⟨-, heq⟩
    · rw [heq]
      exact List.cons_ne_nil _ _
    · intro hnil
      rw [hnil] at heq
      exact List.cons_ne_nil _ _ heq.symm
  | asksPoolInFunction => exact hne
  | counts => exact hne

/-- Until it returns, a called function has the same effect under any callers. -/
theorem iterationEffect_within (envs : List Env) :
    ∀ {e : Exec}, e.elements ≠ [] →
      (e.within PC callers).iterationEffect code quantum self callers.length envs =
        e.iterationEffect code quantum self 0 envs := by
  induction envs with
  | nil => exact fun _ => rfl
  | cons env envs ih =>
    intro e hne
    obtain ⟨element, rest, helements⟩ := List.exists_cons_of_ne_nil hne
    by_cases h : rest ≠ [] ∨ e.point ≠ .loopTest ∨ ∀ line, code[element.PC]? = some line →
      isFinFuncion line element.functionName = false ∧ e.keepsRunning quantum env = true
    · have hwithin : (e.within PC callers).step code quantum self env =
          (e.step code quantum self env).map fun r => (r.1.within PC callers, r.2) :=
        step_within helements h
      cases hstep : e.step code quantum self env with
      | none =>
        rw [hstep] at hwithin
        rw [iterationEffect_stuck hstep, iterationEffect_stuck hwithin]
      | some r =>
        obtain ⟨e', ops, events⟩ := r
        rw [hstep, Option.map_some] at hwithin
        have hsame : (e'.within PC callers).atIterationEnd callers.length =
            e'.atIterationEnd 0 := within_atIterationEnd
        cases hend : e'.atIterationEnd 0 with
        | true =>
          rw [iterationEffect_last hstep hend, iterationEffect_last hwithin (hsame.trans hend)]
          rfl
        | false =>
          rw [iterationEffect_step hstep hend, iterationEffect_step hwithin (hsame.trans hend),
            ih (elements_ne_nil_of_step helements h hstep)]
    · push Not at h
      obtain ⟨rfl, hpoint, line, hline, hstop⟩ := h
      -- the called function returns to the interpreter that called it
      have hleaves (e : Exec) (callers : List TStack) (hpoint : e.point = .loopTest)
          (helements : e.elements = element :: callers)
          (hstop : isFinFuncion line element.functionName = false →
            e.keepsRunning quantum env ≠ true) :
          e.iterationEffect code quantum self callers.length (env :: envs) =
            if envs = [] then some (e.effect []) else none := by
        have hstops : isFinFuncion line element.functionName = true ∨
            e.keepsRunning quantum env = false := by
          cases hfin : isFinFuncion line element.functionName with
          | true => exact .inl rfl
          | false => exact .inr (by simpa using hstop hfin)
        have hends := e.leaveFunction_ends (isFinFuncion line element.functionName) element callers
          hpoint [.logDestroy]
        rw [iterationEffect_last (step_of_moves (.leaves hpoint helements hline hstops)) hends.1,
          hends.2]
        rfl
      have hwithin : (e.within PC callers).elements = element :: callers := by
        rw [within, helements]
        rfl
      have hinner := hleaves e [] hpoint helements hstop
      have houter := hleaves (e.within PC callers) callers hpoint hwithin hstop
      exact houter.trans hinner.symm

end Exec

end Lockstep

namespace SameLine

variable {e : Exec} {element : TStack} {rest : List TStack} {line : CString} {PC : ℕ}
  {envs : List Env} {free : Bool}

theorem keepsRunning (h : SameLine code quantum e element line) (henv : env.SUSPEND = false) :
    e.keepsRunning quantum env = true := by
  simp [Exec.keepsRunning, henv, h.unblocked, h.underQuantum]

theorem step_process (h : SameLine code quantum e element line) (self : Ptr)
    (henv : env.SUSPEND = false) :
    e.step code quantum self env =
      (processLine code self e.advanceProcess.processImage line).bind
        (e.advanceProcess.runLine code (nextPC e.processImage.PC)) := by
  obtain ⟨before, hbefore, hne, -⟩ := h.goesOn
  rw [Exec.step_process h.point h.elements, Exec.processStep, hbefore]
  refine (if_pos ⟨hne, h.keepsRunning henv⟩).trans ((if_neg (not_not.mpr h.stack)).trans ?_)
  exact bind_of_eq_some h.line _

theorem step_function (h : SameLine code quantum e element line) (self : Ptr) (PC : ℕ)
    (rest : List TStack) (henv : env.SUSPEND = false) :
    (e.within PC (element :: rest)).step code quantum self env =
      (functionLine self e.advanceProcess.processImage line).bind fun outcome =>
        ((e.advanceProcess.within PC ({ element with PC := nextPC element.PC } :: rest)).runLine
          code (nextPC e.processImage.PC) (outcome.withPC PC)) := by
  obtain ⟨before, hbefore, -, hfin⟩ := h.goesOn
  have helements : (e.within PC (element :: rest)).elements = element :: rest := by
    rw [Exec.within, h.elements]
    rfl
  have hpoint : (e.within PC (element :: rest)).point = .loopTest := h.point
  have hkeeps : (e.within PC (element :: rest)).keepsRunning quantum env = true :=
    h.keepsRunning henv
  rw [Exec.step_function hpoint helements, Exec.functionStep, h.PC, hbefore]
  refine (if_pos ⟨by simp [hfin], hkeeps⟩).trans ?_
  refine (bind_of_eq_some h.line _).trans ?_
  have himage : ((e.within PC (element :: rest)).advanceFunction element rest).processImage =
      { e.advanceProcess.processImage with PC } := rfl
  have hadvance : (e.within PC (element :: rest)).advanceFunction element rest =
      e.advanceProcess.within PC ({ element with PC := nextPC element.PC } :: rest) := by
    rw [Exec.advanceFunction, Exec.within, Exec.within, Exec.advanceProcess, h.elements, h.PC]
    rfl
  rw [himage, functionLine_withPC, hadvance, h.PC]
  cases functionLine self e.advanceProcess.processImage line <;> rfl

theorem ending_advanceProcess (s : LineSummary) :
    s.ending e.advanceProcess envs = s.ending e envs := by
  rcases envs with _ | ⟨env, _ | _⟩ <;> rfl

theorem ending_within (s : LineSummary) {callers : List TStack} :
    s.ending (e.within PC callers) envs = s.ending e envs := by
  rcases envs with _ | ⟨env, _ | _⟩ <;> rfl

/-- A line with an effect `x` of its own, in `processExecution`. -/
theorem process_effect (h : SameLine code quantum e element line) (henv : env.SUSPEND = false)
    {x : Option LineEffect}
    (hline : processLine code self e.advanceProcess.processImage line = x.map .effect) :
    e.iterationEffect code quantum self e.elements.length (env :: envs) =
      (x.map (·.summary)).bind (·.ending e envs) := by
  have hstep := h.step_process self henv
  rw [hline] at hstep
  cases x with
  | none => exact Exec.iterationEffect_stuck hstep
  | some f =>
    exact (Exec.iterationEffect_perform [] hstep (le_refl _) rfl rfl).trans
      (ending_advanceProcess _)

theorem function_effect (h : SameLine code quantum e element line) (henv : env.SUSPEND = false)
    {x : Option LineEffect}
    (hline : functionLine self e.advanceProcess.processImage line = x.map .effect) :
    (e.within PC (element :: rest)).iterationEffect code quantum self
        (e.within PC (element :: rest)).elements.length (env :: envs) =
      (x.map (·.summary)).bind (·.ending e envs) := by
  have hstep := h.step_function self PC rest henv
  rw [hline] at hstep
  cases x with
  | none => exact Exec.iterationEffect_stuck hstep
  | some f =>
    have hdepth : (e.advanceProcess.within PC
        ({ element with PC := nextPC element.PC } :: rest)).elements.length ≤
          (e.within PC (element :: rest)).elements.length := by
      simp [Exec.within, Exec.advanceProcess]
    refine (Exec.iterationEffect_perform [] hstep hdepth rfl rfl).trans ?_
    rw [LineEffect.summary_withPC, ending_within, ending_advanceProcess]
    rfl

/-- A line that asks the pool and then has the effect `x`. -/
theorem process_asksPool (h : SameLine code quantum e element line) (henv : env.SUSPEND = false)
    (hline : processLine code self e.advanceProcess.processImage line = some .asksPool) :
    e.iterationEffect code quantum self e.elements.length (env :: envs) =
      envs.head?.bind fun env =>
        ((processPoolLine env.poolFree self e.advanceProcess.processImage line).map
          (·.summary)).bind (·.ending e envs.tail) := by
  have hstep := h.step_process self henv
  rw [hline] at hstep
  have hpool (env : Env) :
      ({ e.advanceProcess with point := .poolTest } : Exec).step code quantum self env =
        (processPoolLine env.poolFree self e.advanceProcess.processImage line).map
          fun f => (e.advanceProcess.perform f, f.operations, f.events) := by
    have hline' : code[e.advanceProcess.processImage.PC]? = some line := h.line
    exact Exec.step_asksPool h.elements hline'
  refine (Exec.iterationEffect_asksPool
    (fun free => processPoolLine free self e.advanceProcess.processImage line) hstep hpool
    (le_refl _)).trans ?_
  simp only [ending_advanceProcess]

/-- The same for a line of a function, whatever `PC` the process was called at. -/
theorem asksPool_ending {e₁ : Exec} {depth : ℕ} {events : List Event} {x : Exec}
    (hstep : x.step code quantum self env =
      some ({ e₁ with point := .poolTest }, [.lock .lpb], events))
    (helements : e₁.elements = element :: rest) (hline : code[element.PC]? = some line)
    (hdepth : e₁.elements.length ≤ depth) (himage : e₁.processImage = { image with PC }) :
    x.iterationEffect code quantum self depth (env :: envs) = envs.head?.bind fun env =>
      ((functionPoolLine env.poolFree self image element.PC line).map (·.summary)).bind
        (·.ending e₁ envs.tail) := by
  have hpool (env : Env) : ({ e₁ with point := .poolTest } : Exec).step code quantum self env =
      (functionPoolLine env.poolFree self e₁.processImage element.PC line).map
        fun f => (e₁.perform f, f.operations, f.events) :=
    Exec.step_asksPoolInFunction helements hline
  rw [Exec.iterationEffect_asksPool
    (fun free => functionPoolLine free self e₁.processImage element.PC line) hstep hpool hdepth]
  simp only [himage, functionPoolLine_withPC, Option.map_map]
  rfl

theorem function_asksPool (h : SameLine code quantum e element line) (henv : env.SUSPEND = false)
    (hline : functionLine self e.advanceProcess.processImage line = some .asksPool) :
    (e.within PC (element :: rest)).iterationEffect code quantum self
        (e.within PC (element :: rest)).elements.length (env :: envs) =
      envs.head?.bind fun env =>
        ((functionPoolLine env.poolFree self e.advanceProcess.processImage
          (nextPC e.processImage.PC) line).map (·.summary)).bind (·.ending e envs.tail) := by
  have hstep := h.step_function self PC rest henv
  rw [hline] at hstep
  have hdepth : (e.advanceProcess.within PC
      ({ element with PC := nextPC element.PC } :: rest)).elements.length ≤
        (e.within PC (element :: rest)).elements.length := by
    simp [Exec.within, Exec.advanceProcess]
  have helements : (e.advanceProcess.within PC
      ({ element with PC := nextPC element.PC } :: rest)).elements =
        { element with PC := nextPC e.processImage.PC } :: rest := by
    rw [Exec.within, Exec.advanceProcess, h.elements, h.PC]
    rfl
  refine (asksPool_ending hstep helements h.line hdepth rfl).trans ?_
  simp only [ending_within, ending_advanceProcess]

/-- Two lines with effects of their own agree when their summaries do. -/
theorem agree_effect_iff (h : SameLine code quantum e element line) {x y : Option LineEffect}
    (hx : processLine code self e.advanceProcess.processImage line = x.map .effect)
    (hy : functionLine self e.advanceProcess.processImage line = y.map .effect) :
    Agree code quantum self free e (e.within PC (element :: rest)) ↔
      x.map (·.summary) = y.map (·.summary) := by
  constructor
  · intro hagree
    rw [← ending_congr_iff h.unblocked ⟨false, free, true⟩]
    have hends (envs : List Env) (hlets : Lets free (⟨false, free, true⟩ :: envs)) :=
      ((h.process_effect rfl hx).symm.trans (hagree _ hlets)).trans (h.function_effect rfl hy)
    exact ⟨hends [] (lets_nil _ rfl), hends _ (lets_cons _ _ [] rfl rfl)⟩
  · intro heq envs hlets
    cases envs with
    | nil => rfl
    | cons env envs =>
      have henv := hlets.enters env rfl
      rw [h.process_effect henv hx, h.function_effect henv hy, heq]

/-- Two lines that ask the pool agree when their summaries behind the answer do. -/
theorem agree_asksPool_iff (h : SameLine code quantum e element line)
    (hx : processLine code self e.advanceProcess.processImage line = some .asksPool)
    (hy : functionLine self e.advanceProcess.processImage line = some .asksPool) :
    Agree code quantum self free e (e.within PC (element :: rest)) ↔
      (processPoolLine free self e.advanceProcess.processImage line).map (·.summary) =
        (functionPoolLine free self e.advanceProcess.processImage (nextPC e.processImage.PC)
          line).map (·.summary) := by
  constructor
  · intro hagree
    rw [← ending_congr_iff h.unblocked ⟨false, free, true⟩]
    have hends (envs : List Env) := ((h.process_asksPool rfl hx).symm.trans
      (hagree (⟨false, free, true⟩ :: ⟨false, free, true⟩ :: envs)
        (lets_cons _ _ envs rfl rfl))).trans (h.function_asksPool rfl hy)
    exact ⟨hends [], hends [⟨false, free, true⟩]⟩
  · intro heq envs hlets
    cases envs with
    | nil => rfl
    | cons env envs =>
      have henv := hlets.enters env rfl
      rw [h.process_asksPool henv hx, h.function_asksPool henv hy]
      cases envs with
      | nil => rfl
      | cons atPool envs =>
        have hfree := hlets.asks atPool rfl
        simp only [List.head?_cons, Option.bind_some, hfree, heq]

/-- A call that both interpreters take for one runs the same function. -/
theorem agree_call (h : SameLine code quantum e element line) {functionName : CString}
    (hx : processLine code self e.advanceProcess.processImage line = some (.call functionName))
    (hy : functionLine self e.advanceProcess.processImage line = some (.call functionName)) :
    Agree code quantum self free e (e.within PC (element :: rest)) := by
  intro envs hlets
  cases envs with
  | nil => rfl
  | cons env envs =>
    have hprocess := h.step_process self (hlets.enters env rfl)
    have hfunction := h.step_function self PC rest
      (hlets.enters env rfl)
    rw [hx, Option.bind_some] at hprocess
    rw [hy, Option.bind_some, Exec.runLine_within] at hfunction
    have hdepth : (e.within PC (element :: rest)).elements.length =
        ({ element with PC := nextPC element.PC } :: rest).length := by
      simp [Exec.within, h.elements]
    rw [hdepth, h.elements]
    cases hrun : e.advanceProcess.runLine code (nextPC e.processImage.PC) (.call functionName) with
    | none =>
      rw [hrun] at hprocess hfunction
      rw [Exec.iterationEffect_stuck hprocess, Exec.iterationEffect_stuck hfunction]
    | some r =>
      obtain ⟨e', ops, events⟩ := r
      rw [hrun] at hprocess hfunction
      obtain ⟨entry, -, rfl, -, -⟩ := Exec.runLine_call hrun
      rw [Exec.iterationEffect_step hprocess (by simp [Exec.atIterationEnd]),
        Exec.iterationEffect_step hfunction
          (Exec.within_atIterationEnd.trans (by simp [Exec.atIterationEnd])),
        Exec.iterationEffect_within _ (by simp)]
      rfl

/-- A function that the loop test finds suspended at once has changed nothing. -/
theorem suspended_effect {e₁ : Exec} (hpoint : e₁.point = .loopTest)
    (helements : e₁.elements = [element]) (hline : code[element.PC]? = some line)
    (hsuspend : env.SUSPEND = true) :
    (e₁.iterationEffect code quantum self 0 [env]).map (·.rafaga) = some e₁.rafaga := by
  have hstops : e₁.keepsRunning quantum env = false := by simp [Exec.keepsRunning, hsuspend]
  obtain ⟨hend, heffect⟩ := e₁.leaveFunction_ends (isFinFuncion line element.functionName) element
    [] hpoint [.logDestroy]
  rw [List.length_nil] at hend
  rw [Exec.iterationEffect_last
    (Exec.step_of_moves (.leaves hpoint helements hline (.inr hstops))) hend, if_pos rfl, heffect]
  rfl

theorem function_call_suspended (h : SameLine code quantum e element line)
    {functionName : CString} (PC : ℕ) (rest : List TStack) (free : Bool)
    (hy : functionLine self e.advanceProcess.processImage line = some (.call functionName)) :
    ((e.within PC (element :: rest)).iterationEffect code quantum self
        (e.within PC (element :: rest)).elements.length
        [⟨false, free, true⟩, ⟨true, free, true⟩]).map (·.rafaga) =
      (findFunctionLine code functionName).map fun _ => e.rafaga := by
  have hgoes : (⟨false, free, true⟩ : Env).SUSPEND = false := rfl
  have hfunction := h.step_function self PC rest hgoes
  rw [hy, Option.bind_some, Exec.runLine_within] at hfunction
  have hdepth : (e.within PC (element :: rest)).elements.length =
      ({ element with PC := nextPC element.PC } :: rest).length := by
    simp [Exec.within, h.elements]
  cases hrun : e.advanceProcess.runLine code (nextPC e.processImage.PC) (.call functionName) with
  | none =>
    have hfind : findFunctionLine code functionName = none := by
      simpa [Exec.runLine, Exec.call] using hrun
    rw [hrun] at hfunction
    rw [Exec.iterationEffect_stuck hfunction, hfind]
    rfl
  | some r =>
    obtain ⟨e', ops, events⟩ := r
    rw [hrun] at hfunction
    obtain ⟨entry, hfind, rfl, -, -⟩ := Exec.runLine_call hrun
    obtain ⟨hentry, -⟩ := List.findIdx?_eq_some_iff_getElem.mp hfind
    have hcons : (⟨functionName, entry, nextPC e.processImage.PC⟩ : TStack) ::
        e.advanceProcess.elements = [⟨functionName, entry, nextPC e.processImage.PC⟩] := by
      simp [Exec.advanceProcess, h.elements]
    rw [hdepth, Exec.iterationEffect_step hfunction
      (Exec.within_atIterationEnd.trans (by simp [Exec.atIterationEnd])),
      Exec.iterationEffect_within _ (by simp), hfind, hcons, Option.map_map, Option.map_some]
    exact suspended_effect h.point rfl (List.getElem?_eq_getElem hentry) rfl

theorem ending_rafaga {s : LineSummary} {effect : IterationEffect}
    (h : s.ending e [env] = some effect) : effect.rafaga = e.rafaga + 1 := by
  simp only [LineSummary.ending] at h
  split_ifs at h <;> cases h <;> rfl

/-- A call that `processExecution` takes for another instruction: they agree only where neither
gets anywhere. -/
theorem agree_keyword_iff (h : SameLine code quantum e element line) {x : Option LineEffect}
    {functionName : CString}
    (hx : processLine code self e.advanceProcess.processImage line = x.map .effect)
    (hy : functionLine self e.advanceProcess.processImage line = some (.call functionName)) :
    Agree code quantum self free e (e.within PC (element :: rest)) ↔
      x = none ∧ findFunctionLine code functionName = none := by
  have hgoes : (⟨false, free, true⟩ : Env).SUSPEND = false := rfl
  have hprocess (envs : List Env) : e.iterationEffect code quantum self e.elements.length
      (⟨false, free, true⟩ :: envs) = (x.map (·.summary)).bind (·.ending e envs) :=
    h.process_effect hgoes hx
  have hone : (e.within PC (element :: rest)).iterationEffect code quantum self
      (e.within PC (element :: rest)).elements.length [⟨false, free, true⟩] = none := by
    have hstep := h.step_function self PC rest hgoes
    rw [hy, Option.bind_some, LineOutcome.withPC, Exec.runLine, Exec.call_eq, Option.map_map]
      at hstep
    cases hfind : findFunctionLine code functionName with
    | none =>
      rw [hfind] at hstep
      exact Exec.iterationEffect_stuck hstep
    | some entry =>
      rw [hfind] at hstep
      refine (Exec.iterationEffect_step hstep ?_).trans rfl
      simp [Exec.atIterationEnd, Exec.within, Exec.advanceProcess]
  have htwo := h.function_call_suspended PC rest free hy
  constructor
  · intro hagree
    have hnil := hagree _ (lets_nil ⟨false, free, true⟩ rfl)
    have hcons := hagree _ (lets_cons ⟨false, free, true⟩ ⟨true, free, true⟩ [] rfl rfl)
    rw [hprocess, hone] at hnil
    rw [hprocess] at hcons
    cases x with
    | none =>
      rw [← hcons] at htwo
      exact ⟨rfl, by simpa using htwo.symm⟩
    | some f =>
      exfalso
      rcases f.summary.ending_isSome e ⟨true, free, true⟩ with hsome | hsome
      · have hnone : f.summary.ending e [] = none := hnil
        simp [hnone] at hsome
      · obtain ⟨effect, heffect⟩ := Option.isSome_iff_exists.mp hsome
        rw [← hcons] at htwo
        have hmap : some effect.rafaga =
            (findFunctionLine code functionName).map fun _ => e.rafaga :=
          (congrArg (Option.map fun effect : IterationEffect => effect.rafaga)
            heffect).symm.trans htwo
        obtain ⟨entry, -, hrafaga⟩ := Option.map_eq_some_iff.mp hmap.symm
        have hticked := ending_rafaga heffect
        omega
  · rintro ⟨rfl, hfind⟩ envs hlets
    cases envs with
    | nil => rfl
    | cons env envs =>
      have henv := hlets.enters env rfl
      have hstuck := h.step_function self PC rest henv
      rw [hy, Option.bind_some, LineOutcome.withPC, Exec.runLine, Exec.call, hfind] at hstuck
      rw [h.process_effect henv hx, Exec.iterationEffect_stuck hstuck]
      rfl

end SameLine

section Forms

variable {line : CString}

/-- A line that starts with another letter than `'i'` and is no assignment can only be a call. -/
theorem functionForm_eq_call {c d : UInt8} (hc : c ≠ 105) (hd : d ≠ 61)
    (hskip : functionForm (c :: d :: line) ≠ .skip)
    (hother : functionForm (c :: d :: line) ≠ .other) : functionForm (c :: d :: line) = .call := by
  have himprimir : stringStartsWith (c :: d :: line) (cstr "imprimir") = false := by
    have himprimir : cstr "imprimir" = 105 :: cstr "mprimir" := by decide
    simp [stringStartsWith, himprimir, List.isPrefixOf, hc.symm]
  have hio : stringStartsWith (c :: d :: line) (cstr "io(") = false := by
    have hio : cstr "io(" = 105 :: cstr "o(" := by decide
    simp [stringStartsWith, hio, List.isPrefixOf, hc.symm]
  have hindex : (c :: d :: line)[1]? ≠ some 61 := by simpa using hd
  unfold functionForm commonForm at *
  simp only [himprimir, hio] at *
  split_ifs at * <;> simp_all

theorem functionForm_of_keyword (keyword : CString) (c d : UInt8) (tail : CString)
    (hkeyword : keyword = c :: d :: tail) (hc : c ≠ 105) (hd : d ≠ 61)
    (hstart : stringStartsWith line keyword = true)
    (hskip : functionForm line ≠ .skip) (hother : functionForm line ≠ .other) :
    functionForm line = .call := by
  subst hkeyword
  obtain ⟨rest, rfl⟩ := List.isPrefixOf_iff_prefix.mp hstart
  exact functionForm_eq_call hc hd hskip hother

theorem functionForm_ne (line : CString) :
    functionForm line ≠ .variables ∧ functionForm line ≠ .ssc ∧ functionForm line ≠ .snc := by
  unfold functionForm commonForm
  split_ifs <;> simp

/-- The forms of the five instructions are the same for both, except that a call may read as a
declaration or a jump. -/
theorem processForm_of_functionForm (hskip : functionForm line ≠ .skip)
    (hother : functionForm line ≠ .other) :
    processForm line = functionForm line ∨
      ((processForm line = .variables ∨ processForm line = .ssc ∨ processForm line = .snc) ∧
        functionForm line = .call) := by
  by_cases hempty : line = [] ∨ stringEndsWith line (cstr ":") = true
  · exact absurd (if_pos hempty) hskip
  by_cases hvariables : stringStartsWith line (cstr "variables") = true
  · refine .inr ⟨.inl ?_, functionForm_of_keyword _ 118 97 (cstr "riables") (by decide)
      (by decide) (by decide) hvariables hskip hother⟩
    rw [processForm, if_neg hempty, if_pos hvariables]
  by_cases himprimir : stringStartsWith line (cstr "imprimir") = true
  · left
    rw [processForm, if_neg hempty, if_neg hvariables, if_pos himprimir, functionForm,
      if_neg hempty, if_pos himprimir]
  by_cases hssc : stringStartsWith line (cstr "ssc") = true
  · refine .inr ⟨.inr (.inl ?_), functionForm_of_keyword _ 115 115 (cstr "c") (by decide)
      (by decide) (by decide) hssc hskip hother⟩
    rw [processForm, if_neg hempty, if_neg hvariables, if_neg himprimir, if_pos hssc]
  by_cases hsnc : stringStartsWith line (cstr "snc") = true
  · refine .inr ⟨.inr (.inr ?_), functionForm_of_keyword _ 115 110 (cstr "c") (by decide)
      (by decide) (by decide) hsnc hskip hother⟩
    rw [processForm, if_neg hempty, if_neg hvariables, if_neg himprimir, if_neg hssc,
      if_pos hsnc]
  left
  rw [processForm, if_neg hempty, if_neg hvariables, if_neg himprimir, if_neg hssc, if_neg hsnc,
    functionForm, if_neg hempty, if_neg himprimir]

/-- An assignment has a name in front of its `'='`. -/
theorem exists_varName (h : processForm line = .assignIo) :
    ∃ varName, (line)[0]? = some varName := by
  cases line with
  | nil => cases h
  | cons c line => exact ⟨c, rfl⟩

end Forms

section Conditions

theorem ioTimeOf_eq_iff (text : CString) :
    ioTimeOf 32 text = ioTimeOf 16 text ↔ ioTimeOf 32 text < 2 ^ 16 := by
  simp only [ioTimeOf]
  generalize (atoi text).toUInt32.toNat = n
  omega

theorem writeEntries_isSome (entries : List TData) (varName : UInt8) (varValue : Int32) :
    (writeEntries entries varName varValue).isSome = (readEntries entries varName).isSome := by
  induction entries with
  | nil => rfl
  | cons d entries ih =>
    rw [writeEntries, readEntries]
    split_ifs
    · rfl
    · rfl
    · rw [Option.isSome_map, ih]

/-- The scans of `readData` and `writeData` for one variable end together. -/
theorem writeData_isSome (data : DataArray) (varName : UInt8) (varValue : Int32) :
    (writeData data varName varValue).isSome = (readData data varName).isSome := by
  cases data with
  | none => rfl
  | some entries =>
    rw [writeData, Option.isSome_map]
    exact writeEntries_isSome entries varName varValue

theorem assignBlockingIo_summary {width : ℕ} {varName : UInt8} {text : CString} :
    (assignBlockingIo width self image varName text).map (·.summary) =
      (writeData image.data varName 1).map fun data =>
        ⟨data, [⟨self, ⟨ioTimeOf width text, false⟩⟩], [], true, true⟩ := by
  rw [assignBlockingIo, Option.map_map]
  rfl

theorem processAssignPoolIo_summary {free : Bool} {varName : UInt8} {text : CString} :
    (processAssignPoolIo free self image varName text).map (·.summary) =
      if free then (writeData image.data varName 1).map fun data =>
        ⟨data, [⟨self, ⟨ioTimeOf 32 text, false⟩⟩], [], true, true⟩
      else (writeData image.data varName 0).map fun data =>
        ⟨data, [], [image.clientfd], false, true⟩ := by
  cases free <;> rw [processAssignPoolIo] <;> split_ifs <;> rw [Option.map_map] <;> rfl

theorem functionAssignPoolIo_summary {free : Bool} {lineNumber : ℕ} {varName : UInt8}
    {text : CString} :
    (functionAssignPoolIo free self image lineNumber varName text).map (·.summary) =
      if free then (writeData image.data varName 1).map fun data =>
        ⟨data, [⟨self, ⟨ioTimeOf 16 text, true⟩⟩], [], false, true⟩
      else (writeData image.data varName 0).map fun data =>
        ⟨data, [], [image.clientfd], false, true⟩ := by
  cases free <;> rw [functionAssignPoolIo] <;> split_ifs <;> rw [Option.map_map] <;> rfl

theorem poolIo_summary {width lineNumber : ℕ} {free : Bool} {text : CString} :
    (poolIo width free self image lineNumber text).summary =
      if free then ⟨image.data, [⟨self, ⟨ioTimeOf width text, true⟩⟩], [], false, false⟩
      else ⟨image.data, [], [image.clientfd], false, false⟩ := by
  cases free <;> rfl

/-- `v=io(t,f)` with another flag than `'0'`. -/
theorem assignBlockingIo_summary_iff {varName : UInt8} {text : CString} :
    (assignBlockingIo 32 self image varName text).map (·.summary) =
        (assignBlockingIo 16 self image varName text).map (·.summary) ↔
      ((readData image.data varName).isSome → ioTimeOf 32 text < 2 ^ 16) := by
  rw [← writeData_isSome _ _ 1, ← ioTimeOf_eq_iff, assignBlockingIo_summary,
    assignBlockingIo_summary]
  cases writeData image.data varName 1 <;> simp

/-- `v=io(t,0)`. -/
theorem assignPoolIo_summary_iff {free : Bool} {lineNumber : ℕ} {varName : UInt8}
    {text : CString} :
    (processAssignPoolIo free self image varName text).map (·.summary) =
        (functionAssignPoolIo free self image lineNumber varName text).map (·.summary) ↔
      ((readData image.data varName).isSome → free = false) := by
  rw [← writeData_isSome _ _ 1, processAssignPoolIo_summary, functionAssignPoolIo_summary]
  cases free with
  | true => cases writeData image.data varName 1 <;> simp
  | false => simp

end Conditions

section Main

variable {e : Exec} {element : TStack} {rest : List TStack} {line : CString} {PC : ℕ}
  {free : Bool}

theorem ioLine_assignBlockingIo {width : ℕ} {text : CString} {flag varName : UInt8}
    (hrequest : ioRequest line 5 = some (text, flag)) (hflag : flag ≠ 48)
    (hname : (line)[0]? = some varName) :
    ioLine width 5 self image line =
      (assignBlockingIo width self image varName text).map .effect := by
  simp only [ioLine, hrequest, Option.bind_eq_bind, Option.bind_some, hflag, if_false, hname]
  cases assignBlockingIo width self image varName text <;> rfl

theorem agree_assignIo_iff (h : SameLine code quantum e element line)
    (hprocess : processForm line = .assignIo) (hfunction : functionForm line = .assignIo) :
    Agree code quantum self free e (e.within PC (element :: rest)) ↔
      Agreeable code self free e.processImage line := by
  obtain ⟨varName, hname⟩ := exists_varName hprocess
  have hcondition : Agreeable code self free e.processImage line ↔
      ((readData e.processImage.data varName).isSome → ∀ request ∈ ioRequest line 5,
        if request.2 = 48 then free = false else ioTimeOf 32 request.1 < 2 ^ 16) := by
    simp [Agreeable, hprocess, hname]
  rw [hcondition]
  cases hrequest : ioRequest line 5 with
  | none =>
    have hx : processLine code self e.advanceProcess.processImage line = none := by
      simp [processLine, hprocess, ioLine, hrequest]
    have hy : functionLine self e.advanceProcess.processImage line = none := by
      simp [functionLine, hfunction, ioLine, hrequest]
    rw [h.agree_effect_iff (x := none) (y := none) hx hy]
    simp
  | some request =>
    obtain ⟨text, flag⟩ := request
    by_cases hflag : flag = 48
    · have hasks : processLine code self e.advanceProcess.processImage line = some .asksPool := by
        simp [processLine, hprocess, ioLine, hrequest, hflag]
      have hasks' : functionLine self e.advanceProcess.processImage line = some .asksPool := by
        simp [functionLine, hfunction, ioLine, hrequest, hflag]
      have hx : processPoolLine free self e.advanceProcess.processImage line =
          processAssignPoolIo free self e.advanceProcess.processImage varName text := by
        simp [processPoolLine, hprocess, hrequest, hname]
      have hy : functionPoolLine free self e.advanceProcess.processImage
          (nextPC e.processImage.PC) line = functionAssignPoolIo free self
            e.advanceProcess.processImage (nextPC e.processImage.PC + 1) varName text := by
        simp [functionPoolLine, hfunction, hrequest, hname]
      rw [h.agree_asksPool_iff hasks hasks', hx, hy, assignPoolIo_summary_iff]
      simp [hflag, Exec.advanceProcess]
    · have hx : processLine code self e.advanceProcess.processImage line =
          (assignBlockingIo 32 self e.advanceProcess.processImage varName text).map .effect := by
        simpa only [processLine, hprocess] using ioLine_assignBlockingIo hrequest hflag hname
      have hy : functionLine self e.advanceProcess.processImage line =
          (assignBlockingIo 16 self e.advanceProcess.processImage varName text).map .effect := by
        simpa only [functionLine, hfunction] using ioLine_assignBlockingIo hrequest hflag hname
      rw [h.agree_effect_iff hx hy, assignBlockingIo_summary_iff]
      simp [hflag, Exec.advanceProcess]

theorem agree_io_iff (h : SameLine code quantum e element line)
    (hprocess : processForm line = .io) (hfunction : functionForm line = .io) :
    Agree code quantum self free e (e.within PC (element :: rest)) ↔
      Agreeable code self free e.processImage line := by
  have hcondition : Agreeable code self free e.processImage line ↔
      ∀ request ∈ ioRequest line 3,
        (request.2 = 48 ∧ free = false) ∨ ioTimeOf 32 request.1 < 2 ^ 16 := by
    simp [Agreeable, hprocess]
  rw [hcondition]
  cases hrequest : ioRequest line 3 with
  | none =>
    have hx : processLine code self e.advanceProcess.processImage line = none := by
      simp [processLine, hprocess, ioLine, hrequest]
    have hy : functionLine self e.advanceProcess.processImage line = none := by
      simp [functionLine, hfunction, ioLine, hrequest]
    rw [h.agree_effect_iff (x := none) (y := none) hx hy]
    simp
  | some request =>
    obtain ⟨text, flag⟩ := request
    by_cases hflag : flag = 48
    · have hasks : processLine code self e.advanceProcess.processImage line = some .asksPool := by
        simp [processLine, hprocess, ioLine, hrequest, hflag]
      have hasks' : functionLine self e.advanceProcess.processImage line = some .asksPool := by
        simp [functionLine, hfunction, ioLine, hrequest, hflag]
      have hx : (processPoolLine free self e.advanceProcess.processImage line).map (·.summary) =
          some (poolIo 32 free self e.advanceProcess.processImage
            (e.advanceProcess.processImage.PC + 1) text).summary := by
        simp [processPoolLine, hprocess, hrequest]
      have hy : (functionPoolLine free self e.advanceProcess.processImage
          (nextPC e.processImage.PC) line).map (·.summary) =
            some (poolIo 16 free self e.advanceProcess.processImage
              (nextPC e.processImage.PC + 1) text).summary := by
        simp [functionPoolLine, hfunction, hrequest]
      rw [h.agree_asksPool_iff hasks hasks', hx, hy, poolIo_summary, poolIo_summary]
      cases free <;> simp [hflag, ioTimeOf_eq_iff]
    · have hx : processLine code self e.advanceProcess.processImage line =
          (some (blockingIo 32 self e.advanceProcess.processImage text)).map .effect := by
        simp [processLine, hprocess, ioLine, hrequest, hflag]
      have hy : functionLine self e.advanceProcess.processImage line =
          (some (blockingIo 16 self e.advanceProcess.processImage text)).map .effect := by
        simp [functionLine, hfunction, ioLine, hrequest, hflag]
      have hsummary (width : ℕ) :
          (blockingIo width self e.advanceProcess.processImage text).summary =
            ⟨e.processImage.data, [⟨self, ⟨ioTimeOf width text, false⟩⟩], [], true, false⟩ := rfl
      rw [h.agree_effect_iff hx hy, Option.map_some, Option.map_some, hsummary, hsummary]
      simp [hflag, ioTimeOf_eq_iff]

theorem jumpLine_eq_none_iff {jumps : Int32 → Bool} :
    jumpLine code { image with PC } line jumps = none ↔ jumpLine code image line jumps = none := by
  simp only [jumpLine]
  cases charAt line (cstr "ssc,").length with
  | none => rfl
  | some varName =>
    cases hvalue : readData image.data varName with
    | none => simp [hvalue]
    | some varValue => cases hjumps : jumps varValue <;> simp [hvalue, jumpTarget, hjumps]

/-- Whether a line is defined does not depend on where it stands. -/
theorem processLine_eq_none_iff : processLine code self { image with PC } line = none ↔
    processLine code self image line = none := by
  unfold processLine
  cases processForm line with
  | «variables» =>
    simp only [variablesLine]
    split_ifs <;> simp
  | imprimir => rw [imprimirLine_withPC, Option.map_map, Option.map_eq_none_iff,
      Option.map_eq_none_iff]
  | ssc | snc => rw [Option.map_eq_none_iff, Option.map_eq_none_iff, jumpLine_eq_none_iff]
  | assign => rw [assignLine_withPC, Option.map_map, Option.map_eq_none_iff,
      Option.map_eq_none_iff]
  | assignIo | io => simp only [ioLine_withPC, Option.map_eq_none_iff]
  | _ => simp

theorem agree_keyword (h : SameLine code quantum e element line)
    (hprocess : processForm line = .variables ∨ processForm line = .ssc ∨ processForm line = .snc)
    (hfunction : functionForm line = .call) :
    Agree code quantum self free e (e.within PC (element :: rest)) ↔
      Agreeable code self free e.processImage line := by
  have hcondition : Agreeable code self free e.processImage line ↔
      processLine code self e.processImage line = none ∧
        findFunctionLine code (line.takeWhile (· != 40)) = none := by
    rcases hprocess with hprocess | hprocess | hprocess <;> simp only [Agreeable, hprocess]
  have hx : ∃ x : Option LineEffect,
      processLine code self e.advanceProcess.processImage line = x.map .effect := by
    rcases hprocess with hprocess | hprocess | hprocess <;> rw [processLine, hprocess]
    · exact ⟨_, rfl⟩
    · exact ⟨_, rfl⟩
    · exact ⟨_, rfl⟩
  obtain ⟨x, hx⟩ := hx
  have hy : functionLine self e.advanceProcess.processImage line =
      some (.call (line.takeWhile (· != 40))) := by
    rw [functionLine, hfunction]
  have hnone : processLine code self e.processImage line = none ↔ x = none := by
    rw [← Option.map_eq_none_iff (f := LineOutcome.effect), ← hx]
    exact processLine_eq_none_iff.symm
  rw [hcondition, h.agree_keyword_iff hx hy, hnone]

/-- On a line that is one of the five instructions for `functionExecution`, one iteration of
either interpreter has the same effect exactly when the line is agreeable. -/
theorem interpreters_agree_iff (code : List CString) (quantum : ℤ) (self : Ptr) (free : Bool)
    (e : Exec) (element : TStack) (rest : List TStack) (PC : ℕ) (line : CString)
    (h : SameLine code quantum e element line) (hskip : functionForm line ≠ .skip)
    (hother : functionForm line ≠ .other) :
    Agree code quantum self free e (e.within PC (element :: rest)) ↔
      Agreeable code self free e.processImage line := by
  rcases processForm_of_functionForm hskip hother with hsame | ⟨hprocess, hcall⟩
  · cases hform : processForm line with
    | skip => exact absurd (hsame.symm.trans hform) hskip
    | other => exact absurd (hsame.symm.trans hform) hother
    | imprimir =>
      have hfunction := hsame.symm.trans hform
      have hx : processLine code self e.advanceProcess.processImage line =
          (imprimirLine self e.advanceProcess.processImage line).map .effect := by
        rw [processLine, hform]
      have hy : functionLine self e.advanceProcess.processImage line =
          (imprimirLine self e.advanceProcess.processImage line).map .effect := by
        rw [functionLine, hfunction]
      rw [h.agree_effect_iff hx hy]
      simp [Agreeable, hform]
    | assign =>
      have hfunction := hsame.symm.trans hform
      have hx : processLine code self e.advanceProcess.processImage line =
          (assignLine e.advanceProcess.processImage line).map .effect := by
        rw [processLine, hform]
      have hy : functionLine self e.advanceProcess.processImage line =
          (assignLine e.advanceProcess.processImage line).map .effect := by
        rw [functionLine, hfunction]
      rw [h.agree_effect_iff hx hy]
      simp [Agreeable, hform]
    | assignIo => exact agree_assignIo_iff h hform (hsame.symm.trans hform)
    | io => exact agree_io_iff h hform (hsame.symm.trans hform)
    | call =>
      have hfunction := hsame.symm.trans hform
      have hagree : Agree code quantum self free e (e.within PC (element :: rest)) :=
        h.agree_call (by rw [processLine, hform]) (by rw [functionLine, hfunction])
      simp [hagree, Agreeable, hform]
    | «variables» | ssc | snc => exact absurd (hsame.symm.trans hform) (by simp [functionForm_ne])
  · exact agree_keyword h hprocess hcall

end Main

section Examples

def pairedCode (line : CString) : List CString :=
  [cstr "variables a", line, cstr "fin_programa", cstr "comienzo_funcion f", cstr "fin_funcion f"]

def pairedImage : TProcessImage :=
  { newImage 4 1 0 [] 0 with data := some [⟨97, 5⟩, ⟨0, 0⟩] }

def caller : TStack := ⟨cstr "g", 0, 0⟩

theorem sameLine_paired (line : CString) :
    SameLine (pairedCode line) 3 (Exec.atEntry pairedImage) caller line := by
  refine ⟨rfl, rfl, rfl, rfl, ⟨_, rfl, ?_, ?_⟩, rfl, ?_, rfl⟩
  · decide
  · decide
  · decide

/-- A blocking `v=io(t,f)` of the same script. -/
theorem interpreters_agree_blocking :
    Agree (pairedCode (cstr "a=io(5,1)")) 3 7 true (Exec.atEntry pairedImage)
      ((Exec.atEntry pairedImage).within 1 [caller]) := by
  refine (interpreters_agree_iff _ _ _ _ _ _ _ _ (cstr "a=io(5,1)") (sameLine_paired _)
    (by decide) (by decide)).mpr ?_
  have hform : processForm (cstr "a=io(5,1)") = .assignIo := by decide
  have hrequest : ioRequest (cstr "a=io(5,1)") 5 = some (cstr "5", 49) := by decide
  simp only [Agreeable, hform, hrequest, Option.mem_some_iff, forall_eq']
  exact fun _ => by decide

/-- With a free thread `a=io(5,0)` blocks in `processExecution` only. -/
theorem nonBlocking_assignment_blocks :
    ¬ ∀ (code : List CString) (quantum : ℤ) (self : Ptr) (free : Bool) (e : Exec)
      (element : TStack) (rest : List TStack) (PC : ℕ) (line : CString),
      SameLine code quantum e element line → functionForm line ≠ .skip →
      functionForm line ≠ .other →
        Agree code quantum self free e (e.within PC (element :: rest)) := by
  intro h
  have hagree := h (pairedCode (cstr "a=io(5,0)")) 3 7 true (Exec.atEntry pairedImage) caller [] 1
    _ (sameLine_paired _) (by decide) (by decide)
  have heq := hagree [⟨false, true, true⟩, ⟨false, true, true⟩, ⟨false, true, true⟩]
    (lets_cons _ _ _ rfl rfl)
  exact absurd heq (by decide +kernel)

end Examples

end Sisop
