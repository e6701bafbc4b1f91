import Sisop.LineExecution

/-!
# One dispatch of `processExecution`

The mutually recursive calls of `stackExecution` and `functionExecution` are unfolded into a list
of active elements, innermost first; every caller in it waits behind its own call of
`stackExecution`. `Exec.step` runs one loop test with the iteration behind it, up to the next
point where the shared state is looked at. `Env` is what the thread reads there.
-/

namespace Sisop

inductive Point where
  | loopTest | poolTest | algTest | returned
  deriving DecidableEq, Repr

structure Exec where
  processImage : TProcessImage
  elements : List TStack
  ioBlockInterrupt : Bool
  quantumCount : ℕ
  rafaga : ℕ
  point : Point
  deriving DecidableEq

/-- What is read of the shared state: the flag at a loop test, `queue_size(LPB) < semValue` under
`LPB_mutex`, and whether `ALG` is `RR` under `ALG_mutex`. -/
structure Env where
  SUSPEND : Bool
  poolFree : Bool
  rr : Bool

abbrev StepResult := Exec × List Operation × List Event

def nextPC (PC : ℕ) : ℕ := (PC + 1) % 2 ^ 16

def finPrograma : CString := cstr "fin_programa"

def isFinFuncion (line functionName : CString) : Bool :=
  stringStartsWith line (cstr "fin_funcion") && stringEndsWith line functionName

/-- The list becomes the waiting element and all but the last of it; the last one is next. -/
def reorderStack (stack : List TStack) (element newElement : TStack) : List TStack × TStack :=
  (element :: stack.dropLast, newElement)

namespace Exec

def stack (e : Exec) : List TStack := e.processImage.stack

def setStack (e : Exec) (stack : List TStack) : Exec :=
  { e with processImage := { e.processImage with stack } }

/-- The part of the loop tests that does not look at the code. -/
def keepsRunning (quantum : ℤ) (env : Env) (e : Exec) : Bool :=
  !env.SUSPEND && !e.ioBlockInterrupt && decide ((e.quantumCount : ℤ) < quantum)

def stackExecution (e : Exec) : Exec × List Operation :=
  match e.stack.getLast? with
  | none => (e, [])
  | some element =>
    ({ e.setStack e.stack.dropLast with elements := element :: e.elements }, [.logCreate])

def atEntry (processImage : TProcessImage) : Exec := ⟨processImage, [], false, 0, 0, .loopTest⟩

def enter (processImage : TProcessImage) : Exec × List Operation :=
  ((atEntry processImage).stackExecution.1, .logCreate :: (atEntry processImage).stackExecution.2)

def perform (e : Exec) (f : LineEffect) : Exec :=
  { e with
    processImage := { e.processImage with PC := f.PC, data := f.data }
    ioBlockInterrupt := e.ioBlockInterrupt || f.blocks
    point := if f.ticks then .algTest else .loopTest }

def call (code : List CString) (e : Exec) (linecall : ℕ) (functionName : CString) :
    Option (Exec × List Operation) :=
  (findFunctionLine code functionName).map fun PC =>
    stackExecution (e.setStack (e.stack ++ [⟨functionName, PC, linecall⟩]))

/-- What a line does once `PC` points at it. -/
def runLine (code : List CString) (e : Exec) (PC : ℕ) : LineOutcome → Option StepResult
  | .effect f => some (e.perform f, f.operations, .line PC :: f.events)
  | .asksPool => some ({ e with point := .poolTest }, [.lock .lpb], [.line PC])
  | .call functionName =>
    (e.call code PC functionName).map fun (e', ops) => (e', ops, [.line PC])

def advanceProcess (e : Exec) : Exec :=
  { e with processImage := { e.processImage with PC := nextPC e.processImage.PC } }

def advanceFunction (element : TStack) (rest : List TStack) (e : Exec) : Exec :=
  { e with elements := { element with PC := nextPC element.PC } :: rest }

/-- A loop test of `processExecution` and the iteration it lets through. -/
def processStep (code : List CString) (quantum : ℤ) (self : Ptr) (env : Env) (e : Exec) :
    Option StepResult := do
  let line ← code[e.processImage.PC]?
  if line ≠ finPrograma ∧ e.keepsRunning quantum env then
    if e.stack ≠ [] then
      let (e', ops) := e.stackExecution
      return (e', ops, [])
    else
      let e' := e.advanceProcess
      let next ← code[e'.processImage.PC]?
      let outcome ← processLine code self e'.processImage next
      e'.runLine code e'.processImage.PC outcome
  else return ({ e with point := .returned }, [.logDestroy], [])

/-- The end of `functionExecution` and what its caller does with the list. -/
def leaveFunction (finished : Bool) (element : TStack) (rest : List TStack) (e : Exec) : Exec :=
  let stack := if finished then e.stack else e.stack ++ [element]
  match rest, stack.getLast? with
  | caller :: callers, some newElement =>
    let (newStack, current) := reorderStack stack caller newElement
    { e.setStack newStack with elements := current :: callers }
  | _, _ => { e.setStack stack with elements := rest }

/-- A loop test of the innermost `functionExecution` and the iteration it lets through. -/
def functionStep (code : List CString) (quantum : ℤ) (self : Ptr) (env : Env) (element : TStack)
    (rest : List TStack) (e : Exec) : Option StepResult := do
  let line ← code[element.PC]?
  if ¬ isFinFuncion line element.functionName ∧ e.keepsRunning quantum env then
    let e' := e.advanceFunction element rest
    let next ← code[nextPC element.PC]?
    let outcome ← functionLine self e'.processImage next
    e'.runLine code (nextPC element.PC) outcome
  else
    return (e.leaveFunction (isFinFuncion line element.functionName) element rest,
      [.logDestroy], [])

def poolStep (code : List CString) (self : Ptr) (env : Env) (e : Exec) : Option StepResult := do
  let f ← match e.elements with
    | [] => code[e.processImage.PC]?.bind (processPoolLine env.poolFree self e.processImage)
    | element :: _ =>
      code[element.PC]?.bind (functionPoolLine env.poolFree self e.processImage element.PC)
  return (e.perform f, f.operations, f.events)

def algStep (env : Env) (e : Exec) : StepResult :=
  ({ e with
      quantumCount := if env.rr then e.quantumCount + 1 else e.quantumCount
      rafaga := e.rafaga + 1
      point := .loopTest }, [.unlock .alg], [])

def step (code : List CString) (quantum : ℤ) (self : Ptr) (env : Env) (e : Exec) :
    Option StepResult :=
  match e.point, e.elements with
  | .returned, _ => none
  | .algTest, _ => some (e.algStep env)
  | .poolTest, _ => e.poolStep code self env
  | .loopTest, [] => e.processStep code quantum self env
  | .loopTest, element :: rest => e.functionStep code quantum self env element rest

def atFinPrograma (code : List CString) (e : Exec) : Bool :=
  code[e.processImage.PC]? == some finPrograma

end Exec
end Sisop
