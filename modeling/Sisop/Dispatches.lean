import Sisop.GuardedRun
import Sisop.Interpreter

/-!
# A script over all its dispatches

`Dispatch.next` runs one image by repeated calls of `processExecution`. Before any step the
signal handler may raise `SUSPEND`, and every read of the pool and of `ALG` may give any answer;
a process that left unfinished may be dispatched again once it is runnable. `uninterruptedStep`
is the same code when the quantum is never reached, nobody suspends and a blocking request is
complete as soon as it is made.
-/

namespace Sisop

def newImage (clientfd pid : ℕ) (priority : Int32) (code : CString) (TANT : ℚ) : TProcessImage :=
  ⟨clientfd, pid, priority, 0, code, none, [], TANT⟩

structure Dispatch where
  exec : Exec
  SUSPEND : Bool
  trace : List Event
  deriving DecidableEq

inductive Action where
  | advance (raise poolFree rr : Bool)
  | redispatch
  deriving DecidableEq, Repr

namespace Dispatch

def start (processImage : TProcessImage) : Dispatch := ⟨(Exec.enter processImage).1, false, []⟩

def next (code : List CString) (quantum : ℤ) (d : Dispatch) : Action → Option Dispatch
  | .advance raise poolFree rr =>
    let SUSPEND := d.SUSPEND || raise
    (d.exec.step code quantum 0 ⟨SUSPEND, poolFree, rr⟩).map fun (e, _, events) =>
      ⟨e, SUSPEND, d.trace ++ events⟩
  | .redispatch =>
    if d.exec.point = .returned ∧ ¬ d.exec.atFinPrograma code then
      some ⟨(Exec.enter d.exec.processImage).1, false, d.trace⟩
    else none

def finished (code : List CString) (d : Dispatch) : Bool :=
  d.exec.point == .returned && d.exec.atFinPrograma code

def uninterruptedStep (code : List CString) (d : Dispatch) : Option Dispatch :=
  (d.next code (d.exec.quantumCount + 1) (.advance false true true)).map fun d =>
    { d with exec := { d.exec with ioBlockInterrupt := false } }

def issuesNonBlocking (d : Dispatch) : Bool := d.exec.point == .poolTest

/-- The next iteration of the innermost function executes a call, while elements of the image's
stack are waiting. -/
def callsOverStack (code : List CString) (quantum : ℤ) (d : Dispatch) : Action → Bool
  | .advance raise poolFree rr =>
    match d.exec.point, d.exec.elements with
    | .loopTest, element :: _ =>
      d.exec.stack ≠ [] && d.exec.keepsRunning quantum ⟨d.SUSPEND || raise, poolFree, rr⟩ &&
        (code[element.PC]?).any (fun line => !isFinFuncion line element.functionName) &&
        (code[nextPC element.PC]?).any (fun line => functionForm line == .call)
    | _, _ => false
  | .redispatch => false

end Dispatch
end Sisop
