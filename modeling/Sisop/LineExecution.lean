import Sisop.CodeSegment
import Sisop.Operations

/-!
# One line of a script

`processExecution` and `functionExecution` test a line by the same chain of comparisons; the
second one knows no declarations and no jumps, and treats `v=io(t,0)` in its own way. A line has
an effect of its own, calls a function, or first has to ask how many I/O threads are free. The
operations are those that follow the test of the pool, when there is one. A read outside the
line or through a `NULL` array has no result.
-/

namespace Sisop

inductive Event where
  | line (n : ℕ)
  | writeData (varName : UInt8) (varValue : Int32)
  | imprimir (text : CString)
  deriving DecidableEq, Repr

/-- What a line leaves behind. `ticks`: it goes through `(*quantumCount)++` and `(*rafaga)++`. -/
structure LineEffect where
  PC : ℕ
  data : DataArray
  operations : List Operation
  events : List Event
  blocks : Bool
  ticks : Bool

inductive LineOutcome where
  | effect (e : LineEffect)
  | asksPool
  | call (functionName : CString)

inductive Form where
  | skip | variables | imprimir | ssc | snc | assign | assignIo | io | call | other
  deriving DecidableEq, Repr

/-- The part of the chain that both interpreters share. -/
def commonForm (line : CString) : Form :=
  if (line)[1]? = some 61 ∧ ¬ stringStartsWith (line.drop 2) (cstr "io(") then .assign
  else if (line)[1]? = some 61 ∧ stringStartsWith (line.drop 2) (cstr "io(") then .assignIo
  else if stringStartsWith line (cstr "io(") then .io
  else if stringEndsWith line (cstr "()") then .call
  else .other

def processForm (line : CString) : Form :=
  if line = [] ∨ stringEndsWith line (cstr ":") then .skip
  else if stringStartsWith line (cstr "variables") then .variables
  else if stringStartsWith line (cstr "imprimir") then .imprimir
  else if stringStartsWith line (cstr "ssc") then .ssc
  else if stringStartsWith line (cstr "snc") then .snc
  else commonForm line

def functionForm (line : CString) : Form :=
  if line = [] ∨ stringEndsWith line (cstr ":") then .skip
  else if stringStartsWith line (cstr "imprimir") then .imprimir
  else commonForm line

/-- The end of the branches that count: the `ALG_mutex` is held when `ALG` is looked at. -/
def tickOperations : List Operation := [.lock .sentTime, .unlock .sentTime, .lock .alg]

def quietOperations : List Operation :=
  [.lock .sentTime, .unlock .sentTime, .lock .alg, .unlock .alg]

def skipLine (image : TProcessImage) : LineEffect := ⟨image.PC, image.data, [], [], false, false⟩

def variablesLine (image : TProcessImage) (line : CString) : Option LineEffect :=
  if (cstr "variables,").length ≤ line.length then
    (addVariables image.data (line.drop (cstr "variables,").length)).map fun data =>
      ⟨image.PC, data, quietOperations, [], false, false⟩
  else none

/-- `asprintf` prints the whole text, but its readers stop at the first NUL. -/
def printed (text : List UInt8) : CString := text.takeWhile (· != 0)

def imprimirLine (self : Ptr) (image : TProcessImage) (line : CString) : Option LineEffect := do
  let varName ← charAt line (cstr "imprimir,").length
  let varValue ← readData image.data varName
  let text := printed (cstr "IMPRIMIENDO VARIABLE " ++ [varName] ++ cstr ": " ++
    decimal varValue.toInt ++ cstr "\n")
  return ⟨image.PC, image.data, sendMsg ⟨image.clientfd, 78, text⟩ self ++ quietOperations,
    [.imprimir text], false, false⟩

def jumpTarget (code : List CString) (image : TProcessImage) (line : CString) (jumps : Bool) :
    Option ℕ :=
  if jumps then
    if (cstr "ssc,x,").length ≤ line.length then
      changePC code (line.drop (cstr "ssc,x,").length)
    else none
  else some image.PC

/-- `ssc` jumps on zero, `snc` on anything else. -/
def jumpLine (code : List CString) (image : TProcessImage) (line : CString)
    (jumps : Int32 → Bool) : Option LineEffect := do
  let varName ← charAt line (cstr "ssc,").length
  let varValue ← readData image.data varName
  let PC ← jumpTarget code image line (jumps varValue)
  return ⟨PC, image.data, tickOperations, [], false, true⟩

/-- One operand goes into the sum with the sign in front of it: `atoi` when it has at least two
characters, else the variable or digit. -/
def addOperand (data : DataArray) (sign : UInt8) (operand : CString) (varValue : Int32) :
    Option Int32 :=
  if 1 < operand.length then
    some (if sign = 45 then varValue - atoi operand else varValue + atoi operand)
  else
    (readData data (operand.headD 0)).map fun value =>
      if sign = 45 then varValue - value else varValue + value

/-- The two scanning loops of an assignment; `sign` is the last of `=`, `+` and `-`. -/
def evalTerms (data : DataArray) :
    (line : CString) → (sign : UInt8) → (operand : CString) → (varValue : Int32) → Option Int32
  | [], sign, operand, varValue => addOperand data sign operand varValue
  | c :: line, sign, operand, varValue =>
    if c = 59 then addOperand data sign operand varValue
    else if c = 43 ∨ c = 45 then
      (addOperand data sign operand varValue).bind fun varValue =>
        evalTerms data line c [] varValue
    else evalTerms data line sign (operand ++ [c]) varValue

def assignLine (image : TProcessImage) (line : CString) : Option LineEffect := do
  let varName ← (line)[0]?
  let varValue ← evalTerms image.data (line.drop 2) 61 [] 0
  let data ← writeData image.data varName varValue
  return ⟨image.PC, data, tickOperations, [.writeData varName varValue], false, true⟩

/-- The text of the time and the flag behind the comma, from `offset` on. -/
def ioRequest (line : CString) (offset : ℕ) : Option (CString × UInt8) :=
  let aux := line.drop offset
  let ind := (aux.takeWhile (· != 44)).length
  if ind = aux.length then none
  else (charAt aux (ind + 1)).map fun flag => (aux.take ind, flag)

/-- `ioTime` is a `uint32_t` in one interpreter and a `uint16_t` in the other. -/
def ioTimeOf (width : ℕ) (text : CString) : ℕ := (atoi text).toUInt32.toNat % 2 ^ width

def blockingRequest (self : Ptr) (ioTime : ℕ) : List Operation :=
  [.lock .lpb] ++ logWrite ++ [.enqueueLPB ⟨self, ⟨ioTime, false⟩⟩, .unlock .lpb]

def nonBlockingRequest (self : Ptr) (ioTime : ℕ) : List Operation :=
  [.enqueueLPB ⟨self, ⟨ioTime, true⟩⟩, .unlock .lpb]

def refusedText (lineNumber : ℕ) : CString :=
  cstr "ERROR I/O no-bloqueante, hilos no disponibles, línea " ++ decimal lineNumber ++ cstr "\n"

def refusedRequest (self : Ptr) (image : TProcessImage) (text : CString) : List Operation :=
  [.unlock .lpb] ++ logWrite ++ sendMsg ⟨image.clientfd, 78, text⟩ self

/-- `v=io(t,f)` with a flag other than `'0'`. -/
def assignBlockingIo (width : ℕ) (self : Ptr) (image : TProcessImage) (varName : UInt8)
    (ioTime : CString) : Option LineEffect :=
  (writeData image.data varName 1).map fun data =>
    ⟨image.PC, data, blockingRequest self (ioTimeOf width ioTime) ++ tickOperations,
      [.writeData varName 1], true, true⟩

def blockingIo (width : ℕ) (self : Ptr) (image : TProcessImage) (ioTime : CString) : LineEffect :=
  ⟨image.PC, image.data, blockingRequest self (ioTimeOf width ioTime) ++ quietOperations, [],
    true, false⟩

/-- A line with an I/O request: the pool is asked when the flag is `'0'`. -/
def ioLine (width offset : ℕ) (self : Ptr) (image : TProcessImage) (line : CString) :
    Option LineOutcome := do
  let (ioTime, flag) ← ioRequest line offset
  if flag = 48 then return .asksPool
  else if offset = 3 then return .effect (blockingIo width self image ioTime)
  else
    let varName ← (line)[0]?
    let effect ← assignBlockingIo width self image varName ioTime
    return .effect effect

def processLine (code : List CString) (self : Ptr) (image : TProcessImage) (line : CString) :
    Option LineOutcome :=
  match processForm line with
  | .skip | .other => some (.effect (skipLine image))
  | .variables => (variablesLine image line).map .effect
  | .imprimir => (imprimirLine self image line).map .effect
  | .ssc => (jumpLine code image line (· == 0)).map .effect
  | .snc => (jumpLine code image line (· != 0)).map .effect
  | .assign => (assignLine image line).map .effect
  | .assignIo => ioLine 32 5 self image line
  | .io => ioLine 32 3 self image line
  | .call => some (.call (line.takeWhile (· != 40)))

def functionLine (self : Ptr) (image : TProcessImage) (line : CString) : Option LineOutcome :=
  match functionForm line with
  | .imprimir => (imprimirLine self image line).map .effect
  | .assign => (assignLine image line).map .effect
  | .assignIo => ioLine 16 5 self image line
  | .io => ioLine 16 3 self image line
  | .call => some (.call (line.takeWhile (· != 40)))
  | _ => some (.effect (skipLine image))

/-- `io(t,0)` after the test of the pool. -/
def poolIo (width : ℕ) (free : Bool) (self : Ptr) (image : TProcessImage) (lineNumber : ℕ)
    (ioTime : CString) : LineEffect :=
  if free then
    ⟨image.PC, image.data, nonBlockingRequest self (ioTimeOf width ioTime) ++ quietOperations, [],
      false, false⟩
  else
    ⟨image.PC, image.data, refusedRequest self image (refusedText lineNumber) ++ quietOperations,
      [], false, false⟩

/-- `v=io(t,0)` of `processExecution` after the test: with a thread free it takes `LPB_mutex`
once more and makes a blocking request. -/
def processAssignPoolIo (free : Bool) (self : Ptr) (image : TProcessImage) (varName : UInt8)
    (ioTime : CString) : Option LineEffect :=
  if free then
    (writeData image.data varName 1).map fun data =>
      ⟨image.PC, data, blockingRequest self (ioTimeOf 32 ioTime) ++ tickOperations,
        [.writeData varName 1], true, true⟩
  else
    (writeData image.data varName 0).map fun data =>
      ⟨image.PC, data, refusedRequest self image (cstr "PID:" ++ decimal image.pid ++ cstr "; " ++
        refusedText (image.PC + 1)) ++ tickOperations, [.writeData varName 0], false, true⟩

def functionAssignPoolIo (free : Bool) (self : Ptr) (image : TProcessImage) (lineNumber : ℕ)
    (varName : UInt8) (ioTime : CString) : Option LineEffect :=
  if free then
    (writeData image.data varName 1).map fun data =>
      ⟨image.PC, data, nonBlockingRequest self (ioTimeOf 16 ioTime) ++ tickOperations,
        [.writeData varName 1], false, true⟩
  else
    (writeData image.data varName 0).map fun data =>
      ⟨image.PC, data, refusedRequest self image (refusedText lineNumber) ++ tickOperations,
        [.writeData varName 0], false, true⟩

/-- A line that asked the pool, once `queue_size(LPB) < semValue` is known. -/
def processPoolLine (free : Bool) (self : Ptr) (image : TProcessImage) (line : CString) :
    Option LineEffect :=
  match processForm line with
  | .assignIo => do
    let (ioTime, _) ← ioRequest line 5
    let varName ← (line)[0]?
    processAssignPoolIo free self image varName ioTime
  | .io => do
    let (ioTime, _) ← ioRequest line 3
    return poolIo 32 free self image (image.PC + 1) ioTime
  | _ => none

def functionPoolLine (free : Bool) (self : Ptr) (image : TProcessImage) (PC : ℕ)
    (line : CString) : Option LineEffect :=
  match functionForm line with
  | .assignIo => do
    let (ioTime, _) ← ioRequest line 5
    let varName ← (line)[0]?
    functionAssignPoolIo free self image (PC + 1) varName ioTime
  | .io => do
    let (ioTime, _) ← ioRequest line 3
    return poolIo 16 free self image (PC + 1) ioTime
  | _ => none

end Sisop
