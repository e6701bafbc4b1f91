import Sisop.CString

/-!
# The variables of a process

`processImage->data` is `NULL` or an allocated array that ends with an entry named `'\0'`. The
list holds every allocated entry, the terminating one included. An access through `NULL`, or a
scan that meets no terminator, has no result.
-/

namespace Sisop

structure TData where
  varName : UInt8
  varValue : Int32
  deriving DecidableEq, Repr

abbrev DataArray := Option (List TData)

def readEntries : List TData → UInt8 → Option Int32
  | [], _ => none
  | d :: ds, varName =>
    if d.varName = 0 then some (atoi [varName])
    else if d.varName = varName then some d.varValue
    else readEntries ds varName

def readData (data : DataArray) (varName : UInt8) : Option Int32 :=
  data.bind fun entries => readEntries entries varName

def writeEntries : List TData → UInt8 → Int32 → Option (List TData)
  | [], _, _ => none
  | d :: ds, varName, varValue =>
    if d.varName = 0 then some (d :: ds)
    else if d.varName = varName then some ({ d with varValue } :: ds)
    else (writeEntries ds varName varValue).map (d :: ·)

def writeData (data : DataArray) (varName : UInt8) (varValue : Int32) : Option DataArray :=
  (data.bind fun entries => writeEntries entries varName varValue).map some

/-- Entries in front of the terminator; the counter is a `uint16_t`. -/
def dataCount : DataArray → Option ℕ
  | none => some 0
  | some entries =>
    (entries.findIdx? (·.varName == 0)).bind fun i => if i < 2 ^ 16 then some i else none

/-- The names `addVariables` takes from `varList`: it looks one character ahead and steps over
two. -/
def listedNames : CString → Option (List UInt8)
  | [] => none
  | [a] => some [a]
  | a :: _ :: rest => (listedNames rest).map (a :: ·)

def addVariables (data : DataArray) (varList : CString) : Option DataArray := do
  let varCount ← dataCount data
  let names ← listedNames varList
  return some ((data.getD []).take varCount ++ names.map (fun name => ⟨name, 0⟩) ++ [⟨0, 0⟩])

example : addVariables none (cstr "a,b") = some (some [⟨97, 0⟩, ⟨98, 0⟩, ⟨0, 0⟩]) := by decide

end Sisop
