import Sisop.CString

/-!
# The code segment

`codeSegmentCreator` splits a script into the lines the interpreter indexes; the searches for a
label and for a function compare whole lines from the first one on. A scan that passes the
terminating NUL of the script, or the `NULL` at the end of the array, has no result.
-/

namespace Sisop

def newline : UInt8 := 10

def hash : UInt8 := 35

def strlenCS (line : CString) : ℕ := (line.takeWhile (· != newline)).length

/-- The loop of `codeSegmentCreator`; each round consumes at least one character. -/
def codeSegmentLines : ℕ → CString → Option (List CString)
  | 0, _ => none
  | fuel + 1, code =>
    let lineLength := (code.takeWhile fun c => c != newline && c != hash).length
    let line := stringTrim (code.take lineLength)
    if lineLength = code.length then some [line]
    else if strlenCS code = code.length then none
    else (codeSegmentLines fuel (code.drop (strlenCS code + 1))).map (line :: ·)

def codeSegmentCreator (script : CString) : Option (List CString) :=
  codeSegmentLines (script.length + 1) script

def findLine (code : List CString) (line : CString) : Option ℕ := code.findIdx? (· == line)

def findFunctionLine (code : List CString) (fname : CString) : Option ℕ :=
  findLine code (cstr "comienzo_funcion " ++ fname)

/-- The tag ends at `';'`. -/
def changePC (code : List CString) (tagName : CString) : Option ℕ :=
  findLine code (tagName.takeWhile (· != 59) ++ cstr ":")

example : codeSegmentCreator (cstr "variables a\n a=1 # uno\nfin_programa") =
    some [cstr "variables a", cstr "a=1", cstr "fin_programa"] := by decide

end Sisop
