import Sisop.ShieldScripts
import Mathlib.Data.Set.Basic

/-!
# Whom the traffic limiter kills

`procesar` of limitacion_trafico_red goes through the names of the listed programs and takes a
name for its pattern twice: to count the sockets of the program, and to find its processes. It
never misses a program with more than one socket; it also kills others, those whose line a
pattern selects that has been counted with them.
-/

namespace Sisop.Shield.LimitacionTraficoRed

/-- As a word of the shell and a pattern of `grep` it stands for itself, but for its periods. -/
def plain (name : Text) : Bool :=
  name.head? != some '-' && name.all fun c => !(['*', '?', '[', '\\', '^', '$'].contains c)

/-- A line of `lsof -i4 -w` below the header: the plain name of the program, then the other
columns, of which the pid is the first. -/
structure Entry where
  name : Text
  pid : ℕ
  columns : Text
  name_ne : name ≠ []
  name_word : ∀ c ∈ name, blank c = false
  name_plain : plain name = true
  pid_first : (shellWords columns).head? = some (Nat.toDigits 10 pid)

def Entry.line (e : Entry) : Text := e.name ++ ' ' :: e.columns

/-- `lsof -i4 -w | grep -v "COMMAND" | grep -v "localhost"` -/
def listed (lsof : List Entry) : List Entry :=
  lsof.filter fun e => !occurs "COMMAND".toList e.line && !occurs "localhost".toList e.line

/-- `awk '{print $1}'` and `awk '{print $2}'` -/
theorem Entry.fields (e : Entry) : ∃ rest,
    shellWords e.line = e.name :: Nat.toDigits 10 e.pid :: rest := by
  obtain ⟨rest, hrest⟩ := List.head?_eq_some_iff.mp e.pid_first
  exact ⟨rest, by rw [Entry.line, shellWords_cons_word e.name_ne e.name_word, hrest]⟩

variable {packets : List ℤ} {lsof entries : List Entry} {v : Vars} {pid : ℤ}

end Sisop.Shield.LimitacionTraficoRed
