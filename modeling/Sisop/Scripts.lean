import Sisop.Programs
import Sisop.VariableStore

/-!
# AnSISOP scripts

The language of the scripts as statements instead of lines: how a script is written, and what it
means. A script has no meaning where it reads or assigns what it has not declared, jumps to a label
or calls a function that it does not have, or declares more than the array of the variables can
count.
-/

namespace Sisop

inductive Jump where
  | ssc | snc
  deriving DecidableEq, Repr

def Jump.text : Jump → CString
  | .ssc => cstr "ssc"
  | .snc => cstr "snc"

/-- `ssc` jumps on zero, `snc` on anything else. -/
def Jump.taken : Jump → Int32 → Bool
  | .ssc => (· == 0)
  | .snc => (· != 0)

/-- The requests are those with the blocking flag. -/
inductive Statement where
  | blank
  | label (tagName : CString)
  | declaration (names : List UInt8)
  | imprimir (varName : UInt8)
  | jump (kind : Jump) (varName : UInt8) (tagName : CString) (delay : Option CString)
  | assign (varName : UInt8) (e : Expression) (delay : Option CString)
  | io (ioTime : CString)
  | assignIo (varName : UInt8) (ioTime : CString)
  | call (functionName : CString)

def requestText (ioTime : CString) : CString := cstr "io(" ++ (ioTime ++ cstr ",1)")

def Statement.text : Statement → CString
  | .blank => []
  | .label tagName => tagName ++ cstr ":"
  | .declaration names => declarationLine names []
  | .imprimir varName => cstr "imprimir " ++ [varName]
  | .jump kind varName tagName delay =>
    kind.text ++ (32 :: varName :: 32 :: (tagName ++ delayText delay))
  | .assign varName e delay => assignmentLine varName e delay
  | .io ioTime => requestText ioTime
  | .assignIo varName ioTime => varName :: 61 :: requestText ioTime
  | .call functionName => functionName ++ cstr "()"

structure Script where
  main : List Statement
  functions : List (CString × List Statement)

namespace Script

def comienzoFuncion (functionName : CString) : CString := cstr "comienzo_funcion " ++ functionName

def finFuncion (functionName : CString) : CString := cstr "fin_funcion " ++ functionName

def functionLines (function : CString × List Statement) : List CString :=
  comienzoFuncion function.1 :: (function.2.map Statement.text ++ [finFuncion function.1])

def lines (s : Script) : List CString :=
  cstr "comienzo_programa" ::
    (s.main.map Statement.text ++ finPrograma :: s.functions.flatMap functionLines)

def text (s : Script) : CString := List.intercalate [newline] s.lines

def body (s : Script) (functionName : CString) : Option (List Statement) :=
  (s.functions.find? fun function => function.1 == functionName).map Prod.snd

end Script

def Statement.isLabel (tagName : CString) : Statement → Bool
  | .label name => name == tagName
  | _ => false

def behind (tagName : CString) : List Statement → Option (List Statement)
  | [] => none
  | statement :: rest => if statement.isLabel tagName then some rest else behind tagName rest

section Meaning

abbrev Store := VariableMap UInt8 Int32

/-- The digit that is declared as a variable is not the digit any more. -/
def Term.DefinedIn (store : Store) : Term → Prop
  | .varName name => isLetter name ∧ (store name).isSome
  | .digit c => isdigit c ∧ store c = none
  | .numeral digits => 2 ≤ digits.length ∧ (∀ c ∈ digits, isdigit c) ∧ digitsValue digits < 2 ^ 31

def Term.valueIn (store : Store) : Term → ℤ
  | .varName name => ((store name).map Int32.toInt).getD 0
  | .digit c => digitsValue [c]
  | .numeral digits => digitsValue digits

instance Term.decidableDefinedIn (store : Store) : (term : Term) → Decidable (term.DefinedIn store)
  | .varName _ => instDecidableAnd
  | .digit _ => instDecidableAnd
  | .numeral _ => @instDecidableAnd _ _ _ (@instDecidableAnd _ _ (List.decidableBAll _ _) _)

def Expression.DefinedIn (store : Store) (e : Expression) : Prop :=
  e.first.DefinedIn store ∧ ∀ signed ∈ e.terms, signed.2.DefinedIn store

instance (store : Store) (e : Expression) : Decidable (e.DefinedIn store) :=
  @instDecidableAnd _ _ _ (List.decidableBAll _ _)

def Expression.totalIn (store : Store) (e : Expression) : ℤ :=
  (e.leading.getD .plus).signed (e.first.valueIn store) +
    e.terms.foldr (fun (sign, term) n => sign.signed (term.valueIn store) + n) 0

/-- What is printed is the variable and its value. -/
structure ScriptState where
  store : Store
  declared : ℕ
  output : List (UInt8 × Int32)

def ScriptState.initial : ScriptState := ⟨fun _ => none, 0, []⟩

def valueIn (varName : UInt8) : Program ScriptState Int32 :=
  .step fun st => (st.store varName).map fun value => (value, st)

/-- A name that is declared again keeps its value. -/
def declare (names : List UInt8) : Program ScriptState Unit :=
  .step fun st =>
    if st.declared + names.length + 1 < 2 ^ 16 then
      some ((), { st with
        store := VariableMap.declare 0 names st.store
        declared := st.declared + names.length })
    else none

def emit (varName : UInt8) (value : Int32) : Program ScriptState Unit :=
  .step fun st => some ((), { st with output := st.output ++ [(varName, value)] })

def evaluate (e : Expression) : Program ScriptState Int32 :=
  .step fun st =>
    if e.DefinedIn st.store then some (Int32.ofInt (e.totalIn st.store), st) else none

def assignTo (varName : UInt8) (value : Int32) : Program ScriptState Unit :=
  .step fun st =>
    if (st.store varName).isSome then
      some ((), { st with store := VariableMap.write varName value st.store })
    else none

inductive Place where
  | process | function
  deriving DecidableEq, Repr

/-- The statement, and the label it jumps to. A function knows neither declarations nor jumps. -/
def Statement.perform : Place → Statement → Program ScriptState (Option CString)
  | .process, .declaration names => do
    declare names
    return none
  | .process, .jump kind varName tagName _ => do
    let value ← valueIn varName
    return if kind.taken value then some tagName else none
  | _, .imprimir varName => do
    let value ← valueIn varName
    emit varName value
    return none
  | _, .assign varName e _ => do
    let value ← evaluate e
    assignTo varName value
    return none
  | _, .assignIo varName _ => do
    assignTo varName 1
    return none
  | _, _ => return none

def Script.run (s : Script) : ℕ → Place → List Statement → Program ScriptState Unit
  | 0, _, _ => .stop .running
  | _ + 1, _, [] => pure ()
  | fuel + 1, place, .call functionName :: rest =>
    match s.body functionName with
    | none => .stop .fault
    | some body => do
      s.run fuel .function body
      s.run fuel place rest
  | fuel + 1, place, statement :: rest => do
    let tag ← statement.perform place
    match tag with
    | none => s.run fuel place rest
    | some tagName =>
      match behind tagName s.main with
      | none => .stop .fault
      | some rest => s.run fuel place rest

def Script.execute (s : Script) (fuel : ℕ) : Except Stop ScriptState :=
  (s.run fuel .process s.main .initial).map Prod.snd

end Meaning

end Sisop
