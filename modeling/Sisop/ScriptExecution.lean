import Sisop.CarriedPrograms
import Sisop.DataReport
import Sisop.PreemptionTransparency
import Sisop.ScriptLines

/-!
# The interpreter executes the script

The meaning of a script is given statement by statement. `processExecution` and `functionExecution`
walk through the lines of its text, and come to the same variables and messages: first without an
interruption, then in every run of dispatches. A meaning that has no end is a run that has none.
-/

namespace Sisop

section Variables

variable {entries : List TData} {name : UInt8}

theorem Term.definedIn_valueOf (entries : List TData) (term : Term) :
    term.DefinedIn (valueOf entries) ↔ term.Valid entries := by
  cases term <;> exact Iff.rfl

theorem Expression.definedIn_valueOf (entries : List TData) (e : Expression) :
    e.DefinedIn (valueOf entries) ↔ e.Valid entries :=
  and_congr (Term.definedIn_valueOf entries e.first) (forall₂_congr fun signed _ =>
    Term.definedIn_valueOf entries signed.2)

theorem Term.valueIn_valueOf (entries : List TData) (term : Term) :
    term.valueIn (valueOf entries) = term.value entries := by
  cases term <;> rfl

theorem Expression.totalIn_valueOf (entries : List TData) (e : Expression) :
    e.totalIn (valueOf entries) = e.total entries := by
  rw [totalIn, total, Term.valueIn_valueOf, termsTotal]
  simp only [Term.valueIn_valueOf]

structure Keeps (data : DataArray) (st : ScriptState) (entries : List TData) : Prop where
  store : st.store = valueOf entries
  declared : st.declared = entries.length
  named : ∀ d ∈ entries, d.varName ≠ 0
  data : (∃ terminator : TData, terminator.varName = 0 ∧ data = some (entries ++ [terminator])) ∨
    entries = [] ∧ data = none

def Keeping (data : DataArray) (st : ScriptState) : Prop := ∃ entries, Keeps data st entries

variable {data : DataArray} {st st' : ScriptState} {value : Int32}

theorem keeping_initial : Keeping none .initial :=
  ⟨[], rfl, rfl, List.forall_mem_nil _, .inr ⟨rfl, rfl⟩⟩

/-- With a variable there is an array. -/
theorem Keeps.array (h : Keeps data st entries) (hname : (st.store name).isSome = true) :
    ∃ terminator : TData, terminator.varName = 0 ∧ data = some (entries ++ [terminator]) := by
  rcases h.data with hdata | ⟨rfl, -⟩
  · exact hdata
  · rw [h.store] at hname
    cases hname

theorem Keeping.readData (h : Keeping data st) (hname : st.store name = some value) :
    readData data name = some value := by
  obtain ⟨entries, h⟩ := h
  obtain ⟨terminator, hterminator, rfl⟩ := h.array (by rw [hname]; rfl)
  rw [h.store] at hname
  rw [readData_eq h.named hterminator, hname]
  rfl

theorem Keeping.writeData (h : Keeping data st)
    (hassign : assignTo name value st = .ok ((), st')) : st'.output = st.output ∧
      ∃ data', writeData data name value = some data' ∧ Keeping data' st' := by
  obtain ⟨entries, h⟩ := h
  by_cases hname : (st.store name).isSome = true
  · have hstep := (step_of_some (s := st) (if_pos hname)).symm.trans hassign
    obtain rfl := (Prod.mk.inj (Except.ok.inj hstep)).2
    obtain ⟨terminator, hterminator, rfl⟩ := h.array hname
    refine ⟨rfl, _, writeData_eq h.named hterminator, assigned entries name value, ?_, ?_, ?_,
      .inl ⟨terminator, hterminator, rfl⟩⟩
    · rw [valueOf_assigned, h.store]
    · rw [assigned, List.length_modify]
      exact h.declared
    · intro d hd
      have hname := List.mem_map_of_mem (f := TData.varName) hd
      rw [names_assigned] at hname
      obtain ⟨d', hd', heq⟩ := List.mem_map.mp hname
      rw [← heq]
      exact h.named d' hd'
  · cases (step_of_none (s := st) (if_neg hname)).symm.trans hassign

theorem Keeping.addVariables {names : List UInt8} (h : Keeping data st) (hne : names ≠ [])
    (hzero : 0 ∉ names) (hdeclare : declare names st = .ok ((), st')) :
    st'.output = st.output ∧
      ∃ data', addVariables data (namesText names) = some data' ∧ Keeping data' st' := by
  obtain ⟨entries, h⟩ := h
  by_cases hcount : st.declared + names.length + 1 < 2 ^ 16
  · have hstep := (step_of_some (s := st) (if_pos hcount)).symm.trans hdeclare
    obtain rfl := (Prod.mk.inj (Except.ok.inj hstep)).2
    rw [h.declared] at hcount
    have hadd : Sisop.addVariables data (namesText names) =
        some (some (entries ++ Sisop.declared names ++ [⟨0, 0⟩])) := by
      rcases h.data with ⟨terminator, hterminator, rfl⟩ | ⟨rfl, rfl⟩
      · rw [Sisop.addVariables, dataCount_eq_some h.named hterminator, if_pos (by omega)]
        rw [listedNames_namesText hne]
        simp [Sisop.declared]
      · rw [Sisop.addVariables, listedNames_namesText hne]
        simp [dataCount, Sisop.declared]
    refine ⟨rfl, _, hadd, entries ++ Sisop.declared names, ?_, ?_, ?_,
      .inl ⟨⟨0, 0⟩, rfl, rfl⟩⟩
    · rw [valueOf_append_declared, h.store]
    · rw [List.length_append, h.declared, Sisop.declared, List.length_map]
    · rw [List.forall_mem_append]
      refine ⟨h.named, fun d hd => ?_⟩
      obtain ⟨a, ha, rfl⟩ := List.mem_map.mp hd
      rintro rfl
      exact hzero ha
  · cases (step_of_none (s := st) (if_neg hcount)).symm.trans hdeclare

end Variables

section Lines

variable {code : List CString} {self : Ptr} {image : TProcessImage} {st st' : ScriptState}
  {statement : Statement} {tag : Option CString}

def imprimirText (varName : UInt8) (value : Int32) : CString :=
  printed (cstr "IMPRIMIENDO VARIABLE " ++ [varName] ++ cstr ": " ++ decimal value.toInt ++
    cstr "\n")

def messagesOf (events : List Event) : List CString :=
  events.filterMap fun event =>
    match event with
    | .imprimir text => some text
    | _ => none

def outputTexts (st : ScriptState) : List CString :=
  st.output.map fun (varName, value) => imprimirText varName value

structure Agrees (code : List CString) (image : TProcessImage) (st st' : ScriptState)
    (tag : Option CString) (f : LineEffect) : Prop where
  data : Keeping f.data st'
  messages : outputTexts st' = outputTexts st ++ messagesOf f.events
  stays : tag = none → f.PC = image.PC
  jumps : ∀ tagName, tag = some tagName → findLine code (tagName ++ cstr ":") = some f.PC

theorem agrees_of_output {f : LineEffect} (hdata : Keeping f.data st')
    (hout : st'.output = st.output) (hevents : messagesOf f.events = []) (hPC : f.PC = image.PC) :
    Agrees code image st st' none f := by
  refine ⟨hdata, ?_, fun _ => hPC, fun _ h => (by cases h)⟩
  rw [outputTexts, outputTexts, hout, hevents, List.append_nil]

theorem step_eq_ok {f : ScriptState → Option (Int32 × ScriptState)} {value : Int32}
    (h : Program.step f st = .ok (value, st')) : f st = some (value, st') := by
  cases hf : f st with
  | none => cases (step_of_none hf).symm.trans h
  | some r =>
    have hok := (step_of_some hf).symm.trans h
    rw [Except.ok.inj hok]

theorem valueIn_eq_ok {name : UInt8} {value : Int32} (h : valueIn name st = .ok (value, st')) :
    st' = st ∧ st.store name = some value := by
  obtain ⟨x, hx, heq⟩ := Option.map_eq_some_iff.mp (step_eq_ok h)
  obtain ⟨rfl, rfl⟩ := Prod.mk.inj heq
  exact ⟨rfl, hx⟩

theorem imprimirLine_agrees {name : UInt8} {value : Int32} (hkeep : Keeping image.data st)
    (hname : st.store name = some value) :
    ∃ f, imprimirLine self image (cstr "imprimir " ++ [name]) = some f ∧
      Agrees code image st { st with output := st.output ++ [(name, value)] } none f := by
  have hchar : charAt (cstr "imprimir " ++ [name]) (cstr "imprimir,").length = some name := rfl
  rw [imprimirLine, bind_of_eq_some hchar, bind_of_eq_some (hkeep.readData hname)]
  refine ⟨_, rfl, ?_, ?_, fun _ => rfl, fun _ h => (by cases h)⟩
  · obtain ⟨entries, h⟩ := hkeep
    exact ⟨entries, h.store, h.declared, h.named, h.data⟩
  · exact List.map_append

theorem evaluate_agrees {v : UInt8} {e : Expression} {delay : Option CString} {value : Int32}
    {st₁ : ScriptState} (hkeep : Keeping image.data st)
    (heval : evaluate e st = .ok (value, st₁)) (hassign : assignTo v value st₁ = .ok ((), st')) :
    ∃ f, assignLine image (assignmentLine v e delay) = some f ∧
      Agrees code image st st' none f := by
  have hif := step_eq_ok heval
  split_ifs at hif with hdefined
  obtain ⟨rfl, rfl⟩ := Prod.mk.inj (Option.some.inj hif)
  obtain ⟨hout, data', hwrite, hkeep'⟩ := hkeep.writeData hassign
  have hvar : (st.store v).isSome = true := by
    by_contra hnone
    cases (step_of_none (s := st) (if_neg hnone)).symm.trans hassign
  obtain ⟨entries, h⟩ := hkeep
  obtain ⟨terminator, hterminator, hdata⟩ := h.array hvar
  have hterms : evalTerms image.data ((assignmentLine v e delay).drop 2) 61 [] 0 =
      some (Int32.ofInt (e.totalIn st.store)) := by
    rw [h.store] at hdefined ⊢
    rw [hdata, e.totalIn_valueOf]
    exact evalTerms_expression ((e.definedIn_valueOf entries).mp hdefined) h.named hterminator
  have hhead : (assignmentLine v e delay)[0]? = some v := rfl
  rw [assignLine, bind_of_eq_some hhead, bind_of_eq_some hterms, bind_of_eq_some hwrite]
  exact ⟨_, rfl, agrees_of_output hkeep' hout rfl rfl⟩

theorem ioRequest_requestText {ioTime front : CString} (h : ∀ c ∈ ioTime, isdigit c) :
    ioRequest (front ++ requestText ioTime) (front.length + 3) = some (ioTime, 49) := by
  have hdrop : (front ++ requestText ioTime).drop (front.length + 3) = ioTime ++ cstr ",1)" := by
    rw [← List.drop_drop, List.drop_left]
    rfl
  have htake : (ioTime ++ cstr ",1)").takeWhile (· != 44) = ioTime := by
    rw [List.takeWhile_append_of_pos fun c hc => ?_]
    · exact List.append_nil ioTime
    · rw [bne_iff_ne]
      rintro rfl
      exact absurd (h 44 hc) (by decide)
  have hlength : (ioTime ++ cstr ",1)").length = ioTime.length + 3 := List.length_append
  have hchar : charAt (ioTime ++ cstr ",1)") (ioTime.length + 1) = some 49 := by
    rw [charAt, if_neg (by omega), List.getElem?_append_right (Nat.le_succ _),
      Nat.succ_sub (Nat.le_refl _), Nat.sub_self]
    rfl
  rw [ioRequest, hdrop, htake, if_neg (by omega), hchar, List.take_left]
  rfl

theorem skip_agrees (hkeep : Keeping image.data st) :
    Agrees code image st st none (skipLine image) := agrees_of_output hkeep rfl rfl rfl

theorem ioLine_request (width : ℕ) {ioTime : CString} (h : ∀ c ∈ ioTime, isdigit c) :
    ioLine width 3 self image (requestText ioTime) =
      some (.effect (blockingIo width self image ioTime)) := by
  have hrequest : ioRequest ([] ++ requestText ioTime) 3 = some (ioTime, 49) :=
    ioRequest_requestText h
  rw [List.nil_append] at hrequest
  rw [ioLine, bind_of_eq_some hrequest]
  rfl

theorem ioLine_assignRequest (width : ℕ) {name : UInt8} {ioTime : CString}
    (h : ∀ c ∈ ioTime, isdigit c) :
    ioLine width 5 self image (name :: 61 :: requestText ioTime) =
      (assignBlockingIo width self image name ioTime).map .effect := by
  have hrequest : ioRequest ([name, 61] ++ requestText ioTime) 5 = some (ioTime, 49) :=
    ioRequest_requestText h
  have hfront : [name, 61] ++ requestText ioTime = name :: 61 :: requestText ioTime := rfl
  rw [hfront] at hrequest
  have hhead : (name :: 61 :: requestText ioTime)[0]? = some name := rfl
  rw [ioLine, bind_of_eq_some hrequest]
  dsimp only
  rw [if_neg (by decide), if_neg (by decide), bind_of_eq_some hhead]
  exact Option.map_eq_bind.symm

theorem assignBlockingIo_agrees (width : ℕ) {name : UInt8} (ioTime : CString)
    (hkeep : Keeping image.data st) (hassign : assignTo name 1 st = .ok ((), st')) :
    ∃ f, assignBlockingIo width self image name ioTime = some f ∧
      Agrees code image st st' none f := by
  obtain ⟨hout, data', hwrite, hkeep'⟩ := hkeep.writeData hassign
  rw [assignBlockingIo, hwrite]
  exact ⟨_, rfl, agrees_of_output hkeep' hout rfl rfl⟩

theorem variablesLine_agrees {names : List UInt8} (h : (Statement.declaration names).Plain)
    (hkeep : Keeping image.data st) (hdeclare : declare names st = .ok ((), st')) :
    ∃ f, variablesLine image (declarationLine names []) = some f ∧
      Agrees code image st st' none f := by
  have hzero : 0 ∉ names := fun hmem => absurd (h.2 0 hmem) (by decide)
  obtain ⟨hout, data', hadd, hkeep'⟩ := hkeep.addVariables h.1 hzero hdeclare
  have hdrop : (declarationLine names []).drop (cstr "variables,").length = namesText names :=
    List.append_nil _
  have hlength : (cstr "variables,").length ≤ (declarationLine names []).length := by
    have hten : (cstr "variables,").length = (cstr "variables ").length := by decide
    rw [declarationLine, List.length_append, hten]
    exact Nat.le_add_right _ _
  rw [variablesLine, if_pos hlength, hdrop, hadd]
  exact ⟨_, rfl, agrees_of_output hkeep' hout rfl rfl⟩

theorem jumpLine_agrees {kind : Jump} {name : UInt8} {tagName : CString} {delay : Option CString}
    {value : Int32} (h : (Statement.jump kind name tagName delay).Plain)
    (hkeep : Keeping image.data st) (hname : st.store name = some value)
    (hlabel : kind.taken value = true → ∃ n, findLine code (tagName ++ cstr ":") = some n) :
    ∃ f, jumpLine code image (Statement.jump kind name tagName delay).text kind.taken = some f ∧
      Agrees code image st st (if kind.taken value then some tagName else none) f := by
  have hlength : 6 ≤ (Statement.jump kind name tagName delay).text.length := by
    cases kind <;> exact Nat.le_add_left 6 _
  have hchar : charAt (Statement.jump kind name tagName delay).text (cstr "ssc,").length =
      some name := by
    rw [charAt, if_neg (Nat.ne_of_lt (Nat.lt_of_lt_of_le (by decide) hlength))]
    cases kind <;> rfl
  have hdrop : (Statement.jump kind name tagName delay).text.drop (cstr "ssc,x,").length =
      tagName ++ delayText delay := by
    cases kind <;> rfl
  have htag : (tagName ++ delayText delay).takeWhile (· != 59) = tagName := by
    rw [List.takeWhile_append_of_pos fun c hc => ?_]
    · cases delay <;> exact List.append_nil tagName
    · rw [bne_iff_ne]
      rintro rfl
      exact absurd (h.2.1.2 59 hc) (by decide)
  rw [jumpLine, bind_of_eq_some hchar, bind_of_eq_some (hkeep.readData hname), jumpTarget]
  cases htaken : kind.taken value with
  | false =>
    rw [if_neg Bool.false_ne_true]
    exact ⟨_, rfl, agrees_of_output hkeep rfl rfl rfl⟩
  | true =>
    obtain ⟨n, hn⟩ := hlabel htaken
    have hchange : changePC code (tagName ++ delayText delay) = some n := by
      rw [changePC, htag, hn]
    rw [if_pos rfl, if_pos (by exact hlength), hdrop, bind_of_eq_some hchange]
    refine ⟨_, rfl, hkeep, (List.append_nil _).symm, fun hnone => (by cases hnone), ?_⟩
    intro name hsome
    cases hsome
    exact hn

theorem agrees_effect {found : Option LineEffect}
    (h : ∃ f, found = some f ∧ Agrees code image st st' tag f) :
    ∃ f, found.map LineOutcome.effect = some (.effect f) ∧ Agrees code image st st' tag f := by
  obtain ⟨f, rfl, hf⟩ := h
  exact ⟨f, rfl, hf⟩

/-- A statement of the script itself. -/
theorem processLine_agrees (hplain : statement.Plain)
    (hcall : ∀ functionName, statement ≠ .call functionName) (hkeep : Keeping image.data st)
    (hperform : statement.perform .process st = .ok (tag, st'))
    (hlabel : ∀ tagName, tag = some tagName → ∃ n, findLine code (tagName ++ cstr ":") = some n) :
    ∃ f, processLine code self image statement.text = some (.effect f) ∧
      Agrees code image st st' tag f := by
  rw [processLine]
  cases statement with
  | blank =>
    cases hperform
    exact ⟨_, rfl, skip_agrees hkeep⟩
  | label tagName =>
    cases hperform
    rw [Statement.text, (forms_label tagName).1]
    exact ⟨_, rfl, skip_agrees hkeep⟩
  | declaration names =>
    obtain ⟨_, st₁, hdeclare, hreturn⟩ := bind_eq_ok hperform
    cases hreturn
    rw [Statement.text, (forms_declaration hplain).1]
    exact agrees_effect (variablesLine_agrees hplain hkeep hdeclare)
  | imprimir name =>
    obtain ⟨value, st₁, hvalue, hrest⟩ := bind_eq_ok hperform
    obtain ⟨rfl, hname⟩ := valueIn_eq_ok hvalue
    cases hrest
    rw [Statement.text, (forms_imprimir hplain).1]
    exact agrees_effect (imprimirLine_agrees hkeep hname)
  | jump kind name tagName delay =>
    obtain ⟨value, st₁, hvalue, hreturn⟩ := bind_eq_ok hperform
    obtain ⟨rfl, hname⟩ := valueIn_eq_ok hvalue
    cases hreturn
    rw [(forms_jump hplain).1]
    have hagrees := jumpLine_agrees hplain hkeep hname fun htaken =>
      hlabel tagName (if_pos htaken)
    cases kind with
    | ssc => exact agrees_effect hagrees
    | snc => exact agrees_effect hagrees
  | assign name e delay =>
    obtain ⟨value, st₁, heval, hrest⟩ := bind_eq_ok hperform
    obtain ⟨_, st₂, hassign, hreturn⟩ := bind_eq_ok hrest
    cases hreturn
    rw [Statement.text, (forms_assign hplain).1]
    exact agrees_effect (evaluate_agrees hkeep heval hassign)
  | io ioTime =>
    cases hperform
    rw [Statement.text, (forms_io hplain).1]
    exact ⟨_, ioLine_request 32 hplain, agrees_of_output hkeep rfl rfl rfl⟩
  | assignIo name ioTime =>
    obtain ⟨_, st₁, hassign, hreturn⟩ := bind_eq_ok hperform
    cases hreturn
    rw [Statement.text, (forms_assignIo hplain).1]
    dsimp only
    rw [ioLine_assignRequest 32 hplain.2]
    exact agrees_effect (assignBlockingIo_agrees 32 ioTime hkeep hassign)
  | call functionName => exact absurd rfl (hcall functionName)

/-- A statement of a function. -/
theorem functionLine_agrees (hplain : statement.Plain)
    (hcall : ∀ functionName, statement ≠ .call functionName) (hkeep : Keeping image.data st)
    (hperform : statement.perform .function st = .ok (tag, st')) :
    tag = none ∧ ∃ f, functionLine self image statement.text = some (.effect f) ∧
      Agrees code image st st' none f := by
  rw [functionLine]
  cases statement with
  | blank =>
    cases hperform
    exact ⟨rfl, _, rfl, skip_agrees hkeep⟩
  | label tagName =>
    cases hperform
    rw [Statement.text, (forms_label tagName).2]
    exact ⟨rfl, _, rfl, skip_agrees hkeep⟩
  | declaration names =>
    cases hperform
    rw [Statement.text, (forms_declaration hplain).2]
    exact ⟨rfl, _, rfl, skip_agrees hkeep⟩
  | imprimir name =>
    obtain ⟨value, st₁, hvalue, hrest⟩ := bind_eq_ok hperform
    obtain ⟨rfl, hname⟩ := valueIn_eq_ok hvalue
    cases hrest
    rw [Statement.text, (forms_imprimir hplain).2]
    exact ⟨rfl, agrees_effect (imprimirLine_agrees hkeep hname)⟩
  | jump kind name tagName delay =>
    cases hperform
    rw [(forms_jump hplain).2]
    exact ⟨rfl, _, rfl, skip_agrees hkeep⟩
  | assign name e delay =>
    obtain ⟨value, st₁, heval, hrest⟩ := bind_eq_ok hperform
    obtain ⟨_, st₂, hassign, hreturn⟩ := bind_eq_ok hrest
    cases hreturn
    rw [Statement.text, (forms_assign hplain).2]
    exact ⟨rfl, agrees_effect (evaluate_agrees hkeep heval hassign)⟩
  | io ioTime =>
    cases hperform
    rw [Statement.text, (forms_io hplain).2]
    exact ⟨rfl, _, ioLine_request 16 hplain, agrees_of_output hkeep rfl rfl rfl⟩
  | assignIo name ioTime =>
    obtain ⟨_, st₁, hassign, hreturn⟩ := bind_eq_ok hperform
    cases hreturn
    rw [Statement.text, (forms_assignIo hplain).2]
    dsimp only
    rw [ioLine_assignRequest 16 hplain.2]
    exact ⟨rfl, agrees_effect (assignBlockingIo_agrees 16 ioTime hkeep hassign)⟩
  | call functionName => exact absurd rfl (hcall functionName)

theorem callName {functionName : CString} (h : Word functionName) :
    (functionName ++ cstr "()").takeWhile (· != 40) = functionName := by
  rw [List.takeWhile_append_of_pos fun c hc => ?_]
  · exact List.append_nil functionName
  · rw [bne_iff_ne]
    rintro rfl
    exact absurd (h.2 40 hc) (by decide)

theorem callLine (code : List CString) (self : Ptr) (image : TProcessImage)
    {functionName : CString} (h : (Statement.call functionName).Plain) :
    processLine code self image (functionName ++ cstr "()") = some (.call functionName) ∧
      functionLine self image (functionName ++ cstr "()") = some (.call functionName) := by
  obtain ⟨hword, hform⟩ := h
  rw [processLine, functionLine, hform, functionForm_of_processForm_call hform]
  exact ⟨congrArg _ (congrArg _ (callName hword)), congrArg _ (congrArg _ (callName hword))⟩

end Lines

section Positions

variable {code before more : List CString} {stop line : CString} {PC : ℕ} {rest : List Statement}
  {statement : Statement}

/-- The interpreter stands on a line, and the next ones are these statements and `stop`. -/
structure Stands (code : List CString) (stop : CString) (PC : ℕ) (rest : List Statement) :
    Prop where
  line : ∃ line, code[PC]? = some line ∧ line ≠ finPrograma ∧
    ¬ stringStartsWith line (cstr "fin_funcion")
  next : ∃ more, code.drop (PC + 1) = rest.map Statement.text ++ stop :: more

theorem stands_of_lines
    (h : code = before ++ line :: (rest.map Statement.text ++ stop :: more))
    (hline : line ≠ finPrograma ∧ ¬ stringStartsWith line (cstr "fin_funcion")) :
    Stands code stop before.length rest := by
  constructor
  · exact ⟨line, by rw [h, List.getElem?_append_right (Nat.le_refl _), Nat.sub_self]; rfl, hline⟩
  · exact ⟨more, by rw [h, ← List.drop_drop, List.drop_left]; rfl⟩

theorem getElem?_of_drop {n : ℕ} {tail : List CString} (h : code.drop n = line :: tail) :
    code[n]? = some line ∧ code.drop (n + 1) = tail := by
  have hhead := congrArg List.head? h
  rw [List.head?_drop] at hhead
  exact ⟨hhead, by rw [← List.drop_drop, h]; rfl⟩

theorem nextPC_of_getElem? (hshort : code.length ≤ 2 ^ 16) (h : code[PC + 1]? = some line) :
    nextPC PC = PC + 1 := by
  obtain ⟨hlt, -⟩ := List.getElem?_eq_some_iff.mp h
  exact Nat.mod_eq_of_lt (Nat.lt_of_lt_of_le hlt hshort)

/-- No statement is taken for an end. -/
theorem text_goesOn (h : statement.Plain) :
    statement.text ≠ finPrograma ∧ ¬ stringStartsWith statement.text (cstr "fin_funcion") := by
  have hnot := notMem_text h (c := 95) (by decide) (by decide)
  refine ⟨fun heq => hnot ?_, not_startsWith_of_notMem (c := 95) (by decide) hnot⟩
  rw [heq]
  decide

theorem Stands.head (h : Stands code stop PC (statement :: rest)) (hplain : statement.Plain)
    (hshort : code.length ≤ 2 ^ 16) : code[nextPC PC]? = some statement.text ∧
      Stands code stop (nextPC PC) rest := by
  obtain ⟨more, hmore⟩ := h.next
  obtain ⟨hhead, htail⟩ := getElem?_of_drop hmore
  rw [nextPC_of_getElem? hshort hhead]
  exact ⟨hhead, ⟨_, hhead, text_goesOn hplain⟩, more, htail⟩

theorem Stands.last (h : Stands code stop PC []) (hshort : code.length ≤ 2 ^ 16) :
    code[nextPC PC]? = some stop := by
  obtain ⟨more, hmore⟩ := h.next
  obtain ⟨hhead, -⟩ := getElem?_of_drop hmore
  rw [nextPC_of_getElem? hshort hhead]
  exact hhead

end Positions

section Steps

variable {code : List CString} {s : Script} {e : Exec} {trace : List Event} {st st' : ScriptState}
  {statement : Statement} {tag : Option CString} {callers : List TStack} {PC : ℕ}
  {rest : List Statement}

/-- Between two lines of the uninterrupted run. -/
structure Ready (e : Exec) : Prop where
  point : e.point = .loopTest
  stack : e.stack = []
  free : e.ioBlockInterrupt = false

theorem Ready.keepsRunning (h : Ready e) :
    e.keepsRunning (e.quantumCount + 1) ⟨false, true, true⟩ = true := by
  rw [Exec.keepsRunning, h.free]
  exact decide_eq_true (Int.lt_succ _)

/-- The variables and messages of the run are those of the script. -/
structure Shows (e : Exec) (trace : List Event) (st : ScriptState) : Prop where
  data : Keeping e.processImage.data st
  messages : messagesOf trace = outputTexts st

theorem messagesOf_line (trace events : List Event) (n : ℕ) :
    messagesOf (trace ++ .line n :: events) = messagesOf trace ++ messagesOf events := by
  rw [messagesOf, List.filterMap_append]
  rfl

def Leads (code : List CString) (e : Exec) (trace : List Event) (e' : Exec)
    (trace' : List Event) : Prop :=
  ∃ k, iterateStep (Dispatch.uninterruptedStep code) (1 + k) ⟨e, false, trace⟩ =
    some ⟨e', false, trace'⟩

theorem leads_of_moves {e' : Exec} {ops : List Operation} {events : List Event}
    (h : Exec.Moves code (e.quantumCount + 1) 0 ⟨false, true, true⟩ e e' ops events) :
    Leads code e trace { e' with ioBlockInterrupt := false } (trace ++ events) :=
  ⟨0, Exec.uninterruptedStep_of_moves h⟩

theorem Leads.trans {e₁ e₂ : Exec} {trace₁ trace₂ : List Event}
    (h : Leads code e trace e₁ trace₁) (h' : Leads code e₁ trace₁ e₂ trace₂) :
    Leads code e trace e₂ trace₂ := by
  obtain ⟨k, hk⟩ := h
  obtain ⟨k', hk'⟩ := h'
  refine ⟨k + (1 + k'), ?_⟩
  rw [← Nat.add_assoc]
  exact iterateStep_trans hk hk'

/-- A line and the counters behind it, up to the next loop test. -/
theorem line_leads {e₁ : Exec} {f : LineEffect} {n : ℕ} (hstack : e₁.stack = [])
    (hshows : Shows e trace st)
    (hmoves : Exec.Moves code (e.quantumCount + 1) 0 ⟨false, true, true⟩ e (e₁.perform f)
      f.operations (.line n :: f.events))
    (hagrees : Agrees code e₁.processImage st st' tag f) :
    ∃ e' trace', Leads code e trace e' trace' ∧ Ready e' ∧ Shows e' trace' st' ∧
      e'.elements = e₁.elements ∧ e'.processImage.PC = f.PC := by
  have hmessages : messagesOf (trace ++ .line n :: f.events) = outputTexts st' := by
    rw [messagesOf_line, hshows.messages, hagrees.messages]
  have hline : Leads code e trace _ _ := leads_of_moves hmoves
  cases hticks : f.ticks with
  | false =>
    refine ⟨_, _, hline, ⟨?_, hstack, rfl⟩, ⟨hagrees.data, hmessages⟩, rfl, rfl⟩
    simp only [Exec.perform, hticks, Bool.false_eq_true, if_false]
  | true =>
    have hpoint : ({ e₁.perform f with ioBlockInterrupt := false } : Exec).point = .algTest := by
      simp only [Exec.perform, hticks, if_true]
    have hcounts : Leads code _ (trace ++ .line n :: f.events) _ _ :=
      leads_of_moves (.counts hpoint)
    rw [List.append_nil] at hcounts
    exact ⟨_, _, hline.trans hcounts, ⟨rfl, hstack, rfl⟩, ⟨hagrees.data, hmessages⟩, rfl, rfl⟩

/-- The run is in the script itself, or in a function, where `PC` is the line the script waits
on. -/
inductive Context where
  | process
  | function (PC : ℕ) (callers : List TStack)

def Context.place : Context → Place
  | .process => .process
  | .function _ _ => .function

def At (s : Script) (rest : List Statement) (e : Exec) : Context → Prop
  | .process => e.elements = [] ∧ Stands s.lines finPrograma e.processImage.PC rest
  | .function PC callers => e.processImage.PC = PC ∧ ∃ element, e.elements = element :: callers ∧
      Word element.functionName ∧
        Stands s.lines (Script.finFuncion element.functionName) element.PC rest

theorem isFinFuncion_finFuncion (functionName : CString) :
    isFinFuncion (Script.finFuncion functionName) functionName = true := by
  rw [isFinFuncion, Bool.and_eq_true]
  exact ⟨rfl, List.isSuffixOf_iff_suffix.mpr (List.suffix_append _ _)⟩

theorem isFinFuncion_eq_false {line : CString} (h : ¬ stringStartsWith line (cstr "fin_funcion"))
    (functionName : CString) : isFinFuncion line functionName = false := by
  rw [isFinFuncion, Bool.eq_false_iff.mpr h, Bool.false_and]

theorem mem_of_behind {tagName : CString} {statements : List Statement}
    (h : behind tagName statements = some rest) :
    .label tagName ∈ statements ∧ ∀ statement ∈ rest, statement ∈ statements := by
  induction statements with
  | nil => cases h
  | cons statement statements ih =>
    rw [behind] at h
    split_ifs at h with hlabel
    · cases h
      refine ⟨?_, fun _ hmem => List.mem_cons_of_mem _ hmem⟩
      cases statement with
      | label name =>
        rw [show name = tagName from beq_iff_eq.mp hlabel]
        exact List.mem_cons_self
      | _ => cases hlabel
    · obtain ⟨hmem, hrest⟩ := ih h
      exact ⟨List.mem_cons_of_mem _ hmem, fun _ hstatement =>
        List.mem_cons_of_mem _ (hrest _ hstatement)⟩

/-- A label is found where the script has it. -/
theorem stands_behind (hs : s.Plain) {tagName : CString} (h : behind tagName s.main = some rest) :
    ∃ n, findLine s.lines (tagName ++ cstr ":") = some n ∧ Stands s.lines finPrograma n rest := by
  obtain ⟨before, more, hlines, hnot⟩ := hs.lines_of_behind h
  refine ⟨before.length, by rw [hlines]; exact findLine_append hnot, ?_⟩
  exact stands_of_lines hlines (text_goesOn (hs.main _ (mem_of_behind h).1))

theorem processLine_leads {next : CString} {f : LineEffect} {stop : CString} (hready : Ready e)
    (hshows : Shows e trace st) (helements : e.elements = [])
    (hstands : Stands code stop e.processImage.PC rest)
    (hnext : code[nextPC e.processImage.PC]? = some next)
    (hf : processLine code 0 e.advanceProcess.processImage next = some (.effect f))
    (hagrees : Agrees code e.advanceProcess.processImage st st' tag f) :
    ∃ e' trace', Leads code e trace e' trace' ∧ Ready e' ∧ Shows e' trace' st' ∧
      e'.elements = [] ∧ e'.processImage.PC = f.PC := by
  obtain ⟨line, hline, hne, -⟩ := hstands.line
  have hmoves : Exec.Moves code (e.quantumCount + 1) 0 ⟨false, true, true⟩ e
      (e.advanceProcess.perform f) f.operations (.line (nextPC e.processImage.PC) :: f.events) :=
    .runsLine hready.point helements hready.stack hline hne hready.keepsRunning hnext hf rfl
  have hidle : e.advanceProcess.stack = [] := hready.stack
  have hrunning : e.advanceProcess.elements = [] := helements
  rw [← hrunning]
  exact line_leads hidle hshows hmoves hagrees

theorem functionLine_leads {next : CString} {f : LineEffect} {stop : CString} {element : TStack}
    (hready : Ready e) (hshows : Shows e trace st) (helements : e.elements = element :: callers)
    (hstands : Stands code stop element.PC rest) (hnext : code[nextPC element.PC]? = some next)
    (hf : functionLine 0 e.processImage next = some (.effect f))
    (hagrees : Agrees code e.processImage st st' tag f) :
    ∃ e' trace', Leads code e trace e' trace' ∧ Ready e' ∧ Shows e' trace' st' ∧
      e'.elements = { element with PC := nextPC element.PC } :: callers ∧
      e'.processImage.PC = f.PC := by
  obtain ⟨line, hline, -, hnot⟩ := hstands.line
  have hmoves : Exec.Moves code (e.quantumCount + 1) 0 ⟨false, true, true⟩ e
      ((e.advanceFunction element callers).perform f) f.operations
      (.line (nextPC element.PC) :: f.events) :=
    .runsFunctionLine hready.point helements hline (isFinFuncion_eq_false hnot _)
      hready.keepsRunning hnext hf rfl
  have hidle : (e.advanceFunction element callers).stack = [] := hready.stack
  have hsame : Agrees code (e.advanceFunction element callers).processImage st st' tag f := hagrees
  exact line_leads hidle hshows hmoves hsame

def Continues (s : Script) (tag : Option CString) (rest next : List Statement) : Prop :=
  tag = none ∧ next = rest ∨ ∃ tagName, tag = some tagName ∧ behind tagName s.main = some next

theorem process_leads {next : List Statement} (hs : s.Plain) (hready : Ready e)
    (hshows : Shows e trace st) (hat : At s (statement :: rest) e .process)
    (hplain : statement.Plain) (hcall : ∀ functionName, statement ≠ .call functionName)
    (hperform : statement.perform .process st = .ok (tag, st'))
    (hnext : Continues s tag rest next) :
    ∃ e' trace', Leads s.lines e trace e' trace' ∧ Ready e' ∧ Shows e' trace' st' ∧
      At s next e' .process := by
  obtain ⟨helements, hstands⟩ := hat
  obtain ⟨hhead, hrest⟩ := hstands.head hplain hs.short
  have hlabel : ∀ tagName, tag = some tagName →
      ∃ n, findLine s.lines (tagName ++ cstr ":") = some n := by
    rintro tagName rfl
    rcases hnext with ⟨hnone, -⟩ | ⟨name, hsome, hbehind⟩
    · cases hnone
    · cases hsome
      obtain ⟨n, hn, -⟩ := stands_behind hs hbehind
      exact ⟨n, hn⟩
  have hkeep : Keeping e.advanceProcess.processImage.data st := hshows.data
  obtain ⟨f, hf, hagrees⟩ := processLine_agrees hplain hcall hkeep hperform hlabel
  obtain ⟨e', trace', hleads, hready', hshows', helements', hPC⟩ :=
    processLine_leads hready hshows helements hstands hhead hf hagrees
  refine ⟨e', trace', hleads, hready', hshows', helements', ?_⟩
  rcases hnext with ⟨rfl, rfl⟩ | ⟨tagName, rfl, hbehind⟩
  · rw [hPC, hagrees.stays rfl]
    exact hrest
  · obtain ⟨n, hn, hstands'⟩ := stands_behind hs hbehind
    have hsame : n = f.PC := Option.some.inj (hn.symm.trans (hagrees.jumps tagName rfl))
    rw [hPC, ← hsame]
    exact hstands'

theorem function_leads (hs : s.Plain) (hready : Ready e) (hshows : Shows e trace st)
    (hat : At s (statement :: rest) e (.function PC callers)) (hplain : statement.Plain)
    (hcall : ∀ functionName, statement ≠ .call functionName)
    (hperform : statement.perform .function st = .ok (tag, st')) :
    tag = none ∧ ∃ e' trace', Leads s.lines e trace e' trace' ∧ Ready e' ∧ Shows e' trace' st' ∧
      At s rest e' (.function PC callers) := by
  obtain ⟨rfl, element, helements, hword, hstands⟩ := hat
  obtain ⟨hhead, hrest⟩ := hstands.head hplain hs.short
  obtain ⟨htag, f, hf, hagrees⟩ := functionLine_agrees hplain hcall hshows.data hperform
  obtain ⟨e', trace', hleads, hready', hshows', helements', hPC⟩ :=
    functionLine_leads hready hshows helements hstands hhead hf hagrees
  refine ⟨htag, e', trace', hleads, hready', hshows', hPC.trans (hagrees.stays rfl), _, helements',
    hword, hrest⟩

/-- The function starts behind its header, and the caller goes on where it has called. -/
theorem call_leads {c : Context} {functionName : CString} {body : List Statement} (hs : s.Plain)
    (hready : Ready e) (hshows : Shows e trace st)
    (hat : At s (.call functionName :: rest) e c) (hplain : (Statement.call functionName).Plain)
    (hbody : s.body functionName = some body) :
    ∃ e' trace' callers, Leads s.lines e trace e' trace' ∧ Ready e' ∧ Shows e' trace' st ∧
      At s body e' (.function e'.processImage.PC callers) ∧
      ∀ e'' : Exec, e''.processImage.PC = e'.processImage.PC → e''.elements = callers →
        At s rest e'' c := by
  obtain ⟨hword, -⟩ := hs.body_plain hbody
  obtain ⟨before, more, hlines, hnot⟩ := hs.lines_of_body hbody
  have hentry : findFunctionLine s.lines functionName = some before.length := by
    rw [hlines]
    exact findLine_append hnot
  have hheader : Script.comienzoFuncion functionName ≠ finPrograma ∧
      ¬ stringStartsWith (Script.comienzoFuncion functionName) (cstr "fin_funcion") := by
    refine ⟨fun heq => ?_, not_startsWith_head (by decide)⟩
    have hhead : some (99 : UInt8) = some 102 := congrArg List.head? heq
    exact absurd hhead (by decide)
  have hstarts : Stands s.lines (Script.finFuncion functionName) before.length body :=
    stands_of_lines hlines hheader
  have hcalls (e₁ : Exec) (linecall : ℕ) :
      e₁.runLine s.lines linecall (.call functionName) = some
        ({ e₁ with elements := ⟨functionName, before.length, linecall⟩ :: e₁.elements },
          [.logCreate], [.line linecall]) := by
    rw [Exec.runLine, Exec.call_eq, hentry]
    rfl
  have hmessages (n : ℕ) : messagesOf (trace ++ [.line n]) = outputTexts st := by
    rw [messagesOf_line, hshows.messages]
    exact List.append_nil _
  cases c with
  | process =>
    obtain ⟨helements, hstands⟩ := hat
    obtain ⟨line, hline, hne, -⟩ := hstands.line
    obtain ⟨hhead, hrest⟩ := hstands.head hplain hs.short
    have hleads : Leads s.lines e trace _ _ :=
      leads_of_moves (.runsLine hready.point helements hready.stack hline hne hready.keepsRunning
        hhead (callLine s.lines 0 _ hplain).1 (hcalls _ _))
    refine ⟨_, _, e.elements, hleads, ⟨hready.point, hready.stack, rfl⟩,
      ⟨hshows.data, hmessages _⟩, ⟨rfl, _, rfl, hword, hstarts⟩, ?_⟩
    intro e'' hPC helements''
    refine ⟨helements''.trans helements, ?_⟩
    rw [hPC]
    exact hrest
  | function PC callers =>
    obtain ⟨rfl, element, helements, hname, hstands⟩ := hat
    obtain ⟨line, hline, -, hnotFin⟩ := hstands.line
    obtain ⟨hhead, hrest⟩ := hstands.head hplain hs.short
    have hleads : Leads s.lines e trace _ _ :=
      leads_of_moves (.runsFunctionLine hready.point helements hline
        (isFinFuncion_eq_false hnotFin _) hready.keepsRunning hhead
        (callLine s.lines 0 _ hplain).2 (hcalls _ _))
    refine ⟨_, _, _, hleads, ⟨hready.point, hready.stack, rfl⟩,
      ⟨hshows.data, hmessages _⟩, ⟨rfl, _, rfl, hword, hstarts⟩, ?_⟩
    intro e'' hPC helements''
    exact ⟨hPC, _, helements'', hname, hrest⟩

/-- The last line of a function is run too, before the function is left. -/
theorem leave_leads (hs : s.Plain) (hready : Ready e) (hshows : Shows e trace st)
    (hat : At s [] e (.function PC callers)) :
    ∃ e' trace', Leads s.lines e trace e' trace' ∧ Ready e' ∧ Shows e' trace' st ∧
      e'.elements = callers ∧ e'.processImage.PC = PC := by
  obtain ⟨rfl, element, helements, hword, hstands⟩ := hat
  have hlast := hstands.last hs.short
  have hskip : functionLine 0 e.processImage (Script.finFuncion element.functionName) =
      some (.effect (skipLine e.processImage)) := by
    rw [functionLine, functionForm_finFuncion hword]
  obtain ⟨e₁, trace₁, hleads, hready₁, hshows₁, helements₁, hPC⟩ :=
    functionLine_leads hready hshows helements hstands hlast hskip (skip_agrees hshows.data)
  have hfin := isFinFuncion_finFuncion element.functionName
  have hleaves : Leads s.lines e₁ trace₁ _ _ :=
    leads_of_moves (.leaves hready₁.point helements₁ hlast (.inl hfin))
  rw [List.append_nil] at hleaves
  have hleft : e₁.leaveFunction true { element with PC := nextPC element.PC } callers =
      { e₁ with elements := callers } := Exec.leaveFunction_finished hready₁.stack
  refine ⟨_, trace₁, hleads.trans hleaves, ?_⟩
  dsimp only
  rw [hfin, hleft]
  exact ⟨⟨hready₁.point, hready₁.stack, rfl⟩, ⟨hshows₁.data, hshows₁.messages⟩, rfl, hPC⟩

end Steps

section Runs

variable {s : Script} {e : Exec} {trace : List Event} {st st' : ScriptState} {rest : List Statement}
  {statement : Statement} {tag : Option CString} {c : Context}

/-- The run has come to the end of the statements with what the script has come to. -/
def Arrives (s : Script) (c : Context) (_ : Unit) (st : ScriptState) (d : Dispatch) : Prop :=
  ∃ e trace, d = ⟨e, false, trace⟩ ∧ Ready e ∧ Shows e trace st ∧ At s [] e c

theorem loopless_perform (place : Place) (statement : Statement) :
    Loopless (statement.perform place) := by
  have hthen (f : ScriptState → Option (Unit × ScriptState)) :
      Loopless (Program.step f >>= fun _ => pure none : Program ScriptState (Option CString)) :=
    (Loopless.of_step f).bind fun _ => Loopless.pure none
  cases statement with
  | declaration names =>
    cases place with
    | process => exact hthen _
    | function => exact Loopless.pure none
  | jump kind varName tagName delay =>
    cases place with
    | process => exact (Loopless.of_step _).bind fun _ => Loopless.pure _
    | function => exact Loopless.pure none
  | imprimir varName => cases place <;> exact (Loopless.of_step _).bind fun _ => hthen _
  | assign varName e delay => cases place <;> exact (Loopless.of_step _).bind fun _ => hthen _
  | assignIo varName ioTime => cases place <;> exact hthen _
  | _ => cases place <;> exact Loopless.pure none

/-- The statement and what the script goes on with. -/
def Script.goOn (s : Script) (fuel : ℕ) (place : Place) (rest : List Statement) :
    Option CString → Program ScriptState Unit
  | none => s.run fuel place rest
  | some tagName =>
    match behind tagName s.main with
    | none => .stop .fault
    | some next => s.run fuel place next

theorem run_statement (s : Script) (fuel : ℕ) (place : Place) (rest : List Statement)
    (hcall : ∀ functionName, statement ≠ .call functionName) :
    s.run (fuel + 1) place (statement :: rest) =
      statement.perform place >>= s.goOn fuel place rest := by
  have hgoOn : s.goOn fuel place rest = fun tag =>
      match tag with
      | none => s.run fuel place rest
      | some tagName =>
        match behind tagName s.main with
        | none => .stop .fault
        | some next => s.run fuel place next := by
    funext tag
    cases tag <;> rfl
  rw [hgoOn]
  cases statement with
  | call functionName => exact absurd rfl (hcall functionName)
  | _ => rfl

theorem statement_leads {next : List Statement} (hs : s.Plain) (hready : Ready e)
    (hshows : Shows e trace st) (hat : At s (statement :: rest) e c) (hplain : statement.Plain)
    (hcall : ∀ functionName, statement ≠ .call functionName)
    (hperform : statement.perform c.place st = .ok (tag, st'))
    (hnext : Continues s tag rest next) :
    ∃ e' trace', Leads s.lines e trace e' trace' ∧ Ready e' ∧ Shows e' trace' st' ∧
      At s next e' c := by
  cases c with
  | process => exact process_leads hs hready hshows hat hplain hcall hperform hnext
  | function PC callers =>
    obtain ⟨rfl, hleads⟩ := function_leads hs hready hshows hat hplain hcall hperform
    rcases hnext with ⟨-, rfl⟩ | ⟨tagName, hnone, -⟩
    · exact hleads
    · cases hnone

/-- By induction on the rounds, for every place of the text at once: a call needs the statements
of the function and those behind the call. -/
theorem run_carried (hs : s.Plain) (fuel : ℕ) : ∀ {rest : List Statement} {e : Exec}
    {trace : List Event} {st : ScriptState} {c : Context}, (∀ statement ∈ rest, statement.Plain) →
      Ready e → Shows e trace st → At s rest e c →
        CarriesOut (Dispatch.uninterruptedStep s.lines) ⟨e, false, trace⟩ fuel
          (s.run fuel c.place rest st) (Arrives s c) := by
  induction fuel with
  | zero => exact fun _ _ _ _ => CarriesOut.of_running
  | succ fuel ih =>
    intro rest e trace st c hplain hready hshows hat
    rcases rest with _ | ⟨statement, rest⟩
    · exact CarriesOut.of_ok ⟨e, trace, rfl, hready, hshows, hat⟩
    · rw [List.forall_mem_cons] at hplain
      by_cases hcall : ∃ functionName, statement = .call functionName
      · obtain ⟨functionName, rfl⟩ := hcall
        rw [Script.run]
        cases hbody : s.body functionName with
        | none => exact CarriesOut.of_fault
        | some body =>
          obtain ⟨e₁, trace₁, callers, ⟨k, hk⟩, hready₁, hshows₁, hat₁, hback⟩ :=
            call_leads hs hready hshows hat hplain.1 hbody
          have hfunction := ih (hs.body_plain hbody).2 hready₁ hshows₁ hat₁
          refine (hfunction.bind ?_).after hk
          rintro - st₂ - ⟨e₂, trace₂, rfl, hready₂, hshows₂, hat₂⟩
          obtain ⟨e₃, trace₃, ⟨k', hk'⟩, hready₃, hshows₃, helements₃, hPC₃⟩ :=
            leave_leads hs hready₂ hshows₂ hat₂
          exact ((ih hplain.2 hready₃ hshows₃ (hback e₃ hPC₃ helements₃)).after hk').mono
            (Nat.le_succ fuel)
      · push Not at hcall
        rw [run_statement s fuel c.place rest hcall]
        refine CarriesOut.bind_of_loopless (loopless_perform c.place statement) ?_
        intro tag st' hperform
        cases tag with
        | none =>
          obtain ⟨e', trace', ⟨k, hk⟩, hready', hshows', hat'⟩ := statement_leads hs hready hshows
            hat hplain.1 hcall hperform (.inl ⟨rfl, rfl⟩)
          exact (ih hplain.2 hready' hshows' hat').after hk
        | some tagName =>
          rw [Script.goOn]
          cases hbehind : behind tagName s.main with
          | none => exact CarriesOut.of_fault
          | some next =>
            obtain ⟨e', trace', ⟨k, hk⟩, hready', hshows', hat'⟩ := statement_leads hs hready
              hshows hat hplain.1 hcall hperform (.inr ⟨tagName, rfl, hbehind⟩)
            have hmain : ∀ statement ∈ next, statement.Plain := fun _ hmem =>
              hs.main _ ((mem_of_behind hbehind).2 _ hmem)
            exact (ih hmain hready' hshows' hat').after hk

end Runs

end Sisop
