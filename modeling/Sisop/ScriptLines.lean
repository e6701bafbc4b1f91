import Sisop.CodeSplitting
import Sisop.Scripts

/-!
# The lines of a script

What the interpreters make of a statement's text, where they find labels and functions, and that
`codeSegmentCreator` splits the text of a script into its lines again.
-/

namespace Sisop

def Word (text : CString) : Prop := text ≠ [] ∧ ∀ c ∈ text, isLetter c

/-- A name for which a call is not taken for something else, and an expression that is valid where
its variables are declared. -/
def Statement.Plain : Statement → Prop
  | .blank => True
  | .label tagName => Word tagName
  | .declaration names => names ≠ [] ∧ ∀ c ∈ names, isLetter c
  | .imprimir varName => isLetter varName
  | .jump _ varName tagName delay =>
    isLetter varName ∧ Word tagName ∧ ∀ digits ∈ delay, ∀ c ∈ digits, isdigit c
  | .assign varName e delay => isLetter varName ∧ (∃ entries, e.Valid entries) ∧
      ∀ digits ∈ delay, ∀ c ∈ digits, isdigit c
  | .io ioTime => ∀ c ∈ ioTime, isdigit c
  | .assignIo varName ioTime => isLetter varName ∧ ∀ c ∈ ioTime, isdigit c
  | .call functionName => Word functionName ∧ processForm (functionName ++ cstr "()") = .call

/-- The line numbers fit a `uint16_t`. -/
structure Script.Plain (s : Script) : Prop where
  main : ∀ statement ∈ s.main, statement.Plain
  names : ∀ function ∈ s.functions, Word function.1
  bodies : ∀ function ∈ s.functions, ∀ statement ∈ function.2, statement.Plain
  short : s.lines.length ≤ 2 ^ 16

section Characters

def wordChar (c : UInt8) : Bool := lineChar c || c == 32 || c == 44

def statementChar (c : UInt8) : Bool := wordChar c || c == 40 || c == 41

theorem wordChar_of_lineChar {c : UInt8} (h : lineChar c) : wordChar c := by
  rw [wordChar, h]
  rfl

theorem wordChar_of_isLetter {c : UInt8} (h : isLetter c) : wordChar c :=
  wordChar_of_lineChar (lineChar_of_isLetter h)

theorem statementChar_of_wordChar {c : UInt8} (h : wordChar c) : statementChar c := by
  rw [statementChar, h]
  rfl

theorem statementChar_word {text : CString} (h : Word text) : ∀ c ∈ text, statementChar c :=
  fun c hc => statementChar_of_wordChar (wordChar_of_isLetter (h.2 c hc))

theorem wordChar_names {names : List UInt8} (h : ∀ c ∈ names, isLetter c) :
    ∀ c ∈ namesText names, wordChar c := by
  induction names with
  | nil => exact List.forall_mem_nil _
  | cons a names ih =>
    have ha := wordChar_of_isLetter (h a List.mem_cons_self)
    rcases names with _ | ⟨b, names⟩
    · exact List.forall_mem_singleton.mpr ha
    · rw [namesText_cons, List.forall_mem_cons, List.forall_mem_cons]
      exact ⟨ha, by decide, ih fun c hc => h c (List.mem_cons_of_mem _ hc)⟩

theorem wordChar_declaration {names : List UInt8} (h : (Statement.declaration names).Plain) :
    ∀ c ∈ declarationLine names [], wordChar c := by
  rw [declarationLine, List.append_nil, List.forall_mem_append]
  exact ⟨List.all_eq_true.mp (by decide), wordChar_names h.2⟩

theorem wordChar_jump {kind : Jump} {varName : UInt8} {tagName : CString} {delay : Option CString}
    (h : (Statement.jump kind varName tagName delay).Plain) :
    ∀ c ∈ (Statement.jump kind varName tagName delay).text, wordChar c := by
  obtain ⟨hvar, htag, hdelay⟩ := h
  rw [Statement.text, List.forall_mem_append, List.forall_mem_cons, List.forall_mem_cons,
    List.forall_mem_cons, List.forall_mem_append]
  refine ⟨?_, by decide, wordChar_of_isLetter hvar, by decide,
    fun c hc => wordChar_of_isLetter (htag.2 c hc),
    fun c hc => wordChar_of_lineChar (lineChar_delay hdelay c hc)⟩
  cases kind with
  | ssc => exact List.all_eq_true.mp (by decide)
  | snc => exact List.all_eq_true.mp (by decide)

theorem statementChar_request {ioTime : CString} (h : ∀ c ∈ ioTime, isdigit c) :
    ∀ c ∈ requestText ioTime, statementChar c := by
  rw [requestText, List.forall_mem_append, List.forall_mem_append]
  exact ⟨List.all_eq_true.mp (by decide), fun c hc => statementChar_of_wordChar
    (wordChar_of_lineChar (lineChar_of_isdigit (h c hc))), List.all_eq_true.mp (by decide)⟩

theorem statementChar_text {statement : Statement} (h : statement.Plain)
    (hlabel : ∀ tagName, statement ≠ .label tagName) : ∀ c ∈ statement.text, statementChar c := by
  have hletter : ∀ {c : UInt8}, isLetter c → statementChar c := fun h =>
    statementChar_of_wordChar (wordChar_of_isLetter h)
  cases statement with
  | blank => exact List.forall_mem_nil _
  | label tagName => exact absurd rfl (hlabel tagName)
  | declaration names => exact fun c hc => statementChar_of_wordChar (wordChar_declaration h c hc)
  | imprimir varName =>
    rw [Statement.text, List.forall_mem_append, List.forall_mem_singleton]
    exact ⟨List.all_eq_true.mp (by decide), hletter h⟩
  | jump kind varName tagName delay =>
    exact fun c hc => statementChar_of_wordChar (wordChar_jump h c hc)
  | assign varName e delay =>
    obtain ⟨hvar, ⟨entries, he⟩, hdelay⟩ := h
    exact fun c hc => statementChar_of_wordChar
      (wordChar_of_lineChar (lineChar_assignmentLine hvar he hdelay c hc))
  | io ioTime => exact statementChar_request h
  | assignIo varName ioTime =>
    rw [Statement.text, List.forall_mem_cons, List.forall_mem_cons]
    exact ⟨hletter h.1, by decide, statementChar_request h.2⟩
  | call functionName =>
    rw [Statement.text, List.forall_mem_append]
    exact ⟨statementChar_word h.1, List.all_eq_true.mp (by decide)⟩

/-- The characters that no statement has. -/
theorem notMem_text {statement : Statement} (h : statement.Plain) {c : UInt8}
    (hc : statementChar c = false) (hcolon : c ≠ 58) : c ∉ statement.text := by
  intro hmem
  by_cases hlabel : ∃ tagName, statement = .label tagName
  · obtain ⟨tagName, rfl⟩ := hlabel
    rcases List.mem_append.mp hmem with hmem | hmem
    · exact ne_true_of_eq_false hc (statementChar_word h c hmem)
    · exact hcolon (List.mem_singleton.mp hmem)
  · push Not at hlabel
    exact ne_true_of_eq_false hc (statementChar_text h hlabel c hmem)

theorem isLabel_of_text {statement : Statement} (h : statement.Plain) {tagName : CString}
    (htext : statement.text = tagName ++ cstr ":") : statement.isLabel tagName = true := by
  by_cases hlabel : ∃ name, statement = .label name
  · obtain ⟨name, rfl⟩ := hlabel
    exact beq_iff_eq.mpr (List.append_cancel_right htext)
  · push Not at hlabel
    have hmem : (58 : UInt8) ∈ statement.text := by
      rw [htext]
      exact List.mem_append_right _ (by decide)
    have hcolon := statementChar_text h hlabel 58 hmem
    exact absurd hcolon (by decide)

theorem not_startsWith_of_notMem {text begin : CString} {c : UInt8} (hc : c ∈ begin)
    (h : c ∉ text) : ¬ stringStartsWith text begin := fun hstarts =>
  h ((List.isPrefixOf_iff_prefix.mp hstarts).subset hc)

theorem not_endsWith_of_notMem {text ending : CString} {c : UInt8} (hc : c ∈ ending)
    (h : c ∉ text) : ¬ stringEndsWith text ending := fun hends =>
  h ((List.isSuffixOf_iff_suffix.mp hends).subset hc)

theorem startsWith_append (begin text : CString) : stringStartsWith (begin ++ text) begin :=
  List.isPrefixOf_iff_prefix.mpr (List.prefix_append _ _)

theorem not_startsWith_head {c : UInt8} {text begin : CString}
    (h : begin.head?.any (· != c)) : ¬ stringStartsWith (c :: text) begin := by
  intro hstarts
  obtain ⟨rest, hrest⟩ := List.isPrefixOf_iff_prefix.mp hstarts
  rcases begin with _ | ⟨b, begin⟩
  · cases h
  · obtain rfl := (List.cons.inj hrest).1
    simp at h

end Characters

section Forms

variable {text : CString}

theorem not_skipped_of_notMem (hne : text ≠ []) (hcolon : 58 ∉ text) :
    ¬ (text = [] ∨ stringEndsWith text (cstr ":")) := by
  rintro (hnil | hends)
  · exact hne hnil
  · exact not_endsWith_of_notMem (c := 58) (by decide) hcolon hends

/-- A line that a function does not know. -/
theorem functionForm_other (hne : text ≠ []) (hcolon : 58 ∉ text)
    (himprimir : ¬ stringStartsWith text (cstr "imprimir")) (hsecond : (text)[1]? ≠ some 61)
    (hparen : 40 ∉ text) : functionForm text = .other := by
  rw [functionForm, if_neg (not_skipped_of_notMem hne hcolon), if_neg himprimir, commonForm,
    if_neg fun h => hsecond h.1, if_neg fun h => hsecond h.1,
    if_neg (not_startsWith_of_notMem (c := 40) (by decide) hparen),
    if_neg (not_endsWith_of_notMem (c := 40) (by decide) hparen)]

theorem forms_label (tagName : CString) :
    processForm (tagName ++ cstr ":") = .skip ∧ functionForm (tagName ++ cstr ":") = .skip := by
  have hskip : tagName ++ cstr ":" = [] ∨ stringEndsWith (tagName ++ cstr ":") (cstr ":") :=
    .inr (List.isSuffixOf_iff_suffix.mpr (List.suffix_append _ _))
  exact ⟨if_pos hskip, if_pos hskip⟩

theorem forms_declaration {names : List UInt8} (h : (Statement.declaration names).Plain) :
    processForm (declarationLine names []) = .variables ∧
      functionForm (declarationLine names []) = .other := by
  have hchars := wordChar_declaration h
  have hne : declarationLine names [] ≠ [] := by exact List.cons_ne_nil _ _
  have hcolon : 58 ∉ declarationLine names [] := fun hmem => absurd (hchars 58 hmem) (by decide)
  have hstarts : stringStartsWith (declarationLine names []) (cstr "variables") :=
    startsWith_append (cstr "variables") (32 :: (namesText names ++ []))
  have himprimir : ¬ stringStartsWith (declarationLine names []) (cstr "imprimir") := by
    exact not_startsWith_head (by decide)
  have hsecond : (declarationLine names [])[1]? = some 97 := rfl
  refine ⟨?_, functionForm_other hne hcolon himprimir (by rw [hsecond]; decide)
    fun hmem => absurd (hchars 40 hmem) (by decide)⟩
  rw [processForm, if_neg (not_skipped_of_notMem hne hcolon), if_pos hstarts]

theorem forms_imprimir {varName : UInt8} (h : (Statement.imprimir varName).Plain) :
    processForm (cstr "imprimir " ++ [varName]) = .imprimir ∧
      functionForm (cstr "imprimir " ++ [varName]) = .imprimir := by
  have hchars := statementChar_text h (by simp)
  have hne : cstr "imprimir " ++ [varName] ≠ [] := by exact List.cons_ne_nil _ _
  have hskip := not_skipped_of_notMem hne fun hmem => absurd (hchars 58 hmem) (by decide)
  have hstarts : stringStartsWith (cstr "imprimir " ++ [varName]) (cstr "imprimir") :=
    startsWith_append (cstr "imprimir") [32, varName]
  have hvariables : ¬ stringStartsWith (cstr "imprimir " ++ [varName]) (cstr "variables") := by
    exact not_startsWith_head (by decide)
  refine ⟨?_, ?_⟩
  · rw [processForm, if_neg hskip, if_neg hvariables, if_pos hstarts]
  · rw [functionForm, if_neg hskip, if_pos hstarts]

def Jump.form : Jump → Form
  | .ssc => .ssc
  | .snc => .snc

theorem forms_jump {kind : Jump} {varName : UInt8} {tagName : CString} {delay : Option CString}
    (h : (Statement.jump kind varName tagName delay).Plain) :
    processForm (Statement.jump kind varName tagName delay).text = kind.form ∧
      functionForm (Statement.jump kind varName tagName delay).text = .other := by
  have hchars := wordChar_jump h
  have hcolon : 58 ∉ (Statement.jump kind varName tagName delay).text := fun hmem =>
    absurd (hchars 58 hmem) (by decide)
  have hparen : 40 ∉ (Statement.jump kind varName tagName delay).text := fun hmem =>
    absurd (hchars 40 hmem) (by decide)
  rw [Statement.text] at hcolon hparen ⊢
  generalize 32 :: varName :: 32 :: (tagName ++ delayText delay) = rest at hcolon hparen ⊢
  cases kind with
  | ssc =>
    have hne : Jump.ssc.text ++ rest ≠ [] := by exact List.cons_ne_nil _ _
    have hsecond : (Jump.ssc.text ++ rest)[1]? = some 115 := rfl
    have hvariables : ¬ stringStartsWith (Jump.ssc.text ++ rest) (cstr "variables") := by
      exact not_startsWith_head (by decide)
    have himprimir : ¬ stringStartsWith (Jump.ssc.text ++ rest) (cstr "imprimir") := by
      exact not_startsWith_head (by decide)
    have hssc : stringStartsWith (Jump.ssc.text ++ rest) (cstr "ssc") := startsWith_append _ _
    refine ⟨?_, functionForm_other hne hcolon himprimir (by rw [hsecond]; decide) hparen⟩
    rw [processForm, if_neg (not_skipped_of_notMem hne hcolon), if_neg hvariables,
      if_neg himprimir, if_pos hssc]
    rfl
  | snc =>
    have hne : Jump.snc.text ++ rest ≠ [] := by exact List.cons_ne_nil _ _
    have hsecond : (Jump.snc.text ++ rest)[1]? = some 110 := rfl
    have hvariables : ¬ stringStartsWith (Jump.snc.text ++ rest) (cstr "variables") := by
      exact not_startsWith_head (by decide)
    have himprimir : ¬ stringStartsWith (Jump.snc.text ++ rest) (cstr "imprimir") := by
      exact not_startsWith_head (by decide)
    have hssc : ¬ stringStartsWith (Jump.snc.text ++ rest) (cstr "ssc") := by
      intro hstarts
      obtain ⟨more, hmore⟩ := List.isPrefixOf_iff_prefix.mp hstarts
      exact absurd (List.cons.inj (List.cons.inj hmore).2).1 (by decide)
    have hsnc : stringStartsWith (Jump.snc.text ++ rest) (cstr "snc") := startsWith_append _ _
    refine ⟨?_, functionForm_other hne hcolon himprimir (by rw [hsecond]; decide) hparen⟩
    rw [processForm, if_neg (not_skipped_of_notMem hne hcolon), if_neg hvariables,
      if_neg himprimir, if_neg hssc, if_pos hsnc]
    rfl

theorem forms_assign {varName : UInt8} {e : Expression} {delay : Option CString}
    (h : (Statement.assign varName e delay).Plain) :
    processForm (assignmentLine varName e delay) = .assign ∧
      functionForm (assignmentLine varName e delay) = .assign := by
  obtain ⟨hvar, ⟨entries, he⟩, hdelay⟩ := h
  have hchars := lineChar_assignmentLine hvar he hdelay
  exact ⟨processForm_assign hchars, functionForm_assign hchars⟩

theorem forms_io {ioTime : CString} (h : (Statement.io ioTime).Plain) :
    processForm (requestText ioTime) = .io ∧ functionForm (requestText ioTime) = .io := by
  have hchars := statementChar_request h
  have hne : requestText ioTime ≠ [] := by exact List.cons_ne_nil _ _
  have hskip := not_skipped_of_notMem hne fun hmem => absurd (hchars 58 hmem) (by decide)
  have himprimir : ¬ stringStartsWith (requestText ioTime) (cstr "imprimir") := by
    intro hstarts
    obtain ⟨more, hmore⟩ := List.isPrefixOf_iff_prefix.mp hstarts
    exact absurd (List.cons.inj (List.cons.inj hmore).2).1 (by decide)
  have hother : ∀ begin : CString, begin.head?.any (· != 105) = true →
      ¬ stringStartsWith (requestText ioTime) begin := by
    exact fun begin hbegin => not_startsWith_head hbegin
  have hsecond : (requestText ioTime)[1]? ≠ some 61 := by
    have hchar : (requestText ioTime)[1]? = some 111 := rfl
    rw [hchar]
    decide
  have hrequest : stringStartsWith (requestText ioTime) (cstr "io(") := startsWith_append _ _
  have hcommon : commonForm (requestText ioTime) = .io := by
    rw [commonForm, if_neg fun h => hsecond h.1, if_neg fun h => hsecond h.1, if_pos hrequest]
  refine ⟨?_, ?_⟩
  · rw [processForm, if_neg hskip, if_neg (hother _ (by decide)), if_neg himprimir,
      if_neg (hother _ (by decide)), if_neg (hother _ (by decide)), hcommon]
  · rw [functionForm, if_neg hskip, if_neg himprimir, hcommon]

theorem forms_assignIo {varName : UInt8} {ioTime : CString}
    (h : (Statement.assignIo varName ioTime).Plain) :
    processForm (varName :: 61 :: requestText ioTime) = .assignIo ∧
      functionForm (varName :: 61 :: requestText ioTime) = .assignIo := by
  have hchars := statementChar_text h (by simp)
  have hskip := not_skipped_of_notMem (List.cons_ne_nil _ _) fun hmem =>
    absurd (hchars 58 hmem) (by decide)
  have hrequest : stringStartsWith ((varName :: 61 :: requestText ioTime).drop 2) (cstr "io(") :=
    startsWith_append _ _
  have hcommon : commonForm (varName :: 61 :: requestText ioTime) = .assignIo := by
    rw [commonForm, if_neg fun h => h.2 hrequest, if_pos ⟨rfl, hrequest⟩]
  refine ⟨?_, ?_⟩
  · rw [processForm, if_neg (by exact hskip), if_neg (not_startsWith (by decide)),
      if_neg (not_startsWith (by decide)), if_neg (not_startsWith (by decide)),
      if_neg (not_startsWith (by decide)), hcommon]
  · rw [functionForm, if_neg (by exact hskip), if_neg (not_startsWith (by decide)), hcommon]

/-- What is a call in the script is one in a function. -/
theorem functionForm_of_processForm_call (h : processForm text = .call) :
    functionForm text = .call := by
  rw [processForm] at h
  split_ifs at h with hskip hvariables himprimir hssc hsnc
  rw [functionForm, if_neg hskip, if_neg himprimir, h]

theorem functionForm_finFuncion {functionName : CString} (h : Word functionName) :
    functionForm (Script.finFuncion functionName) = .other := by
  have hne : Script.finFuncion functionName ≠ [] := by exact List.cons_ne_nil _ _
  have hnot : ∀ c : UInt8, c ∉ cstr "fin_funcion " → isLetter c = false →
      c ∉ Script.finFuncion functionName := by
    intro c hc hletter hmem
    rcases List.mem_append.mp hmem with hmem | hmem
    · exact hc hmem
    · exact ne_true_of_eq_false hletter (h.2 c hmem)
  have himprimir : ¬ stringStartsWith (Script.finFuncion functionName) (cstr "imprimir") := by
    exact not_startsWith_head (by decide)
  have hsecond : (Script.finFuncion functionName)[1]? = some 105 := rfl
  exact functionForm_other hne (hnot 58 (by decide) (by decide)) himprimir
    (by rw [hsecond]; decide) (hnot 40 (by decide) (by decide))

end Forms

section Searches

variable {s : Script} {tagName functionName : CString} {rest : List Statement}

theorem findLine_append {before more : List CString} {line : CString} (h : line ∉ before) :
    findLine (before ++ line :: more) line = some before.length := by
  have hnone : before.findIdx? (· == line) = none := by
    rw [List.findIdx?_eq_none_iff]
    intro text htext
    rw [beq_eq_false_iff_ne]
    rintro rfl
    exact h htext
  rw [findLine, List.findIdx?_append, hnone, Option.none_or, List.findIdx?_cons, if_pos (by simp)]
  simp

theorem behind_eq_some {statements : List Statement} (h : behind tagName statements = some rest)
    (hplain : ∀ statement ∈ statements, statement.Plain) : ∃ before : List CString,
      statements.map Statement.text = before ++ (tagName ++ cstr ":") :: rest.map Statement.text ∧
        tagName ++ cstr ":" ∉ before := by
  induction statements with
  | nil => cases h
  | cons statement statements ih =>
    obtain ⟨hstatement, hstatements⟩ := List.forall_mem_cons.mp hplain
    rw [behind] at h
    split_ifs at h with hlabel
    · cases h
      refine ⟨[], ?_, List.not_mem_nil⟩
      cases statement with
      | label name => exact congrArg (· :: _) (congrArg (· ++ cstr ":") (beq_iff_eq.mp hlabel))
      | _ => cases hlabel
    · obtain ⟨before, hbefore, hnot⟩ := ih h hstatements
      refine ⟨statement.text :: before, by rw [List.map_cons, hbefore]; rfl, ?_⟩
      rw [List.mem_cons, not_or]
      exact ⟨fun heq => hlabel (isLabel_of_text hstatement heq.symm), hnot⟩

/-- A label of the script is the first line with its text. -/
theorem Script.Plain.lines_of_behind (hs : s.Plain) (h : behind tagName s.main = some rest) :
    ∃ before more : List CString, s.lines =
      before ++ (tagName ++ cstr ":") :: (rest.map Statement.text ++ finPrograma :: more) ∧
        tagName ++ cstr ":" ∉ before := by
  obtain ⟨before, hbefore, hnot⟩ := behind_eq_some h hs.main
  refine ⟨cstr "comienzo_programa" :: before, s.functions.flatMap functionLines, ?_, ?_⟩
  · rw [lines, hbefore]
    simp only [List.append_assoc, List.cons_append]
  · rw [List.mem_cons, not_or]
    refine ⟨fun heq => ?_, hnot⟩
    have hcolon : 58 ∈ cstr "comienzo_programa" := by
      rw [← heq]
      exact List.mem_append_right _ (by decide)
    exact absurd hcolon (by decide)

theorem Script.comienzoFuncion_notMem {statements : List Statement}
    (h : ∀ statement ∈ statements, statement.Plain) (functionName : CString) :
    comienzoFuncion functionName ∉ statements.map Statement.text := by
  intro hmem
  obtain ⟨statement, hstatement, heq⟩ := List.mem_map.mp hmem
  refine notMem_text (h statement hstatement) (c := 95) (by decide) (by decide) ?_
  rw [heq]
  exact List.mem_append_left _ (by decide)

theorem Script.comienzoFuncion_ne_finFuncion (name : CString) :
    comienzoFuncion functionName ≠ finFuncion name := by
  intro heq
  have hhead : some (99 : UInt8) = some 102 := congrArg List.head? heq
  exact absurd hhead (by decide)

/-- The header of the first function of a name is the first line with its text. -/
theorem Script.Plain.flatMap_of_find {functions : List (CString × List Statement)}
    {function : CString × List Statement}
    (hplain : ∀ function ∈ functions, ∀ statement ∈ function.2, statement.Plain)
    (h : functions.find? (fun function => function.1 == functionName) = some function) :
    ∃ before more : List CString, functions.flatMap functionLines = before ++
      comienzoFuncion functionName ::
        (function.2.map Statement.text ++ finFuncion functionName :: more) ∧
      comienzoFuncion functionName ∉ before := by
  induction functions with
  | nil => cases h
  | cons first functions ih =>
    obtain ⟨hfirst, hrest⟩ := List.forall_mem_cons.mp hplain
    rw [List.find?_cons] at h
    rw [List.flatMap_cons]
    cases hname : first.1 == functionName with
    | true =>
      rw [hname] at h
      cases h
      rw [beq_iff_eq] at hname
      refine ⟨[], functions.flatMap functionLines, ?_, List.not_mem_nil⟩
      rw [functionLines, hname]
      simp only [List.nil_append, List.cons_append, List.append_assoc]
    | false =>
      rw [hname] at h
      obtain ⟨before, more, hbefore, hnot⟩ := ih hrest h
      refine ⟨functionLines first ++ before, more, by rw [hbefore, List.append_assoc], ?_⟩
      rw [functionLines, List.mem_append, List.mem_cons, List.mem_append, List.mem_singleton]
      rintro ((heq | hmem | heq) | hmem)
      · exact beq_eq_false_iff_ne.mp hname (List.append_cancel_left heq).symm
      · exact comienzoFuncion_notMem hfirst functionName hmem
      · exact comienzoFuncion_ne_finFuncion first.1 heq
      · exact hnot hmem

theorem Script.Plain.lines_of_body (hs : s.Plain) {body : List Statement}
    (h : s.body functionName = some body) : ∃ before more : List CString, s.lines =
      before ++ comienzoFuncion functionName ::
        (body.map Statement.text ++ finFuncion functionName :: more) ∧
      comienzoFuncion functionName ∉ before := by
  obtain ⟨function, hfind, rfl⟩ := Option.map_eq_some_iff.mp h
  obtain ⟨before, more, hbefore, hnot⟩ := flatMap_of_find hs.bodies hfind
  refine ⟨cstr "comienzo_programa" :: (s.main.map Statement.text ++ finPrograma :: before), more,
    ?_, ?_⟩
  · rw [lines, hbefore]
    simp only [List.append_assoc, List.cons_append]
  · rw [List.mem_cons, List.mem_append, List.mem_cons]
    rintro (heq | hmem | heq | hmem)
    · have hlast : (comienzoFuncion functionName)[9]? = some 102 := rfl
      rw [heq] at hlast
      exact absurd hlast (by decide)
    · exact comienzoFuncion_notMem hs.main functionName hmem
    · have hhead : some (99 : UInt8) = some 102 := congrArg List.head? heq
      exact absurd hhead (by decide)
    · exact hnot hmem

theorem Script.Plain.body_plain (hs : s.Plain) {body : List Statement}
    (h : s.body functionName = some body) :
    Word functionName ∧ ∀ statement ∈ body, statement.Plain := by
  obtain ⟨function, hfind, rfl⟩ := Option.map_eq_some_iff.mp h
  have hmem := List.mem_of_find?_eq_some hfind
  have hname : function.1 = functionName := by
    have hfound := List.find?_some hfind
    exact beq_iff_eq.mp hfound
  exact ⟨hname ▸ hs.names function hmem, hs.bodies function hmem⟩

end Searches

section Splitting

def Trimmed (line : CString) : Prop := stringTrim line = line

instance (line : CString) : Decidable (Trimmed line) :=
  inferInstanceAs (Decidable (stringTrim line = line))

theorem trimmed_append {front tail : CString} (hhead : (front ++ tail).head?.all (!isblank ·))
    (hne : tail ≠ []) (htail : ∀ c ∈ tail, isspace c = false) : Trimmed (front ++ tail) := by
  have hleft : stringTrimLeft (front ++ tail) = front ++ tail := by
    rw [stringTrimLeft]
    cases htext : front ++ tail with
    | nil => rfl
    | cons c text =>
      rw [htext] at hhead
      rw [List.dropWhile_cons_of_neg (by simpa using hhead)]
  rw [Trimmed, stringTrim, hleft, stringTrimRight, List.rdropWhile_eq_self_iff]
  intro hnonempty
  rw [List.getLast_append_of_ne_nil hnonempty hne, htail _ (List.getLast_mem hne)]
  exact Bool.false_ne_true

/-- A text without spaces. -/
theorem trimmed_of_solid {text : CString} (h : ∀ c ∈ text, isspace c = false) : Trimmed text := by
  rcases text with _ | ⟨c, text⟩
  · rfl
  · have hc := h c List.mem_cons_self
    have hblank : isblank c = false := by
      rw [isspace, Bool.or_eq_false_iff] at hc
      rw [isblank, hc.1, Bool.false_or, beq_eq_false_iff_ne]
      rintro rfl
      exact absurd hc.2 (by decide)
    have hempty : Trimmed ([] ++ c :: text) :=
      trimmed_append (by simp [hblank]) (List.cons_ne_nil c text) h
    exact hempty

theorem isspace_of_lineChar {c : UInt8} (h : lineChar c) : isspace c = false := by
  by_contra hspace
  rw [Bool.not_eq_false] at hspace
  simp only [isspace, Bool.or_eq_true, beq_iff_eq, Bool.and_eq_true, decide_eq_true_eq,
    UInt8.le_iff_toNat_le, ← UInt8.toNat_inj, UInt8.reduceToNat] at hspace
  simp only [lineChar, plainChar, isLetter, isdigit, Bool.or_eq_true, beq_iff_eq, Bool.and_eq_true,
    decide_eq_true_eq, UInt8.le_iff_toNat_le, ← UInt8.toNat_inj, UInt8.reduceToNat] at h
  omega

theorem isspace_of_isLetter {c : UInt8} (h : isLetter c) : isspace c = false :=
  isspace_of_lineChar (lineChar_of_isLetter h)

theorem isspace_names {names : List UInt8} (h : ∀ c ∈ names, isLetter c) :
    ∀ c ∈ namesText names, isspace c = false := by
  induction names with
  | nil => exact List.forall_mem_nil _
  | cons a names ih =>
    have ha := isspace_of_isLetter (h a List.mem_cons_self)
    rcases names with _ | ⟨b, names⟩
    · exact List.forall_mem_singleton.mpr ha
    · rw [namesText_cons, List.forall_mem_cons, List.forall_mem_cons]
      exact ⟨ha, by decide, ih fun c hc => h c (List.mem_cons_of_mem _ hc)⟩

theorem isspace_of_all {text : CString} (h : text.all (!isspace ·) = true) :
    ∀ c ∈ text, isspace c = false := by
  intro c hc
  simpa using List.all_eq_true.mp h c hc

theorem isspace_request {ioTime : CString} (h : ∀ c ∈ ioTime, isdigit c) :
    ∀ c ∈ requestText ioTime, isspace c = false := by
  rw [requestText, List.forall_mem_append, List.forall_mem_append]
  exact ⟨isspace_of_all (by decide), fun c hc => isspace_of_lineChar (lineChar_of_isdigit (h c hc)),
    isspace_of_all (by decide)⟩

theorem trimmed_text {statement : Statement} (h : statement.Plain) : Trimmed statement.text := by
  have hword : ∀ {text : CString}, Word text → ∀ c ∈ text, isspace c = false := fun hword c hc =>
    isspace_of_isLetter (hword.2 c hc)
  cases statement with
  | blank => rfl
  | label tagName =>
    refine trimmed_of_solid ?_
    rw [Statement.text, List.forall_mem_append]
    exact ⟨hword h, isspace_of_all (by decide)⟩
  | declaration names =>
    obtain ⟨hne, hletters⟩ := h
    have hnames : namesText names ≠ [] := by
      obtain ⟨a, names, rfl⟩ := List.exists_cons_of_ne_nil hne
      cases names <;> exact List.cons_ne_nil _ _
    rw [Statement.text, declarationLine, List.append_nil]
    exact trimmed_append rfl hnames (isspace_names hletters)
  | imprimir varName =>
    exact trimmed_append rfl (List.cons_ne_nil _ _)
      (List.forall_mem_singleton.mpr (isspace_of_isLetter h))
  | jump kind varName tagName delay =>
    obtain ⟨-, htag, hdelay⟩ := h
    have hsplit : (Statement.jump kind varName tagName delay).text =
        (kind.text ++ [32, varName, 32]) ++ (tagName ++ delayText delay) := by
      rw [Statement.text, List.append_assoc]
      rfl
    rw [hsplit]
    refine trimmed_append ?_ (List.append_ne_nil_of_left_ne_nil htag.1 _) ?_
    · cases kind <;> rfl
    · rw [List.forall_mem_append]
      exact ⟨hword htag, fun c hc => isspace_of_lineChar (lineChar_delay hdelay c hc)⟩
  | assign varName e delay =>
    obtain ⟨hvar, ⟨entries, he⟩, hdelay⟩ := h
    exact trimmed_of_solid fun c hc =>
      isspace_of_lineChar (lineChar_assignmentLine hvar he hdelay c hc)
  | io ioTime => exact trimmed_of_solid (isspace_request h)
  | assignIo varName ioTime =>
    refine trimmed_of_solid ?_
    rw [Statement.text, List.forall_mem_cons, List.forall_mem_cons]
    exact ⟨isspace_of_isLetter h.1, by decide, isspace_request h.2⟩
  | call functionName =>
    refine trimmed_of_solid ?_
    rw [Statement.text, List.forall_mem_append]
    exact ⟨hword h.1, isspace_of_all (by decide)⟩

structure Whole (line : CString) : Prop where
  newline : newline ∉ line
  hash : hash ∉ line
  trimmed : Trimmed line

theorem whole_text {statement : Statement} (h : statement.Plain) : Whole statement.text :=
  ⟨notMem_text h (by decide) (by decide), notMem_text h (by decide) (by decide), trimmed_text h⟩

theorem whole_header {header functionName : CString} (hheader : newline ∉ header ∧ hash ∉ header)
    (hhead : header.head?.any (!isblank ·)) (h : Word functionName) :
    Whole (header ++ functionName) := by
  have hletters : ∀ c : UInt8, isLetter c = false → c ∉ functionName := fun c hc hmem =>
    ne_true_of_eq_false hc (h.2 c hmem)
  refine ⟨?_, ?_, trimmed_append ?_ h.1 fun c hc => isspace_of_isLetter (h.2 c hc)⟩
  · rw [List.mem_append, not_or]
    exact ⟨hheader.1, hletters _ (by decide)⟩
  · rw [List.mem_append, not_or]
    exact ⟨hheader.2, hletters _ (by decide)⟩
  · cases header with
    | nil => cases hhead
    | cons c header => exact hhead

theorem Script.Plain.whole {s : Script} (hs : s.Plain) : ∀ line ∈ s.lines, Whole line := by
  have hstatements : ∀ {statements : List Statement}, (∀ statement ∈ statements, statement.Plain) →
      ∀ line ∈ statements.map Statement.text, Whole line := by
    intro statements hplain line hline
    obtain ⟨statement, hstatement, rfl⟩ := List.mem_map.mp hline
    exact whole_text (hplain statement hstatement)
  rw [lines, List.forall_mem_cons, List.forall_mem_append, List.forall_mem_cons]
  refine ⟨⟨by decide, by decide, by decide⟩, hstatements hs.main,
    ⟨by decide, by decide, by decide⟩, fun line hline => ?_⟩
  obtain ⟨function, hfunction, hline⟩ := List.mem_flatMap.mp hline
  rw [functionLines, List.mem_cons, List.mem_append, List.mem_singleton] at hline
  rcases hline with rfl | hline | rfl
  · exact whole_header (by decide) (by decide) (hs.names function hfunction)
  · exact hstatements (hs.bodies function hfunction) line hline
  · exact whole_header (by decide) (by decide) (hs.names function hfunction)

/-- The text of a script has its lines again. -/
theorem Script.Plain.codeSegmentCreator_text {s : Script} (hs : s.Plain) :
    codeSegmentCreator s.text = some s.lines := by
  have hsplit : s.text.splitOn Sisop.newline = s.lines :=
    List.splitOn_intercalate _ (fun line hline => (hs.whole line hline).newline)
      (List.cons_ne_nil _ _)
  have hlast : Sisop.hash ∉ lastLine s.text := by
    rw [lastLine, hsplit]
    refine (hs.whole _ ?_).hash
    have hne : s.lines ≠ [] := List.cons_ne_nil _ _
    rw [List.getLastD_eq_getLast?, List.getLast?_eq_some_getLast hne]
    exact List.getLast_mem hne
  rw [codeSegmentCreator_eq, if_neg hlast, scriptLines, hsplit]
  refine congrArg some ((List.map_congr_left fun line hline => ?_).trans (List.map_id' _))
  have hwhole := hs.whole line hline
  have htake : line.takeWhile (· != Sisop.hash) = line :=
    List.takeWhile_eq_self_iff.mpr fun c hc => by
      rw [bne_iff_ne]
      rintro rfl
      exact hwhole.hash hc
  rw [htake]
  exact hwhole.trimmed

end Splitting

end Sisop
