import Sisop.RunningImage

/-!
# What an iteration reads of the code

A loop test and the iteration behind it look at lines of the array that `codeSegmentCreator` has
built, at characters of such a line, and they search the array for a line. `Exec.accesses` lists
these reads, of every scan the last one, also those that leave the array or the line; the step
itself has no result then.
-/

namespace Sisop

inductive Access where
  | line (n : ℕ)
  | char (n i : ℕ)
  | search (text : CString)
  deriving DecidableEq, Repr

/-- A line of the array, not its `NULL`; a character up to the terminating NUL; a search that
stops. -/
def Access.within (code : List CString) : Access → Bool
  | .line n => n < code.length
  | .char n i => code[n]?.any fun line => i ≤ line.length
  | .search text => code.contains text

def chars (n : ℕ) (indices : List ℕ) : List Access := indices.map (.char n)

/-- Where the scan from `start` for `stop` or the terminating NUL ends. -/
def scanEnd (line : CString) (start : ℕ) (stop : UInt8) : ℕ :=
  start + ((line.drop start).takeWhile (· != stop)).length

/-- Where the scan that only `stop` ends has come to: without one it leaves the line. -/
def openScanEnd (line : CString) (start : ℕ) (stop : UInt8) : ℕ :=
  if (line.drop start).contains stop then scanEnd line start stop else line.length + 1

def timeScan (line : CString) (start : ℕ) : List ℕ :=
  scanEnd line start 59 ::
    if (line)[scanEnd line start 59]? = some 59 then [scanEnd line start 59 + 1] else []

/-- The last character `addVariables` looks at: it steps over two and looks one ahead. -/
def pairEnd : ℕ → CString → ℕ
  | i, [] | i, [_] => i + 1
  | i, _ :: _ :: rest => pairEnd (i + 2) rest

def functionHeader (line : CString) : CString :=
  cstr "comienzo_funcion " ++ line.takeWhile (· != 40)

def jumpTag (line : CString) : CString :=
  (line.drop (cstr "ssc,x,").length).takeWhile (· != 59) ++ cstr ":"

def commonAccesses (n : ℕ) (line : CString) : List Access :=
  match commonForm line with
  | .assign => chars n (1 :: 0 :: timeScan line 1)
  | .assignIo => chars n [1, 0, openScanEnd line 5 44, openScanEnd line 5 44 + 1]
  | .io => chars n [1, openScanEnd line 3 44, openScanEnd line 3 44 + 1]
  | .call => .search (functionHeader line) :: chars n [1, openScanEnd line 0 40]
  | _ => chars n [1]

def variablesAccesses (n : ℕ) (image : TProcessImage) (line : CString) : List Access :=
  let offset := (cstr "variables,").length
  if (dataCount image.data).isSome then
    chars n [pairEnd offset (line.drop offset), scanEnd line 0 59]
  else []

def jumpAccesses (n : ℕ) (image : TProcessImage) (line : CString) (jumps : Int32 → Bool) :
    List Access :=
  .char n (cstr "ssc,").length ::
    ((charAt line (cstr "ssc,").length).bind (readData image.data)).elim [] fun varValue =>
      (if jumps varValue then
        [.char n (scanEnd line (cstr "ssc,x,").length 59), .search (jumpTag line)] else []) ++
        chars n (timeScan line 0)

def processAccesses (image : TProcessImage) (n : ℕ) (line : CString) : List Access :=
  match processForm line with
  | .skip => []
  | .variables => variablesAccesses n image line
  | .imprimir => chars n [(cstr "imprimir,").length]
  | .ssc => jumpAccesses n image line (· == 0)
  | .snc => jumpAccesses n image line (· != 0)
  | _ => commonAccesses n line

def functionAccesses (n : ℕ) (line : CString) : List Access :=
  match functionForm line with
  | .skip => []
  | .imprimir => chars n [(cstr "imprimir,").length]
  | _ => commonAccesses n line

/-- A request has its comma, the function that is called its header. -/
def commonComplete (code : List CString) (line : CString) : Bool :=
  match commonForm line with
  | .assignIo => (line.drop 5).contains 44
  | .io => (line.drop 3).contains 44
  | .call => code.contains (functionHeader line)
  | _ => true

/-- A list of names with one comma between two of them has an odd length. -/
def variablesComplete (image : TProcessImage) (line : CString) : Bool :=
  (dataCount image.data).isNone ||
    ((cstr "variables,").length < line.length && line.length % 2 == 1)

/-- The line of a jump has its variable and, when the jump is taken, its label in the code. -/
def jumpComplete (code : List CString) (image : TProcessImage) (line : CString)
    (jumps : Int32 → Bool) : Bool :=
  (cstr "ssc,").length ≤ line.length &&
    ((charAt line (cstr "ssc,").length).bind (readData image.data)).all fun varValue =>
      !jumps varValue || ((cstr "ssc,x,").length ≤ line.length && code.contains (jumpTag line))

def imprimirComplete (line : CString) : Bool := (cstr "imprimir,").length ≤ line.length

def processComplete (code : List CString) (image : TProcessImage) (line : CString) : Bool :=
  match processForm line with
  | .skip => true
  | .variables => variablesComplete image line
  | .imprimir => imprimirComplete line
  | .ssc => jumpComplete code image line (· == 0)
  | .snc => jumpComplete code image line (· != 0)
  | _ => commonComplete code line

def functionComplete (code : List CString) (line : CString) : Bool :=
  match functionForm line with
  | .skip => true
  | .imprimir => imprimirComplete line
  | _ => commonComplete code line

section Lines

variable {code : List CString} {image : TProcessImage} {line : CString} {n : ℕ}

theorem within_line {m : ℕ} : (Access.line m).within code = true ↔ m < code.length := by
  simp [Access.within]

theorem within_search {text : CString} :
    (Access.search text).within code = true ↔ code.contains text = true := Iff.rfl

theorem within_char (hline : code[n]? = some line) {i : ℕ} :
    (Access.char n i).within code = true ↔ i ≤ line.length := by
  simp [Access.within, hline]

theorem chars_within (hline : code[n]? = some line) {indices : List ℕ} :
    (∀ a ∈ chars n indices, a.within code = true) ↔ ∀ i ∈ indices, i ≤ line.length := by
  simp [chars, within_char hline]

theorem scanEnd_le_iff {start : ℕ} {stop : UInt8} :
    scanEnd line start stop ≤ line.length ↔ start ≤ line.length := by
  have hscan : ((line.drop start).takeWhile (· != stop)).length ≤ line.length - start := by
    rw [← List.length_drop]
    exact (List.takeWhile_prefix _).length_le
  rw [scanEnd]
  omega

theorem scanEnd_lt {start : ℕ} {stop : UInt8} (h : stop ∈ line.drop start) :
    scanEnd line start stop < line.length := by
  have hpart := List.takeWhile_prefix (fun c => c != stop) (l := line.drop start)
  have hlength := hpart.length_le
  have hne : ((line.drop start).takeWhile (· != stop)).length ≠ (line.drop start).length := by
    intro heq
    have hall := List.takeWhile_eq_self_iff.mp (hpart.eq_of_length heq) stop h
    simp at hall
  rw [List.length_drop] at hlength hne
  rw [scanEnd]
  omega

/-- A scan without an end of its own stays in the line when it meets its character. -/
theorem openScanEnd_lt_iff {start : ℕ} {stop : UInt8} :
    openScanEnd line start stop < line.length ↔ (line.drop start).contains stop = true := by
  rw [openScanEnd]
  split_ifs with h
  · exact ⟨fun _ => h, fun _ => scanEnd_lt (List.contains_iff_mem.mp h)⟩
  · exact ⟨fun hlt => absurd hlt (by omega), fun hcontains => absurd hcontains h⟩

/-- The comma and the flag behind it. -/
theorem requestScan_le_iff {start : ℕ} {stop : UInt8} :
    (∀ i ∈ [openScanEnd line start stop, openScanEnd line start stop + 1], i ≤ line.length) ↔
      (line.drop start).contains stop = true := by
  rw [List.forall_mem_cons, List.forall_mem_singleton]
  constructor
  · rintro ⟨-, hlt⟩
    exact openScanEnd_lt_iff.mp hlt
  · intro h
    have hlt := openScanEnd_lt_iff.mpr h
    exact ⟨hlt.le, hlt⟩

theorem timeScan_le {start : ℕ} (h : start ≤ line.length) : ∀ i ∈ timeScan line start,
    i ≤ line.length := by
  intro i hi
  rw [timeScan, List.mem_cons] at hi
  rcases hi with rfl | hi
  · exact scanEnd_le_iff.mpr h
  · split_ifs at hi with hsemicolon
    · rw [List.mem_singleton] at hi
      rw [hi]
      exact (List.getElem?_eq_some_iff.mp hsemicolon).1
    · exact absurd hi List.not_mem_nil

theorem pairEnd_le_iff {i : ℕ} {varList : CString} :
    pairEnd i varList ≤ i + varList.length ↔ varList.length % 2 = 1 := by
  fun_induction pairEnd i varList with
  | case1 i | case2 i a => simp
  | case3 i a b rest ih =>
    rw [List.length_cons, List.length_cons]
    omega

theorem variablesAccesses_within_iff (hline : code[n]? = some line) :
    (∀ a ∈ variablesAccesses n image line, a.within code = true) ↔
      variablesComplete image line = true := by
  rw [variablesAccesses, variablesComplete]
  cases dataCount image.data with
  | none => simp
  | some varCount =>
    have hoffset : (cstr "variables,").length = 10 := rfl
    have hpair : pairEnd 10 (line.drop 10) ≤ 10 + (line.drop 10).length ↔
        (line.drop 10).length % 2 = 1 := pairEnd_le_iff
    have hscan : scanEnd line 0 59 ≤ line.length := scanEnd_le_iff.mpr (Nat.zero_le _)
    have haccesses : (∀ a ∈ chars n [pairEnd 10 (line.drop 10), scanEnd line 0 59],
        a.within code = true) ↔ pairEnd 10 (line.drop 10) ≤ line.length := by
      simp [chars_within hline, hscan]
    simp only [hoffset, Option.isSome_some, if_true, haccesses, Option.isNone_some,
      Bool.false_or, Bool.and_eq_true, decide_eq_true_iff, beq_iff_eq]
    rw [List.length_drop] at hpair
    by_cases hlong : 10 ≤ line.length
    · rw [Nat.add_sub_cancel' hlong] at hpair
      rw [hpair]
      omega
    · rw [List.drop_eq_nil_of_le (by omega)]
      simp only [pairEnd]
      omega

theorem jumpAccesses_within_iff (hline : code[n]? = some line) {jumps : Int32 → Bool} :
    (∀ a ∈ jumpAccesses n image line jumps, a.within code = true) ↔
      jumpComplete code image line jumps = true := by
  rw [jumpAccesses, jumpComplete, List.forall_mem_cons, within_char hline, Bool.and_eq_true,
    decide_eq_true_iff]
  refine and_congr_right fun _ => ?_
  cases (charAt line (cstr "ssc,").length).bind (readData image.data) with
  | none => simp
  | some varValue =>
    have htime := (chars_within (n := n) hline).mpr (timeScan_le (Nat.zero_le line.length))
    rw [Option.elim_some, Option.all_some, List.forall_mem_append, and_iff_left htime]
    cases jumps varValue with
    | true => simp [within_char hline, within_search, scanEnd_le_iff]
    | false => simp

/-- The form of a line with a call ends the scan for `'('`. -/
theorem paren_of_call (h : commonForm line = .call) : (line.drop 0).contains 40 = true := by
  have hends := List.isSuffixOf_iff_suffix.mp (commonForm_call h)
  exact List.contains_iff_mem.mpr (hends.subset (by decide))

theorem commonAccesses_within_iff (hline : code[n]? = some line) (hne : line ≠ []) :
    (∀ a ∈ commonAccesses n line, a.within code = true) ↔ commonComplete code line = true := by
  have hone : 1 ≤ line.length := List.length_pos_iff.mpr hne
  rw [commonAccesses, commonComplete]
  cases hform : commonForm line with
  | assign =>
    have htime := timeScan_le hone
    simp only [chars_within hline, List.forall_mem_cons]
    exact iff_of_true ⟨hone, Nat.zero_le _, htime⟩ trivial
  | assignIo =>
    rw [chars_within hline, List.forall_mem_cons, List.forall_mem_cons, requestScan_le_iff]
    exact ⟨fun h => h.2.2, fun h => ⟨hone, Nat.zero_le _, h⟩⟩
  | io =>
    rw [chars_within hline, List.forall_mem_cons, requestScan_le_iff]
    exact and_iff_right hone
  | call =>
    have hparen := openScanEnd_lt_iff.mpr (paren_of_call hform)
    simp only [List.forall_mem_cons, within_search, chars_within hline]
    exact and_iff_left ⟨hone, hparen.le, List.forall_mem_nil _⟩
  | _ =>
    simp only [chars_within hline, List.forall_mem_singleton]
    exact iff_of_true hone trivial

theorem imprimirAccesses_within_iff (hline : code[n]? = some line) :
    (∀ a ∈ chars n [(cstr "imprimir,").length], a.within code = true) ↔
      imprimirComplete line = true := by
  rw [chars_within hline, List.forall_mem_singleton, imprimirComplete, decide_eq_true_iff]

/-- Both interpreters skip an empty line first. -/
theorem ne_nil_of_processForm (h : processForm line ≠ .skip) : line ≠ [] := by
  rintro rfl
  exact h rfl

theorem ne_nil_of_functionForm (h : functionForm line ≠ .skip) : line ≠ [] := by
  rintro rfl
  exact h rfl

theorem processAccesses_within_iff (hline : code[n]? = some line) :
    (∀ a ∈ processAccesses image n line, a.within code = true) ↔
      processComplete code image line = true := by
  rw [processAccesses, processComplete]
  cases hform : processForm line with
  | skip => simp
  | «variables» => exact variablesAccesses_within_iff hline
  | imprimir => exact imprimirAccesses_within_iff hline
  | ssc | snc => exact jumpAccesses_within_iff hline
  | _ => exact commonAccesses_within_iff hline (ne_nil_of_processForm (by simp [hform]))

theorem functionAccesses_within_iff (hline : code[n]? = some line) :
    (∀ a ∈ functionAccesses n line, a.within code = true) ↔
      functionComplete code line = true := by
  rw [functionAccesses, functionComplete]
  cases hform : functionForm line with
  | skip => simp
  | imprimir => exact imprimirAccesses_within_iff hline
  | _ => exact commonAccesses_within_iff hline (ne_nil_of_functionForm (by simp [hform]))

end Lines

namespace Exec

variable (code : List CString) (quantum : ℤ) (env : Env)

def processGoesOn (e : Exec) : Bool :=
  !e.atFinPrograma code && e.keepsRunning quantum env && e.stack.isEmpty

def functionGoesOn (element : TStack) (e : Exec) : Bool :=
  !(code[element.PC]?.any (isFinFuncion · element.functionName)) && e.keepsRunning quantum env

def nextAccesses (PC : ℕ) (accesses : ℕ → CString → List Access) : List Access :=
  .line (nextPC PC) :: code[nextPC PC]?.elim [] (accesses (nextPC PC))

/-- What the step of `e` reads of the code; after `processExecution`, `PROCER` tests the line
once more. -/
def accesses (e : Exec) : List Access :=
  match e.point, e.elements with
  | .returned, _ => [.line e.processImage.PC]
  | .poolTest, _ | .algTest, _ => []
  | .loopTest, [] => .line e.processImage.PC ::
    if e.processGoesOn code quantum env then
      nextAccesses code e.processImage.PC (processAccesses e.processImage) else []
  | .loopTest, element :: _ => .line element.PC ::
    if e.functionGoesOn code quantum env element then
      nextAccesses code element.PC functionAccesses else []

/-- An interpreter that goes on finds a next line, and a complete one. -/
def staysInCode (e : Exec) : Bool :=
  match e.point, e.elements with
  | .loopTest, [] => !e.processGoesOn code quantum env ||
    code[nextPC e.processImage.PC]?.any (processComplete code e.processImage)
  | .loopTest, element :: _ => !e.functionGoesOn code quantum env element ||
    code[nextPC element.PC]?.any (functionComplete code)
  | _, _ => true

/-- The `PC` of the image and of every active or waiting function is on a line. -/
structure InCode (e : Exec) : Prop where
  image : e.processImage.PC < code.length
  elements : ∀ element ∈ e.elements, element.PC < code.length
  stack : ∀ element ∈ e.stack, element.PC < code.length

variable {code quantum env} {e : Exec}

theorem nextAccesses_within_iff {PC : ℕ} {reads : ℕ → CString → List Access}
    {complete : CString → Bool}
    (hreads : ∀ line, code[nextPC PC]? = some line →
      ((∀ a ∈ reads (nextPC PC) line, a.within code = true) ↔ complete line = true)) :
    (∀ a ∈ nextAccesses code PC reads, a.within code = true) ↔
      code[nextPC PC]?.any complete = true := by
  rw [nextAccesses, List.forall_mem_cons, within_line]
  cases hnext : code[nextPC PC]? with
  | none =>
    have hle := List.getElem?_eq_none_iff.mp hnext
    exact iff_of_false (fun h => absurd h.1 (Nat.not_lt.mpr hle)) (by simp)
  | some line =>
    have hlt := (List.getElem?_eq_some_iff.mp hnext).1
    rw [Option.elim_some, Option.any_some, ← hreads line hnext]
    exact and_iff_right hlt

/-- From a state that is in the code, the reads of a step stay in it exactly when the interpreter
does not go on or finds a complete line. -/
theorem InCode.accesses_within_iff (h : e.InCode code) :
    (∀ a ∈ e.accesses code quantum env, a.within code = true) ↔
      e.staysInCode code quantum env = true := by
  rw [accesses, staysInCode]
  cases e.point with
  | poolTest | algTest => simp
  | returned => simpa [within_line] using h.image
  | loopTest =>
    cases helements : e.elements with
    | nil =>
      have hnext : (∀ a ∈ nextAccesses code e.processImage.PC (processAccesses e.processImage),
          a.within code = true) ↔
            code[nextPC e.processImage.PC]?.any (processComplete code e.processImage) = true :=
        nextAccesses_within_iff fun line => processAccesses_within_iff
      rw [List.forall_mem_cons, within_line]
      cases hgoes : e.processGoesOn code quantum env with
      | false => simpa [hgoes] using h.image
      | true => simpa [hgoes, h.image] using hnext
    | cons element rest =>
      have helement := h.elements element (helements ▸ List.mem_cons_self)
      have hnext : (∀ a ∈ nextAccesses code element.PC functionAccesses, a.within code = true) ↔
          code[nextPC element.PC]?.any (functionComplete code) = true :=
        nextAccesses_within_iff fun line => functionAccesses_within_iff
      rw [List.forall_mem_cons, within_line]
      cases hgoes : e.functionGoesOn code quantum env element with
      | false => simpa [hgoes] using helement
      | true => simpa [hgoes, helement] using hnext

end Exec
end Sisop
