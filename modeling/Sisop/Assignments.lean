import Sisop.CodeAccesses
import Sisop.Declarations

/-!
# The value of an assignment

The two scanning loops of `v=e` on the line and the array in memory: `i` and `ind` have 32 bits in
`processExecution` and 16 in `functionExecution`, and the index into the array is a `uint16_t`.
An `Expression` is what may stand behind the sign `=`; its total is taken over the integers.
-/

namespace Sisop

/-- The scan of `readData` and `writeData`; one that has not ended after `2 ^ 16` entries starts
anew. -/
def findCell : List DataCell → UInt8 → Option ℕ
  | [], _ => none
  | cell :: cells, varName => cell.varName.bind fun name =>
    if name = 0 ∨ name = varName then some 0 else (findCell cells varName).map (· + 1)

def scanCells (cells : List DataCell) (varName : UInt8) : Option (ℕ × DataCell) := do
  let i ← findCell cells varName
  let cell ← cells[i]?
  if i < 2 ^ 16 then some (i, cell) else none

def readDataCells (cells : List DataCell) (varName : UInt8) : Option Int32 := do
  let (_, cell) ← scanCells cells varName
  let name ← cell.varName
  if name = 0 then some (atoi [varName]) else cell.varValue

def writeDataCells (cells : List DataCell) (varName : UInt8) (varValue : Int32) :
    Option (List DataCell) := do
  let (i, cell) ← scanCells cells varName
  let name ← cell.varName
  return if name ≠ 0 then cells.set i { cell with varValue := some varValue } else cells

def addOperandCells (cells : List DataCell) (sign : UInt8) (auxString : CString)
    (varValue : Int32) : Option Int32 :=
  if 1 < auxString.length then
    some (if sign = 45 then varValue - atoi auxString else varValue + atoi auxString)
  else
    (readDataCells cells (auxString.headD 0)).map fun value =>
      if sign = 45 then varValue - value else varValue + value

def stopsOperand (c : UInt8) : Bool := c == 0 || c == 43 || c == 45 || c == 59

/-- The inner loop: `auxString` grows by one character at a time. -/
def operandScan (width : ℕ) (line : CString) : (fuel i : ℕ) → CString → Option (ℕ × CString)
  | 0, _, _ => none
  | fuel + 1, i, auxString => do
    let c ← charAt line i
    if stopsOperand c then
      return (i, auxString)
    else
      operandScan width line fuel ((i + 1) % 2 ^ width) (auxString ++ [c])

def assignScan (width : ℕ) (cells : List DataCell) (line : CString) :
    (fuel i : ℕ) → Int32 → Option (ℕ × Int32)
  | 0, _, _ => none
  | fuel + 1, i, varValue => do
    let varName ← charAt line i
    if varName = 0 ∨ varName = 59 then
      return (i, varValue)
    else
      let (i, auxString) ← operandScan width line (line.length + 1) ((i + 1) % 2 ^ width) []
      let varValue ← addOperandCells cells varName auxString varValue
      assignScan width cells line fuel i varValue

/-- The index the scan ends at, where the test for `;` is made, and the array. -/
def assignCells (width : ℕ) (cells : List DataCell) (line : CString) :
    Option (ℕ × List DataCell) := do
  let (i, varValue) ← assignScan width cells line (line.length + 1) 1 0
  let varName ← charAt line 0
  let cells ← writeDataCells cells varName varValue
  return (i, cells)

def valueOf (entries : List TData) (varName : UInt8) : Option Int32 :=
  entries[entries.findIdx (·.varName == varName)]?.map (·.varValue)

/-- The entries with one value replaced; they stay as they are if there is no such variable. -/
def assigned (entries : List TData) (varName : UInt8) (varValue : Int32) : List TData :=
  entries.modify (entries.findIdx (·.varName == varName)) fun d => { d with varValue }

inductive Sign where
  | plus | minus
  deriving DecidableEq, Repr

def Sign.char : Sign → UInt8
  | .plus => 43
  | .minus => 45

def Sign.signed : Sign → ℤ → ℤ
  | .plus, n => n
  | .minus, n => -n

inductive Term where
  | varName (name : UInt8)
  | digit (c : UInt8)
  | numeral (digits : CString)
  deriving DecidableEq, Repr

def isLetter (c : UInt8) : Bool := (65 ≤ c && c ≤ 90) || (97 ≤ c && c ≤ 122)

def Term.text : Term → CString
  | .varName name => [name]
  | .digit c => [c]
  | .numeral digits => digits

/-- The digit that is declared as a variable is not the digit any more. -/
def Term.Valid (entries : List TData) : Term → Prop
  | .varName name => isLetter name ∧ (valueOf entries name).isSome
  | .digit c => isdigit c ∧ valueOf entries c = none
  | .numeral digits => 2 ≤ digits.length ∧ (∀ c ∈ digits, isdigit c) ∧ digitsValue digits < 2 ^ 31

def Term.value (entries : List TData) : Term → ℤ
  | .varName name => ((valueOf entries name).map Int32.toInt).getD 0
  | .digit c => digitsValue [c]
  | .numeral digits => digitsValue digits

def termsText (terms : List (Sign × Term)) : CString :=
  terms.flatMap fun (sign, term) => sign.char :: term.text

def termsTotal (entries : List TData) (terms : List (Sign × Term)) : ℤ :=
  terms.foldr (fun (sign, term) n => sign.signed (term.value entries) + n) 0

structure Expression where
  leading : Option Sign
  first : Term
  terms : List (Sign × Term)

namespace Expression

def text (e : Expression) : CString :=
  (e.leading.map Sign.char).toList ++ (e.first.text ++ termsText e.terms)

def Valid (entries : List TData) (e : Expression) : Prop :=
  e.first.Valid entries ∧ ∀ signed ∈ e.terms, signed.2.Valid entries

def total (entries : List TData) (e : Expression) : ℤ :=
  (e.leading.getD .plus).signed (e.first.value entries) + termsTotal entries e.terms

end Expression

def delayText : Option CString → CString
  | none => []
  | some delay => 59 :: delay

def assignmentLine (varName : UInt8) (e : Expression) (delay : Option CString) : CString :=
  varName :: 61 :: (e.text ++ delayText delay)

section Entries

variable {entries : List TData} {cells : List DataCell} {terminator : TData} {name : UInt8}

theorem findIdx_cons_of_eq {d : TData} (h : d.varName = name) :
    (d :: entries).findIdx (·.varName == name) = 0 := by
  rw [List.findIdx_cons, beq_iff_eq.mpr h, cond_true]

theorem findIdx_cons_of_ne {d : TData} (h : d.varName ≠ name) :
    (d :: entries).findIdx (·.varName == name) = entries.findIdx (·.varName == name) + 1 := by
  rw [List.findIdx_cons, beq_eq_false_iff_ne.mpr h, cond_false]

theorem findCell_eq {varValue : Option Int32} (hentries : ∀ d ∈ entries, d.varName ≠ 0) :
    findCell (entries.map TData.written ++ [⟨some 0, varValue⟩]) name =
      some (entries.findIdx (·.varName == name)) := by
  induction entries with
  | nil => rfl
  | cons d entries ih =>
    obtain ⟨hd, hentries⟩ := List.forall_mem_cons.mp hentries
    rw [List.map_cons, List.cons_append, findCell, ih hentries]
    by_cases hname : d.varName = name
    · rw [findIdx_cons_of_eq hname]
      exact if_pos (Or.inr hname)
    · rw [findIdx_cons_of_ne hname]
      exact if_neg (not_or.mpr ⟨hd, hname⟩)

/-- The scan ends at the entry of the variable or at the terminator. -/
theorem scanCells_eq (name : UInt8) (h : Stores entries (some cells))
    (hentries : ∀ d ∈ entries, d.varName ≠ 0)
    (hcount : entries.length < 2 ^ 16) :
    ∃ varValue, scanCells cells name = some (entries.findIdx (·.varName == name),
      (entries[entries.findIdx (·.varName == name)]?.map TData.written).getD
        ⟨some 0, varValue⟩) := by
  obtain ⟨varValue, rfl⟩ := h
  refine ⟨varValue, ?_⟩
  have hle : entries.findIdx (·.varName == name) ≤ entries.length := List.findIdx_le_length
  have hcell : (entries.map TData.written ++ [⟨some 0, varValue⟩])[entries.findIdx
      (·.varName == name)]? = some ((entries[entries.findIdx (·.varName == name)]?.map
        TData.written).getD ⟨some 0, varValue⟩) := by
    rcases hle.lt_or_eq with hlt | heq
    · rw [List.getElem?_append_left (by rwa [List.length_map]), List.getElem?_map,
        List.getElem?_eq_getElem hlt]
      rfl
    · rw [heq, List.getElem?_append_right (by rw [List.length_map]), List.length_map, Nat.sub_self,
        List.getElem?_eq_none le_rfl]
      rfl
  rw [scanCells, bind_of_eq_some (findCell_eq hentries), bind_of_eq_some hcell]
  exact if_pos (hle.trans_lt hcount)

theorem valueOf_cons_of_ne {d : TData} (h : d.varName ≠ name) :
    valueOf (d :: entries) name = valueOf entries name := by
  rw [valueOf, findIdx_cons_of_ne h, List.getElem?_cons_succ, valueOf]

theorem valueOf_cons_of_eq {d : TData} (h : d.varName = name) :
    valueOf (d :: entries) name = some d.varValue := by
  rw [valueOf, findIdx_cons_of_eq h]
  rfl

theorem readData_eq (hentries : ∀ d ∈ entries, d.varName ≠ 0)
    (hterminator : terminator.varName = 0) :
    readData (some (entries ++ [terminator])) name =
      some ((valueOf entries name).getD (atoi [name])) := by
  change readEntries (entries ++ [terminator]) name = _
  induction entries with
  | nil => exact if_pos hterminator
  | cons d entries ih =>
    obtain ⟨hd, hentries⟩ := List.forall_mem_cons.mp hentries
    rw [List.cons_append, readEntries, if_neg hd]
    by_cases hname : d.varName = name
    · rw [if_pos hname, valueOf_cons_of_eq hname]
      rfl
    · rw [if_neg hname, ih hentries, valueOf_cons_of_ne hname]

theorem writeData_eq {varValue : Int32} (hentries : ∀ d ∈ entries, d.varName ≠ 0)
    (hterminator : terminator.varName = 0) :
    writeData (some (entries ++ [terminator])) name varValue =
      some (some (assigned entries name varValue ++ [terminator])) := by
  have hwrite : writeEntries (entries ++ [terminator]) name varValue =
      some (assigned entries name varValue ++ [terminator]) := by
    induction entries with
    | nil => exact if_pos hterminator
    | cons d entries ih =>
      obtain ⟨hd, hentries⟩ := List.forall_mem_cons.mp hentries
      rw [List.cons_append, writeEntries, if_neg hd, assigned]
      by_cases hname : d.varName = name
      · rw [if_pos hname, findIdx_cons_of_eq hname]
        rfl
      · rw [if_neg hname, ih hentries, findIdx_cons_of_ne hname]
        rfl
  rw [writeData, Option.bind_some, hwrite]
  rfl

theorem readDataCells_eq (h : Stores entries (some cells))
    (hentries : ∀ d ∈ entries, d.varName ≠ 0) (hcount : entries.length < 2 ^ 16)
    (hterminator : terminator.varName = 0) :
    readDataCells cells name = readData (some (entries ++ [terminator])) name := by
  obtain ⟨varValue, hscan⟩ := scanCells_eq name h hentries hcount
  rw [readData_eq hentries hterminator, readDataCells, bind_of_eq_some hscan, valueOf]
  rcases hentry : entries[entries.findIdx (·.varName == name)]? with _ | d
  · rw [hentry]
    rfl
  · rw [hentry]
    exact if_neg (hentries d (List.mem_of_getElem? hentry))

theorem writeDataCells_eq {varValue : Int32} (h : Stores entries (some cells))
    (hentries : ∀ d ∈ entries, d.varName ≠ 0) (hcount : entries.length < 2 ^ 16) :
    ∃ cells', writeDataCells cells name varValue = some cells' ∧
      Stores (assigned entries name varValue) (some cells') := by
  obtain ⟨endValue, hscan⟩ := scanCells_eq name h hentries hcount
  obtain ⟨terminatorValue, rfl⟩ := h
  rw [writeDataCells, bind_of_eq_some hscan]
  rcases hentry : entries[entries.findIdx (·.varName == name)]? with _ | d
  · rw [hentry, assigned, List.modify_eq_self (List.getElem?_eq_none_iff.mp hentry)]
    exact ⟨_, rfl, terminatorValue, rfl⟩
  · obtain ⟨hlt, hd⟩ := List.getElem?_eq_some_iff.mp hentry
    have hname := hentries d (List.mem_of_getElem? hentry)
    rw [hentry]
    refine ⟨_, rfl, terminatorValue, ?_⟩
    dsimp only [Option.map_some, Option.getD_some]
    rw [if_pos hname, List.set_append_left _ _ (by rwa [List.length_map]), assigned,
      List.modify_eq_set_getElem?, hentry]
    simp only [Option.map_eq_map, Option.map_some, Option.getD_some, List.map_set]
    rfl

/-- On an array of the code one operand is added as `addOperand` does it. -/
theorem addOperandCells_eq {sign : UInt8} {auxString : CString} {varValue : Int32}
    (h : Stores entries (some cells)) (hentries : ∀ d ∈ entries, d.varName ≠ 0)
    (hcount : entries.length < 2 ^ 16) (hterminator : terminator.varName = 0) :
    addOperandCells cells sign auxString varValue =
      addOperand (some (entries ++ [terminator])) sign auxString varValue := by
  rw [addOperandCells, addOperand, readDataCells_eq h hentries hcount hterminator]

end Entries

section Scan

variable {entries : List TData} {cells : List DataCell} {terminator : TData} {line : CString}
  {width : ℕ} {data : DataArray}

theorem evalTerms_operand {text more : CString} {sign : UInt8} {operand : CString}
    {varValue : Int32} (h : ∀ c ∈ text, c ≠ 59 ∧ c ≠ 43 ∧ c ≠ 45) :
    evalTerms data (text ++ more) sign operand varValue =
      evalTerms data more sign (operand ++ text) varValue := by
  induction text generalizing operand with
  | nil => rw [List.nil_append, List.append_nil]
  | cons c text ih =>
    obtain ⟨⟨hsemicolon, hsigns⟩, htext⟩ := List.forall_mem_cons.mp h
    rw [List.cons_append, evalTerms, if_neg hsemicolon, if_neg (not_or.mpr hsigns), ih htext,
      List.append_assoc, List.singleton_append]

/-- The inner loop takes over everything up to the next stop and stands on it. -/
theorem operandScan_eq {fuel i : ℕ} {text more auxString : CString}
    (hdrop : line.drop i = text ++ more) (htext : ∀ c ∈ text, stopsOperand c = false)
    (hmore : ∀ c ∈ more.head?, stopsOperand c = true) (hi : i ≤ line.length)
    (hline : line.length < 2 ^ width) (hfuel : line.length < i + fuel) :
    operandScan width line fuel i auxString = some (i + text.length, auxString ++ text) := by
  induction text generalizing fuel i auxString with
  | nil =>
    obtain ⟨fuel, rfl⟩ : ∃ n, fuel = n + 1 := ⟨fuel - 1, by omega⟩
    obtain ⟨c, hc, hstop⟩ : ∃ c, charAt line i = some c ∧ stopsOperand c = true := by
      rcases more with _ | ⟨c, more⟩
      · obtain rfl : i = line.length := by
          have hend := List.drop_eq_nil_iff.mp hdrop
          omega
        exact ⟨0, charAt_end line, rfl⟩
      · exact ⟨c, (charAt_cons hdrop).1, hmore c rfl⟩
    rw [operandScan, bind_of_eq_some hc, if_pos hstop, List.append_nil]
    rfl
  | cons c text ih =>
    obtain ⟨fuel, rfl⟩ : ∃ n, fuel = n + 1 := ⟨fuel - 1, by omega⟩
    obtain ⟨hc, htext⟩ := List.forall_mem_cons.mp htext
    obtain ⟨hchar, hlt, hrest⟩ := charAt_cons hdrop
    rw [operandScan, bind_of_eq_some hchar, hc, if_neg (by simp), Nat.mod_eq_of_lt (by omega),
      ih hrest htext (by omega) (by omega), List.append_assoc, List.singleton_append,
      List.length_cons]
    congr 2
    omega

theorem stopsOperand_eq_false {c : UInt8} :
    stopsOperand c = false ↔ c ≠ 0 ∧ c ≠ 43 ∧ c ≠ 45 ∧ c ≠ 59 := by
  simp [stopsOperand, and_assoc]

def operandOf (rest : CString) : CString := rest.takeWhile fun c => !stopsOperand c

theorem operandOf_append (rest : CString) :
    operandOf rest ++ rest.dropWhile (fun c => !stopsOperand c) = rest :=
  List.takeWhile_append_dropWhile

theorem stops_of_mem_operandOf {rest : CString} :
    ∀ c ∈ operandOf rest, stopsOperand c = false := by
  intro c hc
  have h := List.mem_takeWhile_imp hc
  rwa [Bool.not_eq_true'] at h

theorem stops_of_head_dropWhile (rest : CString) :
    ∀ c ∈ (rest.dropWhile fun c => !stopsOperand c).head?, stopsOperand c = true := by
  intro c hc
  have h := List.head?_dropWhile_not (fun c => !stopsOperand c) rest
  rw [Option.mem_def.mp hc] at h
  simpa using h

/-- The outer loop computes what `evalTerms` does, and ends where the text in front of `;` does. -/
theorem assignScan_eq {fuel i : ℕ} {sign : UInt8} {rest : CString} {varValue : Int32}
    (hcells : Stores entries (some cells)) (hentries : ∀ d ∈ entries, d.varName ≠ 0)
    (hcount : entries.length < 2 ^ 16) (hterminator : terminator.varName = 0)
    (hline : line.length < 2 ^ width) (hzero : 0 ∉ line) (hdrop : line.drop i = sign :: rest)
    (hsign : sign ≠ 59) (hfuel : rest.length < fuel) :
    assignScan width cells line (fuel + 1) i varValue =
      (evalTerms (some (entries ++ [terminator])) rest sign [] varValue).map fun value =>
        (i + 1 + (rest.takeWhile (· != 59)).length, value) := by
  induction fuel generalizing i sign rest varValue with
  | zero => exact absurd hfuel (Nat.not_lt_zero _)
  | succ fuel ih =>
    obtain ⟨hchar, hlt, hrest⟩ := charAt_cons hdrop
    have hnonzero : ∀ c ∈ sign :: rest, c ≠ 0 := by
      rintro c hc rfl
      exact hzero (List.mem_of_mem_drop (hdrop ▸ hc))
    have hloop : ¬ (sign = 0 ∨ sign = 59) := not_or.mpr ⟨hnonzero sign List.mem_cons_self, hsign⟩
    have hstops : ∀ c ∈ operandOf rest, c ≠ 59 ∧ c ≠ 43 ∧ c ≠ 45 := by
      intro c hc
      obtain ⟨-, hplus, hminus, hsemicolon⟩ :=
        stopsOperand_eq_false.mp (stops_of_mem_operandOf c hc)
      exact ⟨hsemicolon, hplus, hminus⟩
    have hmore := stops_of_head_dropWhile rest
    have hsplit := operandOf_append rest
    generalize operandOf rest = text at hstops hsplit
    generalize rest.dropWhile (fun c => !stopsOperand c) = more at hmore hsplit
    subst hsplit
    have htext : ∀ c ∈ text, stopsOperand c = false := by
      intro c hc
      obtain ⟨hsemicolon, hplus, hminus⟩ := hstops c hc
      exact stopsOperand_eq_false.mpr
        ⟨hnonzero c (List.mem_cons_of_mem _ (List.mem_append_left _ hc)), hplus, hminus, hsemicolon⟩
    have hnext : line.drop (i + 1 + text.length) = more := by
      rw [← List.drop_drop, hrest, List.drop_left]
    have htake : (text ++ more).takeWhile (· != 59) = text ++ more.takeWhile (· != 59) :=
      List.takeWhile_append_of_pos fun c hc => bne_iff_ne.mpr (hstops c hc).1
    rw [assignScan, bind_of_eq_some hchar, if_neg hloop, Nat.mod_eq_of_lt (by omega),
      bind_of_eq_some (operandScan_eq hrest htext hmore hlt hline (by omega)), List.nil_append,
      evalTerms_operand hstops, List.nil_append, htake]
    dsimp only
    rw [addOperandCells_eq hcells hentries hcount hterminator]
    rcases more with _ | ⟨c, more⟩
    · have hend : charAt line (i + 1 + text.length) = some 0 := by
        rw [← charAt_end line]
        congr 1
        have hlength := List.drop_eq_nil_iff.mp hnext
        have hlengths := congrArg List.length hrest
        rw [List.length_drop, List.length_append, List.length_nil] at hlengths
        omega
      rw [evalTerms]
      rcases addOperand (some (entries ++ [terminator])) sign text varValue with _ | value
      · rfl
      · rw [Option.bind_eq_bind, Option.bind_some, assignScan, bind_of_eq_some hend,
          if_pos (Or.inl rfl)]
        simp
    · obtain ⟨hchar', hlt', hrest'⟩ := charAt_cons hnext
      have hc : c ≠ 0 := hnonzero c (by simp)
      have hstop := hmore c rfl
      rw [evalTerms]
      by_cases hsemicolon : c = 59
      · rw [if_pos hsemicolon]
        rcases addOperand (some (entries ++ [terminator])) sign text varValue with _ | value
        · rfl
        · rw [Option.bind_eq_bind, Option.bind_some, assignScan, bind_of_eq_some hchar',
            if_pos (Or.inr hsemicolon)]
          simp [hsemicolon]
      · have hsigns : c = 43 ∨ c = 45 := by
          simpa [stopsOperand, hc, hsemicolon] using hstop
        rw [if_neg hsemicolon, if_pos hsigns]
        rcases addOperand (some (entries ++ [terminator])) sign text varValue with _ | value
        · rfl
        · have hfuel' : more.length < fuel := by
            rw [List.length_append, List.length_cons] at hfuel
            omega
          rw [Option.bind_eq_bind, Option.bind_some, Option.bind_some, ih hnext hsemicolon hfuel',
            List.takeWhile_cons, if_pos (bne_iff_ne.mpr hsemicolon), List.length_append,
            List.length_cons]
          congr 1
          funext value
          congr 1
          omega

end Scan

section Grammar

variable {entries : List TData} {terminator : TData}

theorem isspace_of_isdigit {c : UInt8} (h : isdigit c) : isspace c = false := by
  simp only [isdigit, Bool.and_eq_true, decide_eq_true_iff, UInt8.le_iff_toNat_le] at h
  simp only [isspace, Bool.or_eq_false_iff, beq_eq_false_iff_ne, Bool.and_eq_false_iff,
    decide_eq_false_iff_not, UInt8.le_iff_toNat_le, ne_eq, ← UInt8.toNat_inj]
  change 48 ≤ c.toNat ∧ c.toNat ≤ 57 at h
  change ¬ c.toNat = 32 ∧ (¬ 9 ≤ c.toNat ∨ ¬ c.toNat ≤ 13)
  omega

theorem strtol_digits {digits : CString} (hne : digits ≠ []) (h : ∀ c ∈ digits, isdigit c)
    (hrange : digitsValue digits < 2 ^ 31) : strtol digits = digitsValue digits := by
  rcases digits with _ | ⟨c, digits⟩
  · exact absurd rfl hne
  have hc := h c List.mem_cons_self
  have hspace : isspace c = false := isspace_of_isdigit hc
  have hsign : ¬ (c = 45 ∨ c = 43) := by
    rintro (rfl | rfl)
    · cases hc
    · cases hc
  have hdrop : (c :: digits).dropWhile isspace = c :: digits := by
    rw [List.dropWhile_cons, hspace]
    rfl
  have htake : (c :: digits).takeWhile isdigit = c :: digits := List.takeWhile_eq_self_iff.mpr h
  rw [strtol, hdrop]
  dsimp only
  rw [if_neg hsign, htake, if_neg (not_or.mp hsign).1]
  omega

theorem atoi_digits {digits : CString} (hne : digits ≠ []) (h : ∀ c ∈ digits, isdigit c)
    (hrange : digitsValue digits < 2 ^ 31) : atoi digits = Int32.ofInt (digitsValue digits) := by
  rw [atoi, strtol_digits hne h hrange]

theorem Term.text_ne_nil {term : Term} (h : term.Valid entries) : term.text ≠ [] := by
  cases term with
  | varName name => exact List.cons_ne_nil _ _
  | digit c => exact List.cons_ne_nil _ _
  | numeral digits =>
    rintro rfl
    exact absurd h.1 (by decide)

def plainChar (c : UInt8) : Bool := isLetter c || isdigit c

theorem Term.plain {term : Term} (h : term.Valid entries) : ∀ c ∈ term.text, plainChar c := by
  intro c hc
  cases term with
  | varName name =>
    rw [List.mem_singleton.mp hc, plainChar, h.1]
    rfl
  | digit d =>
    rw [List.mem_singleton.mp hc, plainChar, h.1, Bool.or_true]
  | numeral digits => rw [plainChar, h.2.1 c hc, Bool.or_true]

/-- A letter or a digit ends no operand. -/
theorem ne_of_plainChar {c : UInt8} (h : plainChar c) : c ≠ 59 ∧ c ≠ 43 ∧ c ≠ 45 := by
  refine ⟨?_, ?_, ?_⟩ <;> rintro rfl
  · exact absurd h (by decide)
  · exact absurd h (by decide)
  · exact absurd h (by decide)

theorem addOperand_value {data : DataArray} {operand : CString} {varValue value : Int32}
    (hread : operand.length ≤ 1 → readData data (operand.headD 0) = some value)
    (hatoi : 1 < operand.length → atoi operand = value) (sign : UInt8) :
    addOperand data sign operand varValue =
      some (if sign = 45 then varValue - value else varValue + value) := by
  rw [addOperand]
  split_ifs with hlong hminus
  · rw [hatoi hlong]
  · rw [hatoi hlong]
  · rw [hread (Nat.not_lt.mp hlong)]
    rfl
  · rw [hread (Nat.not_lt.mp hlong)]
    rfl

/-- A term is evaluated to its value, whichever way its text is read. -/
theorem addOperand_term {term : Term} (h : term.Valid entries)
    (hentries : ∀ d ∈ entries, d.varName ≠ 0) (hterminator : terminator.varName = 0)
    (sign : UInt8) (varValue : Int32) :
    addOperand (some (entries ++ [terminator])) sign term.text varValue =
      some (if sign = 45 then varValue - Int32.ofInt (term.value entries)
        else varValue + Int32.ofInt (term.value entries)) := by
  have hread : ∀ name, readData (some (entries ++ [terminator])) name =
      some ((valueOf entries name).getD (atoi [name])) :=
    fun name => readData_eq hentries hterminator
  apply addOperand_value
  · intro hshort
    cases term with
    | varName name =>
      obtain ⟨value, hvalue⟩ := Option.isSome_iff_exists.mp h.2
      rw [Term.text, List.headD_cons, hread, Term.value, hvalue]
      simp
    | digit c =>
      have hdigits : atoi [c] = Int32.ofInt (digitsValue [c]) := by
        refine atoi_digits (List.cons_ne_nil c []) (by simpa using h.1) ?_
        have hc := c.toNat_lt
        simp only [digitsValue, List.foldl_cons, List.foldl_nil]
        omega
      rw [Term.text, List.headD_cons, hread, h.2, Term.value, ← hdigits]
      rfl
    | numeral digits => exact absurd h.1 (Nat.not_le.mpr (Nat.lt_succ_of_le hshort))
  · intro hlong
    cases term with
    | varName name => exact absurd hlong (Nat.lt_irrefl 1)
    | digit c => exact absurd hlong (Nat.lt_irrefl 1)
    | numeral digits =>
      have hne : (Term.numeral digits).text ≠ [] := Term.text_ne_nil h
      exact atoi_digits hne h.2.1 h.2.2

theorem sign_char_cases (sign : Sign) : sign.char = 43 ∨ sign.char = 45 := by
  cases sign with
  | plus => exact .inl rfl
  | minus => exact .inr rfl

theorem addOperand_signed {term : Term} (h : term.Valid entries)
    (hentries : ∀ d ∈ entries, d.varName ≠ 0) (hterminator : terminator.varName = 0)
    (sign : Sign) (n : ℤ) :
    addOperand (some (entries ++ [terminator])) sign.char term.text (Int32.ofInt n) =
      some (Int32.ofInt (n + sign.signed (term.value entries))) := by
  rw [addOperand_term h hentries hterminator]
  cases sign with
  | plus => rw [if_neg (by decide), Sign.signed, Int32.ofInt_add]
  | minus => rw [if_pos (by decide), Sign.signed, ← Int.sub_eq_add_neg, Int32.ofInt_sub]

/-- The terms behind an operand that is still to be added. -/
theorem evalTerms_terms {terms : List (Sign × Term)} {sign : UInt8} {operand : CString}
    {varValue : Int32} {n : ℤ} {delay : Option CString}
    (h : ∀ signed ∈ terms, signed.2.Valid entries)
    (hentries : ∀ d ∈ entries, d.varName ≠ 0) (hterminator : terminator.varName = 0)
    (hoperand : addOperand (some (entries ++ [terminator])) sign operand varValue =
      some (Int32.ofInt n)) :
    evalTerms (some (entries ++ [terminator])) (termsText terms ++ delayText delay) sign operand
      varValue = some (Int32.ofInt (n + termsTotal entries terms)) := by
  induction terms generalizing sign operand varValue n with
  | nil =>
    have htotal : n + termsTotal entries [] = n := Int.add_zero n
    rw [htotal, ← hoperand]
    cases delay with
    | none => rfl
    | some delay => exact if_pos rfl
  | cons signed terms ih =>
    obtain ⟨sign', term⟩ := signed
    obtain ⟨hterm, hterms⟩ := List.forall_mem_cons.mp h
    have hplain : ∀ c ∈ term.text, c ≠ 59 ∧ c ≠ 43 ∧ c ≠ 45 := by
      intro c hc
      exact ne_of_plainChar (Term.plain hterm c hc)
    have hchar : sign'.char ≠ 59 := by
      cases sign' <;> decide
    have htext : termsText ((sign', term) :: terms) ++ delayText delay =
        sign'.char :: (term.text ++ (termsText terms ++ delayText delay)) := by
      simp [termsText]
    have htotal : n + termsTotal entries ((sign', term) :: terms) =
        n + sign'.signed (term.value entries) + termsTotal entries terms := by
      simp [termsTotal, Int.add_assoc]
    rw [htext, evalTerms, if_neg hchar, if_pos (sign_char_cases sign'), hoperand, Option.bind_some,
      evalTerms_operand hplain, List.nil_append, htotal]
    exact ih hterms (addOperand_signed hterm hentries hterminator sign' n)

theorem evalTerms_expression {e : Expression} {delay : Option CString} (h : e.Valid entries)
    (hentries : ∀ d ∈ entries, d.varName ≠ 0) (hterminator : terminator.varName = 0) :
    evalTerms (some (entries ++ [terminator])) (e.text ++ delayText delay) 61 [] 0 =
      some (Int32.ofInt (e.total entries)) := by
  obtain ⟨leading, first, terms⟩ := e
  obtain ⟨hfirst, hterms⟩ := h
  have hplain : ∀ c ∈ first.text, c ≠ 59 ∧ c ≠ 43 ∧ c ≠ 45 := by
    intro c hc
    exact ne_of_plainChar (Term.plain hfirst c hc)
  cases leading with
  | none =>
    have hadd := addOperand_signed hfirst hentries hterminator .plus 0
    have hequal : addOperand (some (entries ++ [terminator])) 61 first.text 0 =
        addOperand (some (entries ++ [terminator])) 43 first.text 0 := by
      have hequals : (61 : UInt8) ≠ 45 := by decide
      have hplus : (43 : UInt8) ≠ 45 := by decide
      simp only [addOperand, hequals, hplus, if_false]
    rw [Expression.text, Option.map_none, Option.toList_none, List.nil_append, List.append_assoc,
      evalTerms_operand hplain, List.nil_append, Expression.total]
    rw [Int.zero_add] at hadd
    exact evalTerms_terms hterms hentries hterminator (hequal.trans hadd)
  | some sign =>
    -- the empty operand in front of the leading sign reads the terminator, whose name counts 0
    have hempty : addOperand (some (entries ++ [terminator])) 61 [] 0 = some (Int32.ofInt 0) := by
      have hread : readData (some (entries ++ [terminator])) 0 = some (atoi [0]) := by
        rw [readData_eq hentries hterminator, valueOf, List.getElem?_eq_none]
        · rfl
        · rw [List.findIdx_eq_length_of_false]
          simpa using hentries
      rw [addOperand, if_neg (by simp : ¬ 1 < ([] : CString).length), List.headD_nil, hread]
      rfl
    have hchar : sign.char ≠ 59 := by
      cases sign <;> decide
    have hadd := addOperand_signed hfirst hentries hterminator sign 0
    rw [Int.zero_add] at hadd
    rw [Expression.text, Option.map_some, Option.toList_some, List.singleton_append,
      List.cons_append, evalTerms, if_neg hchar, if_pos (sign_char_cases sign), hempty,
      Option.bind_some, List.append_assoc, evalTerms_operand hplain, List.nil_append,
      Expression.total]
    exact evalTerms_terms hterms hentries hterminator hadd

/-- The characters of the grammar: a call, a label and the end of the line use others. -/
def lineChar (c : UInt8) : Bool := plainChar c || c == 43 || c == 45 || c == 59 || c == 61

theorem lineChar_of_plainChar {c : UInt8} (h : plainChar c) : lineChar c := by
  rw [lineChar, h]
  rfl

theorem lineChar_of_isdigit {c : UInt8} (h : isdigit c) : lineChar c := by
  apply lineChar_of_plainChar
  rw [plainChar, h, Bool.or_true]

theorem lineChar_of_isLetter {c : UInt8} (h : isLetter c) : lineChar c := by
  apply lineChar_of_plainChar
  rw [plainChar, h, Bool.true_or]

theorem lineChar_sign (sign : Sign) : lineChar sign.char := by
  cases sign with
  | plus => rfl
  | minus => rfl

theorem lineChar_expression {e : Expression} (h : e.Valid entries) : ∀ c ∈ e.text, lineChar c := by
  obtain ⟨leading, first, terms⟩ := e
  obtain ⟨hfirst, hterms⟩ := h
  intro c hc
  rcases List.mem_append.mp hc with hc | hc
  · cases leading with
    | none => cases hc
    | some sign =>
      obtain rfl := List.mem_singleton.mp hc
      exact lineChar_sign sign
  rcases List.mem_append.mp hc with hc | hc
  · exact lineChar_of_plainChar (Term.plain hfirst c hc)
  obtain ⟨⟨sign, term⟩, hmem, hc⟩ := List.mem_flatMap.mp hc
  rcases List.mem_cons.mp hc with rfl | hc
  · exact lineChar_sign sign
  · exact lineChar_of_plainChar (Term.plain (hterms _ hmem) c hc)

theorem lineChar_delay {delay : Option CString} (h : ∀ digits ∈ delay, ∀ c ∈ digits, isdigit c) :
    ∀ c ∈ delayText delay, lineChar c := by
  intro c hc
  cases delay with
  | none => cases hc
  | some digits =>
    rcases List.mem_cons.mp hc with rfl | hc
    · rfl
    · exact lineChar_of_isdigit (h digits rfl c hc)

theorem lineChar_assignmentLine {v : UInt8} {e : Expression} {delay : Option CString}
    (hv : isLetter v) (he : e.Valid entries) (hdelay : ∀ digits ∈ delay, ∀ c ∈ digits, isdigit c) :
    ∀ c ∈ assignmentLine v e delay, lineChar c := by
  rw [assignmentLine, List.forall_mem_cons, List.forall_mem_cons, List.forall_mem_append]
  exact ⟨lineChar_of_isLetter hv, rfl, lineChar_expression he, lineChar_delay hdelay⟩

variable {line rest : CString} {v : UInt8}

/-- The second character of a keyword is not `=`. -/
theorem not_startsWith {begin : CString} (h : begin.tail.head?.any (· != 61)) :
    ¬ stringStartsWith (v :: 61 :: rest) begin := by
  intro hstarts
  obtain ⟨tail, htail⟩ := List.isPrefixOf_iff_prefix.mp hstarts
  rcases begin with _ | ⟨a, _ | ⟨b, begin⟩⟩
  · cases h
  · cases h
  · obtain rfl : b = 61 := (List.cons.inj (List.cons.inj htail).2).1
    cases h

theorem commonForm_assign (h : ∀ c ∈ rest, lineChar c) :
    commonForm (v :: 61 :: rest) = .assign := by
  have hrequest : ¬ stringStartsWith rest (cstr "io(") := by
    intro hstarts
    have hparen := h 40 ((List.isPrefixOf_iff_prefix.mp hstarts).subset (by decide))
    exact absurd hparen (by decide)
  exact if_pos ⟨rfl, hrequest⟩

theorem not_skipped (h : ∀ c ∈ v :: 61 :: rest, lineChar c) :
    ¬ (v :: 61 :: rest = [] ∨ stringEndsWith (v :: 61 :: rest) (cstr ":")) := by
  rintro (hnil | hends)
  · exact List.cons_ne_nil _ _ hnil
  · have hcolon := h 58 ((List.isSuffixOf_iff_suffix.mp hends).subset (by decide))
    exact absurd hcolon (by decide)

theorem processForm_assign (h : ∀ c ∈ v :: 61 :: rest, lineChar c) :
    processForm (v :: 61 :: rest) = .assign := by
  rw [processForm, if_neg (not_skipped h), if_neg (not_startsWith (by decide)),
    if_neg (not_startsWith (by decide)), if_neg (not_startsWith (by decide)),
    if_neg (not_startsWith (by decide))]
  exact commonForm_assign fun c hc => h c (by simp [hc])

theorem functionForm_assign (h : ∀ c ∈ v :: 61 :: rest, lineChar c) :
    functionForm (v :: 61 :: rest) = .assign := by
  rw [functionForm, if_neg (not_skipped h), if_neg (not_startsWith (by decide))]
  exact commonForm_assign fun c hc => h c (by simp [hc])

end Grammar

/-- Both interpreters take the line for an assignment, read nothing outside it, and store the
value: in the memory, where an index of `width` bits reaches every character, and in the image. -/
structure Assigns (entries entries' : List TData) (line : CString) : Prop where
  processForm : processForm line = .assign
  functionForm : functionForm line = .assign
  cells : ∀ width cells, line.length < 2 ^ width → Stores entries (some cells) → ∃ cells',
    assignCells width cells line = some (scanEnd line 1 59, cells') ∧ Stores entries' (some cells')
  within : ∀ code n image, code[n]? = some line →
    (∀ a ∈ processAccesses image n line, a.within code) ∧
      (∀ a ∈ functionAccesses n line, a.within code)
  image : ∀ code self image terminator, terminator.varName = 0 →
    image.data = some (entries ++ [terminator]) → ∃ f : LineEffect,
      processLine code self image line = some (.effect f) ∧
        functionLine self image line = some (.effect f) ∧ f.PC = image.PC ∧
          f.data = some (entries' ++ [terminator])

section Assignment

variable {entries : List TData} {v : UInt8} {e : Expression} {delay : Option CString}

theorem assignCells_eq {width : ℕ} {cells : List DataCell}
    (hentries : ∀ d ∈ entries, d.varName ≠ 0) (hcount : entries.length < 2 ^ 16)
    (he : e.Valid entries) (hzero : 0 ∉ assignmentLine v e delay)
    (hline : (assignmentLine v e delay).length < 2 ^ width) (hcells : Stores entries (some cells)) :
    ∃ cells', assignCells width cells (assignmentLine v e delay) =
        some (scanEnd (assignmentLine v e delay) 1 59, cells') ∧
      Stores (assigned entries v (Int32.ofInt (e.total entries))) (some cells') := by
  obtain ⟨cells', hwrite, hstored⟩ : ∃ cells',
      writeDataCells cells v (Int32.ofInt (e.total entries)) = some cells' ∧
        Stores (assigned entries v (Int32.ofInt (e.total entries))) (some cells') :=
    writeDataCells_eq hcells hentries hcount
  refine ⟨cells', ?_, hstored⟩
  have hend : 1 + 1 + ((e.text ++ delayText delay).takeWhile (· != 59)).length =
      scanEnd (assignmentLine v e delay) 1 59 := by
    have htake : ((61 : UInt8) :: (e.text ++ delayText delay)).takeWhile (· != 59) =
        61 :: (e.text ++ delayText delay).takeWhile (· != 59) :=
      List.takeWhile_cons_of_pos (by decide)
    change _ = 1 + (((61 : UInt8) :: (e.text ++ delayText delay)).takeWhile (· != 59)).length
    rw [htake, List.length_cons]
    omega
  have hscan : assignScan width cells (assignmentLine v e delay)
      ((assignmentLine v e delay).length + 1) 1 0 =
        some (scanEnd (assignmentLine v e delay) 1 59, Int32.ofInt (e.total entries)) := by
    have hdrop : (assignmentLine v e delay).drop 1 = 61 :: (e.text ++ delayText delay) := rfl
    have hfuel : (e.text ++ delayText delay).length < (assignmentLine v e delay).length := by
      rw [assignmentLine, List.length_cons, List.length_cons]
      omega
    have hterminator : (⟨0, 0⟩ : TData).varName = 0 := rfl
    rw [assignScan_eq hcells hentries hcount hterminator hline hzero hdrop (by decide) hfuel,
      evalTerms_expression he hentries hterminator, Option.map_some, hend]
  have hname : charAt (assignmentLine v e delay) 0 = some v := rfl
  rw [assignCells, bind_of_eq_some hscan]
  dsimp only
  rw [bind_of_eq_some hname, bind_of_eq_some hwrite]
  rfl

theorem assignLine_eq (v : UInt8) (delay : Option CString) {image : TProcessImage}
    {terminator : TData} (hentries : ∀ d ∈ entries, d.varName ≠ 0) (he : e.Valid entries)
    (hterminator : terminator.varName = 0) (hdata : image.data = some (entries ++ [terminator])) :
    ∃ f, assignLine image (assignmentLine v e delay) = some f ∧ f.PC = image.PC ∧
      f.data = some (assigned entries v (Int32.ofInt (e.total entries)) ++ [terminator]) := by
  have heval : evalTerms image.data ((assignmentLine v e delay).drop 2) 61 [] 0 =
      some (Int32.ofInt (e.total entries)) := by
    rw [hdata]
    exact evalTerms_expression he hentries hterminator
  have hwrite : writeData image.data v (Int32.ofInt (e.total entries)) =
      some (some (assigned entries v (Int32.ofInt (e.total entries)) ++ [terminator])) := by
    rw [hdata, writeData_eq hentries hterminator]
  have hname : (assignmentLine v e delay)[0]? = some v := rfl
  rw [assignLine, bind_of_eq_some hname, bind_of_eq_some heval, bind_of_eq_some hwrite]
  exact ⟨_, rfl, rfl, rfl⟩

end Assignment

/-- `v=e` stores the value of `e` in `v`, taken modulo `2 ^ 32`, and in no other variable. The
entries are those `addVariables` can count. -/
theorem assignment_value (entries : List TData) (v : UInt8) (e : Expression)
    (delay : Option CString) (hentries : ∀ d ∈ entries, d.varName ≠ 0)
    (hcount : entries.length < 2 ^ 16) (hv : isLetter v) (he : e.Valid entries)
    (hdelay : ∀ digits ∈ delay, ∀ c ∈ digits, isdigit c) :
    Assigns entries (assigned entries v (Int32.ofInt (e.total entries)))
      (assignmentLine v e delay) := by
  have hchars := lineChar_assignmentLine hv he hdelay
  have hcommon : commonForm (assignmentLine v e delay) = .assign :=
    commonForm_assign fun c hc => hchars c (by simp [assignmentLine, hc])
  have hprocess : processForm (assignmentLine v e delay) = .assign := processForm_assign hchars
  have hfunction : functionForm (assignmentLine v e delay) = .assign := functionForm_assign hchars
  constructor
  · exact hprocess
  · exact hfunction
  · intro width cells hline hcells
    have hzero : 0 ∉ assignmentLine v e delay := fun hmem => absurd (hchars 0 hmem) (by decide)
    exact assignCells_eq hentries hcount he hzero hline hcells
  · intro code n image hline
    rw [processAccesses_within_iff hline, functionAccesses_within_iff hline, processComplete,
      functionComplete, hprocess, hfunction]
    have hcomplete : commonComplete code (assignmentLine v e delay) = true := by
      rw [commonComplete, hcommon]
    exact ⟨hcomplete, hcomplete⟩
  · intro code self image terminator hterminator hdata
    obtain ⟨f, hf, hPC, hstored⟩ := assignLine_eq v delay hentries he hterminator hdata
    refine ⟨f, ?_, ?_, hPC, hstored⟩
    · rw [processLine, hprocess]
      exact congrArg (Option.map LineOutcome.effect) hf
    · rw [functionLine, hfunction]
      exact congrArg (Option.map LineOutcome.effect) hf

/-- `a=-a+12-3;4` with `a` at 7. -/
theorem assignment_value_signed :
    Assigns [⟨97, 7⟩] (assigned [⟨97, 7⟩] 97 (Int32.ofInt (-7 + (12 + (-3 + 0)))))
      (assignmentLine 97 ⟨some .minus, .varName 97, [(.plus, .numeral [49, 50]),
        (.minus, .digit 51)]⟩ (some [52])) :=
  assignment_value [⟨97, 7⟩] 97 ⟨some .minus, .varName 97, [(.plus, .numeral [49, 50]),
    (.minus, .digit 51)]⟩ (some [52]) (by decide) (by decide) (by decide)
    ⟨⟨by decide, by decide⟩, List.forall_mem_cons.mpr ⟨⟨by decide, by simp [isdigit], by decide⟩,
      List.forall_mem_singleton.mpr ⟨by decide, by decide⟩⟩⟩ (by simp [isdigit])

end Sisop
