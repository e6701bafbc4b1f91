import Sisop.ProcessData
import Sisop.Serialization

/-!
# The array that `addVariables` reallocates

An array of `t_data` in memory, with fields nobody has written yet: `addVariables` with its
counter and its index, both `uint16_t`, and every read of the list of names. `Stores` says which
variables such an array holds in front of its terminator.
-/

namespace Sisop

structure DataCell where
  varName : Option UInt8
  varValue : Option Int32
  deriving DecidableEq

def TData.written (d : TData) : DataCell := ⟨some d.varName, some d.varValue⟩

def reallocData (data : List DataCell) (n : ℕ) : List DataCell :=
  data.take n ++ List.replicate (n - data.length) ⟨none, none⟩

/-- The scan for the terminator; its index is a `uint16_t`. -/
def countCells : List DataCell → Option ℕ
  | [] => none
  | cell :: cells => cell.varName.bind fun varName =>
    if varName = 0 then some 0 else (countCells cells).map (· + 1)

def dataCountCells : Option (List DataCell) → Option ℕ
  | none => some 0
  | some cells => (countCells cells).bind fun i => if i < 2 ^ 16 then some i else none

def setLastCell (data : List DataCell) (varCount : ℕ) (cell : DataCell) :
    Option (List DataCell) :=
  if varCount = 0 then none else some ((reallocData data varCount).set (varCount - 1) cell)

def addVariablesLoop (varList : CString) :
    (fuel varCount i : ℕ) → List DataCell → Option (ℕ × List DataCell)
  | 0, _, _, _ => none
  | fuel + 1, varCount, i, data => do
    let varName ← charAt varList i
    let data ← setLastCell data (uint16 (varCount + 1)) ⟨some varName, some 0⟩
    let next ← charAt varList (i + 1)
    if next = 0 then
      return (uint16 (varCount + 1), data)
    else
      addVariablesLoop varList fuel (uint16 (varCount + 1)) (uint16 (i + 2)) data

/-- Of the terminator only the name is written. -/
def addVariablesCells (data : Option (List DataCell)) (varList : CString) :
    Option (List DataCell) := do
  let varCount ← dataCountCells data
  let (varCount, data) ← addVariablesLoop varList (varList.length + 1) varCount 0 (data.getD [])
  setLastCell data (uint16 (varCount + 1)) ⟨some 0, none⟩

/-- `data` is `NULL` or the entries with the terminator behind them. -/
def Stores (entries : List TData) : Option (List DataCell) → Prop
  | none => entries = []
  | some cells => ∃ varValue, cells = entries.map TData.written ++ [⟨some 0, varValue⟩]

def declared (names : List UInt8) : List TData := names.map fun name => ⟨name, 0⟩

variable {varList : CString} {entries : List TData} {data : List DataCell}

/-- The array in front of the loop: the entries and at most the old terminator. -/
def Begins (entries : List TData) (data : List DataCell) : Prop :=
  data.take entries.length = entries.map TData.written ∧ data.length ≤ entries.length + 1

theorem begins_written (entries : List TData) : Begins entries (entries.map TData.written) := by
  refine ⟨?_, ?_⟩
  · rw [List.take_of_length_le (by rw [List.length_map])]
  · rw [List.length_map]
    exact Nat.le_succ _

theorem length_reallocData (data : List DataCell) (n : ℕ) : (reallocData data n).length = n := by
  rw [reallocData, List.length_append, List.length_take, List.length_replicate]
  omega

theorem setLastCell_eq (h : Begins entries data) (cell : DataCell) :
    setLastCell data (entries.length + 1) cell = some (entries.map TData.written ++ [cell]) := by
  obtain ⟨htake, hle⟩ := h
  have hlength := congrArg List.length htake
  rw [List.length_take, List.length_map] at hlength
  have hfront : (reallocData data (entries.length + 1)).take entries.length =
      entries.map TData.written := by
    rw [reallocData, List.take_append_of_le_length (by rw [List.length_take]; omega),
      List.take_take, Nat.min_eq_left (Nat.le_succ _), htake]
  rw [setLastCell, if_neg (Nat.succ_ne_zero _), Nat.add_sub_cancel,
    List.set_eq_take_append_cons_drop, length_reallocData, if_pos (Nat.lt_succ_self _), hfront,
    List.drop_eq_nil_of_le (length_reallocData data _).le]

theorem setLastCell_uint16 (h : Begins entries data) (hentries : entries.length < 2 ^ 16)
    (cell : DataCell) : setLastCell data (uint16 (entries.length + 1)) cell =
      if entries.length + 1 < 2 ^ 16 then some (entries.map TData.written ++ [cell]) else none := by
  split_ifs with hlt
  · rw [uint16_of_lt hlt, setLastCell_eq h]
  · have hwrap : uint16 (entries.length + 1) = 0 := by
      rw [uint16]
      omega
    rw [hwrap]
    rfl

theorem charAt_end (varList : CString) : charAt varList varList.length = some 0 := if_pos rfl

theorem charAt_cons {i : ℕ} {c : UInt8} {rest : CString} (h : varList.drop i = c :: rest) :
    charAt varList i = some c ∧ i < varList.length ∧ varList.drop (i + 1) = rest := by
  have hlt : i < varList.length := by
    have hlength := congrArg List.length h
    rw [List.length_drop, List.length_cons] at hlength
    omega
  rw [List.drop_eq_getElem_cons hlt] at h
  obtain ⟨rfl, hrest⟩ := List.cons.inj h
  exact ⟨(if_neg hlt.ne).trans (List.getElem?_eq_getElem hlt), hlt, hrest⟩

/-- The loop succeeds exactly when the names end with the list and all of them can be counted. -/
theorem addVariablesLoop_eq_some_iff {fuel i : ℕ} {r : ℕ × List DataCell}
    (hdata : Begins entries data) (hentries : entries.length < 2 ^ 16) (hi : i ≤ varList.length)
    (hfuel : varList.length < i + fuel) (hlist : varList.length + 2 < 2 ^ 16)
    (hzero : 0 ∉ varList) :
    addVariablesLoop varList fuel entries.length i data = some r ↔
      ∃ names, listedNames (varList.drop i) = some names ∧
        entries.length + names.length < 2 ^ 16 ∧
        r = (entries.length + names.length, (entries ++ declared names).map TData.written) := by
  induction fuel generalizing entries data i with
  | zero => exact absurd hfuel (by omega)
  | succ fuel ih =>
    rw [addVariablesLoop]
    have hset := fun a => setLastCell_uint16 hdata hentries ⟨some a, some 0⟩
    rcases hrest : varList.drop i with _ | ⟨a, _ | ⟨b, rest⟩⟩
    · -- the name would be the NUL, and the look-ahead leaves the list
      have hlength : varList.length ≤ i := List.drop_eq_nil_iff.mp hrest
      obtain rfl : i = varList.length := le_antisymm hi hlength
      have hnext : charAt varList (varList.length + 1) = none := by simp [charAt]
      rw [bind_of_eq_some (charAt_end varList), hset]
      refine iff_of_false ?_ (by simp [listedNames])
      split_ifs
      · rw [Option.bind_eq_bind, Option.bind_some, bind_of_eq_none hnext]
        simp
      · simp
    · obtain ⟨ha, hlt, htail⟩ := charAt_cons hrest
      have hend : charAt varList (i + 1) = some 0 := by
        rw [← charAt_end varList]
        congr 1
        have hlength := List.drop_eq_nil_iff.mp htail
        omega
      rw [bind_of_eq_some ha, hset]
      by_cases hbound : entries.length + 1 < 2 ^ 16
      · rw [if_pos hbound, Option.bind_eq_bind, Option.bind_some, bind_of_eq_some hend, if_pos rfl,
          uint16_of_lt hbound]
        constructor
        · intro h
          cases h
          exact ⟨[a], rfl, hbound, by simp [declared, TData.written]⟩
        · rintro ⟨names, hnames, -, rfl⟩
          cases hnames
          simp [declared, TData.written]
      · rw [if_neg hbound]
        refine iff_of_false (by simp) ?_
        rintro ⟨names, hnames, hcount, -⟩
        cases hnames
        exact hbound hcount
    · obtain ⟨ha, hlt, htail⟩ := charAt_cons hrest
      obtain ⟨hb, hlt', htail'⟩ := charAt_cons htail
      have hb' : b ≠ 0 := by
        rintro rfl
        exact hzero (List.mem_of_mem_drop (htail ▸ List.mem_cons_self))
      rw [bind_of_eq_some ha, hset]
      by_cases hbound : entries.length + 1 < 2 ^ 16
      · rw [if_pos hbound, Option.bind_eq_bind, Option.bind_some, bind_of_eq_some hb, if_neg hb',
          uint16_of_lt hbound, uint16_of_lt (by omega)]
        have hcells : entries.map TData.written ++ [⟨some a, some 0⟩] =
            (entries ++ declared [a]).map TData.written := by
          simp [declared, TData.written]
        have hcount : entries.length + 1 = (entries ++ declared [a]).length := by simp [declared]
        have hnames : ∀ names, entries ++ declared [a] ++ declared names =
            entries ++ declared (a :: names) := by
          intro names
          simp [declared]
        rw [hcells, hcount, ih (begins_written _) (hcount ▸ hbound) (by omega) (by omega), htail',
          ← hcount]
        constructor
        · rintro ⟨names, hlisted, hlt, rfl⟩
          refine ⟨a :: names, ?_, ?_, ?_⟩
          · rw [listedNames, hlisted]
            rfl
          · rw [List.length_cons]
            omega
          · rw [hnames, List.length_cons, Nat.add_assoc, Nat.add_comm 1]
        · rintro ⟨names, hlisted, hlt, rfl⟩
          rw [listedNames] at hlisted
          obtain ⟨names, hrest', rfl⟩ := Option.map_eq_some_iff.mp hlisted
          refine ⟨names, hrest', ?_, ?_⟩
          · rw [List.length_cons] at hlt
            omega
          · rw [hnames, List.length_cons, Nat.add_assoc, Nat.add_comm 1]
      · rw [if_neg hbound]
        refine iff_of_false (by simp) ?_
        rintro ⟨names, hnames, hcount, -⟩
        obtain ⟨names', -, rfl⟩ := Option.map_eq_some_iff.mp hnames
        rw [List.length_cons] at hcount
        omega

theorem countCells_eq {varValue : Option Int32} (h : ∀ d ∈ entries, d.varName ≠ 0) :
    countCells (entries.map TData.written ++ [⟨some 0, varValue⟩]) = some entries.length := by
  induction entries with
  | nil => rfl
  | cons d entries ih =>
    obtain ⟨hd, hentries⟩ := List.forall_mem_cons.mp h
    rw [List.map_cons, List.cons_append, countCells, ih hentries]
    exact if_neg hd

theorem begins_of_stores {cells : Option (List DataCell)} (h : Stores entries cells) :
    Begins entries (cells.getD []) := by
  cases cells with
  | none =>
    cases h
    exact begins_written []
  | some cells =>
    obtain ⟨varValue, rfl⟩ := h
    refine ⟨?_, ?_⟩
    · rw [Option.getD_some, List.take_append_of_le_length (by simp),
        List.take_of_length_le (by simp)]
    · simp

theorem dataCountCells_eq {cells : Option (List DataCell)} (h : Stores entries cells)
    (hnames : ∀ d ∈ entries, d.varName ≠ 0) (hcount : entries.length < 2 ^ 16) :
    dataCountCells cells = some entries.length := by
  cases cells with
  | none =>
    cases h
    rfl
  | some cells =>
    obtain ⟨varValue, rfl⟩ := h
    rw [dataCountCells, countCells_eq hnames]
    exact if_pos hcount

theorem addVariablesCells_eq_some_iff {cells : Option (List DataCell)} {cells' : List DataCell}
    (h : Stores entries cells) (hentries : ∀ d ∈ entries, d.varName ≠ 0)
    (hcount : entries.length < 2 ^ 16) (hlist : varList.length + 2 < 2 ^ 16) (hzero : 0 ∉ varList) :
    addVariablesCells cells varList = some cells' ↔
      ∃ names, listedNames varList = some names ∧ entries.length + names.length + 1 < 2 ^ 16 ∧
        cells' = (entries ++ declared names).map TData.written ++ [⟨some 0, none⟩] := by
  have hloop := fun r => addVariablesLoop_eq_some_iff (r := r) (begins_of_stores h) hcount
    (Nat.zero_le varList.length) (show varList.length < 0 + (varList.length + 1) by omega) hlist
    hzero
  have hterminator : ∀ names, entries.length + names.length < 2 ^ 16 →
      setLastCell ((entries ++ declared names).map TData.written)
        (uint16 (entries.length + names.length + 1)) ⟨some 0, none⟩ =
          if entries.length + names.length + 1 < 2 ^ 16 then
            some ((entries ++ declared names).map TData.written ++ [⟨some 0, none⟩])
          else none := by
    intro names hlt
    have hlength : (entries ++ declared names).length = entries.length + names.length := by
      simp [declared]
    have hset := setLastCell_uint16 (begins_written (entries ++ declared names))
      (by rw [hlength]; exact hlt) ⟨some 0, none⟩
    rwa [hlength] at hset
  rw [List.drop_zero] at hloop
  rw [addVariablesCells, bind_of_eq_some (dataCountCells_eq h hentries hcount)]
  constructor
  · intro hrun
    obtain ⟨r, hr, hrun⟩ := Option.bind_eq_some_iff.mp hrun
    obtain ⟨names, hlisted, hlt, rfl⟩ := (hloop r).mp hr
    dsimp only at hrun
    rw [hterminator names hlt] at hrun
    split_ifs at hrun with hbound
    exact ⟨names, hlisted, hbound, (Option.some.inj hrun).symm⟩
  · rintro ⟨names, hlisted, hbound, rfl⟩
    have hlt : entries.length + names.length < 2 ^ 16 := by omega
    rw [bind_of_eq_some ((hloop _).mpr ⟨names, hlisted, hlt, rfl⟩)]
    dsimp only
    rw [hterminator names hlt, if_pos hbound]

/-- The array of `addVariables` holds the same variables as the one in memory. -/
theorem addVariables_of_cells {cells : Option (List DataCell)} {cells' : List DataCell}
    {terminator : TData} (h : Stores entries cells) (hentries : ∀ d ∈ entries, d.varName ≠ 0)
    (hterminator : terminator.varName = 0) (hcount : entries.length < 2 ^ 16)
    (hlist : varList.length + 2 < 2 ^ 16) (hzero : 0 ∉ varList)
    (hcells : addVariablesCells cells varList = some cells') : ∃ names,
      addVariables (some (entries ++ [terminator])) varList =
        some (some (entries ++ declared names ++ [⟨0, 0⟩])) ∧
      Stores (entries ++ declared names) (some cells') := by
  obtain ⟨names, hlisted, -, rfl⟩ :=
    (addVariablesCells_eq_some_iff h hentries hcount hlist hzero).mp hcells
  have hscan : (entries ++ [terminator]).findIdx? (·.varName == 0) = some entries.length := by
    rw [List.findIdx?_append, List.findIdx?_eq_none_iff.mpr (by simpa using hentries)]
    simp [hterminator]
  have hdata : dataCount (some (entries ++ [terminator])) = some entries.length := by
    rw [dataCount, hscan]
    exact if_pos hcount
  refine ⟨names, ?_, none, rfl⟩
  rw [addVariables, bind_of_eq_some hdata, bind_of_eq_some hlisted]
  simp [declared]

def namesText (names : List UInt8) : CString := names.intersperse 44

theorem namesText_cons (a b : UInt8) (names : List UInt8) :
    namesText (a :: b :: names) = a :: 44 :: namesText (b :: names) := rfl

theorem listedNames_namesText {names : List UInt8} (h : names ≠ []) :
    listedNames (namesText names) = some names := by
  induction names with
  | nil => exact absurd rfl h
  | cons a names ih =>
    rcases names with _ | ⟨b, names⟩
    · rfl
    · rw [namesText_cons, listedNames, ih (List.cons_ne_nil b names)]
      rfl

/-- What stands behind the names, the delay too, is read on as names. -/
theorem listedNames_tail {names : List UInt8} (h : names ≠ []) (c : UInt8) (tail : CString) :
    listedNames (namesText names ++ c :: tail) = (listedNames tail).map (names ++ ·) := by
  induction names with
  | nil => exact absurd rfl h
  | cons a names ih =>
    rcases names with _ | ⟨b, names⟩
    · rfl
    · rw [namesText_cons, List.cons_append, List.cons_append, listedNames,
        ih (List.cons_ne_nil b names), Option.map_map]
      rfl

theorem listedNames_ne_nil {text : CString} {names : List UInt8}
    (h : listedNames text = some names) : names ≠ [] := by
  fun_cases listedNames text with
  | case1 => cases h
  | case2 a =>
    cases h
    exact List.cons_ne_nil a []
  | case3 a b rest =>
    obtain ⟨names', -, rfl⟩ := Option.map_eq_some_iff.mp h
    exact List.cons_ne_nil a names'

theorem zero_not_mem_namesText {names : List UInt8} (h : 0 ∉ names) : 0 ∉ namesText names := by
  induction names with
  | nil => exact List.not_mem_nil
  | cons a names ih =>
    rcases names with _ | ⟨b, names⟩
    · exact h
    · rw [namesText_cons, List.mem_cons, List.mem_cons]
      rintro (rfl | hcomma | hmem)
      · exact h List.mem_cons_self
      · exact absurd hcomma (by decide)
      · exact ih (fun hmem => h (List.mem_cons_of_mem a hmem)) hmem

/-- The array holds the variables it held, then the new ones with value 0, then the terminator. -/
def DeclaresExactly (entries : List TData) (cells : Option (List DataCell)) (names : List UInt8)
    (line : CString) : Prop :=
  ∃ cells', addVariablesCells cells (line.drop (cstr "variables,").length) = some cells' ∧
    Stores (entries ++ declared names) (some cells')

def declarationLine (names : List UInt8) (tail : CString) : CString :=
  cstr "variables " ++ (namesText names ++ tail)

/-- A line of a script declares exactly the names in it when nothing stands behind them. -/
theorem declares_exactly_iff (entries : List TData) (cells : Option (List DataCell))
    (names : List UInt8) (tail : CString) (hcells : Stores entries cells)
    (hentries : ∀ d ∈ entries, d.varName ≠ 0) (hnames : names ≠ []) (hzero : 0 ∉ names ++ tail)
    (hcount : entries.length + names.length < 65535)
    (hline : (declarationLine names tail).length < 2 ^ 16) :
    DeclaresExactly entries cells names (declarationLine names tail) ↔ tail = [] := by
  have hdrop : (declarationLine names tail).drop (cstr "variables,").length =
      namesText names ++ tail := rfl
  have hkeyword : (cstr "variables ").length = 10 := rfl
  rw [declarationLine, List.length_append, hkeyword] at hline
  rw [List.mem_append, not_or] at hzero
  have hlist : 0 ∉ namesText names ++ tail := by
    rw [List.mem_append, not_or]
    exact ⟨zero_not_mem_namesText hzero.1, hzero.2⟩
  have hrun : ∀ cells', addVariablesCells cells (namesText names ++ tail) = some cells' ↔ _ :=
    fun cells' => addVariablesCells_eq_some_iff hcells hentries (by omega) (by omega) hlist
  rw [DeclaresExactly, hdrop]
  rcases tail with _ | ⟨c, tail⟩
  · refine iff_of_true ?_ rfl
    rw [List.append_nil] at hrun ⊢
    exact ⟨_, (hrun _).mpr ⟨names, listedNames_namesText hnames, by omega, rfl⟩, none, rfl⟩
  · refine iff_of_false ?_ (List.cons_ne_nil c tail)
    rintro ⟨cells', hcells', varValue, hstored⟩
    obtain ⟨names', hlisted, -, heq⟩ := (hrun cells').mp hcells'
    rw [listedNames_tail hnames] at hlisted
    obtain ⟨more, hmore, rfl⟩ := Option.map_eq_some_iff.mp hlisted
    have hpositive := List.length_pos_iff.mpr (listedNames_ne_nil hmore)
    have hlength := congrArg List.length (heq.symm.trans hstored)
    simp only [declared, List.length_append, List.length_map, List.length_singleton] at hlength
    omega

theorem declares_exactly_two :
    DeclaresExactly [⟨99, 7⟩] (some [⟨some 99, some 7⟩, ⟨some 0, none⟩]) [97, 98]
      (declarationLine [97, 98] []) :=
  (declares_exactly_iff [⟨99, 7⟩] (some [⟨some 99, some 7⟩, ⟨some 0, none⟩]) [97, 98] []
    ⟨none, rfl⟩ (by decide) (by decide) (by decide) (by decide) (by decide)).mpr rfl

/-- The digit of a delay becomes a variable. -/
theorem delayed_declaration_adds_variable : ¬ ∀ (entries : List TData)
    (cells : Option (List DataCell)) (names : List UInt8) (delay : CString),
      Stores entries cells → (∀ d ∈ entries, d.varName ≠ 0) → names ≠ [] →
      0 ∉ names ++ 59 :: delay → entries.length + names.length < 65535 →
      (declarationLine names (59 :: delay)).length < 2 ^ 16 →
        DeclaresExactly entries cells names (declarationLine names (59 :: delay)) := by
  intro h
  obtain ⟨cells', hcells', varValue, hstored⟩ := h [] none [97] [53] rfl (List.forall_mem_nil _)
    (by decide) (by decide) (by decide) (by decide)
  have hrun : addVariablesCells none
      ((declarationLine [97] (59 :: [53])).drop (cstr "variables,").length) =
        some [⟨some 97, some 0⟩, ⟨some 53, some 0⟩, ⟨some 0, none⟩] := by
    decide
  rw [hrun] at hcells'
  have hlength := congrArg List.length ((Option.some.inj hcells').trans hstored)
  exact absurd hlength (by simp [declared])

end Sisop
