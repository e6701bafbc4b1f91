import Sisop.Assignments

/-!
# The variable store

Sequences of `addVariables`, `writeData` and `readData` on the array in memory, beside what the
array is for: a map from names to values in which a declaration adds names and a write reaches
declared names only.
-/

namespace Sisop

abbrev VariableMap (κ ν : Type*) := κ → Option ν

namespace VariableMap

variable {κ ν : Type*} [DecidableEq κ] {m : VariableMap κ ν} {names : List κ} {k k' : κ}

/-- A name that is there keeps its value. -/
def declare (initial : ν) (names : List κ) (m : VariableMap κ ν) : VariableMap κ ν :=
  fun k => if k ∈ names then some ((m k).getD initial) else m k

def write (k : κ) (v : ν) (m : VariableMap κ ν) : VariableMap κ ν :=
  fun k' => if k' = k then (m k).map fun _ => v else m k'

theorem declare_of_isSome (initial : ν) (h : (m k).isSome) : declare initial names m k = m k := by
  obtain ⟨v, hv⟩ := Option.isSome_iff_exists.mp h
  rw [declare, hv, Option.getD_some, ite_self]

theorem declare_of_mem {initial : ν} (h : k ∈ names) (hm : m k = none) :
    declare initial names m k = some initial := by
  rw [declare, if_pos h, hm, Option.getD_none]

theorem isSome_declare {initial : ν} :
    (declare initial names m k).isSome ↔ k ∈ names ∨ (m k).isSome := by
  rw [declare]
  by_cases h : k ∈ names
  · simp [h]
  · simp [h]

theorem write_self (v : ν) (h : (m k).isSome) : write k v m k = some v := by
  obtain ⟨w, hw⟩ := Option.isSome_iff_exists.mp h
  rw [write, if_pos rfl, hw]
  rfl

theorem write_other (v : ν) (h : k' ≠ k) : write k v m k' = m k' := if_neg h

theorem isSome_write (v : ν) : (write k v m k').isSome ↔ (m k').isSome := by
  rw [write]
  by_cases h : k' = k
  · rw [if_pos h, h, Option.isSome_map]
  · rw [if_neg h]

end VariableMap

inductive StoreOp
  | addVariables (names : List UInt8)
  | writeData (varName : UInt8) (varValue : Int32)
  | readData (varName : UInt8)

namespace StoreOp

/-- `data` is passed by address to all three. -/
def exec (data : Option (List DataCell)) : StoreOp → Option (Option (List DataCell))
  | addVariables names => (addVariablesCells data (namesText names)).map some
  | writeData varName varValue => do
    let cells ← data
    let cells ← writeDataCells cells varName varValue
    return some cells
  | readData varName => do
    let cells ← data
    let _ ← readDataCells cells varName
    return some cells

def Valid : StoreOp → Prop
  | addVariables names => names ≠ [] ∧ 0 ∉ names ∧ (declarationLine names []).length < 2 ^ 16
  | writeData _ _ => True
  | readData _ => True

def names : StoreOp → List UInt8
  | addVariables names => names
  | writeData _ _ => []
  | readData _ => []

def onMap (m : VariableMap UInt8 Int32) : StoreOp → VariableMap UInt8 Int32
  | addVariables names => m.declare 0 names
  | writeData varName varValue => m.write varName varValue
  | readData _ => m

end StoreOp

def runStore (history : List StoreOp) : Option (Option (List DataCell)) :=
  history.foldlM StoreOp.exec none

def declaredNames (history : List StoreOp) : List UInt8 := history.flatMap StoreOp.names

def storedMap (history : List StoreOp) : VariableMap UInt8 Int32 :=
  history.foldl StoreOp.onMap fun _ => none

/-- What a map promises, of the array that a history has left. -/
structure BehavesAsMap (history : List StoreOp) (cells : List DataCell) : Prop where
  /-- One terminator, in the last cell of the allocation. -/
  terminated : ∃ front last, cells = front ++ [last] ∧ last.varName = some 0 ∧
    ∀ cell ∈ front, cell.varName ≠ some 0
  written : ∀ before after name value, history = before ++ .writeData name value :: after →
    name ∈ declaredNames before → (∀ value', .writeData name value' ∉ after) →
      readDataCells cells name = some value
  unwritten : ∀ before after names name, history = before ++ .addVariables names :: after →
    name ∈ names → name ∉ declaredNames before → (∀ value, .writeData name value ∉ after) →
      readDataCells cells name = some 0
  redeclared : ∀ names, (StoreOp.addVariables names).Valid →
    (declaredNames history).length + names.length < 65535 →
      ∃ cells', addVariablesCells (some cells) (namesText names) = some cells' ∧
        cells.dropLast <+: cells' ∧
        ∀ name ∈ declaredNames history, readDataCells cells' name = readDataCells cells name
  undeclared : ∀ name value, name ∉ declaredNames history →
    writeDataCells cells name value = some cells
  others : ∀ name value, ∃ cells', writeDataCells cells name value = some cells' ∧
    ∀ other, other ≠ name → readDataCells cells' other = readDataCells cells other

section Entries

variable {entries : List TData} {cells : List DataCell} {names : List UInt8} {name other : UInt8}

theorem valueOf_append_declared (entries : List TData) (names : List UInt8) :
    valueOf (entries ++ declared names) = VariableMap.declare 0 names (valueOf entries) := by
  funext name
  induction entries with
  | nil =>
    rw [List.nil_append]
    induction names with
    | nil => rfl
    | cons a names ih =>
      by_cases ha : a = name
      · rw [declared, List.map_cons, valueOf_cons_of_eq ha]
        exact (VariableMap.declare_of_mem (ha ▸ List.mem_cons_self) rfl).symm
      · rw [declared, List.map_cons, valueOf_cons_of_ne ha]
        rw [declared] at ih
        rw [ih, VariableMap.declare, VariableMap.declare]
        simp only [List.mem_cons, Ne.symm ha, false_or]
  | cons d entries ih =>
    by_cases hd : d.varName = name
    · have hsome : (valueOf (d :: entries) name).isSome := by rw [valueOf_cons_of_eq hd]; rfl
      rw [VariableMap.declare_of_isSome 0 hsome, List.cons_append, valueOf_cons_of_eq hd,
        valueOf_cons_of_eq hd]
    · rw [List.cons_append, valueOf_cons_of_ne hd, ih, VariableMap.declare, VariableMap.declare,
        valueOf_cons_of_ne hd]

theorem assigned_cons_of_eq {d : TData} (h : d.varName = name) (value : Int32) :
    assigned (d :: entries) name value = { d with varValue := value } :: entries := by
  rw [assigned, findIdx_cons_of_eq h]
  rfl

theorem assigned_cons_of_ne {d : TData} (h : d.varName ≠ name) (value : Int32) :
    assigned (d :: entries) name value = d :: assigned entries name value := by
  rw [assigned, findIdx_cons_of_ne h]
  rfl

theorem valueOf_assigned (entries : List TData) (name : UInt8) (value : Int32) :
    valueOf (assigned entries name value) = VariableMap.write name value (valueOf entries) := by
  funext other
  rw [VariableMap.write]
  induction entries with
  | nil => split <;> rfl
  | cons d entries ih =>
    by_cases hd : d.varName = name
    · rw [assigned_cons_of_eq hd]
      by_cases hother : other = name
      · have hsame : d.varName = other := hd.trans hother.symm
        rw [if_pos hother, ← hother, valueOf_cons_of_eq hsame]
        exact valueOf_cons_of_eq hsame
      · have hne : d.varName ≠ other := fun h => hother (h.symm.trans hd)
        rw [if_neg hother, valueOf_cons_of_ne hne]
        exact valueOf_cons_of_ne hne
    · rw [assigned_cons_of_ne hd]
      by_cases hsame : d.varName = other
      · have hother : other ≠ name := fun h => hd (hsame.trans h)
        rw [if_neg hother, valueOf_cons_of_eq hsame, valueOf_cons_of_eq hsame]
      · rw [valueOf_cons_of_ne hsame, valueOf_cons_of_ne hsame, valueOf_cons_of_ne hd, ih]

/-- A write that finds no entry stops at the terminator. -/
theorem writeDataCells_undeclared (h : Stores entries (some cells))
    (hentries : ∀ d ∈ entries, d.varName ≠ 0) (hcount : entries.length < 2 ^ 16)
    (hname : name ∉ entries.map TData.varName) (value : Int32) :
    writeDataCells cells name value = some cells := by
  obtain ⟨endValue, hscan⟩ := scanCells_eq name h hentries hcount
  have hlast : entries.findIdx (·.varName == name) = entries.length := by
    apply List.findIdx_eq_length_of_false
    intro d hd
    apply beq_eq_false_iff_ne.mpr
    rintro rfl
    exact hname (List.mem_map_of_mem hd)
  rw [hlast, List.getElem?_eq_none le_rfl] at hscan
  rw [writeDataCells, bind_of_eq_some hscan]
  rfl

theorem names_assigned (entries : List TData) (name : UInt8) (value : Int32) :
    (assigned entries name value).map TData.varName = entries.map TData.varName := by
  induction entries with
  | nil => rfl
  | cons d entries ih =>
    by_cases hd : d.varName = name
    · rw [assigned_cons_of_eq hd, List.map_cons, List.map_cons]
    · rw [assigned_cons_of_ne hd, List.map_cons, List.map_cons, ih]

end Entries

section Histories

variable {history : List StoreOp} {op : StoreOp} {name : UInt8}

theorem declaredNames_concat (history : List StoreOp) (op : StoreOp) :
    declaredNames (history ++ [op]) = declaredNames history ++ op.names := by
  rw [declaredNames, List.flatMap_append, List.flatMap_singleton, declaredNames]

theorem storedMap_concat (history : List StoreOp) (op : StoreOp) :
    storedMap (history ++ [op]) = op.onMap (storedMap history) := by
  rw [storedMap, List.foldl_append, List.foldl_cons, List.foldl_nil, storedMap]

theorem isSome_storedMap : (storedMap history name).isSome ↔ name ∈ declaredNames history := by
  induction history using List.reverseRecOn with
  | nil => simp [storedMap, declaredNames]
  | append_singleton history op ih =>
    rw [storedMap_concat, declaredNames_concat, List.mem_append, ← ih]
    cases op with
    | addVariables names => exact VariableMap.isSome_declare.trans or_comm
    | writeData name' value =>
      rw [StoreOp.onMap, VariableMap.isSome_write, StoreOp.names]
      simp
    | readData name' => simp [StoreOp.onMap, StoreOp.names]

/-- Only a write to the name itself changes what is stored under it. -/
theorem storedMap_append {after : List StoreOp} (h : (storedMap history name).isSome)
    (hafter : ∀ value, .writeData name value ∉ after) :
    storedMap (history ++ after) name = storedMap history name := by
  induction after using List.reverseRecOn with
  | nil => rw [List.append_nil]
  | append_singleton after op ih =>
    have ih := ih fun value hmem => hafter value (List.mem_append_left _ hmem)
    rw [← List.append_assoc, storedMap_concat, ← ih]
    rw [← ih] at h
    cases op with
    | addVariables names => exact VariableMap.declare_of_isSome 0 h
    | writeData name' value =>
      have hne : name ≠ name' := by
        rintro rfl
        exact hafter value (List.mem_append_right _ List.mem_cons_self)
      exact VariableMap.write_other value hne
    | readData name' => rfl

end Histories

/-- The array holds the names in the order of their declarations, and with them the map. -/
structure HoldsMap (history : List StoreOp) (entries : List TData)
    (data : Option (List DataCell)) : Prop where
  stores : Stores entries data
  names : entries.map TData.varName = declaredNames history
  values : valueOf entries = storedMap history

section Runs

variable {history : List StoreOp} {entries : List TData} {data : Option (List DataCell)}
  {cells : List DataCell} {op : StoreOp}

theorem zero_not_mem_declaredNames (hvalid : ∀ op ∈ history, op.Valid) :
    0 ∉ declaredNames history := by
  intro hmem
  obtain ⟨op, hop, hzero⟩ := List.mem_flatMap.mp hmem
  cases op with
  | addVariables names => exact (hvalid _ hop).2.1 hzero
  | writeData name value => cases hzero
  | readData name => cases hzero

theorem HoldsMap.nonzero (h : HoldsMap history entries data)
    (hvalid : ∀ op ∈ history, op.Valid) : ∀ d ∈ entries, d.varName ≠ 0 := by
  intro d hd hzero
  have hmem := List.mem_map_of_mem (f := TData.varName) hd
  rw [h.names, hzero] at hmem
  exact zero_not_mem_declaredNames hvalid hmem

theorem HoldsMap.length (h : HoldsMap history entries data) :
    entries.length = (declaredNames history).length := by
  rw [← h.names, List.length_map]

theorem HoldsMap.addVariables {names : List UInt8} (h : HoldsMap history entries data)
    (hvalid : ∀ op ∈ history, op.Valid) (hop : (StoreOp.addVariables names).Valid)
    (hcount : (declaredNames history).length + names.length < 65535) :
    ∃ cells', addVariablesCells data (namesText names) = some cells' ∧
      cells' = (entries ++ declared names).map TData.written ++ [⟨some 0, none⟩] ∧
      HoldsMap (history ++ [.addVariables names]) (entries ++ declared names) (some cells') := by
  obtain ⟨hne, hzero, hline⟩ := hop
  have hkeyword : (cstr "variables ").length = 10 := rfl
  rw [declarationLine, List.length_append, List.append_nil, hkeyword] at hline
  rw [← h.length] at hcount
  have hrun := (addVariablesCells_eq_some_iff h.stores (h.nonzero hvalid) (by omega) (by omega)
    (zero_not_mem_namesText hzero)).mpr ⟨names, listedNames_namesText hne, by omega, rfl⟩
  refine ⟨_, hrun, rfl, ⟨none, rfl⟩, ?_, ?_⟩
  · have hdeclared : (declared names).map TData.varName = names := by
      rw [declared, List.map_map]
      exact List.map_id names
    rw [List.map_append, h.names, hdeclared, declaredNames_concat, StoreOp.names]
  · rw [valueOf_append_declared, h.values, storedMap_concat, StoreOp.onMap]

theorem HoldsMap.writeData (h : HoldsMap history entries (some cells))
    (hvalid : ∀ op ∈ history, op.Valid) (hcount : (declaredNames history).length < 65535)
    (name : UInt8) (value : Int32) :
    ∃ cells', writeDataCells cells name value = some cells' ∧
      HoldsMap (history ++ [.writeData name value]) (assigned entries name value)
        (some cells') := by
  rw [← h.length] at hcount
  obtain ⟨cells', hrun, hstores⟩ : ∃ cells', writeDataCells cells name value = some cells' ∧
      Stores (assigned entries name value) (some cells') :=
    writeDataCells_eq h.stores (h.nonzero hvalid) (by omega)
  refine ⟨cells', hrun, hstores, ?_, ?_⟩
  · rw [names_assigned, h.names, declaredNames_concat, StoreOp.names, List.append_nil]
  · rw [valueOf_assigned, h.values, storedMap_concat, StoreOp.onMap]

theorem HoldsMap.readData (h : HoldsMap history entries (some cells))
    (hvalid : ∀ op ∈ history, op.Valid) (hcount : (declaredNames history).length < 65535)
    (name : UInt8) :
    readDataCells cells name = some ((storedMap history name).getD (atoi [name])) := by
  rw [← h.length] at hcount
  have hread : readDataCells cells name =
      Sisop.readData (some (entries ++ [⟨0, 0⟩])) name :=
    readDataCells_eq h.stores (h.nonzero hvalid) (by omega) rfl
  rw [hread, readData_eq (h.nonzero hvalid) rfl, h.values]

/-- From the first declaration on no operation fails. -/
theorem runStore_holds {first : List UInt8} {ops : List StoreOp}
    (hvalid : ∀ op ∈ .addVariables first :: ops, op.Valid)
    (hcount : (declaredNames (.addVariables first :: ops)).length < 65535) :
    ∃ entries cells, runStore (.addVariables first :: ops) = some (some cells) ∧
      HoldsMap (.addVariables first :: ops) entries (some cells) := by
  induction ops using List.reverseRecOn with
  | nil =>
    have hempty : HoldsMap [] [] none := ⟨rfl, rfl, rfl⟩
    have hfirst : (declaredNames []).length + first.length < 65535 := by
      rw [declaredNames, List.flatMap_singleton] at hcount
      exact (Nat.zero_add _).trans_lt hcount
    obtain ⟨cells, hrun, -, hcells⟩ := hempty.addVariables (List.forall_mem_nil _)
      (hvalid _ List.mem_cons_self) hfirst
    refine ⟨_, cells, ?_, hcells⟩
    rw [runStore, List.foldlM_cons, StoreOp.exec, hrun]
    rfl
  | append_singleton ops op ih =>
    rw [← List.cons_append, declaredNames_concat, List.length_append] at hcount
    rw [← List.cons_append, List.forall_mem_append, List.forall_mem_singleton] at hvalid
    obtain ⟨entries, cells, hrun, hcells⟩ := ih hvalid.1 (by omega)
    have hstep : ∃ entries' cells', op.exec (some cells) = some (some cells') ∧
        HoldsMap ((.addVariables first :: ops) ++ [op]) entries' (some cells') := by
      cases op with
      | addVariables names =>
        obtain ⟨cells', hexec, -, hcells'⟩ := hcells.addVariables hvalid.1 hvalid.2 hcount
        refine ⟨_, cells', ?_, hcells'⟩
        rw [StoreOp.exec, hexec]
        rfl
      | writeData name value =>
        obtain ⟨cells', hexec, hcells'⟩ := hcells.writeData hvalid.1 (by omega) name value
        refine ⟨_, cells', ?_, hcells'⟩
        rw [StoreOp.exec, Option.bind_eq_bind, Option.bind_some, hexec]
        rfl
      | readData name =>
        refine ⟨entries, cells, ?_, hcells.stores, ?_, ?_⟩
        · rw [StoreOp.exec, Option.bind_eq_bind, Option.bind_some,
            hcells.readData hvalid.1 (by omega) name]
          rfl
        · rw [hcells.names, declaredNames_concat, StoreOp.names, List.append_nil]
        · rw [hcells.values, storedMap_concat, StoreOp.onMap]
    obtain ⟨entries', cells', hexec, hcells'⟩ := hstep
    refine ⟨entries', cells', ?_, ?_⟩
    · rw [← List.cons_append, runStore, List.foldlM_append]
      rw [runStore] at hrun
      rw [bind_of_eq_some hrun, List.foldlM_cons, bind_of_eq_some hexec]
      rfl
    · exact hcells'

theorem HoldsMap.behaves (h : HoldsMap history entries (some cells))
    (hvalid : ∀ op ∈ history, op.Valid) (hcount : (declaredNames history).length < 65535) :
    BehavesAsMap history cells where
  terminated := by
    obtain ⟨varValue, rfl⟩ := h.stores
    refine ⟨_, _, rfl, rfl, ?_⟩
    intro cell hcell hzero
    obtain ⟨d, hd, rfl⟩ := List.mem_map.mp hcell
    exact h.nonzero hvalid d hd (Option.some.inj hzero)
  written := by
    rintro before after name value rfl hname hafter
    have hdeclared : (storedMap before name).isSome := isSome_storedMap.mpr hname
    have hwritten : storedMap (before ++ [.writeData name value]) name = some value := by
      rw [storedMap_concat, StoreOp.onMap, VariableMap.write_self value hdeclared]
    have hkept := storedMap_append (by rw [hwritten]; rfl) hafter
    rw [List.append_assoc, List.singleton_append] at hkept
    rw [h.readData hvalid hcount, hkept, hwritten]
    rfl
  unwritten := by
    rintro before after names name rfl hname hbefore hafter
    have hfree : storedMap before name = none := by
      rw [← Option.not_isSome_iff_eq_none, isSome_storedMap]
      exact hbefore
    have hfresh : storedMap (before ++ [.addVariables names]) name = some 0 := by
      rw [storedMap_concat, StoreOp.onMap, VariableMap.declare_of_mem hname hfree]
    have hkept := storedMap_append (by rw [hfresh]; rfl) hafter
    rw [List.append_assoc, List.singleton_append] at hkept
    rw [h.readData hvalid hcount, hkept, hfresh]
    rfl
  redeclared := by
    intro names hop hmore
    obtain ⟨cells', hrun, hcells', h'⟩ := h.addVariables hvalid hop hmore
    have hvalid' : ∀ op ∈ history ++ [.addVariables names], op.Valid := by
      rw [List.forall_mem_append, List.forall_mem_singleton]
      exact ⟨hvalid, hop⟩
    have hcount' : (declaredNames (history ++ [.addVariables names])).length < 65535 := by
      rw [declaredNames_concat, List.length_append]
      exact hmore
    refine ⟨cells', hrun, ?_, ?_⟩
    · obtain ⟨varValue, rfl⟩ := h.stores
      rw [List.dropLast_concat, hcells', List.map_append, List.append_assoc]
      exact List.prefix_append _ _
    · intro name hname
      have hdeclared := isSome_storedMap.mpr hname
      rw [h'.readData hvalid' hcount', h.readData hvalid hcount, storedMap_concat, StoreOp.onMap,
        VariableMap.declare_of_isSome 0 hdeclared]
  undeclared := by
    intro name value hname
    rw [← h.names] at hname
    rw [← h.length] at hcount
    exact writeDataCells_undeclared h.stores (h.nonzero hvalid) (by omega) hname value
  others := by
    intro name value
    obtain ⟨cells', hrun, h'⟩ := h.writeData hvalid hcount name value
    have hvalid' : ∀ op ∈ history ++ [.writeData name value], op.Valid := by
      rw [List.forall_mem_append, List.forall_mem_singleton]
      exact ⟨hvalid, trivial⟩
    have hcount' : (declaredNames (history ++ [.writeData name value])).length < 65535 := by
      rw [declaredNames_concat, StoreOp.names, List.append_nil]
      exact hcount
    refine ⟨cells', hrun, ?_⟩
    intro other hother
    rw [h'.readData hvalid' hcount', h.readData hvalid hcount, storedMap_concat, StoreOp.onMap,
      VariableMap.write_other value hother]

end Runs

/-- Whatever is declared, written and read after a first declaration, the array behaves as a
map. -/
theorem variable_store_is_map (first : List UInt8) (ops : List StoreOp)
    (hvalid : ∀ op ∈ .addVariables first :: ops, op.Valid)
    (hcount : (declaredNames (.addVariables first :: ops)).length < 65535) :
    ∃ cells, runStore (.addVariables first :: ops) = some (some cells) ∧
      BehavesAsMap (.addVariables first :: ops) cells := by
  obtain ⟨entries, cells, hrun, h⟩ := runStore_holds hvalid hcount
  exact ⟨cells, hrun, h.behaves hvalid hcount⟩

theorem variable_store_is_map_redeclared :
    ∃ cells, runStore [.addVariables [97, 98], .writeData 97 5, .addVariables [97]] =
      some (some cells) ∧ readDataCells cells 97 = some 5 := by
  have hfirst : (StoreOp.addVariables [97, 98]).Valid := ⟨by decide, by decide, by decide⟩
  have hagain : (StoreOp.addVariables [97]).Valid := ⟨by decide, by decide, by decide⟩
  have hvalid : ∀ op ∈ [StoreOp.addVariables [97, 98], .writeData 97 5, .addVariables [97]],
      op.Valid := by
    simp only [List.forall_mem_cons]
    exact ⟨hfirst, trivial, hagain, List.forall_mem_nil _⟩
  obtain ⟨cells, hrun, h⟩ := variable_store_is_map _ _ hvalid (by decide)
  have hread := h.written [.addVariables [97, 98]] [.addVariables [97]] 97 5 rfl (by decide)
    (by simp)
  exact ⟨cells, hrun, hread⟩

end Sisop
