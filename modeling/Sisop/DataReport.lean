import Sisop.Declarations
import Sisop.StackReport
import Mathlib.Tactic.Ring

/-!
# The variables in a report

`dataStructureMsg` appends a line for every variable with `strcat`. The block is as large as the
sum of two `uint16_t`: `tmp_size` is never set back, and `offset` adds it up. An `offset` of 0
starts the text again.
-/

namespace Sisop

def variableLine (d : TData) : CString :=
  d.varName :: (cstr "=" ++ decimal d.varValue.toInt ++ cstr "\n")

namespace Block

/-- Where the terminating NUL of the text in a block stands. -/
def terminator : Block UInt8 → Option ℕ
  | [] => none
  | none :: _ => none
  | some c :: b => if c = 0 then some 0 else (terminator b).map (· + 1)

def Holds (b : Block UInt8) (text : CString) : Prop :=
  ∃ junk, b = (text ++ [0]).map some ++ junk

end Block

def strcat (msg : Block UInt8) (aux : CString) : Option (Block UInt8) := do
  let n ← msg.terminator
  msg.store n (aux ++ [0])

/-- `if (offset == 0) msg[0] = '\0'` -/
def startText (offset : ℕ) (msg : Block UInt8) : Option (Block UInt8) :=
  if offset = 0 then msg.store 0 [0] else some msg

def appendVariable (b : MessageBuffer) (d : TData) : Option MessageBuffer := do
  let aux := variableLine d
  let tmpSize := uint16 (b.tmpSize + (aux.length + 1))
  let started ← startText b.offset (b.msg.realloc (b.offset + tmpSize))
  let msg ← strcat started aux
  return ⟨msg, uint16 (b.offset + tmpSize + (2 ^ 16 - 1)), tmpSize⟩

/-- The loop ends where the one of `dataCount` does; `[]` stands for the `NULL` of an array that
holds its terminator only. -/
def dataStructureMsg : DataArray → Option (Block UInt8)
  | none => some [some 0]
  | some entries => do
    let n ← dataCount (some entries)
    let b ← (entries.take n).foldlM appendVariable ⟨[], 0, 0⟩
    return b.msg

def dataReport (entries : List TData) : CString := entries.flatMap variableLine

/-- The variables in front of the terminator. -/
def HoldsVariables (entries : List TData) (data : DataArray) : Prop :=
  (∀ d ∈ entries, d.varName ≠ 0) ∧
    (data = none ∧ entries = [] ∨
      ∃ terminator : TData, terminator.varName = 0 ∧ data = some (entries ++ [terminator]))

def ReportsData (data : DataArray) (entries : List TData) : Prop :=
  ∃ msg, dataStructureMsg data = some msg ∧
    msg.load 0 ((dataReport entries).length + 1) = some (dataReport entries ++ [0])

def requested : List TData → ℕ
  | [] => 0
  | d :: ds => (variableLine d).length + 1 + requested ds

/-- Every line and its NUL once for itself and once for each line behind it, less one byte. -/
def skipped : List TData → ℕ
  | [] => 0
  | d :: ds => ((variableLine d).length + 1) * (ds.length + 1) - 1 + skipped ds

/-- The line of `d` behind the ones of `front`: what stands there is kept, and with it the line
fits. -/
structure LineFits (front : List TData) (d : TData) : Prop where
  kept : front ≠ [] → skipped front % 2 ^ 16 ≠ 0
  within : (dataReport (front ++ [d])).length + 1 ≤
    skipped front % 2 ^ 16 + requested (front ++ [d]) % 2 ^ 16

def ReportFits (entries : List TData) : Prop :=
  ∀ front d, front ++ [d] <+: entries → LineFits front d

section Lines

variable {d : TData} {entries front : List TData}

theorem four_le_length_variableLine (d : TData) : 4 ≤ (variableLine d).length := by
  have hdigits : 0 < (Nat.toDigits 10 d.varValue.toInt.natAbs).length := Nat.length_toDigits_pos
  have hequals : (cstr "=").length = 1 := rfl
  have hnewline : (cstr "\n").length = 1 := rfl
  simp only [variableLine, decimal, List.length_cons, List.length_append, List.length_map, hequals,
    hnewline]
  omega

theorem length_variableLine_le (d : TData) : (variableLine d).length ≤ 14 := by
  have hlow := Int32.le_toInt d.varValue
  have hhigh := Int32.toInt_lt d.varValue
  have hdigits : (Nat.toDigits 10 d.varValue.toInt.natAbs).length ≤ 10 :=
    (Nat.length_toDigits_le_iff (by decide) (by decide)).mpr (by omega)
  have hequals : (cstr "=").length = 1 := rfl
  have hnewline : (cstr "\n").length = 1 := rfl
  have hsign : (if d.varValue.toInt < 0 then [45] else ([] : CString)).length ≤ 1 := by
    split <;> simp
  simp only [variableLine, decimal, List.length_cons, List.length_append, List.length_map, hequals,
    hnewline]
  omega

theorem dataReport_append (front back : List TData) :
    dataReport (front ++ back) = dataReport front ++ dataReport back := List.flatMap_append

theorem dataReport_singleton (d : TData) : dataReport [d] = variableLine d := by
  rw [dataReport, List.flatMap_singleton]

theorem length_dataReport_add (front : List TData) :
    (dataReport front).length + front.length = requested front := by
  induction front with
  | nil => rfl
  | cons d front ih =>
    rw [dataReport, List.flatMap_cons, List.length_append, List.length_cons, requested, ← ih,
      dataReport]
    omega

theorem length_dataReport_le (front : List TData) :
    (dataReport front).length ≤ 14 * front.length := by
  induction front with
  | nil => exact le_rfl
  | cons d front ih =>
    have hline := length_variableLine_le d
    rw [dataReport, List.flatMap_cons, List.length_append, List.length_cons]
    rw [dataReport] at ih
    omega

theorem requested_concat (front : List TData) (d : TData) :
    requested (front ++ [d]) = requested front + ((variableLine d).length + 1) := by
  induction front with
  | nil => simp [requested]
  | cons f front ih =>
    rw [List.cons_append, requested, ih, requested]
    omega

theorem skipped_concat (front : List TData) (d : TData) :
    skipped (front ++ [d]) + 1 = skipped front + requested (front ++ [d]) := by
  induction front with
  | nil => simp [skipped, requested]
  | cons f front ih =>
    have hfirst : 1 ≤ ((variableLine f).length + 1) * (front.length + 1) := by
      exact Nat.mul_pos (Nat.succ_pos _) (Nat.succ_pos _)
    have hmore : ((variableLine f).length + 1) * (front.length + 1 + 1) =
        ((variableLine f).length + 1) * (front.length + 1) + ((variableLine f).length + 1) :=
      Nat.mul_succ _ _
    rw [List.cons_append, skipped, skipped, requested, List.length_append, List.length_singleton,
      hmore]
    omega

theorem zero_not_mem_decimal (n : ℤ) : 0 ∉ decimal n := by
  have hdigit : ∀ c ∈ Nat.toDigits 10 n.natAbs, c.toNat.toUInt8 ≠ 0 := by
    intro c hc
    have hbounds := Nat.isDigit_of_mem_toDigits (by decide) (by decide) hc
    simp only [Char.isDigit, Bool.and_eq_true, decide_eq_true_eq, ge_iff_le,
      UInt32.le_iff_toNat_le] at hbounds
    have hlow : 48 ≤ c.toNat := hbounds.1
    have hhigh : c.toNat ≤ 57 := hbounds.2
    intro hzero
    have hvalue := congrArg UInt8.toNat hzero
    rw [Nat.toUInt8, UInt8.toNat_ofNat', Nat.mod_eq_of_lt (by omega), UInt8.toNat_zero] at hvalue
    omega
  rw [decimal, List.mem_append, not_or]
  constructor
  · split <;> simp
  · intro hmem
    obtain ⟨c, hc, hzero⟩ := List.mem_map.mp hmem
    exact hdigit c hc hzero

theorem zero_not_mem_variableLine (hd : d.varName ≠ 0) : 0 ∉ variableLine d := by
  have hdecimal := zero_not_mem_decimal d.varValue.toInt
  have hequals : (0 : UInt8) ∉ cstr "=" := by decide
  have hnewline : (0 : UInt8) ∉ cstr "\n" := by decide
  rw [variableLine, List.mem_cons, List.mem_append, List.mem_append]
  rintro (hzero | (hzero | hzero) | hzero)
  · exact hd hzero.symm
  · exact hequals hzero
  · exact hdecimal hzero
  · exact hnewline hzero

theorem zero_not_mem_dataReport (hnames : ∀ d ∈ entries, d.varName ≠ 0) :
    0 ∉ dataReport entries := by
  intro hmem
  obtain ⟨d, hd, hline⟩ := List.mem_flatMap.mp hmem
  exact zero_not_mem_variableLine (hnames d hd) hline

end Lines

section Blocks

namespace Block

variable {b b' : Block UInt8} {text aux : CString}

theorem terminator_map_some (h : 0 ∉ text) (junk : Block UInt8) :
    terminator (text.map some ++ junk) = junk.terminator.map (· + text.length) := by
  induction text with
  | nil => simp
  | cons c text ih =>
    rw [List.mem_cons, not_or] at h
    rw [List.map_cons, List.cons_append, terminator, if_neg (Ne.symm h.1), ih h.2, Option.map_map,
      List.length_cons]
    congr 1

theorem Holds.terminator (hb : b.Holds text) (h : 0 ∉ text) :
    b.terminator = some text.length := by
  obtain ⟨junk, rfl⟩ := hb
  rw [List.map_append, List.append_assoc, terminator_map_some h]
  simp [Block.terminator]

theorem Holds.length_lt (hb : b.Holds text) : text.length < b.length := by
  obtain ⟨junk, rfl⟩ := hb
  simp only [List.length_append, List.length_map, List.length_singleton]
  omega

theorem Holds.realloc (hb : b.Holds text) {n : ℕ} (hn : text.length < n) :
    (b.realloc n).Holds text := by
  obtain ⟨junk, rfl⟩ := hb
  have hlength : ((text ++ [0]).map some : Block UInt8).length ≤ n := by
    rw [List.length_map, List.length_append, List.length_singleton]
    exact hn
  rw [Block.realloc, List.take_append, List.take_of_length_le hlength, List.append_assoc]
  exact ⟨_, rfl⟩

/-- A text that is cut has lost its NUL. -/
theorem Holds.realloc_short (hb : b.Holds text) (h : 0 ∉ text) {n : ℕ} (hn : n ≤ text.length) :
    (b.realloc n).terminator = none := by
  have hlt := hb.length_lt
  obtain ⟨junk, rfl⟩ := hb
  have hcut : Block.realloc ((text ++ [0]).map some ++ junk) n = (text.take n).map some ++ [] := by
    have hnone : n - ((text ++ [0]).map some ++ junk).length = 0 := by omega
    rw [Block.realloc, hnone, List.replicate_zero, List.append_nil, List.append_nil,
      List.map_append, List.append_assoc,
      List.take_append_of_le_length (by rw [List.length_map]; exact hn), List.map_take]
  have hzero : 0 ∉ text.take n := fun hmem => h (List.mem_of_mem_take hmem)
  rw [hcut, terminator_map_some hzero]
  rfl

theorem Holds.store (hb : b.Holds text) (h : b.store text.length (aux ++ [0]) = some b') :
    b'.Holds (text ++ aux) := by
  rw [Block.store] at h
  split_ifs at h
  obtain rfl := Option.some.inj h
  obtain ⟨junk, rfl⟩ := hb
  have hfront : ((text ++ [0]).map some ++ junk).take text.length = text.map some := by
    rw [List.map_append, List.append_assoc,
      List.take_append_of_le_length (by rw [List.length_map]),
      List.take_of_length_le (by rw [List.length_map])]
  rw [hfront, ← List.map_append, ← List.append_assoc]
  exact ⟨_, rfl⟩

theorem eq_map_some_of_contents {xs : CString} (h : b.contents = some xs) : b = xs.map some := by
  induction b generalizing xs with
  | nil =>
    cases h
    rfl
  | cons cell b ih =>
    cases cell with
    | none => cases h
    | some x =>
      obtain ⟨ys, hys, rfl⟩ := Option.map_eq_some_iff.mp h
      rw [ih hys, List.map_cons]

theorem Holds.load (hb : b.Holds text) : b.load 0 (text.length + 1) = some (text ++ [0]) := by
  have hlt := hb.length_lt
  obtain ⟨junk, rfl⟩ := hb
  have hlength : ((text ++ [0]).map some : Block UInt8).length = text.length + 1 := by
    rw [List.length_map, List.length_append, List.length_singleton]
  rw [Block.load, if_pos (by omega), List.drop_zero, ← hlength, List.take_left]
  exact contents_map_some _

/-- A block holds one text only. -/
theorem Holds.unique (hb : b.Holds text) (h : 0 ∉ text) {text' : CString} (h' : 0 ∉ text')
    (hload : b.load 0 (text'.length + 1) = some (text' ++ [0])) : text = text' := by
  have hlength := hb.terminator h
  rw [Block.load] at hload
  split_ifs at hload
  have hfront := eq_map_some_of_contents hload
  rw [List.drop_zero] at hfront
  have hb' : b.Holds text' := ⟨b.drop (text'.length + 1), by rw [← hfront, List.take_append_drop]⟩
  rw [hb'.terminator h'] at hlength
  have hcells := hb.load
  rw [← Option.some.inj hlength, hb'.load] at hcells
  exact (List.append_cancel_right (Option.some.inj hcells)).symm

end Block

theorem strcat_eq {msg : Block UInt8} {text : CString} (hmsg : msg.Holds text) (h : 0 ∉ text)
    (aux : CString) : strcat msg aux = msg.store text.length (aux ++ [0]) := by
  rw [strcat, bind_of_eq_some (hmsg.terminator h)]

end Blocks

theorem skipped_le (front : List TData) :
    2 * skipped front ≤ front.length * (15 * front.length + 13) := by
  induction front with
  | nil => exact le_rfl
  | cons d front ih =>
    have hline : ((variableLine d).length + 1) * (front.length + 1) ≤ 15 * (front.length + 1) :=
      Nat.mul_le_mul_right _ (Nat.succ_le_succ (length_variableLine_le d))
    have hsquare : (front.length + 1) * (15 * (front.length + 1) + 13) =
        front.length * (15 * front.length + 13) + 30 * front.length + 28 := by ring
    have hpositive : 0 < ((variableLine d).length + 1) * (front.length + 1) :=
      Nat.mul_pos (Nat.succ_pos _) (Nat.succ_pos _)
    rw [skipped, List.length_cons, hsquare]
    omega

theorem skipped_pos {front : List TData} (h : front ≠ []) : 0 < skipped front := by
  obtain ⟨d, rest, rfl⟩ := List.exists_cons_of_ne_nil h
  have hmul : 5 * 1 ≤ ((variableLine d).length + 1) * (rest.length + 1) :=
    Nat.mul_le_mul (Nat.succ_le_succ (four_le_length_variableLine d)) (Nat.succ_pos _)
  rw [skipped]
  omega

/-- Up to 94 lines nothing wraps. -/
theorem reportFits_of_short {entries : List TData} (h : entries.length ≤ 94) :
    ReportFits entries := by
  intro front d hfront
  have hlength : front.length ≤ 93 := by
    have hle := hfront.length_le
    rw [List.length_append, List.length_singleton] at hle
    omega
  have hsquare : front.length * (15 * front.length + 13) ≤ 93 * (15 * 93 + 13) :=
    Nat.mul_le_mul hlength (by omega)
  have hskipped := skipped_le front
  have hwhole : skipped front % 2 ^ 16 = skipped front := Nat.mod_eq_of_lt (by omega)
  have hreport := length_dataReport_add (front ++ [d])
  have hlines := length_dataReport_le (front ++ [d])
  rw [List.length_append, List.length_singleton] at hreport hlines
  constructor
  · intro hne
    rw [hwhole]
    exact (skipped_pos hne).ne'
  · rw [Nat.mod_eq_of_lt (show requested (front ++ [d]) < 2 ^ 16 by omega)]
    omega

section Rounds

variable {b b' : MessageBuffer} {d : TData} {text : CString} {front entries : List TData}

/-- What a round leaves of the text in front of its line. -/
def keptText (offset : ℕ) (text : CString) : CString := if offset = 0 then [] else text

theorem startText_fits {offset n : ℕ} {msg : Block UInt8} (hmsg : offset = 0 ∨ msg.Holds text)
    (hn : (keptText offset text).length < n) :
    ∃ started, startText offset (msg.realloc n) = some started ∧
      started.length = n ∧ started.Holds (keptText offset text) := by
  rw [startText]
  rw [keptText] at hn ⊢
  by_cases hoffset : offset = 0
  · rw [if_pos hoffset] at hn ⊢
    rw [if_pos hoffset]
    have hn : 0 < n := hn
    have hstore : (msg.realloc n).store 0 [0] = some ([some 0] ++ (msg.realloc n).drop 1) := by
      rw [Block.store, if_pos (by rw [Block.length_realloc]; exact hn)]
      rfl
    refine ⟨_, hstore, ?_, _, rfl⟩
    rw [Block.length_store hstore, Block.length_realloc]
  · rw [if_neg hoffset] at hn ⊢
    rw [if_neg hoffset]
    exact ⟨_, rfl, Block.length_realloc _ _, (hmsg.resolve_left hoffset).realloc hn⟩

theorem startText_overruns {offset n : ℕ} {msg : Block UInt8} (hmsg : offset = 0 ∨ msg.Holds text)
    (htext : 0 ∉ text) (hn : n ≤ (keptText offset text).length) {started : Block UInt8}
    (h : startText offset (msg.realloc n) = some started) (aux : CString) :
    strcat started aux = none := by
  rw [startText] at h
  rw [keptText] at hn
  by_cases hoffset : offset = 0
  · rw [if_pos hoffset] at hn h
    have hn : n ≤ 0 := hn
    rw [Block.store_eq_none (by rw [Block.length_realloc]; exact Nat.lt_succ_of_le hn)] at h
    cases h
  · rw [if_neg hoffset] at hn h
    obtain rfl := Option.some.inj h
    rw [strcat, bind_of_eq_none ((hmsg.resolve_left hoffset).realloc_short htext hn)]

theorem zero_not_mem_keptText (offset : ℕ) (htext : 0 ∉ text) : 0 ∉ keptText offset text := by
  rw [keptText]
  split
  · exact List.not_mem_nil
  · exact htext

/-- What a round that succeeds needs and leaves. -/
theorem appendVariable_eq_some (hmsg : b.offset = 0 ∨ b.msg.Holds text) (htext : 0 ∉ text)
    (h : appendVariable b d = some b') :
    b'.tmpSize = uint16 (b.tmpSize + ((variableLine d).length + 1)) ∧
      b'.offset = uint16 (b.offset + b'.tmpSize + (2 ^ 16 - 1)) ∧
      (keptText b.offset text).length + (variableLine d).length + 1 ≤ b.offset + b'.tmpSize ∧
      b'.msg.Holds (keptText b.offset text ++ variableLine d) := by
  rw [appendVariable] at h
  obtain ⟨started, hstarted, h⟩ := Option.bind_eq_some_iff.mp h
  obtain ⟨msg, hstrcat, h⟩ := Option.bind_eq_some_iff.mp h
  cases h
  dsimp only
  rcases Nat.lt_or_ge (keptText b.offset text).length
    (b.offset + uint16 (b.tmpSize + ((variableLine d).length + 1))) with hlt | hge
  · obtain ⟨started', hstarted', hlength, hholds⟩ := startText_fits hmsg hlt
    obtain rfl := Option.some.inj (hstarted.symm.trans hstarted')
    rw [strcat_eq hholds (zero_not_mem_keptText _ htext)] at hstrcat
    refine ⟨rfl, rfl, ?_, hholds.store hstrcat⟩
    rw [Block.store] at hstrcat
    split_ifs at hstrcat with hle
    rw [List.length_append, List.length_singleton, hlength] at hle
    omega
  · rw [startText_overruns hmsg htext hge hstarted] at hstrcat
    cases hstrcat

theorem appendVariable_fits (hmsg : b.offset = 0 ∨ b.msg.Holds text) (htext : 0 ∉ text)
    (hfits : (keptText b.offset text).length + (variableLine d).length + 1 ≤
      b.offset + uint16 (b.tmpSize + ((variableLine d).length + 1))) :
    ∃ b', appendVariable b d = some b' := by
  obtain ⟨started, hstarted, hlength, hholds⟩ := startText_fits hmsg
    (show (keptText b.offset text).length <
      b.offset + uint16 (b.tmpSize + ((variableLine d).length + 1)) by omega)
  have hle : (keptText b.offset text).length + (variableLine d ++ [0]).length ≤ started.length := by
    rw [hlength, List.length_append, List.length_singleton]
    omega
  rw [appendVariable]
  rw [bind_of_eq_some hstarted, strcat_eq hholds (zero_not_mem_keptText _ htext), Block.store,
    if_pos hle]
  exact ⟨_, rfl⟩

structure Appended (front : List TData) (b : MessageBuffer) (text : CString) : Prop where
  tmpSize : b.tmpSize = uint16 (requested front)
  offset : b.offset = uint16 (skipped front)
  holds : front = [] ∨ b.msg.Holds text
  zero : 0 ∉ text

theorem Appended.kept (h : Appended front b text) : b.offset = 0 ∨ b.msg.Holds text := by
  rcases h.holds with rfl | hholds
  · exact .inl h.offset
  · exact .inr hholds

theorem uint16_counters (front : List TData) (d : TData) :
    uint16 (uint16 (requested front) + ((variableLine d).length + 1)) =
        uint16 (requested (front ++ [d])) ∧
      uint16 (uint16 (skipped front) + uint16 (requested (front ++ [d])) + (2 ^ 16 - 1)) =
        uint16 (skipped (front ++ [d])) := by
  have hconcat := skipped_concat front d
  rw [uint16, uint16, uint16, uint16, uint16, uint16]
  constructor
  · rw [Nat.mod_add_mod, requested_concat]
  · omega

theorem Appended.step (h : Appended front b text) (hd : d.varName ≠ 0)
    (hb : appendVariable b d = some b') :
    Appended (front ++ [d]) b' (keptText b.offset text ++ variableLine d) ∧
      (keptText b.offset text).length + (variableLine d).length + 1 ≤
        uint16 (skipped front) + uint16 (requested (front ++ [d])) := by
  obtain ⟨htmp, hoffset, hle, hholds⟩ := appendVariable_eq_some h.kept h.zero hb
  obtain ⟨hrequested, hskipped⟩ := uint16_counters front d
  rw [h.tmpSize, hrequested] at htmp
  rw [h.offset, htmp, hskipped] at hoffset
  rw [htmp] at hle
  constructor
  · refine ⟨htmp, hoffset, .inr hholds, ?_⟩
    rw [List.mem_append, not_or]
    exact ⟨zero_not_mem_keptText _ h.zero, zero_not_mem_variableLine hd⟩
  · rw [← h.offset]
    exact hle

theorem reportFits_front (h : ReportFits (front ++ [d])) : ReportFits front := by
  intro front' d' hfront
  exact h front' d' (hfront.trans (List.prefix_append front [d]))

/-- Where every line fits, the text is the report. -/
theorem appended_of_fits (hnames : ∀ d ∈ entries, d.varName ≠ 0) (h : ReportFits entries) :
    ∃ b, entries.foldlM appendVariable ⟨[], 0, 0⟩ = some b ∧
      Appended entries b (dataReport entries) := by
  induction entries using List.reverseRecOn with
  | nil => exact ⟨_, rfl, rfl, rfl, .inl rfl, List.not_mem_nil⟩
  | append_singleton front d ih =>
    rw [List.forall_mem_append, List.forall_mem_singleton] at hnames
    obtain ⟨b, hfold, hb⟩ := ih hnames.1 (reportFits_front h)
    obtain ⟨hkept, hwithin⟩ := h front d List.prefix_rfl
    have htext : keptText b.offset (dataReport front) = dataReport front := by
      rw [keptText]
      split
      · rename_i hoffset
        rw [hb.offset] at hoffset
        rw [not_imp_not.mp hkept hoffset]
        rfl
      · rfl
    have hfits : (keptText b.offset (dataReport front)).length + (variableLine d).length + 1 ≤
        b.offset + uint16 (b.tmpSize + ((variableLine d).length + 1)) := by
      rw [dataReport_append, dataReport_singleton, List.length_append] at hwithin
      rw [htext, hb.tmpSize, (uint16_counters front d).1, hb.offset]
      exact hwithin
    obtain ⟨b', hb'⟩ := appendVariable_fits hb.kept hb.zero hfits
    obtain ⟨happended, -⟩ := hb.step hnames.2 hb'
    refine ⟨b', ?_, ?_⟩
    · rw [List.foldlM_append, bind_of_eq_some hfold, List.foldlM_cons, bind_of_eq_some hb']
      rfl
    · rw [dataReport_append, dataReport_singleton, ← htext]
      exact happended

/-- A text as long as the report has lost nothing. -/
theorem fits_of_appended (hnames : ∀ d ∈ entries, d.varName ≠ 0)
    (h : entries.foldlM appendVariable ⟨[], 0, 0⟩ = some b) :
    ∃ text, Appended entries b text ∧ text.length ≤ (dataReport entries).length ∧
      ((dataReport entries).length ≤ text.length → ReportFits entries) := by
  induction entries using List.reverseRecOn generalizing b with
  | nil =>
    cases h
    refine ⟨[], ⟨rfl, rfl, .inl rfl, List.not_mem_nil⟩, le_rfl, ?_⟩
    intro _ front d hfront
    exact absurd (List.prefix_nil.mp hfront) (by simp)
  | append_singleton front d ih =>
    rw [List.forall_mem_append, List.forall_mem_singleton] at hnames
    rw [List.foldlM_append] at h
    obtain ⟨b₀, hfold, h⟩ := Option.bind_eq_some_iff.mp h
    rw [List.foldlM_cons] at h
    obtain ⟨b₁, hb₁, h⟩ := Option.bind_eq_some_iff.mp h
    obtain rfl := Option.some.inj h
    obtain ⟨text, htext, hle, hall⟩ := ih hnames.1 hfold
    obtain ⟨happended, hwithin⟩ := htext.step hnames.2 hb₁
    have hkept : (keptText b₀.offset text).length ≤ text.length := by
      rw [keptText]
      split
      · exact Nat.zero_le _
      · exact le_rfl
    refine ⟨_, happended, ?_, ?_⟩
    · rw [dataReport_append, dataReport_singleton, List.length_append, List.length_append]
      omega
    · intro hlong front' d' hfront
      rw [dataReport_append, dataReport_singleton, List.length_append, List.length_append] at hlong
      rcases List.prefix_concat_iff.mp hfront with heq | hfront
      · obtain ⟨hfronts, hlines⟩ := List.append_inj' heq rfl
        obtain rfl := (List.cons.inj hlines).1
        rw [hfronts]
        constructor
        · intro hne hzero
          -- the text was started again, and what stood in front of it is lost
          have hoffset : b₀.offset = 0 := htext.offset.trans hzero
          rw [keptText, if_pos hoffset] at hlong
          obtain ⟨first, rest, rfl⟩ := List.exists_cons_of_ne_nil hne
          have hfirst := four_le_length_variableLine first
          rw [dataReport, List.flatMap_cons, List.length_append, List.length_nil] at hlong
          omega
        · rw [dataReport_append, dataReport_singleton, List.length_append]
          rw [uint16, uint16] at hwithin
          omega
      · exact hall (by omega) front' d' hfront

end Rounds

theorem dataCount_eq_some {entries : List TData} {terminator : TData}
    (hnames : ∀ d ∈ entries, d.varName ≠ 0) (hterminator : terminator.varName = 0) :
    dataCount (some (entries ++ [terminator])) =
      if entries.length < 2 ^ 16 then some entries.length else none := by
  have hscan : (entries ++ [terminator]).findIdx? (·.varName == 0) = some entries.length := by
    rw [List.findIdx?_append, List.findIdx?_eq_none_iff.mpr (by simpa using hnames)]
    simp [hterminator]
  rw [dataCount, hscan]
  rfl

theorem dataStructureMsg_eq_some {entries : List TData} {terminator : TData} {msg : Block UInt8}
    (hnames : ∀ d ∈ entries, d.varName ≠ 0) (hterminator : terminator.varName = 0) :
    dataStructureMsg (some (entries ++ [terminator])) = some msg ↔
      entries.length < 2 ^ 16 ∧
        ∃ b, entries.foldlM appendVariable ⟨[], 0, 0⟩ = some b ∧ b.msg = msg := by
  rw [dataStructureMsg, dataCount_eq_some hnames hterminator]
  by_cases hcount : entries.length < 2 ^ 16
  · rw [if_pos hcount, Option.bind_eq_bind, Option.bind_some, List.take_left,
      Option.bind_eq_bind, Option.bind_eq_some_iff]
    simp only [hcount, true_and, Option.pure_def, Option.some.injEq]
  · rw [if_neg hcount]
    exact iff_of_false (by simp) (fun h => hcount h.1)

theorem fits_of_reportsData {entries : List TData} {terminator : TData}
    (hnames : ∀ d ∈ entries, d.varName ≠ 0) (hterminator : terminator.varName = 0)
    (h : ReportsData (some (entries ++ [terminator])) entries) :
    entries ≠ [] ∧ entries.length < 2 ^ 16 ∧ ReportFits entries := by
  obtain ⟨msg, hmsg, hload⟩ := h
  obtain ⟨hcount, b, hfold, rfl⟩ := (dataStructureMsg_eq_some hnames hterminator).mp hmsg
  have hne : entries ≠ [] := by
    rintro rfl
    cases hfold
    rw [Block.load, if_neg (by simp)] at hload
    cases hload
  obtain ⟨text, htext, -, hall⟩ := fits_of_appended hnames hfold
  have heq := (htext.holds.resolve_left hne).unique htext.zero (zero_not_mem_dataReport hnames)
    hload
  exact ⟨hne, hcount, hall (by rw [heq])⟩

/-- The block holds the report of the variables exactly when every line fits; an array that
declarations have built has a variable in it, and fewer than `2 ^ 16`. -/
theorem data_report_whole_iff (data : DataArray) (entries : List TData)
    (h : HoldsVariables entries data) :
    ReportsData data entries ↔
      (data = none ∨ entries ≠ []) ∧ entries.length < 2 ^ 16 ∧ ReportFits entries := by
  obtain ⟨hnames, ⟨rfl, rfl⟩ | ⟨terminator, hterminator, rfl⟩⟩ := h
  · exact iff_of_true ⟨_, rfl, rfl⟩ ⟨.inl rfl, by decide, reportFits_of_short (Nat.zero_le _)⟩
  · constructor
    · intro h
      obtain ⟨hne, hcount, hfits⟩ := fits_of_reportsData hnames hterminator h
      exact ⟨.inr hne, hcount, hfits⟩
    · rintro ⟨hbuilt, hcount, hfits⟩
      have hne : entries ≠ [] := hbuilt.resolve_left (by simp)
      obtain ⟨b, hfold, hb⟩ := appended_of_fits hnames hfits
      have hmsg := (dataStructureMsg_eq_some hnames hterminator).mpr ⟨hcount, b, hfold, rfl⟩
      exact ⟨b.msg, hmsg, (hb.holds.resolve_left hne).load⟩

theorem data_report_whole_two :
    ReportsData (some [⟨97, 5⟩, ⟨98, -12⟩, ⟨0, 0⟩]) [⟨97, 5⟩, ⟨98, -12⟩] := by
  have hfits : ReportFits [⟨97, 5⟩, ⟨98, -12⟩] := reportFits_of_short (by decide)
  exact (data_report_whole_iff _ _ ⟨by decide, .inr ⟨⟨0, 0⟩, rfl, rfl⟩⟩).mpr
    ⟨.inr (by decide), by decide, hfits⟩

/-- The line of a script that declares `a` 152 times, then `b`, then `a` again. -/
def wrappingNames : CString :=
  namesText (List.replicate 152 97 ++ 98 :: List.replicate 9 97)

/-- Behind it `a=1000` and `b=10` have been executed. -/
def wrappingVariables : List TData :=
  ⟨97, 1000⟩ :: (List.replicate 151 ⟨97, 0⟩ ++ ⟨98, 10⟩ :: List.replicate 9 ⟨97, 0⟩)

/-- In front of the last line `offset` has come back to 0, and the text starts again. -/
theorem data_report_starts_again :
    (do
      let data ← addVariables none wrappingNames
      let data ← writeData data 97 1000
      writeData data 98 10) = some (some (wrappingVariables ++ [⟨0, 0⟩])) ∧
      ¬ ReportsData (some (wrappingVariables ++ [⟨0, 0⟩])) wrappingVariables := by
  constructor
  · decide +kernel
  · intro hreports
    have hnames : ∀ d ∈ wrappingVariables, d.varName ≠ 0 := by decide +kernel
    have hlast : wrappingVariables.take 161 ++ [⟨97, 0⟩] = wrappingVariables := by decide +kernel
    have hwrap : skipped (wrappingVariables.take 161) % 2 ^ 16 = 0 := by decide +kernel
    obtain ⟨-, -, hfits⟩ := fits_of_reportsData hnames rfl hreports
    have hline := hfits (wrappingVariables.take 161) ⟨97, 0⟩ (by rw [hlast])
    exact hline.kept (by decide +kernel) hwrap

end Sisop
