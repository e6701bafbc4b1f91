import Sisop.CodeSegment
import Sisop.Serialization

/-!
# The lines of a script

Line `k` of a script is what stands between two newlines, cut at its first `'#'` and trimmed.
`codeSegmentArray` is `codeSegmentCreator` with its variables: the pointer that walks over the
script, the counter in a `uint16_t` and the array that is reallocated for every line, with the
`NULL` behind the last one.
-/

namespace Sisop

def scriptLines (script : CString) : List CString :=
  (script.splitOn newline).map fun line => stringTrim (line.takeWhile (· != hash))

def lastLine (script : CString) : CString := (script.splitOn newline).getLastD []

/-- `lineLength`, a `uint16_t`, for the line at offset `code`. -/
def lineScan (script : CString) (code : ℕ) : Option ℕ :=
  if code ≤ script.length then
    let lineLength := ((script.drop code).takeWhile fun c => c != newline && c != hash).length
    if lineLength < 2 ^ 16 then some lineLength else none
  else none

/-- `codeSegment[linesCount - 1] = entry` after the `realloc`; `NULL` is `none`. -/
def setLastEntry (codeSegment : Block (Option CString)) (linesCount : ℕ) (entry : Option CString) :
    Option (Block (Option CString)) :=
  if linesCount = 0 then none else (codeSegment.realloc linesCount).store (linesCount - 1) [entry]

def segmentLoop (script : CString) : (fuel code linesCount : ℕ) → Block (Option CString) →
    Option (ℕ × Block (Option CString))
  | 0, _, _, _ => none
  | fuel + 1, code, linesCount, codeSegment => do
    let lineLength ← lineScan script code
    let line := stringTrim ((script.drop code).take lineLength)
    let codeSegment ← setLastEntry codeSegment (uint16 (linesCount + 1)) (some line)
    if code + lineLength = script.length then
      return (uint16 (linesCount + 1), codeSegment)
    else
      segmentLoop script fuel (code + strlenCS (script.drop code) + 1) (uint16 (linesCount + 1))
        codeSegment

def codeSegmentArray (script : CString) : Option (Block (Option CString)) := do
  let (linesCount, codeSegment) ← segmentLoop script (script.length + 1) 0 0 []
  setLastEntry codeSegment (uint16 (linesCount + 1)) none

variable {script : CString}

theorem newline_not_mem (h : strlenCS script = script.length) : newline ∉ script := by
  intro hmem
  have hwhole := (List.takeWhile_prefix (· != newline)).eq_of_length h
  have hall := List.takeWhile_eq_self_iff.mp hwhole newline hmem
  simp at hall

/-- The script in front of its first newline and behind it. -/
theorem split_newline (h : strlenCS script ≠ script.length) : ∃ line rest,
    script = line ++ newline :: rest ∧ newline ∉ line := by
  have hsplit := List.takeWhile_append_dropWhile (p := fun c => c != newline) (l := script)
  cases hrest : script.dropWhile (· != newline) with
  | nil =>
    rw [hrest, List.append_nil] at hsplit
    exact absurd (congrArg List.length hsplit) h
  | cons c rest =>
    have hc : c = newline := by
      have hhead := List.head?_dropWhile_not (fun c => c != newline) script
      rw [hrest] at hhead
      simpa using hhead
    refine ⟨script.takeWhile (· != newline), rest, ?_, fun hmem => ?_⟩
    · rw [hrest, hc] at hsplit
      exact hsplit.symm
    · simpa using List.mem_takeWhile_imp hmem

theorem takeWhile_newline {line rest : CString} (h : newline ∉ line) :
    (line ++ newline :: rest).takeWhile (· != newline) = line := by
  have hline : ∀ c ∈ line, (c != newline) = true := fun c hc =>
    bne_iff_ne.mpr fun heq => h (heq ▸ hc)
  rw [List.takeWhile_append_of_pos hline]
  simp

/-- The scan of a line stops at its first comment. -/
theorem takeWhile_newline_hash (script : CString) :
    (script.takeWhile fun c => c != newline && c != hash) =
      (script.takeWhile (· != newline)).takeWhile (· != hash) := by
  rw [List.takeWhile_takeWhile]
  congr 1
  funext c
  rw [Bool.and_comm]
  simp only [bne, Bool.decide_and, Bool.decide_coe]

theorem take_lineLength (script : CString) :
    script.take ((script.takeWhile (· != newline)).takeWhile (· != hash)).length =
      (script.takeWhile (· != newline)).takeWhile (· != hash) := by
  rw [← takeWhile_newline_hash]
  exact (List.prefix_iff_eq_take.mp (List.takeWhile_prefix _)).symm

/-- The list has no result exactly when the last line has a comment: the pointer then steps over
the terminating NUL. -/
theorem codeSegmentLines_eq {fuel : ℕ} (hfuel : script.length < fuel) :
    codeSegmentLines fuel script =
      if hash ∈ lastLine script then none else some (scriptLines script) := by
  induction fuel generalizing script with
  | zero => exact absurd hfuel (Nat.not_lt_zero _)
  | succ fuel ih =>
    simp only [codeSegmentLines, takeWhile_newline_hash, take_lineLength]
    by_cases hend : strlenCS script = script.length
    · have hwhole : script.takeWhile (· != newline) = script :=
        (List.takeWhile_prefix (· != newline)).eq_of_length hend
      rw [hwhole, if_pos hend, lastLine, scriptLines,
        List.splitOn_eq_singleton (newline_not_mem hend)]
      by_cases hcomment : hash ∈ script
      · have hshort : (script.takeWhile (· != hash)).length ≠ script.length := by
          intro heq
          have hall := List.takeWhile_eq_self_iff.mp
            ((List.takeWhile_prefix (· != hash)).eq_of_length heq) hash hcomment
          simp at hall
        rw [if_neg hshort]
        exact (if_pos hcomment).symm
      · have hline : script.takeWhile (· != hash) = script :=
          List.takeWhile_eq_self_iff.mpr fun c hc => bne_iff_ne.mpr fun heq => hcomment (heq ▸ hc)
        rw [hline, if_pos rfl]
        simpa [hline] using hcomment
    · obtain ⟨line, rest, rfl, hline⟩ := split_newline hend
      have hlength : strlenCS (line ++ newline :: rest) = line.length := by
        rw [strlenCS, takeWhile_newline hline]
      have hdrop : (line ++ newline :: rest).drop (line.length + 1) = rest := by
        rw [List.drop_length_add_append]
        rfl
      have hshort : (line.takeWhile (· != hash)).length ≠ (line ++ newline :: rest).length := by
        have hle := (List.takeWhile_prefix (· != hash) (l := line)).length_le
        rw [List.length_append, List.length_cons]
        omega
      have hrest : rest.length < fuel := by
        rw [List.length_append, List.length_cons] at hfuel
        omega
      rw [takeWhile_newline hline, if_neg hshort, if_neg hend, hlength, hdrop, ih hrest, lastLine,
        lastLine, scriptLines, scriptLines, List.splitOn_append_cons_self_of_not_mem hline]
      obtain ⟨first, others, hrest'⟩ :=
        List.exists_cons_of_ne_nil (List.splitOn_ne_nil newline rest)
      have hlast : (line :: first :: others).getLastD [] = (first :: others).getLastD [] := by simp
      rw [hrest', hlast]
      by_cases hcomment : hash ∈ (first :: others).getLastD []
      · rw [if_pos hcomment, if_pos hcomment]
        rfl
      · rw [if_neg hcomment, if_neg hcomment]
        rfl

theorem length_scriptLines (script : CString) :
    (scriptLines script).length ≤ script.length + 1 := by
  rw [scriptLines, List.length_map]
  induction script with
  | nil => exact le_rfl
  | cons c script ih =>
    rw [List.splitOn_cons_eq_if_modifyHead]
    split_ifs
    · rw [List.length_cons, List.length_cons]
      exact Nat.succ_le_succ ih
    · rw [List.length_modifyHead, List.length_cons]
      exact ih.trans (Nat.le_succ _)

theorem setLastEntry_filledTo (entries : List (Option CString)) (entry : Option CString)
    (h : entries.length + 1 < 2 ^ 16) :
    setLastEntry (Block.filledTo entries 0) (uint16 (entries.length + 1)) entry =
      some (Block.filledTo (entries ++ [entry]) 0) := by
  have hgrown : (Block.filledTo entries 0).realloc (entries.length + 1) =
      Block.filledTo entries 1 := by
    rw [Block.realloc_filledTo entries (n := entries.length + 1) (Nat.le_succ _),
      Nat.add_sub_cancel_left]
  rw [uint16_of_lt h, setLastEntry, if_neg (Nat.succ_ne_zero _), Nat.add_sub_cancel, hgrown]
  exact Block.store_filledTo entries [entry] 1 0 entries.length rfl rfl

theorem lineScan_eq {code : ℕ} (hcode : code ≤ script.length)
    (hshort : script.length < code + 2 ^ 16) :
    lineScan script code =
      some ((script.drop code).takeWhile fun c => c != newline && c != hash).length := by
  have hle := (List.takeWhile_prefix (fun c => c != newline && c != hash)
    (l := script.drop code)).length_le
  rw [List.length_drop] at hle
  rw [lineScan, if_pos hcode]
  exact if_pos (by omega)

theorem segmentLoop_past {fuel code linesCount : ℕ} {codeSegment : Block (Option CString)}
    (h : script.length < code) : segmentLoop script fuel code linesCount codeSegment = none := by
  cases fuel with
  | zero => rfl
  | succ fuel =>
    have hscan : lineScan script code = none := if_neg (Nat.not_le.mpr h)
    rw [segmentLoop, bind_of_eq_none hscan]

/-- The loop with its variables, from the line at offset `code` on. -/
theorem segmentLoop_eq {fuel code : ℕ} {entries : List (Option CString)}
    (hcode : code ≤ script.length) (hshort : entries.length + script.length + 1 < code + 2 ^ 16) :
    segmentLoop script fuel code entries.length (Block.filledTo entries 0) =
      (codeSegmentLines fuel (script.drop code)).map fun lines =>
        (entries.length + lines.length, Block.filledTo (entries ++ lines.map some) 0) := by
  induction fuel generalizing code entries with
  | zero => rfl
  | succ fuel ih =>
    have hscan := lineScan_eq hcode (by omega)
    have hlength : (script.drop code).length = script.length - code := List.length_drop
    rw [segmentLoop, bind_of_eq_some hscan, codeSegmentLines]
    dsimp only
    generalize ((script.drop code).takeWhile fun c => c != newline && c != hash).length =
      lineLength
    generalize stringTrim ((script.drop code).take lineLength) = line
    rw [bind_of_eq_some (setLastEntry_filledTo entries (some line) (by omega)),
      uint16_of_lt (by omega)]
    by_cases hend : lineLength = (script.drop code).length
    · rw [if_pos (by omega), if_pos hend]
      rfl
    · rw [if_neg (by omega), if_neg hend]
      by_cases hover : strlenCS (script.drop code) = (script.drop code).length
      · rw [if_pos hover]
        exact segmentLoop_past (by omega)
      · have hle := (List.takeWhile_prefix (fun c => c != newline)
          (l := script.drop code)).length_le
        have hentries : entries.length + 1 = (entries ++ [some line]).length := by simp
        have hnext : script.drop (code + strlenCS (script.drop code) + 1) =
            (script.drop code).drop (strlenCS (script.drop code) + 1) := by
          rw [List.drop_drop, Nat.add_assoc]
        rw [← strlenCS] at hle
        rw [if_neg hover, hentries, ih (by omega) (by rw [← hentries]; omega), hnext,
          Option.map_map]
        congr 1
        funext lines
        have hcount : (entries ++ [some line]).length + lines.length =
            entries.length + (line :: lines).length := by
          rw [← hentries, List.length_cons]
          omega
        exact Prod.ext hcount (by simp)

theorem codeSegmentCreator_eq (script : CString) :
    codeSegmentCreator script =
      if hash ∈ lastLine script then none else some (scriptLines script) :=
  codeSegmentLines_eq (Nat.lt_succ_self _)

/-- On a script that fits a frame the variables of `codeSegmentCreator` do not overflow. -/
theorem codeSegmentArray_eq (h : 1 + 2 + 4 + script.length + 1 < 2 ^ 16) :
    codeSegmentArray script = (codeSegmentCreator script).map fun lines =>
      Block.filledTo (lines.map some ++ [none]) 0 := by
  have hloop : segmentLoop script (script.length + 1) 0 0 [] =
      (codeSegmentLines (script.length + 1) (script.drop 0)).map fun lines =>
        (0 + lines.length, Block.filledTo ([] ++ lines.map some) 0) :=
    @segmentLoop_eq script (script.length + 1) 0 [] (Nat.zero_le _) (by rw [List.length_nil]; omega)
  rw [List.drop_zero, ← codeSegmentCreator, codeSegmentCreator_eq] at hloop
  rw [codeSegmentArray, hloop, codeSegmentCreator_eq]
  split_ifs
  · rfl
  · have hlines := length_scriptLines script
    have hset := setLastEntry_filledTo ((scriptLines script).map some) none
      (by rw [List.length_map]; omega)
    rw [List.length_map] at hset
    simpa using hset

/-- For a script that fits a frame the array holds its lines and a `NULL`, exactly when there is
no comment behind the last newline. -/
theorem code_segment_exact_iff (script : CString) (h : 1 + 2 + 4 + script.length + 1 < 2 ^ 16) :
    codeSegmentArray script = some (Block.filledTo ((scriptLines script).map some ++ [none]) 0) ↔
      hash ∉ lastLine script := by
  rw [codeSegmentArray_eq h, codeSegmentCreator_eq]
  split_ifs with hcomment
  · exact iff_of_false (by simp) (not_not.mpr hcomment)
  · exact iff_of_true rfl hcomment

theorem code_segment_exact_commented : codeSegmentArray (cstr "a=1 # uno\nfin_programa") =
    some (Block.filledTo
      ((scriptLines (cstr "a=1 # uno\nfin_programa")).map some ++ [none]) 0) :=
  (code_segment_exact_iff (cstr "a=1 # uno\nfin_programa") (by decide)).mpr (by decide)

/-- The pointer steps over the NUL of a script that ends in a comment. -/
theorem final_comment_overreads : ¬ ∀ script : CString, 1 + 2 + 4 + script.length + 1 < 2 ^ 16 →
    codeSegmentArray script =
      some (Block.filledTo ((scriptLines script).map some ++ [none]) 0) := by
  intro h
  have hlines := h (cstr "fin_programa # fin") (by decide)
  have hnone : codeSegmentArray (cstr "fin_programa # fin") = none := by decide
  cases hnone.symm.trans hlines

end Sisop
