import Sisop.Substitution
import Mathlib.Data.List.TakeWhile

/-!
# The temporary ssh setting

While auditoria copies the public key of the user it turns `StrictHostKeyChecking` off in
`~/.ssh/config`: by an edit where the file says `yes`, by a new line where it does not speak of it.
Afterwards the opposite edit is made. `firstSetting` is how ssh reads the file: the first setting
in a section that applies to the server is the one that counts.
-/

namespace Sisop

structure TextFile where
  lines : List Text
  rest : Text

namespace TextFile

def allLines (f : TextFile) : List Text := if f.rest = [] then f.lines else f.lines ++ [f.rest]

def append (f : TextFile) (line : Text) : TextFile := ⟨f.lines ++ [f.rest ++ line], []⟩

def sed (p q : Text) (f : TextFile) : TextFile :=
  ⟨f.lines.map (substitute p q 0), substitute p q 0 f.rest⟩

def greps (p : Text) (f : TextFile) : Bool := f.allLines.any (occurs p)

end TextFile

namespace Shield.Auditoria

def strictHostKeyChecking : Text := "StrictHostKeyChecking".toList

def settingNo : Text := "StrictHostKeyChecking no".toList

def settingYes : Text := "StrictHostKeyChecking yes".toList

/-- `~/.ssh/config` and `huboQueCambiarHostKeyChecking`. -/
structure SshState where
  config : Option TextFile
  huboQueCambiar : Bool

def comprobarHostKeyChecking (s : SshState) : SshState :=
  match s.config with
  | some f =>
    if f.greps strictHostKeyChecking then
      if !f.greps settingNo then ⟨some (f.sed settingYes settingNo), true⟩ else s
    else ⟨some (f.append settingNo), true⟩
  | none => ⟨some (TextFile.append ⟨[], []⟩ settingNo), true⟩

def devolverValorHostCheck (s : SshState) : SshState :=
  if s.huboQueCambiar then ⟨s.config.map (TextFile.sed settingNo settingYes), false⟩ else s

def sourced (config : Option TextFile) : SshState := ⟨config, false⟩

def wordChar (c : Char) : Bool := !blank c && c != '='

def keyword (l : Text) : Text := (l.dropWhile blank).takeWhile wordChar

/-- Behind the keyword blanks, or a `=` between blanks. -/
def behindSeparator (l : Text) : Text :=
  if (l.dropWhile blank).head? = some '=' then (l.dropWhile blank).tail.dropWhile blank
  else l.dropWhile blank

def argument (l : Text) : Text :=
  (behindSeparator ((l.dropWhile blank).dropWhile wordChar)).takeWhile (!blank ·)

def unquoted (v : Text) : Text :=
  if v.head? = some '"' ∧ v.getLast? = some '"' then v.tail.dropLast else v

def turnsOff (v : Text) : Bool := unquoted v == "no".toList || unquoted v == "off".toList

/-- ssh does not distinguish capitals in keywords. -/
def isSetting (l : Text) : Bool :=
  (keyword l).map Char.toLower == strictHostKeyChecking.map Char.toLower

def isHeader (l : Text) : Bool :=
  (keyword l).map Char.toLower == "host".toList || (keyword l).map Char.toLower == "match".toList

def saysSomething (l : Text) : Bool := (l.dropWhile blank).head?.any (· != '#')

/-- The line with the setting that counts. `applies` tells of a `Host` or `Match` line whether it
means the server, `active` whether the section does. -/
def firstSetting (applies : Text → Bool) : Bool → List Text → Option Text
  | _, [] => none
  | active, l :: ls =>
    if isHeader l then firstSetting applies (applies l) ls
    else if isSetting l && active then some l
    else firstSetting applies active ls

def configLines (config : Option TextFile) : List Text := (config.map TextFile.allLines).getD []

def checkingOff (applies : Text → Bool) (config : Option TextFile) : Bool :=
  (firstSetting applies true (configLines config)).any (turnsOff <| argument ·)

/-- What the file says: a missing one says nothing. -/
def effective (config : Option TextFile) : List Text := (configLines config).filter saysSomething

/-- Between the two calls checking is off, and after them the file says what it said before. -/
def TurnedOffAndBack (applies : Text → Bool) (config : Option TextFile) : Prop :=
  checkingOff applies (comprobarHostKeyChecking (sourced config)).config = true ∧
    effective (devolverValorHostCheck (comprobarHostKeyChecking (sourced config))).config =
      effective config

/-- Off already, or `yes` with a single blank before it, as the edit looks for it. -/
def editable (l : Text) : Bool :=
  turnsOff (argument l) || (argument l == "yes".toList && heads settingYes (l.dropWhile blank))

def isComment (l : Text) : Bool := (l.dropWhile blank).head? == some '#'

/-- When the two edits do what they are for. -/
def reversible (applies : Text → Bool) : Option TextFile → Bool
  | none => false
  | some f =>
    if f.greps strictHostKeyChecking then
      if f.greps settingNo then checkingOff applies (some f)
      else (firstSetting (applies <| substitute settingYes settingNo 0 ·) true f.allLines).any
        editable
    else isComment f.rest && checkingOff applies (some f)

section Edit

variable {l : Text}

def toNo (l : Text) : Text := substitute settingYes settingNo 0 l

theorem wordPattern_yes : WordPattern wordChar 'S' "trictHostKeyChecking".toList ' '
    "yes".toList := ⟨by decide, List.all_eq_true.mp (by decide), by decide⟩

theorem wordPattern_blank : WordPattern (!blank ·) 'S' "trictHostKeyChecking".toList ' '
    "yes".toList := ⟨by decide, List.all_eq_true.mp (by decide), by decide⟩

theorem dropWhile_toNo {f : Char → Bool} (hf : f 'S' = false) (l : Text) :
    (toNo l).dropWhile f = toNo (l.dropWhile f) :=
  dropWhile_substitute wordPattern_yes.literal hf l

theorem keyword_toNo (l : Text) : keyword (toNo l) = keyword l := by
  rw [keyword, dropWhile_toNo (by decide)]
  exact wordPattern_yes.takeWhile_substitute "no".toList _

theorem head?_toNo (l : Text) : (toNo l).head? = l.head? :=
  head?_substitute wordPattern_yes.literal _ l

theorem toNo_eq_nil {l : Text} : toNo l = [] ↔ l = [] := by
  rw [← List.head?_eq_none_iff, head?_toNo, List.head?_eq_none_iff]

theorem behindSeparator_toNo (l : Text) : behindSeparator (toNo l) = toNo (behindSeparator l) := by
  rw [behindSeparator, behindSeparator, dropWhile_toNo (by decide), head?_toNo]
  split_ifs with hhead
  · obtain ⟨r, hr⟩ := List.head?_eq_some_iff.mp hhead
    have hkept : toNo ('=' :: r) = '=' :: toNo r := substitute_kept _ (by rfl)
    rw [hr, hkept, List.tail_cons, List.tail_cons]
    exact dropWhile_toNo (by decide) r
  · rfl

theorem isSetting_toNo (l : Text) : isSetting (toNo l) = isSetting l := by
  rw [isSetting, keyword_toNo, isSetting]

theorem isHeader_toNo (l : Text) : isHeader (toNo l) = isHeader l := by
  rw [isHeader, keyword_toNo, isHeader]

theorem dropWhile_of_head? {f : Char → Bool} (h : ∀ c ∈ l.head?, f c = false) :
    l.dropWhile f = l := by
  cases l with
  | nil => rfl
  | cons c l => exact List.dropWhile_cons_of_neg (by simp [h c rfl])

/-- The keyword of a setting is as long as that of the pattern. -/
theorem exists_keyword (hl : isSetting l = true) : ∃ c u r, l.dropWhile blank = c :: u ++ r ∧
    (∀ c' ∈ c :: u, wordChar c' = true) ∧ (∀ c' ∈ r.head?, wordChar c' = false) ∧
      u.length < ('S' :: "trictHostKeyChecking".toList).length := by
  have hlength : (keyword l).length = 21 := by
    have hkeyword := congrArg List.length (eq_of_beq hl)
    rwa [List.length_map] at hkeyword
  have hwords := List.takeWhile_append_dropWhile (p := wordChar) (l := l.dropWhile blank)
  cases hk : keyword l with
  | nil => simp [hk] at hlength
  | cons c u =>
    rw [hk, List.length_cons] at hlength
    rw [keyword] at hk
    rw [hk] at hwords
    refine ⟨c, u, _, hwords.symm, fun c' hc' => List.mem_takeWhile_imp (hk ▸ hc'), ?_, ?_⟩
    · intro c' hc'
      have hhead := List.head?_dropWhile_not wordChar (l.dropWhile blank)
      rw [hc'] at hhead
      exact hhead
    · change u.length < 21
      omega

/-- A setting that is not spelled like the pattern keeps its argument. -/
theorem argument_toNo (hl : isSetting l = true)
    (hheads : heads settingYes (l.dropWhile blank) = false) : argument (toNo l) = argument l := by
  obtain ⟨c, u, r, hsplit, hword, hstop, hshort⟩ := exists_keyword hl
  have hedited : toNo (l.dropWhile blank) = c :: u ++ toNo r := by
    rw [hsplit] at hheads ⊢
    have hkept : toNo (c :: (u ++ r)) = c :: toNo (u ++ r) := substitute_kept _ hheads
    have hrest : toNo (u ++ r) = u ++ toNo r := wordPattern_yes.substitute_short _
      (fun c' hc' => hword c' (List.mem_cons_of_mem c hc')) hshort hstop
    rw [List.cons_append, hkept, hrest]
    rfl
  have hstop' : ∀ c' ∈ (toNo r).head?, wordChar c' = false := by
    rw [head?_toNo]
    exact hstop
  rw [argument, argument, dropWhile_toNo (by decide), hedited, hsplit,
    List.dropWhile_append_of_pos hword, List.dropWhile_append_of_pos hword,
    dropWhile_of_head? hstop, dropWhile_of_head? hstop', behindSeparator_toNo]
  exact wordPattern_blank.takeWhile_substitute "no".toList _

/-- The argument of a line that begins like the pattern. -/
theorem argument_of_pattern {value t : Text} (hvalue : ∀ c ∈ value, blank c = false)
    (hne : value.head? ≠ some '=') (hempty : value ≠ [])
    (h : l.dropWhile blank = 'S' :: ("trictHostKeyChecking".toList ++ ' ' :: (value ++ t))) :
    argument l = value ++ t.takeWhile (!blank ·) := by
  have hword : ∀ c ∈ 'S' :: "trictHostKeyChecking".toList, wordChar c = true :=
    wordPattern_yes.word
  obtain ⟨c, value, rfl⟩ := List.exists_cons_of_ne_nil hempty
  have hblank : blank c = false := hvalue c List.mem_cons_self
  have hequal : c ≠ '=' := fun hc => hne (congrArg some hc)
  have hrest : behindSeparator (' ' :: (c :: value ++ t)) = c :: value ++ t := by
    have hdrop : (' ' :: (c :: value ++ t)).dropWhile blank = c :: value ++ t := by
      rw [List.dropWhile_cons_of_pos (by rfl), List.cons_append,
        List.dropWhile_cons_of_neg (by simp [hblank])]
    rw [behindSeparator, hdrop, if_neg (by simpa using hequal)]
  rw [argument, h, ← List.cons_append, List.dropWhile_append_of_pos hword,
    List.dropWhile_cons_of_neg (by decide), hrest,
    List.takeWhile_append_of_pos (by simpa using hvalue)]

/-- What the edit does for the setting: off is what was off before, or was spelled like the
pattern. -/
theorem turnsOff_toNo (hl : isSetting l = true) :
    turnsOff (argument (toNo l)) = editable l := by
  cases hheads : heads settingYes (l.dropWhile blank) with
  | false => rw [argument_toNo hl hheads, editable, hheads, Bool.and_false, Bool.or_false]
  | true =>
    obtain ⟨t, ht⟩ := exists_append_of_heads wordPattern_yes.literal hheads
    have hyes : argument l = "yes".toList ++ t.takeWhile (!blank ·) :=
      argument_of_pattern (not_blank_of_all rfl) (by decide) (by decide) ht
    have hedited : (toNo l).dropWhile blank = settingNo ++ toNo t := by
      rw [dropWhile_toNo (by decide), ht]
      exact substitute_found (by decide) _ _
    have hno : argument (toNo l) = "no".toList ++ (toNo t).takeWhile (!blank ·) :=
      argument_of_pattern (not_blank_of_all rfl) (by decide) (by decide) hedited
    have hsame : (toNo t).takeWhile (!blank ·) = t.takeWhile (!blank ·) :=
      wordPattern_blank.takeWhile_substitute "no".toList t
    rw [editable, hheads, hno, hyes, hsame, Bool.and_true]
    cases t.takeWhile (!blank ·) with
    | nil => decide
    | cons c w => simp [turnsOff, unquoted]

end Edit

section File

variable {applies : Text → Bool} {active : Bool} {l : Text} {ls : List Text} {f : TextFile}

theorem isSetting_of_firstSetting (h : firstSetting applies active ls = some l) :
    isSetting l = true := by
  induction ls generalizing active with
  | nil => cases h
  | cons l' ls ih =>
    rw [firstSetting] at h
    split_ifs at h with hheader hsetting
    · exact ih h
    · cases h
      exact (Bool.and_eq_true _ _ ▸ hsetting).1
    · exact ih h

/-- The edit changes which headers apply and what the settings say, not which lines are which. -/
theorem firstSetting_toNo (applies : Text → Bool) (active : Bool) (ls : List Text) :
    firstSetting applies active (ls.map toNo) =
      (firstSetting (applies <| toNo ·) active ls).map toNo := by
  induction ls generalizing active with
  | nil => rfl
  | cons l ls ih =>
    rw [List.map_cons, firstSetting, firstSetting, isHeader_toNo, isSetting_toNo]
    split_ifs
    · exact ih _
    · rfl
    · exact ih _

theorem allLines_sed : (f.sed settingYes settingNo).allLines = f.allLines.map toNo := by
  have hsed : f.sed settingYes settingNo = ⟨f.lines.map toNo, toNo f.rest⟩ := rfl
  rw [hsed, TextFile.allLines, TextFile.allLines]
  dsimp only
  by_cases hrest : f.rest = []
  · rw [if_pos hrest, if_pos (toNo_eq_nil.mpr hrest)]
  · rw [if_neg hrest, if_neg fun h => hrest (toNo_eq_nil.mp h), List.map_append, List.map_cons,
      List.map_nil]

theorem checkingOff_sed (applies : Text → Bool) (f : TextFile) :
    checkingOff applies (some (f.sed settingYes settingNo)) =
      (firstSetting (applies <| toNo ·) true f.allLines).any editable := by
  rw [checkingOff, configLines, Option.map_some, Option.getD_some, allLines_sed, firstSetting_toNo]
  cases hfirst : firstSetting (applies <| toNo ·) true f.allLines with
  | none => rfl
  | some l => exact turnsOff_toNo (isSetting_of_firstSetting hfirst)

theorem mem_allLines_of_mem (hl : l ∈ f.lines) : l ∈ f.allLines := by
  rw [TextFile.allLines]
  split_ifs
  · exact hl
  · exact List.mem_append_left _ hl

theorem rest_mem_allLines (hrest : f.rest ≠ []) : f.rest ∈ f.allLines := by
  rw [TextFile.allLines, if_neg hrest]
  exact List.mem_append_right _ List.mem_cons_self

theorem map_eq_self {g : Text → Text} (h : ∀ l ∈ ls, g l = l) : ls.map g = ls := by
  rw [List.map_congr_left h, List.map_id']

/-- The second edit undoes the first one. -/
theorem sed_sed (h : f.greps settingNo = false) :
    (f.sed settingYes settingNo).sed settingNo settingYes = f := by
  have hline : ∀ l ∈ f.allLines, substitute settingNo settingYes 0 (toNo l) = l := by
    intro l hl
    have hoccurs : occurs settingNo l = false := by
      rw [TextFile.greps, List.any_eq_false] at h
      simpa using h l hl
    exact substitute_undone wordPattern_yes.literal (by decide) (by decide) hoccurs
  have hlines : (f.lines.map toNo).map (substitute settingNo settingYes 0) = f.lines := by
    rw [List.map_map]
    exact map_eq_self fun l hl => hline l (mem_allLines_of_mem hl)
  have hrest : substitute settingNo settingYes 0 (toNo f.rest) = f.rest := by
    by_cases hnil : f.rest = []
    · rw [hnil]
      rfl
    · exact hline _ (rest_mem_allLines hnil)
  exact congrArg₂ TextFile.mk hlines hrest

/-- In a file that does not speak of the setting, the second edit changes the new line only. -/
theorem sed_append (h : f.greps strictHostKeyChecking = false) :
    (f.append settingNo).sed settingNo settingYes = f.append settingYes := by
  have hline : ∀ l ∈ f.allLines, occurs settingNo l = false := by
    intro l hl
    by_contra hoccurs
    have hlong : occurs (strictHostKeyChecking ++ " no".toList) l = true :=
      (Bool.not_eq_false _).mp hoccurs
    rw [TextFile.greps, List.any_eq_false] at h
    exact h l hl (occurs_append_left hlong)
  have hlines : f.lines.map (substitute settingNo settingYes 0) = f.lines :=
    map_eq_self fun l hl => substitute_of_not_occurs _ (hline l (mem_allLines_of_mem hl))
  have hrest : occurs settingNo f.rest = false := by
    by_cases hnil : f.rest = []
    · rw [hnil]
      rfl
    · exact hline _ (rest_mem_allLines hnil)
  have hnew : substitute settingNo settingYes 0 (f.rest ++ settingNo) = f.rest ++ settingYes := by
    have hedit : substitute settingNo settingYes 0 (f.rest ++ settingNo) =
        f.rest ++ substitute settingNo settingYes 0 settingNo :=
      substitute_append (by decide) (by decide) settingYes hrest "trictHostKeyChecking no".toList
    rw [hedit]
    rfl
  have happend : (f.lines ++ [f.rest ++ settingNo]).map (substitute settingNo settingYes 0) =
      f.lines ++ [f.rest ++ settingYes] := by
    rw [List.map_append, hlines, List.map_cons, hnew, List.map_nil]
  exact congrArg₂ TextFile.mk happend rfl

theorem exists_comment (h : isComment l = true) : ∃ u, keyword l = '#' :: u := by
  obtain ⟨r, hr⟩ := List.head?_eq_some_iff.mp (eq_of_beq h)
  exact ⟨r.takeWhile wordChar, by rw [keyword, hr, List.takeWhile_cons_of_pos (by decide)]⟩

theorem firstSetting_of_comment (h : isComment l = true) (active : Bool) :
    firstSetting applies active [l] = none := by
  obtain ⟨u, hu⟩ := exists_comment h
  have hheader : isHeader l = false := by
    rw [isHeader, hu]
    rfl
  have hsetting : isSetting l = false := by
    rw [isSetting, hu]
    rfl
  rw [firstSetting, hheader, hsetting, if_neg Bool.false_ne_true, Bool.false_and,
    if_neg Bool.false_ne_true]
  rfl

theorem firstSetting_append_comment (h : isComment l = true) (active : Bool) (ls : List Text) :
    firstSetting applies active (ls ++ [l]) = firstSetting applies active ls := by
  induction ls generalizing active with
  | nil => exact firstSetting_of_comment h active
  | cons l' ls ih => rw [List.cons_append, firstSetting, firstSetting, ih, ih]

theorem saysSomething_of_comment (h : isComment l = true) : saysSomething l = false := by
  rw [saysSomething, eq_of_beq h]
  rfl

/-- What is written behind a comment belongs to it. -/
theorem isComment_append (h : isComment l = true) (t : Text) : isComment (l ++ t) = true := by
  obtain ⟨r, hr⟩ := List.head?_eq_some_iff.mp (eq_of_beq h)
  have hne : l.dropWhile blank ≠ [] := by
    rw [hr]
    exact List.cons_ne_nil _ _
  rw [isComment, List.dropWhile_append, if_neg (by simpa using hne), hr]
  rfl

theorem allLines_of_comment (h : isComment f.rest = true) : f.allLines = f.lines ++ [f.rest] := by
  rw [TextFile.allLines, if_neg]
  intro hrest
  rw [hrest] at h
  cases h

/-- The new line says something, unless it is written behind a comment. -/
theorem saysSomething_append (h : isComment l = false) :
    saysSomething (l ++ settingYes) = true := by
  rw [saysSomething, List.dropWhile_append]
  split_ifs with hblank
  · rfl
  · rw [List.isEmpty_iff] at hblank
    obtain ⟨c, r, hr⟩ := List.exists_cons_of_ne_nil hblank
    have hc : c ≠ '#' := by
      rintro rfl
      rw [isComment, hr] at h
      cases h
    rw [hr, List.cons_append]
    simpa using hc

/-- The new line changes what the file says, unless it is written behind a comment. -/
theorem effective_append (f : TextFile) :
    effective (some (f.append settingYes)) = effective (some f) ↔ isComment f.rest = true := by
  have hnew : effective (some (f.append settingYes)) =
      f.lines.filter saysSomething ++ [f.rest ++ settingYes].filter saysSomething :=
    List.filter_append _ _
  cases hcomment : isComment f.rest with
  | true =>
    have hold : effective (some f) =
        f.lines.filter saysSomething ++ [f.rest].filter saysSomething := by
      rw [← List.filter_append, ← allLines_of_comment hcomment]
      rfl
    have hlong := saysSomething_of_comment (isComment_append hcomment settingYes)
    rw [hnew, hold, List.filter_singleton, List.filter_singleton, hlong,
      saysSomething_of_comment hcomment]
    exact iff_of_true rfl rfl
  | false =>
    apply iff_of_false _ Bool.false_ne_true
    have hlong : [f.rest ++ settingYes].filter saysSomething = [f.rest ++ settingYes] := by
      rw [List.filter_singleton, saysSomething_append hcomment]
      rfl
    rw [hnew, hlong]
    intro heq
    by_cases hrest : f.rest = []
    · have hold : effective (some f) = f.lines.filter saysSomething := by
        rw [effective, configLines, Option.map_some, Option.getD_some, TextFile.allLines,
          if_pos hrest]
      rw [hold] at heq
      have hlength := congrArg List.length heq
      simp at hlength
    · have hold : effective (some f) =
          f.lines.filter saysSomething ++ [f.rest].filter saysSomething := by
        rw [effective, configLines, Option.map_some, Option.getD_some, TextFile.allLines,
          if_neg hrest, List.filter_append]
      rw [hold] at heq
      have htail := List.append_cancel_left heq
      rw [List.filter_singleton] at htail
      cases htold : saysSomething f.rest with
      | false =>
        rw [htold] at htail
        cases htail
      | true =>
        rw [htold] at htail
        have hlength := congrArg List.length (List.cons.inj htail).1
        rw [List.length_append] at hlength
        have hpos : settingYes.length = 25 := rfl
        omega

theorem checkingOff_append (applies : Text → Bool) (h : isComment f.rest = true) :
    checkingOff applies (some (f.append settingNo)) = checkingOff applies (some f) := by
  have hnew : configLines (some (f.append settingNo)) = f.lines ++ [f.rest ++ settingNo] := rfl
  have hold : configLines (some f) = f.lines ++ [f.rest] := allLines_of_comment h
  rw [checkingOff, checkingOff, hnew, hold, firstSetting_append_comment (isComment_append h _),
    firstSetting_append_comment h]

end File

theorem turnedOffAndBack_none (applies : Text → Bool) : ¬TurnedOffAndBack applies none := by
  rintro ⟨-, heffective⟩
  have hafter : effective (devolverValorHostCheck (comprobarHostKeyChecking (sourced none))).config
      = [settingYes] := by rfl
  rw [hafter] at heffective
  cases heffective

/-- For every `~/.ssh/config`, the two calls turn checking off and restore the file if and only if
the file is `reversible`. -/
theorem hostKeyChecking_restored_iff (applies : Text → Bool) (config : Option TextFile) :
    TurnedOffAndBack applies config ↔ reversible applies config = true := by
  cases config with
  | none => exact iff_of_false (turnedOffAndBack_none applies) Bool.false_ne_true
  | some f =>
    rw [TurnedOffAndBack, reversible]
    cases hkey : f.greps strictHostKeyChecking with
    | false =>
      have hbetween : comprobarHostKeyChecking (sourced (some f)) =
          ⟨some (f.append settingNo), true⟩ := by
        rw [comprobarHostKeyChecking, sourced]
        dsimp only
        rw [hkey, if_neg Bool.false_ne_true]
      have hafter : (devolverValorHostCheck ⟨some (f.append settingNo), true⟩).config =
          some (f.append settingYes) := congrArg some (sed_append hkey)
      rw [hbetween, hafter, effective_append, if_neg Bool.false_ne_true, Bool.and_eq_true, and_comm]
      exact and_congr_right fun hcomment => by rw [checkingOff_append applies hcomment]
    | true =>
      rw [if_pos rfl]
      cases hno : f.greps settingNo with
      | true =>
        have hbetween : comprobarHostKeyChecking (sourced (some f)) = sourced (some f) := by
          rw [comprobarHostKeyChecking, sourced]
          dsimp only
          rw [hkey, hno, if_pos rfl]
          rfl
        rw [hbetween, if_pos rfl]
        exact and_iff_left rfl
      | false =>
        have hbetween : comprobarHostKeyChecking (sourced (some f)) =
            ⟨some (f.sed settingYes settingNo), true⟩ := by
          rw [comprobarHostKeyChecking, sourced]
          dsimp only
          rw [hkey, hno, if_pos rfl]
          rfl
        have hafter : (devolverValorHostCheck ⟨some (f.sed settingYes settingNo), true⟩).config =
            some f := congrArg some (sed_sed hno)
        rw [hbetween, hafter, checkingOff_sed, if_neg Bool.false_ne_true]
        exact and_iff_left rfl

/-- Where there was no file, there is one afterwards that turns checking on. -/
theorem checking_left_on : ¬TurnedOffAndBack (fun _ => true) none ∧
    (devolverValorHostCheck (comprobarHostKeyChecking (sourced none))).config.map
      TextFile.allLines = some [settingYes] :=
  ⟨turnedOffAndBack_none _, rfl⟩

end Shield.Auditoria
end Sisop
