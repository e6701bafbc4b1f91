import Sisop.Shield
import Mathlib.Data.List.DropRight
import Mathlib.Data.List.GetD

/-!
# Watching the configuration

At the start shell registers what the files of `MODULES_CONFIG` contain, in the order of their
names, in an array. A job in the background reads them again from time to time into an array of its
own, which keeps what it held, and asks for an update at the first index at which the two arrays
differ. The indices are those of the current files.
-/

namespace Sisop.Shield.Cambios

/-- An array of bash: what was never assigned reads as the empty text. -/
abbrev BashArray := ℕ → Text

def BashArray.unset : BashArray := fun _ => []

structure Directory where
  files : List (Text × Text)
  nodup : (files.map Prod.fst).Nodup

structure Home where
  comandos : Text
  periodicos : Text
  nucleo : Text
  modulesConfig : Directory

def captured (l : Text) : Text := l.rdropWhile (· = '\n')

/-- The lines of an array's loop are the words of `ls`; the name order is that of the locale. -/
def lines (order : Text → Text → Bool) (d : Directory) : List Text :=
  let names := (d.files.map Prod.fst).filter fun name => name.head? ≠ some '.'
  shellWords (joined '\n' (names.insertionSort fun a b => order a b = true))

def cat (d : Directory) (name : Text) : Text := captured ((d.files.lookup name).getD [])

def contents (order : Text → Text → Bool) (d : Directory) : List Text := (lines order d).map (cat d)

/-- `vec[i+1]="$(cat path/line)"` -/
def asignar (d : Directory) (st : BashArray × ℕ) (line : Text) : BashArray × ℕ :=
  (Function.update st.1 (st.2 + 1) (cat d line), st.2 + 1)

/-- The variables that `registrar` sets for the watching job. -/
structure Registrado where
  configComandos : Text
  configPeriod : Text
  configNucleo : Text
  vecModConfs : BashArray
  cantModConfs : ℕ

/-- `unsetearVecs` was run before, or nothing has been assigned yet. -/
def registrar (order : Text → Text → Bool) (home : Home) : Registrado :=
  let filled := (lines order home.modulesConfig).foldl (asignar home.modulesConfig) (.unset, 0)
  { configComandos := captured home.comandos
    configPeriod := captured home.periodicos
    configNucleo := captured home.nucleo
    vecModConfs := filled.1
    cantModConfs := filled.2 }

/-- One iteration of the loop: `vec_modconf_loc` after it, and whether it sent
`SIGUSR2`. -/
def verificarYrealizarCambios (order : Text → Text → Bool) (r : Registrado) (home : Home)
    (vecModconfLoc : BashArray) : BashArray × Bool :=
  if r.configComandos ≠ captured home.comandos ∨ r.configPeriod ≠ captured home.periodicos then
    (vecModconfLoc, true)
  else if r.configNucleo ≠ captured home.nucleo then (vecModconfLoc, true)
  else
    let d := home.modulesConfig
    let filled := (lines order d).foldl (asignar d) (vecModconfLoc, 0)
    (filled.1, (List.range' 1 filled.2).any fun line => filled.1 line ≠ r.vecModConfs line)

/-- `vec_modconf_loc` after iterations that found these files. -/
def verificaciones (order : Text → Text → Bool) (r : Registrado) (homes : List Home) : BashArray :=
  homes.foldl (fun loc home => (verificarYrealizarCambios order r home loc).1) .unset

variable {order : Text → Text → Bool}

section Arrays

variable (d) (names : List Text)

theorem asignar_count (st : BashArray × ℕ) :
    (names.foldl (asignar d) st).2 = st.2 + names.length := by
  induction names generalizing st with
  | nil => rfl
  | cons name names ih =>
    rw [List.foldl_cons, ih, List.length_cons]
    dsimp only [asignar]
    omega

theorem asignar_frame (st : BashArray × ℕ) {i : ℕ} (hi : i ≤ st.2) :
    (names.foldl (asignar d) st).1 i = st.1 i := by
  induction names generalizing st with
  | nil => rfl
  | cons name names ih =>
    rw [List.foldl_cons, ih _ (Nat.le_succ_of_le hi)]
    exact Function.update_of_ne (by omega) _ _

/-- The loop writes the contents from its index on, and keeps what stands behind them. -/
theorem asignar_value (st : BashArray × ℕ) (i : ℕ) :
    (names.foldl (asignar d) st).1 (st.2 + 1 + i) =
      if i < names.length then (names.map (cat d)).getD i [] else st.1 (st.2 + 1 + i) := by
  induction names generalizing st i with
  | nil => rfl
  | cons name names ih =>
    rw [List.foldl_cons]
    cases i with
    | zero =>
      have hfirst : (names.foldl (asignar d) (asignar d st name)).1 (st.2 + 1) =
          (asignar d st name).1 (st.2 + 1) := asignar_frame d names _ (Nat.le_refl _)
      rw [Nat.add_zero, hfirst, if_pos (List.length_pos_of_mem List.mem_cons_self)]
      exact Function.update_self _ _ _
    | succ i =>
      have hnext := ih (asignar d st name) i
      have hindex : (asignar d st name).2 + 1 + i = st.2 + 1 + (i + 1) := by
        dsimp only [asignar]
        omega
      have hkept : (asignar d st name).1 (st.2 + 1 + (i + 1)) = st.1 (st.2 + 1 + (i + 1)) :=
        Function.update_of_ne (by omega) _ _
      rw [hindex, hkept] at hnext
      rw [hnext, List.length_cons, List.map_cons, List.getD_cons_succ]
      simp only [Nat.add_lt_add_iff_right]

end Arrays

theorem registrar_value (order : Text → Text → Bool) (home : Home) (i : ℕ) :
    (registrar order home).vecModConfs (i + 1) = (contents order home.modulesConfig).getD i [] := by
  have hvalue := asignar_value home.modulesConfig (lines order home.modulesConfig) (.unset, 0) i
  rw [Nat.zero_add, Nat.add_comm 1 i] at hvalue
  rw [registrar]
  dsimp only
  rw [hvalue, contents]
  split_ifs with hi
  · rfl
  · rw [List.getD_eq_default]
    · rfl
    · rw [List.length_map]
      exact Nat.le_of_not_lt hi

/-- What the array of the job held before does not matter: only what was assigned is compared. -/
theorem verificarYrealizarCambios_sends_iff (home : Home) (d : Directory) (vec : BashArray) :
    (verificarYrealizarCambios order (registrar order home)
        { home with modulesConfig := d } vec).2 = true ↔
      ¬∀ i < (contents order d).length,
        (contents order d).getD i [] = (contents order home.modulesConfig).getD i [] := by
  have hvalue : ∀ i < (contents order d).length,
      ((lines order d).foldl (asignar d) (vec, 0)).1 (i + 1) = (contents order d).getD i [] := by
    intro i hi
    rw [contents, List.length_map] at hi
    have hassigned := asignar_value d (lines order d) (vec, 0) i
    rwa [Nat.zero_add, Nat.add_comm 1 i, if_pos hi] at hassigned
  have hcount : ((lines order d).foldl (asignar d) (vec, 0)).2 = (contents order d).length := by
    rw [asignar_count, contents, List.length_map, Nat.zero_add]
  rw [verificarYrealizarCambios, if_neg (by simp [registrar]), if_neg (by simp [registrar])]
  dsimp only
  rw [List.any_eq_true, hcount]
  constructor
  · rintro ⟨line, hline, hdiffer⟩ hsame
    rw [List.mem_range'_1] at hline
    obtain ⟨i, rfl⟩ := Nat.exists_eq_add_of_le' hline.1
    have hi : i < (contents order d).length := by omega
    rw [hvalue i hi, registrar_value, hsame i hi] at hdiffer
    simp at hdiffer
  · intro hdiffer
    push Not at hdiffer
    obtain ⟨i, hi, hne⟩ := hdiffer
    have hline : i + 1 ∈ List.range' 1 (contents order d).length :=
      List.mem_range'_1.mpr ⟨by omega, by omega⟩
    refine ⟨i + 1, hline, ?_⟩
    rw [hvalue i hi, registrar_value]
    exact decide_eq_true hne

/-- As far as the current list goes, the recorded one and empty texts behind it agree with it. -/
theorem agree_iff (before now : List Text) :
    (∀ i < now.length, now.getD i [] = before.getD i []) ↔
      now <+: before ∨ ∃ k, now = before ++ List.replicate k [] := by
  induction now generalizing before with
  | nil => exact iff_of_true (fun i hi => absurd hi (Nat.not_lt_zero i)) (.inl List.nil_prefix)
  | cons c now ih =>
    cases before with
    | nil =>
      constructor
      · intro hsame
        refine .inr ⟨now.length + 1, ?_⟩
        rw [List.nil_append, List.eq_replicate_iff]
        refine ⟨rfl, fun l hl => ?_⟩
        obtain ⟨i, hi, rfl⟩ := List.mem_iff_getElem.mp hl
        have hempty := hsame i hi
        rwa [List.getD_eq_getElem _ _ hi, List.getD_nil] at hempty
      · rintro (hshort | ⟨k, heq⟩) i hi
        · cases List.prefix_nil.mp hshort
        · rw [List.nil_append] at heq
          rw [heq, List.length_replicate] at hi
          rw [heq, List.getD_replicate _ hi, List.getD_nil]
    | cons b before =>
      have htail : (∀ i < (c :: now).length, (c :: now).getD i [] = (b :: before).getD i []) ↔
          c = b ∧ ∀ i < now.length, now.getD i [] = before.getD i [] := by
        rw [List.length_cons, Nat.forall_lt_succ_left']
        rfl
      rw [htail, ih before, List.cons_prefix_cons]
      simp only [List.cons_append, List.cons.injEq]
      constructor
      · rintro ⟨hc, hshort | ⟨k, heq⟩⟩
        · exact .inl ⟨hc, hshort⟩
        · exact .inr ⟨k, hc, heq⟩
      · rintro (⟨hc, hshort⟩ | ⟨k, hc, heq⟩)
        · exact ⟨hc, .inl hshort⟩
        · exact ⟨hc, .inr ⟨k, heq⟩⟩

/-- Files were taken away at the end, or empty ones were added there. -/
def Overlooked (before now : List Text) : Prop :=
  now ≠ before ∧ (now <+: before ∨ ∃ k, now = before ++ List.replicate k [])

/-- After iterations that found `earlier`, the one that finds `d` asks for an update if and only if
the contents are no longer those that were registered. -/
def Noticed (order : Text → Text → Bool) (home : Home) (earlier : List Home) (d : Directory) :
    Prop :=
  let r := registrar order home
  (verificarYrealizarCambios order r { home with modulesConfig := d }
      (verificaciones order r earlier)).2 = true ↔
    contents order home.modulesConfig ≠ contents order d

theorem change_noticed_iff (order : Text → Text → Bool) (home : Home) (earlier : List Home)
    (d : Directory) : Noticed order home earlier d ↔
      ¬Overlooked (contents order home.modulesConfig) (contents order d) := by
  rw [Noticed, verificarYrealizarCambios_sends_iff, agree_iff, Overlooked, not_and]
  by_cases hsame : contents order d = contents order home.modulesConfig
  · rw [hsame]
    simp
  · apply Iff.intro
    · exact fun h _ => h.mpr (Ne.symm hsame)
    · exact fun h => iff_of_true (h hsame) (Ne.symm hsame)

def oneFile : Directory := ⟨[("limitaciones.config".toList, "50".toList)], by decide⟩

def twoFiles : Directory where
  files := ("seguridad.config".toList, "rm".toList) :: oneFile.files
  nodup := by decide

/-- The last file in the order of the names is taken away, and nothing is sent. -/
theorem removal_overlooked : ¬Noticed Shield.before ⟨[], [], [], twoFiles⟩ [] oneFile := by
  intro hnoticed
  have hsent := hnoticed.mpr (by decide)
  revert hsent
  decide

end Sisop.Shield.Cambios
