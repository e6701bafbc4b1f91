import Sisop.ShellText
import Sisop.GuardedRun

/-!
# Configuring and resetting users

`.configurar.sh` and `.resetear.sh` look a user up by its bare name with `grep` and delete with
`sed`, in `/etc/passwd`, `.configured_users`, `ShieldUsers` and `/etc/sudoers`. Over them stands
what they are for: a list of the configured users with the shells they had.
-/

namespace Sisop.Shield

/-- A line of `/etc/passwd`; `middle` is what stands between the name and the shell. -/
structure Registro where
  name : Text
  middle : Text
  shell : Text
  deriving DecidableEq

def Registro.line (r : Registro) : Text := r.name ++ ':' :: (r.middle ++ ':' :: r.shell)

/-- The files the scripts read and write, a list of lines each. -/
structure Sistema where
  root : Bool
  instalado : Bool
  hostname : Text
  passwd : List Registro
  shadow : List Text
  configuredUsers : List Text
  shieldUsers : List Text
  sudoers : List Text
  deriving DecidableEq

def shieldShell : Text := "/usr/bin/shield.sh".toList

def chsh (shell name : Text) (passwd : List Registro) : List Registro :=
  passwd.map fun r => if r.name = name then { r with shell := shell } else r

def configuredLine (name shell : Text) : Text := name ++ ':' :: shell

def poweroffLine (hostname name : Text) : Text :=
  name ++ ' ' :: (hostname ++ "=NOPASSWD: /sbin/poweroff   #shield".toList)

def chshLine (hostname name : Text) : Text :=
  name ++ ' ' :: (hostname ++ "=NOPASSWD: /usr/bin/chsh    #shield".toList)

/-- `grep ${USER_NAME} | grep word | grep shield` -/
def sudoersGrep (name word : Text) (sudoers : List Text) : List Text :=
  grep "shield".toList (grep word (grep name sudoers))

def configurar (name : Text) (s : Sistema) : ℕ × Sistema :=
  if !s.root || !s.instalado then (1, s)
  else if grep name s.shadow = [] then (1, s)
  else if grep name s.configuredUsers ≠ [] then (1, s)
  else
    let userData := joined '\n' (grep name (s.passwd.map Registro.line))
    let prevShell := afterLast ':' userData
    (0, { s with
      configuredUsers := s.configuredUsers ++ [configuredLine name prevShell]
      passwd := chsh shieldShell name s.passwd
      sudoers := s.sudoers ++ [poweroffLine s.hostname name, chshLine s.hostname name]
      shieldUsers := s.shieldUsers ++ [name] })

/-- `reinstaurarShell $USER_DATA`, which is `chsh -s $2 $1`: a word too few and it is the shell of
the user who runs the script. -/
def reinstaurarShell (args : List Text) (passwd : List Registro) : List Registro :=
  match args with
  | name :: shell :: _ => chsh shell name passwd
  | [shell] => chsh shell "root".toList passwd
  | [] => passwd

def resetear (name : Text) (s : Sistema) : ℕ × Sistema :=
  if !s.root || !s.instalado then (1, s)
  else if s.shieldUsers.all (· = []) then (1, s)
  else if grep name s.configuredUsers = [] then (1, s)
  else
    let userData := joined '\n' (grep name s.configuredUsers)
    let args := shellWords (tr ':' ' ' (joined ' ' (shellWords userData)))
    let pattern := tr ' ' ':' (joined ' ' args)
    let poweroffOff := joined '\n' (sudoersGrep name "poweroff".toList s.sudoers)
    let sudoers := sedErase poweroffOff s.sudoers
    let chshOff := joined '\n' (sudoersGrep name "chsh".toList sudoers)
    (0, { s with
      passwd := reinstaurarShell args s.passwd
      configuredUsers := sedBlank (sedErase pattern s.configuredUsers)
      sudoers := sedBlank (sedErase chshOff sudoers)
      shieldUsers := sedBlank (sedErase name s.shieldUsers) })

inductive Orden
  | configurar (name : Text)
  | resetear (name : Text)

def Sistema.exec (s : Sistema) : Orden → Sistema
  | .configurar name => (Shield.configurar name s).2
  | .resetear name => (Shield.resetear name s).2

/-- What configuring is for: the accounts, and each configured user with the shell it had. -/
structure Cuentas where
  passwd : List Registro
  configurados : List (Text × Text) := []

namespace Cuentas

def configurar (name : Text) (a : Cuentas) : Cuentas :=
  match a.passwd.find? (·.name = name) with
  | some r =>
    if name ∈ a.configurados.map Prod.fst then a
    else
      { passwd := chsh shieldShell name a.passwd
        configurados := a.configurados ++ [(name, r.shell)] }
  | none => a

def resetear (name : Text) (a : Cuentas) : Cuentas :=
  match a.configurados.find? (·.1 = name) with
  | some c =>
    { passwd := chsh c.2 name a.passwd
      configurados := a.configurados.filter (·.1 ≠ name) }
  | none => a

def exec (a : Cuentas) : Orden → Cuentas
  | .configurar name => a.configurar name
  | .resetear name => a.resetear name

end Cuentas

/-- A word that `grep`, `sed` and the shell take as it is, and not as an option. -/
def Plain (w : Text) : Prop :=
  w ≠ [] ∧ w.head? ≠ some '-' ∧
    ∀ c ∈ w, c ≠ ':' ∧ blank c = false ∧ c ∉ ['*', '[', '\\', '^', '$', '|']

instance (w : Text) : Decidable (Plain w) :=
  @instDecidableAnd _ _ _ (@instDecidableAnd _ _ _ (List.decidableBAll _ w))

/-- The name finds no account but the user's own, or one with the same shell behind it, and no
other configured user. -/
structure CanConfigure (name : Text) (s : Sistema) : Prop where
  plain : Plain name
  known : (∃ r ∈ s.passwd, r.name = name) ∨ grep name s.shadow = []
  last : ∀ r ∈ s.passwd, r.name = name →
    (grep name (s.passwd.map Registro.line)).getLast?.map (afterLast ':') = some r.shell
  free : name ∈ s.shieldUsers ∨ grep name s.configuredUsers = []

/-- Nothing but the user's own lines is found under its name. -/
structure CanReset (name : Text) (s : Sistema) : Prop where
  plain : Plain name
  configured : ∀ line ∈ s.configuredUsers, occurs name line = true → name ++ [':'] <+: line
  users : ∀ line ∈ s.shieldUsers, occurs name line = true → line = name
  sudoers : name ∈ s.shieldUsers →
    sudoersGrep name "poweroff".toList s.sudoers = [poweroffLine s.hostname name] ∧
      sudoersGrep name "chsh".toList s.sudoers = [chshLine s.hostname name]

section Lines

variable {name name' shell word hostname : Text}

theorem Plain.not_mem {w : Text} (h : Plain w) {c : Char} (hc : c = ':' ∨ blank c = true) :
    c ∉ w := by
  intro hmem
  obtain ⟨hcolon, hblank, -⟩ := h.2.2 c hmem
  rcases hc with rfl | hc
  · exact hcolon rfl
  · rw [hblank] at hc
    cases hc

theorem Plain.not_mem_colon {w : Text} (h : Plain w) : ':' ∉ w := h.not_mem (.inl rfl)

theorem Plain.not_mem_space {w : Text} (h : Plain w) : ' ' ∉ w := h.not_mem (.inr rfl)

theorem Plain.not_mem_break {w : Text} (h : Plain w) : '\n' ∉ w := h.not_mem (.inr rfl)

theorem Plain.not_blank {w : Text} (h : Plain w) : ∀ c ∈ w, blank c = false :=
  fun c hc => (h.2.2 c hc).2.1

/-- The line of one user does not begin with the name of another. -/
theorem name_of_configuredLine (hname : Plain name) (hname' : Plain name')
    (h : name ++ [':'] <+: configuredLine name' shell) : name = name' := by
  obtain ⟨rest, hrest⟩ := h
  rw [List.append_assoc] at hrest
  exact (cut_inj hname.not_mem_colon hname'.not_mem_colon hrest).1

theorem configuredLine_ne_nil : configuredLine name shell ≠ [] := by
  rw [configuredLine]
  exact List.append_ne_nil_of_right_ne_nil _ (List.cons_ne_nil _ _)

theorem poweroffLine_ne_nil : poweroffLine hostname name ≠ [] :=
  List.append_ne_nil_of_right_ne_nil _ (List.cons_ne_nil _ _)

theorem chshLine_ne_nil : chshLine hostname name ≠ [] :=
  List.append_ne_nil_of_right_ne_nil _ (List.cons_ne_nil _ _)

theorem poweroffLine_inj (hname : Plain name) (hname' : Plain name')
    (h : poweroffLine hostname name = poweroffLine hostname name') : name = name' :=
  (cut_inj hname.not_mem_space hname'.not_mem_space h).1

theorem chshLine_inj (hname : Plain name) (hname' : Plain name')
    (h : chshLine hostname name = chshLine hostname name') : name = name' :=
  (cut_inj hname.not_mem_space hname'.not_mem_space h).1

theorem poweroffLine_ne_chshLine (hostname : Text) (hname : Plain name) (hname' : Plain name') :
    poweroffLine hostname name ≠ chshLine hostname name' := by
  intro h
  have htails := List.append_cancel_left
    (cut_inj hname.not_mem_space hname'.not_mem_space h).2
  revert htails
  decide

theorem mem_sudoersGrep (hname : name ≠ []) (hword : word ≠ []) {lines : List Text} {l : Text} :
    l ∈ sudoersGrep name word lines ↔ l ∈ lines ∧ occurs name l = true ∧ occurs word l = true ∧
      occurs "shield".toList l = true := by
  rw [sudoersGrep, mem_grep (by decide), mem_grep hword, mem_grep hname]
  simp only [and_assoc]

theorem poweroffLine_break (hname : Plain name) (hhost : Plain hostname) :
    '\n' ∉ poweroffLine hostname name := by
  have hname := hname.not_mem_break
  have hhost := hhost.not_mem_break
  simp [poweroffLine, hname, hhost]

theorem chshLine_break (hname : Plain name) (hhost : Plain hostname) :
    '\n' ∉ chshLine hostname name := by
  have hname := hname.not_mem_break
  have hhost := hhost.not_mem_break
  simp [chshLine, hname, hhost]

theorem occurs_of_poweroffLine {l : Text} (h : occurs (poweroffLine hostname name) l = true) :
    occurs name l = true ∧ occurs "poweroff".toList l = true ∧
      occurs "shield".toList l = true := by
  have hcut : poweroffLine hostname name =
      (name ++ ' ' :: (hostname ++ "=NOPASSWD: /sbin/".toList)) ++
        ("poweroff".toList ++ ("   #".toList ++ "shield".toList)) := by
    simp [poweroffLine]
  have hname := occurs_append_left h
  rw [hcut] at h
  have htail := occurs_append_right h
  exact ⟨hname, occurs_append_left htail, occurs_append_right (occurs_append_right htail)⟩

theorem occurs_of_chshLine {l : Text} (h : occurs (chshLine hostname name) l = true) :
    occurs name l = true ∧ occurs "chsh".toList l = true ∧ occurs "shield".toList l = true := by
  have hcut : chshLine hostname name =
      (name ++ ' ' :: (hostname ++ "=NOPASSWD: /usr/bin/".toList)) ++
        ("chsh".toList ++ ("    #".toList ++ "shield".toList)) := by
    simp [chshLine]
  have hname := occurs_append_left h
  rw [hcut] at h
  have htail := occurs_append_right h
  exact ⟨hname, occurs_append_left htail, occurs_append_right (occurs_append_right htail)⟩

/-- The one line that is found is erased, and no other. -/
theorem sedErase_found {lines : List Text} {p : Text} (hname : name ≠ []) (hword : word ≠ [])
    (hp : p ≠ []) (hbreak : '\n' ∉ p)
    (hparts : ∀ l, occurs p l = true →
      occurs name l = true ∧ occurs word l = true ∧ occurs "shield".toList l = true)
    (h : sudoersGrep name word lines = [p]) :
    sedErase (joined '\n' (sudoersGrep name word lines)) lines = lines.map (blankOut p) := by
  rw [h, joined]
  apply sedErase_eq_map hp hbreak
  intro l hl hoccurs
  have hfound := (mem_sudoersGrep hname hword).mpr ⟨hl, hparts l hoccurs⟩
  rw [h] at hfound
  exact List.mem_singleton.mp hfound

theorem sudoersGrep_map_blankOut (hname : name ≠ []) (p : Text) (lines : List Text) :
    sudoersGrep name word (lines.map (blankOut p)) =
      (sudoersGrep name word lines).filter (· ≠ p) := by
  rw [sudoersGrep, sudoersGrep, grep_map_blankOut hname, grep_filter, grep_filter]

theorem sudoers_resetear (hname : Plain name) (hhost : Plain hostname) {lines : List Text}
    (hpoweroff : sudoersGrep name "poweroff".toList lines = [poweroffLine hostname name])
    (hchsh : sudoersGrep name "chsh".toList lines = [chshLine hostname name]) :
    let sudoers := sedErase (joined '\n' (sudoersGrep name "poweroff".toList lines)) lines
    sedBlank (sedErase (joined '\n' (sudoersGrep name "chsh".toList sudoers)) sudoers) =
      ((sedBlank lines).filter (· ≠ poweroffLine hostname name)).filter
        (· ≠ chshLine hostname name) := by
  intro sudoers
  have hfirst : sudoers = lines.map (blankOut (poweroffLine hostname name)) :=
    sedErase_found hname.1 (by decide) poweroffLine_ne_nil (poweroffLine_break hname hhost)
      (fun _ => occurs_of_poweroffLine) hpoweroff
  have hfound : sudoersGrep name "chsh".toList sudoers = [chshLine hostname name] := by
    rw [hfirst, sudoersGrep_map_blankOut hname.1, hchsh]
    have hother := (poweroffLine_ne_chshLine hostname hname hname).symm
    exact List.filter_cons_of_pos (by simpa using hother)
  rw [sedErase_found hname.1 (by decide) chshLine_ne_nil (chshLine_break hname hhost)
    (fun _ => occurs_of_chshLine) hfound, sedBlank_map_blankOut, hfirst, sedBlank_map_blankOut]

end Lines

def Sistema.Guard (s : Sistema) : Orden → Prop
  | .configurar name => CanConfigure name s
  | .resetear name => CanReset name s

/-- A system that Shield has been installed on and that it has not configured anybody in yet. -/
structure Sistema.Ready (s : Sistema) : Prop where
  root : s.root = true
  instalado : s.instalado = true
  hostname : Plain s.hostname
  names : (s.passwd.map Registro.name).Nodup
  shells : ∀ r ∈ s.passwd, Plain r.shell
  shadow : ∀ r ∈ s.passwd, grep r.name s.shadow ≠ []
  configuredUsers : s.configuredUsers = []
  shieldUsers : s.shieldUsers = []

def sudoersLines (hostname : Text) (c : Text × Text) : List Text :=
  [poweroffLine hostname c.1, chshLine hostname c.1]

/-- The files hold the accounts and the configured users, and `sudoers` what it held before. -/
structure Represents (base s : Sistema) (a : Cuentas) : Prop where
  root : s.root = true
  instalado : s.instalado = true
  hostname : s.hostname = base.hostname
  shadow : s.shadow = base.shadow
  passwd : s.passwd = a.passwd
  names : a.passwd.map Registro.name = base.passwd.map Registro.name
  shells : ∀ r ∈ a.passwd, Plain r.shell
  configuredUsers : s.configuredUsers = a.configurados.map fun c => configuredLine c.1 c.2
  shieldUsers : s.shieldUsers = a.configurados.map Prod.fst
  sudoers : sedBlank s.sudoers =
    sedBlank base.sudoers ++ a.configurados.flatMap (sudoersLines base.hostname)
  plain : ∀ c ∈ a.configurados, Plain c.1 ∧ Plain c.2
  nodup : (a.configurados.map Prod.fst).Nodup

section Refinement

variable {base s : Sistema} {a : Cuentas} {name : Text}

/-- In a list with one entry for each key, the entries of a key are one. -/
theorem filter_fst_eq {α β : Type*} [DecidableEq α] {l : List (α × β)} {a : α} {b : β}
    (hnodup : (l.map Prod.fst).Nodup) (hin : (a, b) ∈ l) :
    l.filter (fun c => decide (c.1 = a)) = [(a, b)] := by
  induction l with
  | nil => cases hin
  | cons c l ih =>
    rw [List.map_cons, List.nodup_cons] at hnodup
    rcases List.mem_cons.mp hin with rfl | hin
    · have hrest : l.filter (fun c => decide (c.1 = a)) = [] := by
        apply List.filter_eq_nil_iff.mpr
        intro c hc hca
        have hca : c.1 = a := by simpa using hca
        have hkey := List.mem_map_of_mem (f := Prod.fst) hc
        rw [hca] at hkey
        exact hnodup.1 hkey
      rw [List.filter_cons_of_pos (by simp), hrest]
    · have hne : ¬ c.1 = a := by
        rintro rfl
        have hkey := List.mem_map_of_mem (f := Prod.fst) hin
        exact hnodup.1 hkey
      rw [List.filter_cons_of_neg (by simpa using hne), ih hnodup.2 hin]

theorem chsh_names (shell name : Text) (passwd : List Registro) :
    (chsh shell name passwd).map Registro.name = passwd.map Registro.name := by
  rw [chsh, List.map_map]
  apply List.map_congr_left
  intro r _
  rw [Function.comp_apply]
  split <;> rfl

theorem chsh_shells {shell : Text} (hshell : Plain shell) {passwd : List Registro}
    (h : ∀ r ∈ passwd, Plain r.shell) : ∀ r ∈ chsh shell name passwd, Plain r.shell := by
  intro r hr
  obtain ⟨r', hr', rfl⟩ := List.mem_map.mp hr
  split
  · exact hshell
  · exact h r' hr'

theorem shieldShell_plain : Plain shieldShell := by decide

/-- A name has one account. -/
theorem Represents.unique (hbase : base.Ready) (h : Represents base s a) {r r' : Registro}
    (hr : r ∈ a.passwd) (hr' : r' ∈ a.passwd) (hname : r.name = r'.name) : r = r' := by
  have hnodup := hbase.names
  rw [← h.names] at hnodup
  exact List.inj_on_of_nodup_map hnodup hr hr' hname

theorem Represents.find_account (hbase : base.Ready) (h : Represents base s a) {r : Registro}
    (hr : r ∈ a.passwd) : a.passwd.find? (·.name = r.name) = some r := by
  cases hfind : a.passwd.find? (·.name = r.name) with
  | none =>
    have hnone := List.find?_eq_none.mp hfind r hr
    simp at hnone
  | some r' =>
    have hname : r'.name = r.name := by simpa using List.find?_some hfind
    rw [h.unique hbase (List.mem_of_find?_eq_some hfind) hr hname]

theorem Represents.find_configured (h : Represents base s a) {c : Text × Text}
    (hc : c ∈ a.configurados) : a.configurados.find? (·.1 = c.1) = some c := by
  cases hfind : a.configurados.find? (·.1 = c.1) with
  | none =>
    have hnone := List.find?_eq_none.mp hfind c hc
    simp at hnone
  | some c' =>
    have hname : c'.1 = c.1 := by simpa using List.find?_some hfind
    rw [List.inj_on_of_nodup_map h.nodup (List.mem_of_find?_eq_some hfind) hc hname]

theorem Represents.grep_shadow (hbase : base.Ready) (h : Represents base s a) {r : Registro}
    (hr : r ∈ a.passwd) : grep r.name base.shadow ≠ [] := by
  have hname := List.mem_map_of_mem (f := Registro.name) hr
  rw [h.names] at hname
  obtain ⟨r', hr', hsame⟩ := List.mem_map.mp hname
  rw [← hsame]
  exact hbase.shadow r' hr'

/-- A configured user finds its own line. -/
theorem Represents.grep_configured (h : Represents base s a) (hname : name ≠ [])
    (hin : name ∈ a.configurados.map Prod.fst) : grep name s.configuredUsers ≠ [] := by
  obtain ⟨c, hc, rfl⟩ := List.mem_map.mp hin
  have hline : configuredLine c.1 c.2 ∈ grep c.1 s.configuredUsers := by
    rw [mem_grep hname, h.configuredUsers]
    exact ⟨List.mem_map_of_mem hc, occurs_append _ _⟩
  exact List.ne_nil_of_mem hline

/-- What stands behind the last colon of the lines found is the user's own shell. -/
theorem prevShell_eq (h : Represents base s a) (hc : CanConfigure name s) {r : Registro}
    (hr : r ∈ a.passwd) (hname : r.name = name) :
    afterLast ':' (joined '\n' (grep name (s.passwd.map Registro.line))) = r.shell := by
  have hmap := hc.last r (by rw [h.passwd]; exact hr) hname
  obtain ⟨line, hlast, hshell⟩ := Option.map_eq_some_iff.mp hmap
  have hline := ((mem_grep hc.plain.1).mp (List.mem_of_getLast? hlast)).1
  obtain ⟨r', hr', rfl⟩ := List.mem_map.mp hline
  rw [h.passwd] at hr'
  have hcolon := (h.shells r' hr').not_mem_colon
  have hcut : ∀ front : Text, afterLast ':' (front ++ r'.line) = r'.shell := by
    intro front
    have hparts : front ++ r'.line =
        (front ++ (r'.name ++ ':' :: r'.middle)) ++ ':' :: r'.shell := by
      simp [Registro.line]
    rw [hparts, afterLast_cut hcolon]
  obtain ⟨front, hfront⟩ := exists_joined_concat '\n'
    (grep name (s.passwd.map Registro.line)).dropLast r'.line
  rw [List.dropLast_append_getLast? _ hlast] at hfront
  have hown := hcut []
  rw [List.nil_append, hshell] at hown
  rw [hfront, hcut, hown]

theorem configurar_represents (hbase : base.Ready) (h : Represents base s a)
    (hc : CanConfigure name s) :
    Represents base (configurar name s).2 (a.configurar name) := by
  have hgoes : ¬ (!s.root || !s.instalado) = true := by simp [h.root, h.instalado]
  rw [configurar, if_neg hgoes]
  by_cases hshadow : grep name s.shadow = []
  · -- No such user: the script ends and there is no account of that name.
    have hnone : a.passwd.find? (·.name = name) = none := by
      apply List.find?_eq_none.mpr
      intro r hr hrname
      have hrname : r.name = name := by simpa using hrname
      rw [← hrname, h.shadow] at hshadow
      exact h.grep_shadow hbase hr hshadow
    rw [if_pos hshadow, Cuentas.configurar, hnone]
    exact h
  · rw [if_neg hshadow]
    obtain ⟨r, hr, hname⟩ := hc.known.resolve_right hshadow
    rw [h.passwd] at hr
    have hfind := h.find_account hbase hr
    rw [hname] at hfind
    by_cases hin : name ∈ a.configurados.map Prod.fst
    · rw [if_pos (h.grep_configured hc.plain.1 hin), Cuentas.configurar, hfind]
      simp only [if_pos hin]
      exact h
    · have hfree : grep name s.configuredUsers = [] := by
        have hout : name ∉ s.shieldUsers := by
          rw [h.shieldUsers]
          exact hin
        exact hc.free.resolve_left hout
      rw [if_neg (not_not.mpr hfree), Cuentas.configurar, hfind]
      simp only [if_neg hin, prevShell_eq h hc hr hname]
      refine ⟨h.root, h.instalado, h.hostname, h.shadow, ?_, ?_, ?_, ?_, ?_, ?_, ?_, ?_⟩
      · rw [h.passwd]
      · rw [chsh_names, h.names]
      · exact chsh_shells shieldShell_plain h.shells
      · rw [h.configuredUsers, List.map_append]
        rfl
      · rw [h.shieldUsers, List.map_append]
        rfl
      · have hlines : sedBlank [poweroffLine s.hostname name, chshLine s.hostname name] =
            sudoersLines base.hostname (name, r.shell) := by
          rw [h.hostname, sudoersLines, sedBlank]
          apply List.filter_eq_self.mpr
          intro l hl
          rcases List.mem_pair.mp hl with rfl | rfl
          · simp [poweroffLine]
          · simp [chshLine]
        rw [sedBlank_append, h.sudoers, hlines, List.flatMap_append, List.append_assoc,
          List.flatMap_singleton]
      · intro c hc'
        rcases List.mem_append.mp hc' with hc' | hc'
        · exact h.plain c hc'
        · rw [List.mem_singleton.mp hc']
          exact ⟨hc.plain, h.shells r hr⟩
      · rw [List.map_append, List.map_singleton]
        apply List.Nodup.append h.nodup (List.nodup_singleton _)
        exact List.disjoint_singleton.mpr hin

/-- Under its name a configured user finds its own line and no other. -/
theorem Represents.grep_eq_own (h : Represents base s a) (hr : CanReset name s) {shell : Text}
    (hin : (name, shell) ∈ a.configurados) :
    grep name s.configuredUsers = [configuredLine name shell] := by
  have hfound : ∀ c ∈ a.configurados,
      occurs name (configuredLine c.1 c.2) = decide (c.1 = name) := by
    intro c hc
    by_cases hname : c.1 = name
    · rw [decide_eq_true hname, ← hname]
      exact occurs_append _ _
    · rw [decide_eq_false hname]
      by_contra hoccurs
      have hline : configuredLine c.1 c.2 ∈ s.configuredUsers := by
        rw [h.configuredUsers]
        exact List.mem_map_of_mem hc
      have howner := hr.configured _ hline (by simpa using hoccurs)
      exact hname (name_of_configuredLine hr.plain (h.plain c hc).1 howner).symm
  have hown : a.configurados.filter (fun c => decide (c.1 = name)) = [(name, shell)] :=
    filter_fst_eq h.nodup hin
  rw [grep, if_neg hr.plain.1, h.configuredUsers, List.filter_map]
  rw [List.filter_congr (q := fun c => decide (c.1 = name)) hfound, hown, List.map_singleton]

/-- The words of the line found are the user and its shell, and put together the line itself. -/
theorem words_configuredLine {shell : Text} (hname : Plain name) (hshell : Plain shell) :
    shellWords (tr ':' ' ' (joined ' ' (shellWords (configuredLine name shell)))) = [name, shell] ∧
      tr ' ' ':' (joined ' ' [name, shell]) = configuredLine name shell := by
  have hword : shellWords (configuredLine name shell) = [configuredLine name shell] := by
    apply shellWords_word configuredLine_ne_nil
    intro c hc
    rcases List.mem_append.mp hc with hc | hc
    · exact hname.not_blank c hc
    · rcases List.mem_cons.mp hc with rfl | hc
      · rfl
      · exact hshell.not_blank c hc
  have htr : tr ':' ' ' (configuredLine name shell) = name ++ ' ' :: shell := by
    rw [configuredLine, tr_append, tr_of_not_mem hname.not_mem_colon]
    have hrest := tr_of_not_mem (b := ' ') hshell.not_mem_colon
    simpa [tr] using hrest
  constructor
  · rw [hword, joined, htr, shellWords_cons_word hname.1 hname.not_blank,
      shellWords_word hshell.1 hshell.not_blank]
  · have hwords : joined ' ' [name, shell] = name ++ ' ' :: shell := rfl
    rw [hwords, tr_append, tr_of_not_mem hname.not_mem_space]
    have hrest := tr_of_not_mem (b := ':') hshell.not_mem_space
    simpa [tr, configuredLine] using hrest

/-- Lines without a blank one among them: the line that is the pattern goes, the others stay. -/
theorem sed_own {p : Text} {lines : List Text} (hp : p ≠ []) (hbreak : '\n' ∉ p)
    (hblank : [] ∉ lines) (hown : ∀ l ∈ lines, occurs p l = true → l = p) :
    sedBlank (sedErase p lines) = lines.filter (· ≠ p) := by
  rw [sedErase_eq_map hp hbreak hown, sedBlank_map_blankOut]
  congr 1
  apply List.filter_eq_self.mpr
  intro l hl
  have hne : l ≠ [] := by
    rintro rfl
    exact hblank hl
  simpa using hne

/-- What resetting `name` leaves: its shell as it was, and of its lines none; every other account
and every other line that is not blank as they were. -/
structure Undone (name shell : Text) (s t : Sistema) : Prop where
  passwd : t.passwd = chsh shell name s.passwd
  configuredUsers : t.configuredUsers = s.configuredUsers.filter (· ≠ configuredLine name shell)
  shieldUsers : t.shieldUsers = s.shieldUsers.filter (· ≠ name)
  sudoers : t.sudoers = ((sedBlank s.sudoers).filter (· ≠ poweroffLine s.hostname name)).filter
    (· ≠ chshLine s.hostname name)
  others : t.root = s.root ∧ t.instalado = s.instalado ∧ t.hostname = s.hostname ∧
    t.shadow = s.shadow

/-- A configured user is reset, and nothing else is touched. -/
theorem resetear_undone (h : Represents base s a) (hhost : Plain base.hostname)
    (hr : CanReset name s) {shell : Text} (hc : (name, shell) ∈ a.configurados) :
    (resetear name s).1 = 0 ∧ Undone name shell s (resetear name s).2 := by
  obtain ⟨hname, hshell⟩ := h.plain _ hc
  have hin : name ∈ s.shieldUsers := by
    rw [h.shieldUsers]
    exact List.mem_map_of_mem (f := Prod.fst) hc
  have hgoes : ¬ (!s.root || !s.instalado) = true := by simp [h.root, h.instalado]
  have hsome : ¬ s.shieldUsers.all (· = []) = true := by
    intro hall
    have hblank := List.all_eq_true.mp hall name hin
    exact hname.1 (by simpa using hblank)
  have hgrep := h.grep_eq_own hr hc
  have hjoined : joined '\n' [configuredLine name shell] = configuredLine name shell := rfl
  obtain ⟨hwords, hpattern⟩ := words_configuredLine hname hshell
  rw [resetear, if_neg hgoes, if_neg hsome, hgrep, if_neg (List.cons_ne_nil _ _), hjoined]
  simp only [hwords, hpattern]
  obtain ⟨hpoweroff, hchsh⟩ := hr.sudoers hin
  have hhost' : Plain s.hostname := by rw [h.hostname]; exact hhost
  refine ⟨trivial, rfl, ?_, ?_, ?_, rfl, rfl, rfl, rfl⟩
  · have hbreak : '\n' ∉ configuredLine name shell := by
      have hname := hname.not_mem_break
      have hshell := hshell.not_mem_break
      simp [configuredLine, hname, hshell]
    apply sed_own configuredLine_ne_nil hbreak
    · rw [h.configuredUsers]
      intro hmem
      obtain ⟨c, -, hnil⟩ := List.mem_map.mp hmem
      exact configuredLine_ne_nil hnil
    · intro l hl hoccurs
      have hfound := (mem_grep hname.1).mpr ⟨hl, occurs_append_left hoccurs⟩
      rw [hgrep] at hfound
      exact List.mem_singleton.mp hfound
  · apply sed_own hname.1 hname.not_mem_break _ hr.users
    rw [h.shieldUsers]
    intro hmem
    obtain ⟨c, hc, hnil⟩ := List.mem_map.mp hmem
    exact (h.plain c hc).1.1 hnil
  · exact sudoers_resetear hname hhost' hpoweroff hchsh

theorem filter_configuredLine (h : Represents base s a) {shell : Text}
    (hc : (name, shell) ∈ a.configurados) :
    s.configuredUsers.filter (· ≠ configuredLine name shell) =
      (a.configurados.filter (·.1 ≠ name)).map fun c => configuredLine c.1 c.2 := by
  rw [h.configuredUsers, List.filter_map]
  congr 1
  apply List.filter_congr
  intro c hc'
  have hsame : configuredLine c.1 c.2 = configuredLine name shell ↔ c.1 = name := by
    constructor
    · intro hline
      exact (cut_inj (h.plain c hc').1.not_mem_colon (h.plain _ hc).1.not_mem_colon hline).1
    · intro hcname
      rw [List.inj_on_of_nodup_map h.nodup hc' hc hcname]
  simp only [Function.comp_apply, ne_eq, hsame]

/-- The lines of one user among those of all. -/
theorem filter_sudoersLines {hostname : Text} (hname : Plain name) {l : List (Text × Text)}
    (hplain : ∀ c ∈ l, Plain c.1) :
    ((l.flatMap (sudoersLines hostname)).filter (· ≠ poweroffLine hostname name)).filter
        (· ≠ chshLine hostname name) =
      (l.filter (·.1 ≠ name)).flatMap (sudoersLines hostname) := by
  induction l with
  | nil => rfl
  | cons c l ih =>
    have hc := hplain c List.mem_cons_self
    have hrest := ih fun c' hc' => hplain c' (List.mem_cons_of_mem c hc')
    rw [List.flatMap_cons, List.filter_append, List.filter_append, hrest]
    by_cases hcname : c.1 = name
    · rw [List.filter_cons_of_neg (by simpa using hcname)]
      simp [sudoersLines, hcname]
    · have hpoweroff : poweroffLine hostname c.1 ≠ poweroffLine hostname name :=
        fun heq => hcname (poweroffLine_inj hc hname heq)
      have hchsh : chshLine hostname c.1 ≠ chshLine hostname name :=
        fun heq => hcname (chshLine_inj hc hname heq)
      have hmixed := poweroffLine_ne_chshLine hostname hc hname
      have hmixed' := (poweroffLine_ne_chshLine hostname hname hc).symm
      rw [List.filter_cons_of_pos (by simpa using hcname), List.flatMap_cons]
      simp [sudoersLines, hpoweroff, hchsh, hmixed, hmixed']

/-- A line that is found once, and stands among the user's lines, does not stand before them. -/
theorem not_mem_of_found {word p : Text} {lines before after : List Text} (hname : name ≠ [])
    (hword : word ≠ []) (hp : p ≠ []) (hfound : sudoersGrep name word lines = [p])
    (hlines : sedBlank lines = before ++ after) (hin : p ∈ after) : p ∉ before := by
  have hmem : p ∈ sudoersGrep name word lines := by
    rw [hfound]
    exact List.mem_cons_self
  obtain ⟨-, hoccurs, hoccursWord, hoccursShield⟩ := (mem_sudoersGrep hname hword).mp hmem
  have hcount : lines.count p = 1 := by
    have hone := congrArg (List.count p) hfound
    rw [sudoersGrep, grep, if_neg (by decide), grep, if_neg hword, grep, if_neg hname,
      List.count_filter hoccursShield, List.count_filter hoccursWord,
      List.count_filter hoccurs] at hone
    simpa using hone
  have hblank : (sedBlank lines).count p = 1 := by
    rw [sedBlank, List.count_filter (by simpa using hp), hcount]
  rw [hlines, List.count_append] at hblank
  have hafter := List.count_pos_iff.mpr hin
  apply List.count_eq_zero.mp
  omega

theorem filter_sudoers (h : Represents base s a) (hr : CanReset name s) {shell : Text}
    (hc : (name, shell) ∈ a.configurados) :
    ((sedBlank s.sudoers).filter (· ≠ poweroffLine s.hostname name)).filter
        (· ≠ chshLine s.hostname name) =
      sedBlank base.sudoers ++
        (a.configurados.filter (·.1 ≠ name)).flatMap (sudoersLines base.hostname) := by
  have hin : name ∈ s.shieldUsers := by
    rw [h.shieldUsers]
    exact List.mem_map_of_mem (f := Prod.fst) hc
  obtain ⟨hpoweroff, hchsh⟩ := hr.sudoers hin
  rw [h.hostname] at hpoweroff hchsh ⊢
  have hown : ∀ l ∈ sudoersLines base.hostname (name, shell),
      l ∈ a.configurados.flatMap (sudoersLines base.hostname) :=
    fun l hl => List.mem_flatMap.mpr ⟨_, hc, hl⟩
  have hbase := not_mem_of_found hr.plain.1 (by decide) poweroffLine_ne_nil hpoweroff h.sudoers
    (hown _ List.mem_cons_self)
  have hbase' := not_mem_of_found hr.plain.1 (by decide) chshLine_ne_nil hchsh h.sudoers
    (hown _ (List.mem_cons_of_mem _ List.mem_cons_self))
  have hkept : ∀ {p : Text} {lines : List Text}, p ∉ lines → lines.filter (· ≠ p) = lines := by
    intro p lines hp
    apply List.filter_eq_self.mpr
    intro l hl
    have hne : l ≠ p := by
      rintro rfl
      exact hp hl
    simpa using hne
  rw [h.sudoers, List.filter_append, List.filter_append,
    filter_sudoersLines hr.plain fun c hc => (h.plain c hc).1, hkept hbase, hkept hbase']

theorem resetear_represents (h : Represents base s a) (hhost : Plain base.hostname)
    (hr : CanReset name s) : Represents base (resetear name s).2 (a.resetear name) := by
  by_cases hin : name ∈ a.configurados.map Prod.fst
  · obtain ⟨shell, hc⟩ : ∃ shell, (name, shell) ∈ a.configurados := by simpa using hin
    obtain ⟨-, hundone⟩ := resetear_undone h hhost hr hc
    obtain ⟨hroot, hinstalado, hhostname, hshadow⟩ := hundone.others
    rw [Cuentas.resetear, h.find_configured hc]
    refine ⟨hroot.trans h.root, hinstalado.trans h.instalado, hhostname.trans h.hostname,
      hshadow.trans h.shadow, ?_, ?_, ?_, ?_, ?_, ?_, ?_, ?_⟩
    · rw [hundone.passwd, h.passwd]
    · rw [chsh_names, h.names]
    · exact chsh_shells (h.plain _ hc).2 h.shells
    · rw [hundone.configuredUsers, filter_configuredLine h hc]
    · rw [hundone.shieldUsers, h.shieldUsers, List.filter_map]
      rfl
    · rw [hundone.sudoers, sedBlank_filter, sedBlank_filter, sedBlank_sedBlank,
        filter_sudoers h hr hc]
    · intro c hc
      exact h.plain c (List.mem_of_mem_filter hc)
    · exact h.nodup.sublist (List.filter_sublist.map Prod.fst)
  · -- Nobody is found under the name.
    have hnone : a.configurados.find? (·.1 = name) = none := by
      apply List.find?_eq_none.mpr
      intro c hc hcname
      have hcname : c.1 = name := by simpa using hcname
      exact hin (hcname ▸ List.mem_map_of_mem hc)
    have hgrep : grep name s.configuredUsers = [] := by
      rw [grep, if_neg hr.plain.1, h.configuredUsers]
      apply List.filter_eq_nil_iff.mpr
      intro line hline hoccurs
      obtain ⟨c, hc, rfl⟩ := List.mem_map.mp hline
      have howner := hr.configured (configuredLine c.1 c.2)
        (by rw [h.configuredUsers]; exact List.mem_map_of_mem hc) hoccurs
      obtain rfl := name_of_configuredLine hr.plain (h.plain c hc).1 howner
      exact hin (List.mem_map_of_mem hc)
    have hgoes : ¬ (!s.root || !s.instalado) = true := by simp [h.root, h.instalado]
    rw [resetear, if_neg hgoes, if_pos hgrep, ite_self, Cuentas.resetear, hnone]
    exact h

end Refinement

def bothExec (w : Sistema × Cuentas) (orden : Orden) : Option (Sistema × Cuentas) :=
  some (w.1.exec orden, w.2.exec orden)

/-- Runs whose every step finds under the user's name nothing but the user. -/
abbrev GuardedRun (base : Sistema) : Sistema × Cuentas → Prop :=
  RunsTo bothExec (fun w orden => w.1.Guard orden) (base, { passwd := base.passwd })

theorem run_represents {base : Sistema} (hbase : base.Ready) {w : Sistema × Cuentas}
    (h : GuardedRun base w) : Represents base w.1 w.2 := by
  apply RunsTo.invariant (P := fun w : Sistema × Cuentas => Represents base w.1 w.2) _ _ h
  · refine ⟨hbase.root, hbase.instalado, rfl, rfl, rfl, rfl, hbase.shells, hbase.configuredUsers,
      hbase.shieldUsers, ?_, ?_, List.nodup_nil⟩
    · rw [List.flatMap_nil, List.append_nil]
    · intro c hc
      cases hc
  · intro w orden w' hw hguard hnext
    obtain rfl := Option.some.inj hnext
    cases orden with
    | configurar name => exact configurar_represents hbase hw hguard
    | resetear name => exact resetear_represents hw hbase.hostname hguard

/-- The accounts are those of `base`, with Shield for the shell of the configured users, and what
is kept of these is the shell they had. -/
structure Restorable (base : Sistema) (a : Cuentas) : Prop where
  passwd : a.passwd = base.passwd.map fun r =>
    if r.name ∈ a.configurados.map Prod.fst then { r with shell := shieldShell } else r
  previous : ∀ c ∈ a.configurados, ∃ r ∈ base.passwd, r.name = c.1 ∧ r.shell = c.2

section Accounts

variable {base : Sistema} {a : Cuentas}

theorem Restorable.configurar (h : Restorable base a) (name : Text) :
    Restorable base (a.configurar name) := by
  rw [Cuentas.configurar]
  cases hfind : a.passwd.find? (·.name = name) with
  | none => exact h
  | some r =>
    dsimp only
    by_cases hin : name ∈ a.configurados.map Prod.fst
    · rw [if_pos hin]
      exact h
    · rw [if_neg hin]
      have hname : r.name = name := by simpa using List.find?_some hfind
      have hr := List.mem_of_find?_eq_some hfind
      rw [h.passwd] at hr
      obtain ⟨r', hr', heq⟩ := List.mem_map.mp hr
      have hname' : r'.name = name := by
        rw [← hname, ← heq]
        split <;> rfl
      rw [if_neg (by rw [hname']; exact hin)] at heq
      obtain rfl := heq
      constructor
      · dsimp only
        rw [chsh, h.passwd, List.map_map]
        apply List.map_congr_left
        intro r'' _
        rw [Function.comp_apply, List.map_append, List.map_singleton]
        by_cases hconf : r''.name ∈ a.configurados.map Prod.fst
        · rw [if_pos hconf, if_pos (List.mem_append_left _ hconf)]
          split <;> rfl
        · rw [if_neg hconf]
          by_cases hrname : r''.name = name
          · rw [if_pos hrname, if_pos (by simp [hrname])]
          · rw [if_neg hrname, if_neg (by simpa [hrname] using hconf)]
      · intro c hc
        rcases List.mem_append.mp hc with hc | hc
        · exact h.previous c hc
        · rw [List.mem_singleton.mp hc]
          exact ⟨r', hr', hname, rfl⟩

theorem Restorable.resetear (hnames : (base.passwd.map Registro.name).Nodup)
    (h : Restorable base a) (name : Text) : Restorable base (a.resetear name) := by
  rw [Cuentas.resetear]
  cases hfind : a.configurados.find? (·.1 = name) with
  | none => exact h
  | some c =>
    have hname : c.1 = name := by simpa using List.find?_some hfind
    have hc := List.mem_of_find?_eq_some hfind
    obtain ⟨r, hr, hrname, hrshell⟩ := h.previous c hc
    constructor
    · dsimp only
      rw [chsh, h.passwd, List.map_map]
      apply List.map_congr_left
      intro r' hr'
      rw [Function.comp_apply]
      by_cases hrname' : r'.name = name
      · obtain rfl : r = r' := List.inj_on_of_nodup_map hnames hr hr'
          (hrname.trans (hname.trans hrname'.symm))
        have hconf : r.name ∈ a.configurados.map Prod.fst := by
          rw [hrname]
          exact List.mem_map_of_mem hc
        have hout : r.name ∉ (a.configurados.filter (·.1 ≠ name)).map Prod.fst := by
          rw [hrname']
          simp
        rw [if_pos hconf, if_pos hrname', if_neg hout, ← hrshell]
      · have hsame : r'.name ∈ (a.configurados.filter (·.1 ≠ name)).map Prod.fst ↔
            r'.name ∈ a.configurados.map Prod.fst := by
          simp [hrname']
        by_cases hconf : r'.name ∈ a.configurados.map Prod.fst
        · rw [if_pos hconf, if_neg hrname', if_pos (hsame.mpr hconf)]
        · rw [if_neg hconf, if_neg hrname', if_neg (fun hin => hconf (hsame.mp hin))]
    · intro c' hc'
      exact h.previous c' (List.mem_of_mem_filter hc')

theorem run_restorable (hbase : base.Ready) {w : Sistema × Cuentas} (h : GuardedRun base w) :
    Restorable base w.2 := by
  apply RunsTo.invariant (P := fun w : Sistema × Cuentas => Restorable base w.2) _ _ h
  · constructor
    · simp
    · intro c hc
      cases hc
  · intro w orden w' hw _ hnext
    obtain rfl := Option.some.inj hnext
    cases orden with
    | configurar name => exact hw.configurar name
    | resetear name => exact hw.resetear hbase.names name

end Accounts

/-- The account of a user that is reset is the one it had before Shield. -/
theorem account_restored {base s : Sistema} {a : Cuentas} (hbase : base.Ready)
    (h : Represents base s a) (hrestorable : Restorable base a) {name shell : Text}
    (hc : (name, shell) ∈ a.configurados) {t : Sistema} (ht : Undone name shell s t) :
    ∀ r ∈ base.passwd, r.name = name → r ∈ t.passwd := by
  intro r hr hrname
  have hreset := (hrestorable.resetear hbase.names name).passwd
  rw [Cuentas.resetear, h.find_configured hc] at hreset
  dsimp only at hreset
  have hout : r.name ∉ (a.configurados.filter (·.1 ≠ name)).map Prod.fst := by
    rw [hrname]
    simp
  rw [ht.passwd, h.passwd, hreset]
  refine List.mem_map.mpr ⟨r, hr, ?_⟩
  rw [if_neg hout]

/-- In a guarded run, whatever users there are and whatever was done before, resetting a configured
user gives it back the account it had and removes its lines, and every user that is not configured
can be. -/
theorem reset_undoes_configuration {base s : Sistema} {a : Cuentas} (hbase : base.Ready)
    (hrun : GuardedRun base (s, a)) :
    (∀ name shell, (name, shell) ∈ a.configurados → CanReset name s →
      (resetear name s).1 = 0 ∧ Undone name shell s (resetear name s).2 ∧
        ∀ r ∈ base.passwd, r.name = name → r ∈ (resetear name s).2.passwd) ∧
    (∀ r ∈ s.passwd, r.name ∉ a.configurados.map Prod.fst → CanConfigure r.name s →
      (configurar r.name s).1 = 0) := by
  have h : Represents base s a := run_represents hbase hrun
  constructor
  · intro name shell hc hr
    obtain ⟨hstatus, hundone⟩ := resetear_undone h hbase.hostname hr hc
    exact ⟨hstatus, hundone, account_restored hbase h (run_restorable hbase hrun) hc hundone⟩
  · intro r hr hout hcan
    have hgoes : ¬ (!s.root || !s.instalado) = true := by simp [h.root, h.instalado]
    rw [h.passwd] at hr
    have hshadow : grep r.name s.shadow ≠ [] := by
      rw [h.shadow]
      exact h.grep_shadow hbase hr
    rw [← h.shieldUsers] at hout
    have hfree := hcan.free.resolve_left hout
    rw [configurar, if_neg hgoes, if_neg hshadow, if_neg (not_not.mpr hfree)]

section Names

def anaAccount : Registro := ⟨"ana".toList, "x:1001:1001::/home/ana".toList, "/bin/bash".toList⟩

def marianaAccount : Registro :=
  ⟨"mariana".toList, "x:1002:1002::/home/mariana".toList, "/bin/sh".toList⟩

def pedroAccount : Registro :=
  ⟨"pedro".toList, "x:1003:1003::/home/pedro".toList, "/bin/sh".toList⟩

def installed (passwd : List Registro) : Sistema where
  root := true
  instalado := true
  hostname := "lab".toList
  passwd := passwd
  shadow := passwd.map fun r => r.name ++ ":!:15500:0:99999:7:::".toList
  configuredUsers := []
  shieldUsers := []
  sudoers := ["root ALL=(ALL) ALL".toList]

theorem reset_undoes_configuration_ana :
    let base := installed [anaAccount, pedroAccount]
    let s := base.exec (.configurar "ana".toList)
    (resetear "ana".toList s).1 = 0 ∧ anaAccount ∈ (resetear "ana".toList s).2.passwd := by
  intro base s
  have hbase : base.Ready := by
    constructor <;> decide +kernel
  have hcan : CanConfigure "ana".toList base := by
    constructor <;> decide +kernel
  have hrun : GuardedRun base (s, _) := RunsTo.start.step (.configurar "ana".toList) hcan rfl
  have hreset : CanReset "ana".toList s := by
    constructor <;> decide +kernel
  obtain ⟨hstatus, -, haccount⟩ := (reset_undoes_configuration hbase hrun).1 "ana".toList
    "/bin/bash".toList (by decide) hreset
  exact ⟨hstatus, haccount anaAccount (by decide) rfl⟩

/-- With users `ana` and `mariana`: reset, `ana` gets the shell of `mariana` and stays among the
configured users and in `sudoers`, and `mariana` is no Shield user any more; and when `mariana` was
configured first, `ana` cannot be. -/
theorem ana_and_mariana :
    let base := installed [anaAccount, marianaAccount]
    let both := (base.exec (.configurar "ana".toList)).exec (.configurar "mariana".toList)
    let t := (resetear "ana".toList both).2
    (resetear "ana".toList both).1 = 0 ∧ anaAccount ∉ t.passwd ∧
      configuredLine "ana".toList "/bin/sh".toList ∈ t.configuredUsers ∧
      "mariana".toList ∈ both.shieldUsers ∧ "mariana".toList ∉ t.shieldUsers ∧
      poweroffLine "lab".toList "ana".toList ∈ t.sudoers ∧
      (configurar "ana".toList (base.exec (.configurar "mariana".toList))).1 = 1 := by
  decide +kernel

end Names

end Sisop.Shield
