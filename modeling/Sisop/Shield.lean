import Sisop.ShellText
import Mathlib.Data.List.Sort
import Mathlib.Data.List.Induction

/-!
# The nucleus of Shield

The enabled modules stand in numbered variables `VEC_COMANDOS_i` and `VEC_PERIOD_i`, and every
loop goes over the names of those that are set and expands each name when its turn comes. What a
sourced module does is a parameter: it acts on an environment of its own and returns a status.
-/

namespace Sisop.Shield

inductive Action
  | iniciar
  | procesar (entrada : Text)
  | detener
  deriving DecidableEq

inductive Vec
  | comandos
  | period
  deriving DecidableEq

/-- The modules a configuration enables, each named by its path `P`. -/
structure Enabled (P : Type) where
  comandos : List P
  period : List P

/-- `~/.shield/comandos.config` and `~/.shield/periodicos.config`, word by word. -/
structure Config where
  comandos : List Text
  period : List Text

abbrev Variables (P : Type) := List (ℕ × P)

structure Shell (P E : Type) where
  comandos : Variables P := []
  period : Variables P := []
  cantComandos : ℕ := 0
  cantPeriod : ℕ := 0
  dir : Option (Vec × ℕ) := none
  alive : Bool := true
  env : E

/-- `source path action`: the status and what becomes of the environment. -/
abbrev Source (P E : Type) := P → Action → E → ℕ × E

variable {P E : Type}

def activos (lines : List Text) : List Text :=
  (lines.filter fun line => afterLast ':' line = "on".toList).map (beforeLast ':')

def Config.enabled (cfg : Config) : Enabled Text where
  comandos := activos cfg.comandos
  period := activos cfg.period

/-- The order of `${!VEC_*}`: by the text of the name, so that 10 stands before 2. -/
def before : Text → Text → Bool
  | [], _ => true
  | _ :: _, [] => false
  | a :: s, b :: t => a.toNat < b.toNat || (a == b && before s t)

def names (vec : Variables P) : List ℕ :=
  (vec.map Prod.fst).insertionSort fun i j => before (Nat.toDigits 10 i) (Nat.toDigits 10 j)

def assign (vec : Variables P) (i : ℕ) (path : P) : Variables P :=
  vec.filter (fun v => v.1 ≠ i) ++ [(i, path)]

def unset (vec : Variables P) (i : ℕ) : Variables P := vec.filter fun v => v.1 ≠ i

def registrarVec (vec : Variables P) (paths : List P) : Variables P × ℕ :=
  paths.foldl (fun r path => (assign r.1 (r.2 + 1) path, r.2 + 1)) (vec, 0)

def unsetearVec (vec : Variables P) (cant : ℕ) : Variables P :=
  (List.range' 1 cant).foldl unset vec

/-- The variables as a registration leaves them: `paths` numbered from `k + 1` on. -/
def numbered : ℕ → List P → Variables P
  | _, [] => []
  | k, path :: paths => (k + 1, path) :: numbered (k + 1) paths

/-- The order in which a loop goes over `cant` names. -/
def nameOrder (cant : ℕ) : List ℕ :=
  (List.range' 1 cant).insertionSort fun i j => before (Nat.toDigits 10 i) (Nat.toDigits 10 j)

/-- The module that a loop over `paths` comes to last. -/
def lastPath (paths : List P) : Option P :=
  (nameOrder paths.length).getLast?.bind fun i => paths[i - 1]?

/-- The modules in the order in which a loop sources them. -/
def loopOrder (paths : List P) : List P :=
  (nameOrder paths.length).filterMap fun i => paths[i - 1]?

def Enabled.list (cfg : Enabled P) : Vec → List P
  | .comandos => cfg.comandos
  | .period => cfg.period

/-- A loop as its modules see it: the shell is still there or not, and their environment. -/
def visit (source : Source P E) (action : P → Action) (checked : Bool) (st : Bool × E) (path : P) :
    Bool × E :=
  if st.1 then
    let r := source path (action path) st.2
    (!checked || r.1 == 0, r.2)
  else st

namespace Shell

def vars (s : Shell P E) : Vec → Variables P
  | .comandos => s.comandos
  | .period => s.period

def value (s : Shell P E) : Option P :=
  s.dir.bind fun v => (s.vars v.1).lookup v.2

def registrar (cfg : Enabled P) (s : Shell P E) : Shell P E :=
  let comandos := registrarVec s.comandos cfg.comandos
  let period := registrarVec s.period cfg.period
  { s with
    comandos := comandos.1
    cantComandos := comandos.2
    period := period.1
    cantPeriod := period.2 }

def unsetearVecs (s : Shell P E) : Shell P E :=
  { s with
    comandos := unsetearVec s.comandos s.cantComandos
    period := unsetearVec s.period s.cantPeriod }

/-- One round of `for dir in ${!VEC_*}; do source ${!dir} action; ...`: `dir` is a variable of the
whole shell, and `salir` ends the shell when the loop checks the status. -/
def round (source : Source P E) (action : Action) (checked : Bool) (vec : Vec) (s : Shell P E)
    (i : ℕ) : Shell P E :=
  if s.alive then
    let s := { s with dir := some (vec, i) }
    match s.value with
    | some path =>
      let r := source path action s.env
      { s with env := r.2, alive := !checked || r.1 == 0 }
    | none => { s with alive := !checked }
  else s

def forEachName (source : Source P E) (action : Action) (checked : Bool) (vec : Vec)
    (s : Shell P E) : Shell P E :=
  (names (s.vars vec)).foldl (round source action checked vec) s

def inicializar (source : Source P E) (s : Shell P E) : Shell P E :=
  forEachName source .iniciar true .period (forEachName source .iniciar true .comandos s)

def detenerModulos (source : Source P E) (s : Shell P E) : Shell P E :=
  forEachName source .detener false .period (forEachName source .detener false .comandos s)

def iniciarShield (source : Source P E) (cfg : Enabled P) (s : Shell P E) : Shell P E :=
  inicializar source (registrar cfg s)

/-- `ActualizarModulos`, as the user's command and as what `trapUSR2` runs. -/
def actualizarModulos (source : Source P E) (cfg : Enabled P) (s : Shell P E) : Shell P E :=
  if s.alive then iniciarShield source cfg (unsetearVecs (detenerModulos source s)) else s

/-- `executePeriodicos`, run by `trapUSR1`: the first module that fails ends the session. -/
def executePeriodicos (source : Source P E) (s : Shell P E) : Shell P E :=
  forEachName source (.procesar []) true .period s

structure Registered (cfg : Enabled P) (s : Shell P E) : Prop where
  comandos : s.comandos = numbered 0 cfg.comandos
  cantComandos : s.cantComandos = cfg.comandos.length
  period : s.period = numbered 0 cfg.period
  cantPeriod : s.cantPeriod = cfg.period.length

end Shell

section Numbering

theorem numbered_append (k : ℕ) (paths : List P) (path : P) :
    numbered k (paths ++ [path]) = numbered k paths ++ [(k + paths.length + 1, path)] := by
  induction paths generalizing k with
  | nil => rfl
  | cons p paths ih =>
    simp only [List.cons_append, numbered, ih (k + 1), List.length_cons]
    congr 4
    omega

theorem numbered_fst (k : ℕ) (paths : List P) :
    (numbered k paths).map Prod.fst = List.range' (k + 1) paths.length := by
  induction paths generalizing k with
  | nil => rfl
  | cons p paths ih =>
    rw [numbered, List.map_cons, ih, List.length_cons, List.range'_succ]

theorem names_numbered (paths : List P) :
    names (numbered 0 paths) = nameOrder paths.length := by
  rw [names, numbered_fst, nameOrder]

theorem mem_nameOrder {i cant : ℕ} : i ∈ nameOrder cant ↔ 1 ≤ i ∧ i ≤ cant := by
  rw [nameOrder, (List.perm_insertionSort _ _).mem_iff, List.mem_range'_1]
  omega

theorem nameOrder_length (cant : ℕ) : (nameOrder cant).length = cant := by
  rw [nameOrder, List.length_insertionSort, List.length_range']

theorem lookup_numbered (k i : ℕ) (paths : List P) :
    (numbered k paths).lookup (k + 1 + i) = paths[i]? := by
  induction paths generalizing k i with
  | nil => rfl
  | cons p paths ih =>
    cases i with
    | zero => simp [numbered]
    | succ i =>
      have hne : (k + 1 + (i + 1) == k + 1) = false := by simp
      have hshift : k + 1 + (i + 1) = k + 1 + 1 + i := by omega
      rw [numbered, List.lookup_cons, hne, hshift, ih (k + 1) i]
      simp

/-- `VEC_i` counts from 1. -/
theorem lookup_of_pos {i : ℕ} (hi : 1 ≤ i) (paths : List P) :
    (numbered 0 paths).lookup i = paths[i - 1]? := by
  have hshift : i = 0 + 1 + (i - 1) := by omega
  rw [hshift, lookup_numbered]
  congr 1
  omega

theorem fst_le_of_mem_numbered {k : ℕ} {paths : List P} {v : ℕ × P}
    (h : v ∈ numbered k paths) : k < v.1 ∧ v.1 ≤ k + paths.length := by
  have hfst := List.mem_map_of_mem (f := Prod.fst) h
  rw [numbered_fst, List.mem_range'_1] at hfst
  omega

theorem assign_numbered (paths : List P) (path : P) :
    assign (numbered 0 paths) (paths.length + 1) path = numbered 0 (paths ++ [path]) := by
  have hkeep : (numbered 0 paths).filter (fun v => v.1 ≠ paths.length + 1) =
      numbered 0 paths := by
    apply List.filter_eq_self.mpr
    intro v hv
    have := (fst_le_of_mem_numbered hv).2
    simp only [decide_eq_true_eq]
    omega
  rw [assign, hkeep, numbered_append, Nat.zero_add]

theorem registrarVec_nil (paths : List P) :
    registrarVec [] paths = (numbered 0 paths, paths.length) := by
  induction paths using List.reverseRecOn with
  | nil => rfl
  | append_singleton paths path ih =>
    rw [registrarVec] at ih ⊢
    rw [List.foldl_append, ih, List.foldl_cons, List.foldl_nil, assign_numbered,
      List.length_append, List.length_singleton]

theorem mem_foldl_unset {vec : Variables P} {is : List ℕ} {v : ℕ × P} :
    v ∈ is.foldl unset vec ↔ v ∈ vec ∧ v.1 ∉ is := by
  induction is generalizing vec with
  | nil => simp
  | cons i is ih =>
    rw [List.foldl_cons, ih, unset, List.mem_filter, List.mem_cons, not_or, decide_eq_true_eq,
      and_assoc]

theorem unsetearVec_numbered (paths : List P) :
    unsetearVec (numbered 0 paths) paths.length = [] := by
  apply List.eq_nil_iff_forall_not_mem.mpr
  intro v hv
  obtain ⟨hin, hout⟩ := mem_foldl_unset.mp hv
  have hbounds := fst_le_of_mem_numbered hin
  exact hout (List.mem_range'_1.mpr (by omega))

theorem filterMap_range' (paths : List P) :
    ((List.range' 1 paths.length).filterMap fun i => paths[i - 1]?) = paths := by
  induction paths using List.reverseRecOn with
  | nil => rfl
  | append_singleton paths path ih =>
    have hkept : ((List.range' 1 paths.length).filterMap fun i => (paths ++ [path])[i - 1]?) =
        (List.range' 1 paths.length).filterMap fun i => paths[i - 1]? := by
      apply List.filterMap_congr
      intro i hi
      have := List.mem_range'_1.mp hi
      exact List.getElem?_append_left (by omega)
    rw [List.length_append, List.length_singleton, List.range'_1_concat, List.filterMap_append,
      hkept, ih]
    simp

/-- A loop sources every enabled module, each as often as it is enabled. -/
theorem loopOrder_perm (paths : List P) : (loopOrder paths).Perm paths := by
  have horder := (List.perm_insertionSort
    (fun i j => before (Nat.toDigits 10 i) (Nat.toDigits 10 j))
    (List.range' 1 paths.length)).filterMap fun i => paths[i - 1]?
  rwa [filterMap_range'] at horder

/-- The loop over one module alone is the loop over all, with the others left out. -/
theorem loopOrder_filter [DecidableEq P] (path : P) (paths : List P) :
    loopOrder (paths.filter (· == path)) = (loopOrder paths).filter (· == path) := by
  have hsolo := loopOrder_perm (paths.filter (· == path))
  rw [List.filter_beq, List.perm_replicate] at hsolo
  rw [List.filter_beq, hsolo, List.filter_beq, (loopOrder_perm paths).count_eq]

end Numbering

namespace Shell

structure SameVars (s t : Shell P E) : Prop where
  comandos : t.comandos = s.comandos
  cantComandos : t.cantComandos = s.cantComandos
  period : t.period = s.period
  cantPeriod : t.cantPeriod = s.cantPeriod

variable {source : Source P E} {action : Action} {checked : Bool} {vec : Vec} {cfg : Enabled P}

theorem SameVars.refl (s : Shell P E) : SameVars s s := ⟨rfl, rfl, rfl, rfl⟩

theorem SameVars.trans {s t u : Shell P E} (h : SameVars s t) (h' : SameVars t u) :
    SameVars s u where
  comandos := h'.comandos.trans h.comandos
  cantComandos := h'.cantComandos.trans h.cantComandos
  period := h'.period.trans h.period
  cantPeriod := h'.cantPeriod.trans h.cantPeriod

theorem SameVars.registered {s t : Shell P E} (h : SameVars s t) (hs : s.Registered cfg) :
    t.Registered cfg where
  comandos := h.comandos.trans hs.comandos
  cantComandos := h.cantComandos.trans hs.cantComandos
  period := h.period.trans hs.period
  cantPeriod := h.cantPeriod.trans hs.cantPeriod

theorem SameVars.vars {s t : Shell P E} (h : SameVars s t) (vec : Vec) :
    t.vars vec = s.vars vec := by
  cases vec with
  | comandos => exact h.comandos
  | period => exact h.period

theorem round_of_dead {s : Shell P E} (h : s.alive = false) (i : ℕ) :
    round source action checked vec s i = s := by
  rw [round, if_neg (by simp [h])]

theorem round_sameVars (s : Shell P E) (i : ℕ) :
    SameVars s (round source action checked vec s i) := by
  rw [round]
  by_cases halive : s.alive = true
  · rw [if_pos halive]
    dsimp only
    split <;> exact ⟨rfl, rfl, rfl, rfl⟩
  · rw [if_neg halive]
    exact .refl s

theorem round_dir {s : Shell P E} (h : s.alive = true) (i : ℕ) :
    (round source action checked vec s i).dir = some (vec, i) := by
  rw [round, if_pos h]
  dsimp only
  split <;> rfl

theorem foldl_round_sameVars (s : Shell P E) (is : List ℕ) :
    SameVars s (is.foldl (round source action checked vec) s) := by
  induction is generalizing s with
  | nil => exact .refl s
  | cons i is ih => exact (round_sameVars s i).trans (ih _)

theorem foldl_round_of_dead {s : Shell P E} (h : s.alive = false) (is : List ℕ) :
    is.foldl (round source action checked vec) s = s := by
  induction is with
  | nil => rfl
  | cons i is ih => rw [List.foldl_cons, round_of_dead h, ih]

/-- A shell that is still there after a loop was there in every round of it. -/
theorem alive_of_foldl_round {s : Shell P E} (is : List ℕ)
    (h : (is.foldl (round source action checked vec) s).alive = true) : s.alive = true := by
  by_contra hdead
  have hs : s.alive = false := by simpa using hdead
  rw [foldl_round_of_dead hs, hs] at h
  exact Bool.false_ne_true h

/-- A loop that goes over any name leaves the last of them in `dir`. -/
theorem foldl_round_dir {s : Shell P E} {is : List ℕ}
    (h : (is.foldl (round source action checked vec) s).alive = true) :
    (is.foldl (round source action checked vec) s).dir =
      (is.getLast?.map fun i => (vec, i)).or s.dir := by
  induction is generalizing s with
  | nil => rfl
  | cons i is ih =>
    rw [List.foldl_cons] at h ⊢
    rw [ih h, List.getLast?_cons]
    cases hlast : is.getLast? with
    | none =>
      have hs : s.alive = true := alive_of_foldl_round [i] (by
        rw [List.getLast?_eq_none_iff.mp hlast] at h
        exact h)
      simp [round_dir hs]
    | some j => rfl

theorem forEachName_dir {source : Source P E} {action : Action} {checked : Bool} {vec : Vec}
    {s : Shell P E} (h : (forEachName source action checked vec s).alive = true) :
    (forEachName source action checked vec s).dir =
      ((names (s.vars vec)).getLast?.map fun i => (vec, i)).or s.dir :=
  foldl_round_dir h

theorem forEachName_sameVars (source : Source P E) (action : Action) (checked : Bool) (vec : Vec)
    (s : Shell P E) : SameVars s (forEachName source action checked vec s) :=
  foldl_round_sameVars s _

theorem inicializar_sameVars (source : Source P E) (s : Shell P E) :
    SameVars s (inicializar source s) :=
  (forEachName_sameVars source _ _ _ s).trans (forEachName_sameVars source _ _ _ _)

theorem detenerModulos_sameVars (source : Source P E) (s : Shell P E) :
    SameVars s (detenerModulos source s) :=
  (forEachName_sameVars source _ _ _ s).trans (forEachName_sameVars source _ _ _ _)

theorem foldl_visit_of_dead {source : Source P E} {action : P → Action} {st : Bool × E}
    (h : st.1 = false) (paths : List P) :
    paths.foldl (visit source action checked) st = st := by
  induction paths with
  | nil => rfl
  | cons path paths ih =>
    have hvisit : visit source action checked st path = st := by rw [visit, if_neg (by simp [h])]
    rw [List.foldl_cons, hvisit, ih]

theorem round_visit (source : Source P E) (action : Action) (checked : Bool) {s : Shell P E}
    {i : ℕ} {path : P} (hpath : (s.vars vec).lookup i = some path) :
    ((round source action checked vec s i).alive, (round source action checked vec s i).env) =
      visit source (fun _ => action) checked (s.alive, s.env) path := by
  have hvalue : ({ s with dir := some (vec, i) } : Shell P E).value = some path := by
    rw [← hpath]
    cases vec <;> rfl
  rw [round, visit]
  by_cases halive : s.alive = true
  · rw [if_pos halive, if_pos halive]
    simp only [hvalue]
  · rw [if_neg halive, if_neg halive]

theorem foldl_round_visits {s : Shell P E} {source : Source P E} {paths : List P} {is : List ℕ}
    (hvars : s.vars vec = numbered 0 paths) (his : ∀ i ∈ is, 1 ≤ i ∧ i ≤ paths.length) :
    ((is.foldl (round source action checked vec) s).alive,
      (is.foldl (round source action checked vec) s).env) =
      (is.filterMap fun i => paths[i - 1]?).foldl (visit source (fun _ => action) checked)
        (s.alive, s.env) := by
  induction is generalizing s with
  | nil => rfl
  | cons i is ih =>
    obtain ⟨hpos, hle⟩ := his i List.mem_cons_self
    have hsome : paths[i - 1]? = some (paths.get ⟨i - 1, by omega⟩) :=
      List.getElem?_eq_getElem (by omega)
    have hround := round_visit source action checked
      (show (s.vars vec).lookup i = _ by rw [hvars, lookup_of_pos hpos, hsome])
    rw [List.foldl_cons, List.filterMap_cons_some (f := fun i => paths[i - 1]?) hsome,
      List.foldl_cons, ← hround]
    apply ih
    · rw [(round_sameVars s i).vars, hvars]
    · intro j hj
      exact his j (List.mem_cons_of_mem i hj)

theorem registrar_registered (cfg : Enabled P) {s : Shell P E} (hcomandos : s.comandos = [])
    (hperiod : s.period = []) : (registrar cfg s).Registered cfg := by
  constructor <;> simp only [registrar, hcomandos, hperiod, registrarVec_nil]

theorem Registered.unsetearVecs {s : Shell P E} (hs : s.Registered cfg) :
    s.unsetearVecs.comandos = [] ∧ s.unsetearVecs.period = [] := by
  constructor
  · simp only [Shell.unsetearVecs, hs.comandos, hs.cantComandos, unsetearVec_numbered]
  · simp only [Shell.unsetearVecs, hs.period, hs.cantPeriod, unsetearVec_numbered]

theorem Registered.names {s : Shell P E} (hs : s.Registered cfg) :
    names (s.vars .comandos) = nameOrder cfg.comandos.length ∧
      names (s.vars .period) = nameOrder cfg.period.length := by
  rw [vars, vars, hs.comandos, hs.period, names_numbered, names_numbered]
  exact ⟨rfl, rfl⟩

/-- What a loop does to the shell and to the modules' environment: it sources the enabled modules
in their order. -/
theorem forEachName_visits (source : Source P E) (action : Action) (checked : Bool) (vec : Vec)
    {s : Shell P E} (hs : s.alive = true → s.Registered cfg) :
    ((forEachName source action checked vec s).alive,
      (forEachName source action checked vec s).env) =
      (loopOrder (cfg.list vec)).foldl (visit source (fun _ => action) checked)
        (s.alive, s.env) := by
  by_cases halive : s.alive = true
  · have hvars : s.vars vec = numbered 0 (cfg.list vec) := by
      cases vec with
      | comandos => exact (hs halive).comandos
      | period => exact (hs halive).period
    rw [forEachName, hvars, names_numbered]
    exact foldl_round_visits hvars fun i hi => mem_nameOrder.mp hi
  · have hdead : s.alive = false := by simpa using halive
    rw [forEachName, foldl_round_of_dead hdead, foldl_visit_of_dead hdead]

theorem Registered.forEachName {s : Shell P E} (hs : s.alive = true → s.Registered cfg)
    (source : Source P E) (action : Action) (checked : Bool) (vec : Vec)
    (halive : (forEachName source action checked vec s).alive = true) :
    (forEachName source action checked vec s).Registered cfg :=
  (forEachName_sameVars source action checked vec s).registered
    (hs (alive_of_foldl_round _ halive))

/-- The two loops of `inicializar` and of `detenerModulos`, as their modules see them. -/
theorem bothLoops_visits (source : Source P E) (action : Action) (checked : Bool) {s : Shell P E}
    (hs : s.alive = true → s.Registered cfg) :
    ((Shell.forEachName source action checked .period
        (Shell.forEachName source action checked .comandos s)).alive,
      (Shell.forEachName source action checked .period
        (Shell.forEachName source action checked .comandos s)).env) =
      (loopOrder cfg.period).foldl (visit source (fun _ => action) checked)
        ((loopOrder cfg.comandos).foldl (visit source (fun _ => action) checked)
          (s.alive, s.env)) := by
  have hmid := Registered.forEachName hs source action checked .comandos
  rw [forEachName_visits source action checked .period hmid,
    forEachName_visits source action checked .comandos hs]
  rfl

/-- Whatever the modules do, a reload replaces the variables by those of the new configuration. -/
theorem actualizarModulos_registered (source : Source P E) {old : Enabled P} (new : Enabled P)
    {s : Shell P E} (hs : s.Registered old) (halive : s.alive = true) :
    (actualizarModulos source new s).Registered new := by
  rw [actualizarModulos, if_pos halive]
  have hempty := ((detenerModulos_sameVars source s).registered hs).unsetearVecs
  exact (inicializar_sameVars source _).registered
    (registrar_registered new hempty.1 hempty.2)

/-- A reload as the modules see it: the old ones are stopped, then the new ones initialised. -/
theorem actualizarModulos_visits (source : Source P E) {old : Enabled P} (new : Enabled P)
    {s : Shell P E} (hs : s.alive = true → s.Registered old) :
    ((actualizarModulos source new s).alive, (actualizarModulos source new s).env) =
      (loopOrder new.period).foldl (visit source (fun _ => .iniciar) true)
        ((loopOrder new.comandos).foldl (visit source (fun _ => .iniciar) true)
          ((loopOrder old.period).foldl (visit source (fun _ => .detener) false)
            ((loopOrder old.comandos).foldl (visit source (fun _ => .detener) false)
              (s.alive, s.env)))) := by
  by_cases halive : s.alive = true
  · have hempty := ((detenerModulos_sameVars source s).registered (hs halive)).unsetearVecs
    have hnew := registrar_registered new hempty.1 hempty.2
    rw [actualizarModulos, if_pos halive, iniciarShield, inicializar,
      bothLoops_visits source .iniciar true fun _ => hnew,
      ← bothLoops_visits source .detener false hs]
    rfl
  · have hdead : (s.alive, s.env).1 = false := by simpa using halive
    rw [actualizarModulos, if_neg halive]
    rw [foldl_visit_of_dead hdead (loopOrder old.comandos),
      foldl_visit_of_dead hdead (loopOrder old.period),
      foldl_visit_of_dead hdead (loopOrder new.comandos), foldl_visit_of_dead hdead]

theorem lastPath_eq_none {paths : List P} (h : (nameOrder paths.length).getLast? = none) :
    paths = [] := by
  have hlength := congrArg List.length (List.getLast?_eq_none_iff.mp h)
  rw [nameOrder_length] at hlength
  exact List.eq_nil_of_length_eq_zero hlength

theorem lastPath_eq_some {paths : List P} {i : ℕ}
    (h : (nameOrder paths.length).getLast? = some i) :
    1 ≤ i ∧ lastPath paths = paths[i - 1]? ∧ (lastPath paths).isSome := by
  obtain ⟨hpos, hle⟩ := mem_nameOrder.mp (List.mem_of_getLast? h)
  have hlast : lastPath paths = paths[i - 1]? := by rw [lastPath, h, Option.bind_some]
  have hin : i - 1 < paths.length := by omega
  exact ⟨hpos, hlast, by rw [hlast, List.getElem?_eq_getElem hin]; rfl⟩

/-- The loops of an initialisation end on the last module of the last list that has any. -/
theorem inicializar_value {source : Source P E} {s : Shell P E} (hs : s.Registered cfg)
    (halive : (inicializar source s).alive = true) :
    (inicializar source s).value =
      (lastPath cfg.period).or (lastPath cfg.comandos) := by
  have hmid := (forEachName_sameVars source .iniciar true .comandos s).registered hs
  have hend := (inicializar_sameVars source s).registered hs
  have hdir : (inicializar source s).dir = _ := forEachName_dir halive
  have hdirMid := forEachName_dir (alive_of_foldl_round _ halive)
  rw [hmid.names.2, hdirMid, hs.names.1] at hdir
  rw [value, hdir]
  cases hperiod : (nameOrder cfg.period.length).getLast? with
  | some i =>
    obtain ⟨hpos, hlast, hsome⟩ := lastPath_eq_some hperiod
    obtain ⟨path, hpath⟩ := Option.isSome_iff_exists.mp hsome
    simp only [Option.map_some, Option.some_or, Option.bind_some, vars, hend.period,
      lookup_of_pos hpos, ← hlast, hpath]
  | none =>
    have hnone : lastPath cfg.period = none := by rw [lastPath, hperiod]; rfl
    rw [hnone, Option.none_or, Option.map_none, Option.none_or]
    cases hcomandos : (nameOrder cfg.comandos.length).getLast? with
    | some i =>
      obtain ⟨hpos, hlast, -⟩ := lastPath_eq_some hcomandos
      simp only [Option.map_some, Option.some_or, Option.bind_some, vars, hend.comandos,
        lookup_of_pos hpos, ← hlast]
    | none =>
      have hempty : ∀ vec, (inicializar source s).vars vec = [] := by
        intro vec
        cases vec with
        | comandos => rw [vars, hend.comandos, lastPath_eq_none hcomandos]; rfl
        | period => rw [vars, hend.period, lastPath_eq_none hperiod]; rfl
      have hlast : lastPath cfg.comandos = none := by rw [lastPath, hcomandos]; rfl
      rw [hlast, Option.map_none, Option.none_or]
      cases s.dir with
      | none => rfl
      | some v => rw [Option.bind_some, hempty]; rfl

theorem actualizarModulos_value (source : Source P E) {old : Enabled P} (new : Enabled P)
    {s : Shell P E} (hs : s.Registered old) (halive : (actualizarModulos source new s).alive = true)
    (hbefore : s.alive = true) :
    (actualizarModulos source new s).value =
      (lastPath new.period).or (lastPath new.comandos) := by
  rw [actualizarModulos, if_pos hbefore] at halive ⊢
  have hempty := ((detenerModulos_sameVars source s).registered hs).unsetearVecs
  exact inicializar_value (registrar_registered new hempty.1 hempty.2) halive

section Lenient

variable {source : Source P E} (hsource : ∀ path action e, (source path action e).1 = 0)

include hsource

theorem round_alive {s : Shell P E} {i : ℕ} (halive : s.alive = true)
    (hi : ((s.vars vec).lookup i).isSome) : (round source action checked vec s i).alive = true := by
  obtain ⟨path, hpath⟩ := Option.isSome_iff_exists.mp hi
  have hvalue : ({ s with dir := some (vec, i) } : Shell P E).value = some path := by
    rw [← hpath]
    cases vec <;> rfl
  rw [round, if_pos halive]
  simp only [hvalue, hsource, beq_self_eq_true, Bool.or_true]

theorem foldl_round_alive {s : Shell P E} {is : List ℕ} (halive : s.alive = true)
    (his : ∀ i ∈ is, ((s.vars vec).lookup i).isSome) :
    (is.foldl (round source action checked vec) s).alive = true := by
  induction is generalizing s with
  | nil => exact halive
  | cons i is ih =>
    apply ih (round_alive hsource halive (his i List.mem_cons_self))
    intro j hj
    rw [(round_sameVars s i).vars]
    exact his j (List.mem_cons_of_mem i hj)

/-- Modules that all return 0 let a loop go over every name. -/
theorem forEachName_alive {s : Shell P E} (hs : s.Registered cfg) (halive : s.alive = true) :
    (forEachName source action checked vec s).alive = true := by
  apply foldl_round_alive hsource halive
  intro i hi
  cases vec with
  | comandos =>
    rw [hs.names.1, mem_nameOrder] at hi
    rw [vars, hs.comandos, lookup_of_pos hi.1, List.getElem?_eq_getElem (by omega)]
    rfl
  | period =>
    rw [hs.names.2, mem_nameOrder] at hi
    rw [vars, hs.period, lookup_of_pos hi.1, List.getElem?_eq_getElem (by omega)]
    rfl

theorem actualizarModulos_alive {old : Enabled P} (new : Enabled P) {s : Shell P E}
    (hs : s.Registered old) (halive : s.alive = true) :
    (actualizarModulos source new s).alive = true := by
  have hstopped : (detenerModulos source s).alive = true :=
    forEachName_alive hsource ((forEachName_sameVars source _ _ _ s).registered hs)
      (forEachName_alive hsource hs halive)
  have hempty := ((detenerModulos_sameVars source s).registered hs).unsetearVecs
  have hnew := registrar_registered new hempty.1 hempty.2
  rw [actualizarModulos, if_pos halive]
  exact forEachName_alive hsource ((forEachName_sameVars source _ _ _ _).registered hnew)
    (forEachName_alive hsource hnew hstopped)

end Lenient

end Shell

end Sisop.Shield
