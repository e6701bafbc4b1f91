import Sisop.Shield

/-!
# The gate before `eval` and a reload inside it

The names of the command modules are taken when the loop starts. A reload may come before any of
its commands; from then on the remaining names stand for the modules of the new configuration, and
`dir` for whatever the loops of the reload went over last.
-/

namespace Sisop.Shield

variable {P E : Type}

structure Consultation (P : Type) where
  path : Option P
  action : Action
  status : ℕ

structure Gate (P E : Type) extends Shell P E where
  control : Bool := false
  status : ℕ := 0
  huboError : Bool := false
  errorModulo : Option P := none
  consulted : List (Consultation P) := []

/-- The commands of the loop's body, and the trap that may run between two of them. -/
inductive Command (P : Type)
  | take (i : ℕ)
  | choose
  | consult
  | check
  | reload (cfg : Enabled P)

/-- The scripts the paths lead to, those that hold control_sesiones, and the status of `source` on
a name that is not set: it takes the action for its file, and unless there is such a file the
status is not 0. -/
structure Scripts (P E : Type) where
  source : Source P E
  control : P → Bool
  missing : Action → ℕ

/-- `[ "$(echo ${!dir} | grep modulo_control_sesiones.sh)" != "" ]` -/
def isControl (control : P → Bool) (path : Option P) : Bool := (path.map control).getD false

def consultAction (line : Text) (control : Bool) : Action :=
  if control then .iniciar else .procesar line

def consultPath (scripts : Scripts P E) (action : Action) (env : E) : Option P → ℕ × E
  | some path => scripts.source path action env
  | none => (scripts.missing action, env)

namespace Gate

def command (scripts : Scripts P E) (line : Text) (g : Gate P E) :
    Command P → Gate P E
  | .take i => { g with dir := some (.comandos, i) }
  | .choose => { g with control := isControl scripts.control g.value }
  | .consult =>
    let action := consultAction line g.control
    let r := consultPath scripts action g.env g.value
    { g with
      status := r.1
      env := r.2
      consulted := g.consulted ++ [⟨g.value, action, r.1⟩] }
  | .check => if g.status ≠ 0 then { g with huboError := true, errorModulo := g.value } else g
  | .reload cfg => { g with toShell := g.actualizarModulos scripts.source cfg }

/-- A shell that `salir` has ended runs nothing any more. -/
def step (scripts : Scripts P E) (line : Text) (g : Gate P E) (c : Command P) :
    Gate P E :=
  if g.alive then g.command scripts line c else g

def body (i : ℕ) : List (Command P) := [.take i, .choose, .consult, .check]

def commands (s : Shell P E) : List (Command P) := (names (s.vars .comandos)).flatMap body

/-- The loop for one line, with a reload before its command number `k`. -/
def run (scripts : Scripts P E) (line : Text) (cfg : Enabled P) (k : ℕ)
    (s : Shell P E) : Gate P E :=
  ((commands s).take k ++ Command.reload cfg :: (commands s).drop k).foldl (step scripts line)
    { toShell := s }

def loop (scripts : Scripts P E) (line : Text) (s : Shell P E) : Gate P E :=
  (commands s).foldl (step scripts line) { toShell := s }

def evaluates (line : Text) (g : Gate P E) : Bool :=
  g.alive && !g.huboError && (line != "salir".toList && line != "exit".toList)

end Gate

/-- A consultation that the loop makes: the file, and whether it is asked as control_sesiones. -/
abbrev Call (P : Type) := Option P × Bool

def ownCall (control : P → Bool) (paths : List P) (i : ℕ) : Call P :=
  (paths[i - 1]?, isControl control paths[i - 1]?)

/-- What `${!dir}` is right after a reload. -/
def strayPath (new : Enabled P) : Option P := (lastPath new.period).or (lastPath new.comandos)

/-- The consultation of the name whose commands the reload falls among. -/
def hitCall (control : P → Bool) (old new : Enabled P) (i : ℕ) : ℕ → Call P
  | 0 => ownCall control new.comandos i
  | 1 => (strayPath new, isControl control (strayPath new))
  | 2 => (strayPath new, isControl control old.comandos[i - 1]?)
  | _ => ownCall control old.comandos i

/-- The consultations for one line: before the reload the names denote the old modules, behind it
the new ones. -/
def calls (control : P → Bool) (old new : Enabled P) : List ℕ → ℕ → List (Call P)
  | [], _ => []
  | i :: is, k + 4 => ownCall control old.comandos i :: calls control old new is k
  | i :: is, k => hitCall control old new i k :: is.map (ownCall control new.comandos)

def lineCalls (control : P → Bool) (old new : Enabled P) (k : ℕ) : List (Call P) :=
  calls control old new (nameOrder old.comandos.length) k

namespace Gate

/-- The gate has made the consultations `cs`, each as `Q` says, and `error` tells whether one of
them failed. -/
structure Records (Q : Consultation P → Prop) (line : Text) (g : Gate P E) (error : Bool)
    (cs : List (Call P)) : Prop where
  calls : (g.consulted.map fun c => (c.path, c.action)) =
    cs.map fun c => (c.1, consultAction line c.2)
  error : error = g.consulted.any fun c => c.status ≠ 0
  each : ∀ c ∈ g.consulted, Q c

section Records

variable {Q : Consultation P → Prop} {line : Text} {g : Gate P E} {error : Bool}
  {cs : List (Call P)}

theorem Records.call_of_mem (h : Records Q line g error cs) {c : Consultation P}
    (hc : c ∈ g.consulted) :
    ∃ call ∈ cs, c.path = call.1 ∧ c.action = consultAction line call.2 := by
  have hin := List.mem_map_of_mem (f := fun c => (c.path, c.action)) hc
  rw [h.calls] at hin
  obtain ⟨call, hcall, heq⟩ := List.mem_map.mp hin
  exact ⟨call, hcall, Prod.mk.inj heq.symm⟩

theorem Records.mem_of_call (h : Records Q line g error cs) {call : Call P} (hcall : call ∈ cs) :
    ∃ c ∈ g.consulted, c.path = call.1 ∧ c.action = consultAction line call.2 := by
  have hin := List.mem_map_of_mem (f := fun c : Call P => (c.1, consultAction line c.2)) hcall
  rw [← h.calls] at hin
  obtain ⟨c, hc, heq⟩ := List.mem_map.mp hin
  exact ⟨c, hc, Prod.mk.inj heq⟩

theorem Records.error_eq_false (h : Records Q line g error cs) :
    error = false ↔ ∀ c ∈ g.consulted, c.status = 0 := by
  rw [h.error, List.any_eq_false]
  simp

end Records

section Steps

variable {scripts : Scripts P E} {line : Text} {Q : Consultation P → Prop}
  {g : Gate P E} {cs : List (Call P)} {i : ℕ}

theorem step_of_alive (h : g.alive = true) (c : Command P) :
    step scripts line g c = g.command scripts line c := if_pos h

theorem foldl_step_of_dead (h : g.alive = false) (commands : List (Command P)) :
    commands.foldl (step scripts line) g = g := by
  induction commands with
  | nil => rfl
  | cons c commands ih => rw [List.foldl_cons, step, if_neg (by simp [h]), ih]

theorem alive_of_foldl_step (commands : List (Command P))
    (h : (commands.foldl (step scripts line) g).alive = true) : g.alive = true := by
  by_contra halive
  have hdead : g.alive = false := by simpa using halive
  rw [foldl_step_of_dead hdead, hdead] at h
  exact Bool.false_ne_true h

variable (hQ : ∀ path action env,
  Q ⟨path, action, (consultPath scripts action env path).1⟩)

include hQ in
theorem Records.consult (h : Records Q line g g.huboError cs) :
    let g' := g.command scripts line .consult
    Records Q line g' (g'.huboError || decide (g'.status ≠ 0)) (cs ++ [(g.value, g.control)]) where
  calls := by simp [command, h.calls]
  error := by simp [command, h.error]
  each c hc := by
    rcases List.mem_append.mp hc with hc | hc
    · exact h.each c hc
    · rw [List.mem_singleton.mp hc]
      exact hQ _ _ _

variable (scripts) in
theorem Records.check (h : Records Q line g (g.huboError || decide (g.status ≠ 0)) cs) :
    let g' := g.command scripts line .check
    Records Q line g' g'.huboError cs := by
  by_cases hstatus : g.status ≠ 0
  · rw [decide_eq_true hstatus, Bool.or_true] at h
    simp only [command, if_pos hstatus]
    exact ⟨h.calls, h.error, h.each⟩
  · rw [decide_eq_false hstatus, Bool.or_false] at h
    simp only [command, if_neg hstatus]
    exact h

/-- What is kept between two names: the records, the variables and the shell itself. -/
structure Between (Q : Consultation P → Prop) (line : Text) (cfg : Enabled P) (g : Gate P E)
    (cs : List (Call P)) : Prop where
  alive : g.alive = true
  registered : g.Registered cfg
  records : Records Q line g g.huboError cs

variable (scripts) in
theorem between_take {cfg : Enabled P} (hi : 1 ≤ i) (h : Between Q line cfg g cs) :
    Between Q line cfg (step scripts line g (.take i)) cs ∧
      (step scripts line g (.take i)).value = cfg.comandos[i - 1]? := by
  rw [step_of_alive h.alive]
  refine ⟨⟨h.alive, ⟨h.registered.comandos, h.registered.cantComandos, h.registered.period,
    h.registered.cantPeriod⟩, ⟨h.records.calls, h.records.error, h.records.each⟩⟩, ?_⟩
  change (g.vars .comandos).lookup i = _
  rw [Shell.vars, h.registered.comandos, lookup_of_pos hi]

variable (scripts) in
theorem between_choose {cfg : Enabled P} (h : Between Q line cfg g cs) :
    Between Q line cfg (step scripts line g .choose) cs ∧
      (step scripts line g .choose).value = g.value ∧
      (step scripts line g .choose).control = isControl scripts.control g.value := by
  rw [step_of_alive h.alive]
  exact ⟨⟨h.alive, ⟨h.registered.comandos, h.registered.cantComandos, h.registered.period,
    h.registered.cantPeriod⟩, ⟨h.records.calls, h.records.error, h.records.each⟩⟩, rfl, rfl⟩

theorem between_reload {old new : Enabled P} (h : Between Q line old g cs)
    (halive : (step scripts line g (.reload new)).alive = true) :
    Between Q line new (step scripts line g (.reload new)) cs ∧
      (step scripts line g (.reload new)).value = strayPath new ∧
      (step scripts line g (.reload new)).control = g.control := by
  rw [step_of_alive h.alive] at halive ⊢
  exact ⟨⟨halive, Shell.actualizarModulos_registered scripts.source new h.registered h.alive,
      ⟨h.records.calls, h.records.error, h.records.each⟩⟩,
    Shell.actualizarModulos_value scripts.source new h.registered halive h.alive, rfl⟩

theorem between_check {cfg : Enabled P} (halive : g.alive = true) (hg : g.Registered cfg)
    (h : Records Q line g (g.huboError || decide (g.status ≠ 0)) cs) :
    Between Q line cfg (step scripts line g .check) cs := by
  have hcheck := h.check scripts
  rw [step_of_alive halive]
  refine ⟨?_, ?_, hcheck⟩
  · rw [command]
    split
    · exact halive
    · exact halive
  · rw [command]
    split
    · exact ⟨hg.comandos, hg.cantComandos, hg.period, hg.cantPeriod⟩
    · exact hg

include hQ

/-- The last two commands of the body, from any value of `${!dir}` and either branch. -/
theorem between_consult_check {cfg : Enabled P} (h : Between Q line cfg g cs) :
    Between Q line cfg ([.consult, .check].foldl (step scripts line) g)
      (cs ++ [(g.value, g.control)]) := by
  rw [List.foldl_cons, List.foldl_cons, List.foldl_nil, step_of_alive h.alive]
  exact between_check h.alive
    ⟨h.registered.comandos, h.registered.cantComandos, h.registered.period,
      h.registered.cantPeriod⟩ (h.records.consult hQ)

theorem between_body {cfg : Enabled P} (hi : 1 ≤ i) (h : Between Q line cfg g cs) :
    Between Q line cfg ((body i).foldl (step scripts line) g)
      (cs ++ [ownCall scripts.control cfg.comandos i]) := by
  obtain ⟨htaken, hvalue⟩ := between_take scripts hi h
  obtain ⟨hchosen, hsame, hcontrol⟩ := between_choose scripts htaken
  have hbody := between_consult_check hQ hchosen
  rw [hsame, hcontrol, hvalue] at hbody
  exact hbody

/-- Names that no reload comes between. -/
theorem between_bodies {cfg : Enabled P} {is : List ℕ} (his : ∀ i ∈ is, 1 ≤ i)
    (h : Between Q line cfg g cs) :
    Between Q line cfg ((is.flatMap body).foldl (step scripts line) g)
      (cs ++ is.map (ownCall scripts.control cfg.comandos)) := by
  induction is generalizing g cs with
  | nil => simpa using h
  | cons i is ih =>
    have hi := between_body (i := i) hQ (his i List.mem_cons_self) h
    have hrest := ih (fun j hj => his j (List.mem_cons_of_mem i hj)) hi
    rw [List.flatMap_cons, List.foldl_append, List.map_cons, List.append_cons cs]
    exact hrest

/-- The name among whose commands the reload falls, one case for each place. -/
theorem between_hit {old new : Enabled P} {r : ℕ} (hr : r < 4) (hi : 1 ≤ i)
    (h : Between Q line old g cs)
    (halive : (((body i).take r ++ Command.reload new :: (body i).drop r).foldl
      (step scripts line) g).alive = true) :
    Between Q line new (((body i).take r ++ Command.reload new :: (body i).drop r).foldl
      (step scripts line) g) (cs ++ [hitCall scripts.control old new i r]) := by
  obtain ⟨htaken, hvalue⟩ := between_take scripts hi h
  obtain ⟨hchosen, hsame, hcontrol⟩ := between_choose scripts htaken
  rcases r with _ | _ | _ | r
  · rw [List.take_zero, List.drop_zero, List.nil_append, List.foldl_cons] at halive ⊢
    obtain ⟨hreloaded, -, -⟩ := between_reload h (alive_of_foldl_step (body i) halive)
    exact between_body hQ hi hreloaded
  · change ([.choose, .consult, .check].foldl (step scripts line)
      (step scripts line (step scripts line g (.take i)) (.reload new))).alive = true at halive
    obtain ⟨hreloaded, hstray, -⟩ := between_reload htaken (alive_of_foldl_step _ halive)
    obtain ⟨hchosen', hsame', hcontrol'⟩ := between_choose scripts hreloaded
    have hrest := between_consult_check hQ hchosen'
    rw [hsame', hcontrol', hstray] at hrest
    exact hrest
  · change ([.consult, .check].foldl (step scripts line) (step scripts line
      (step scripts line (step scripts line g (.take i)) .choose) (.reload new))).alive = true
      at halive
    obtain ⟨hreloaded, hstray, hkept⟩ := between_reload hchosen (alive_of_foldl_step _ halive)
    have hrest := between_consult_check hQ hreloaded
    rw [hstray, hkept, hcontrol, hvalue] at hrest
    exact hrest
  · -- The module has been asked already, and `$?` is what the check will see.
    obtain rfl : r = 0 := by omega
    let chosen := step scripts line (step scripts line g (.take i)) .choose
    let asked := chosen.command scripts line .consult
    have hasked : asked.Registered old := ⟨hchosen.registered.comandos,
      hchosen.registered.cantComandos, hchosen.registered.period, hchosen.registered.cantPeriod⟩
    have hrun : ((body i).take 3 ++ Command.reload new :: (body i).drop 3).foldl
        (step scripts line) g =
        step scripts line (step scripts line asked (.reload new)) .check := by
      change step scripts line (step scripts line (step scripts line chosen .consult)
        (.reload new)) .check = _
      rw [step_of_alive (g := chosen) hchosen.alive]
    rw [hrun] at halive ⊢
    have hreloaded := alive_of_foldl_step [.check] halive
    rw [step_of_alive (g := asked) hchosen.alive] at hreloaded ⊢
    have hrecords := hchosen.records.consult hQ
    rw [hsame, hcontrol, hvalue] at hrecords
    exact between_check hreloaded
      (Shell.actualizarModulos_registered scripts.source new hasked hchosen.alive)
      ⟨hrecords.calls, hrecords.error, hrecords.each⟩

/-- The whole loop, from any of its names on. -/
theorem between_run {old new : Enabled P} {is : List ℕ} {k : ℕ} (his : ∀ i ∈ is, 1 ≤ i)
    (h : Between Q line old g cs)
    (halive : (((is.flatMap body).take k ++ Command.reload new :: (is.flatMap body).drop k).foldl
      (step scripts line) g).alive = true) :
    Between Q line new (((is.flatMap body).take k ++ Command.reload new ::
      (is.flatMap body).drop k).foldl (step scripts line) g)
      (cs ++ calls scripts.control old new is k) := by
  induction is generalizing g cs k with
  | nil =>
    rw [List.flatMap_nil, List.take_nil, List.drop_nil, List.nil_append] at halive ⊢
    rw [calls, List.append_nil]
    exact (between_reload h halive).1
  | cons i is ih =>
    have hi := his i List.mem_cons_self
    have hrest : ∀ j ∈ is, 1 ≤ j := fun j hj => his j (List.mem_cons_of_mem i hj)
    have hlength : (body i : List (Command P)).length = 4 := rfl
    rw [List.flatMap_cons] at halive ⊢
    by_cases hk : k < 4
    · -- The reload falls among the commands of `i`.
      have hcut : (body i ++ is.flatMap body).take k ++
          Command.reload new :: (body i ++ is.flatMap body).drop k =
          ((body i).take k ++ Command.reload new :: (body i).drop k) ++ is.flatMap body := by
        rw [List.take_append_of_le_length (by omega), List.drop_append_of_le_length (by omega),
          List.append_assoc, List.cons_append]
      have hcalls : calls scripts.control old new (i :: is) k =
          hitCall scripts.control old new i k :: is.map (ownCall scripts.control new.comandos) := by
        rcases k with _ | _ | _ | _ | k <;> first | rfl | omega
      rw [hcut, List.foldl_append] at halive ⊢
      have hhit := between_hit hQ hk hi h (alive_of_foldl_step _ halive)
      rw [hcalls, List.append_cons cs]
      exact between_bodies hQ hrest hhit
    · obtain ⟨k, rfl⟩ := Nat.exists_eq_add_of_le' (Nat.le_of_not_lt hk)
      have hcut : (body i ++ is.flatMap body).take (k + 4) ++
          Command.reload new :: (body i ++ is.flatMap body).drop (k + 4) =
          body i ++ ((is.flatMap body).take k ++
            Command.reload new :: (is.flatMap body).drop k) := by
        rw [← hlength, Nat.add_comm k, List.take_length_add_append, List.drop_length_add_append,
          List.append_assoc]
      rw [hcut, List.foldl_append] at halive ⊢
      have hbody := between_body hQ hi h
      rw [calls, List.append_cons cs]
      exact ih hrest hbody halive

end Steps

/-- Modules that all return 0 keep the shell alive through the reload. -/
theorem run_alive {scripts : Scripts P E} {line : Text}
    (hsource : ∀ path action e, (scripts.source path action e).1 = 0)
    {commands : List (Command P)} {g : Gate P E} {cfg : Enabled P} (hg : g.Registered cfg)
    (halive : g.alive = true) : (commands.foldl (step scripts line) g).alive = true := by
  induction commands generalizing g cfg with
  | nil => exact halive
  | cons c commands ih =>
    rw [List.foldl_cons, step_of_alive halive]
    have hkept : ∀ t : Gate P E, Shell.SameVars g.toShell t.toShell → t.alive = true →
        (commands.foldl (step scripts line) t).alive = true :=
      fun t ht htalive => ih (ht.registered hg) htalive
    cases c with
    | take i => exact hkept _ ⟨rfl, rfl, rfl, rfl⟩ halive
    | choose => exact hkept _ ⟨rfl, rfl, rfl, rfl⟩ halive
    | consult => exact hkept _ ⟨rfl, rfl, rfl, rfl⟩ halive
    | check =>
      rw [command]
      split
      · exact hkept _ ⟨rfl, rfl, rfl, rfl⟩ halive
      · exact hkept _ ⟨rfl, rfl, rfl, rfl⟩ halive
    | reload new =>
      exact ih (Shell.actualizarModulos_registered scripts.source new hg halive)
        (Shell.actualizarModulos_alive hsource new hg halive)

/-- The run that begins with the variables of `old` makes the consultations `lineCalls`. -/
theorem run_between (scripts : Scripts P E) (line : Text)
    {Q : Consultation P → Prop}
    (hQ : ∀ path action env, Q ⟨path, action, (consultPath scripts action env path).1⟩)
    {old new : Enabled P} {k : ℕ} {s : Shell P E} (hs : s.Registered old) (hs' : s.alive = true)
    (halive : (run scripts line new k s).alive = true) :
    Between Q line new (run scripts line new k s) (lineCalls scripts.control old new k) := by
  have hstart : Between Q line old { toShell := s } [] := by
    refine ⟨hs', hs, rfl, rfl, ?_⟩
    intro c hc
    cases hc
  rw [run, commands, hs.names.1] at halive ⊢
  have hpos : ∀ i ∈ nameOrder old.comandos.length, 1 ≤ i :=
    fun i hi => (mem_nameOrder.mp hi).1
  exact between_run hQ hpos hstart halive

theorem body_visit (scripts : Scripts P E) (line : Text) {g : Gate P E} {paths : List P} {i : ℕ}
    {path : P} (hi : 1 ≤ i) (hpath : paths[i - 1]? = some path)
    (hg : g.comandos = numbered 0 paths) (halive : g.alive = true) :
    ((body i).foldl (step scripts line) g).alive = true ∧
      Shell.SameVars g.toShell ((body i).foldl (step scripts line) g).toShell ∧
      ((body i).foldl (step scripts line) g).env =
        (scripts.source path (consultAction line (scripts.control path)) g.env).2 := by
  let chosen := (g.command scripts line (.take i)).command scripts line .choose
  let asked := chosen.command scripts line .consult
  have hvalue : chosen.value = some path := by
    change (g.vars .comandos).lookup i = _
    rw [Shell.vars, hg, lookup_of_pos hi, hpath]
  have hcontrol : chosen.control = scripts.control path := by
    change isControl scripts.control chosen.value = _
    rw [hvalue]
    rfl
  have henv : asked.env =
      (scripts.source path (consultAction line (scripts.control path)) g.env).2 := by
    change (consultPath scripts (consultAction line chosen.control) g.env chosen.value).2 = _
    rw [hvalue, hcontrol]
    rfl
  have hrun : (body i).foldl (step scripts line) g = asked.command scripts line .check := by
    rw [body, List.foldl_cons, List.foldl_cons, List.foldl_cons, List.foldl_cons, List.foldl_nil,
      step_of_alive halive, step_of_alive (g := g.command scripts line (.take i)) halive,
      step_of_alive (g := chosen) halive, step_of_alive (g := asked) halive]
  rw [hrun, command]
  split
  · exact ⟨halive, ⟨rfl, rfl, rfl, rfl⟩, henv⟩
  · exact ⟨halive, ⟨rfl, rfl, rfl, rfl⟩, henv⟩

theorem bodies_visits {scripts : Scripts P E} {line : Text} {g : Gate P E} {paths : List P}
    {is : List ℕ} (hg : g.comandos = numbered 0 paths) (halive : g.alive = true)
    (his : ∀ i ∈ is, 1 ≤ i ∧ i ≤ paths.length) :
    Shell.SameVars g.toShell ((is.flatMap body).foldl (step scripts line) g).toShell ∧
      (((is.flatMap body).foldl (step scripts line) g).alive,
        ((is.flatMap body).foldl (step scripts line) g).env) =
        (is.filterMap fun i => paths[i - 1]?).foldl
          (visit scripts.source (fun path => consultAction line (scripts.control path)) false)
          (g.alive, g.env) := by
  induction is generalizing g with
  | nil => exact ⟨.refl _, rfl⟩
  | cons i is ih =>
    obtain ⟨hpos, hle⟩ := his i List.mem_cons_self
    have hsome : paths[i - 1]? = some (paths.get ⟨i - 1, by omega⟩) :=
      List.getElem?_eq_getElem (by omega)
    obtain ⟨halive', hsame, henv⟩ := body_visit scripts line hpos hsome hg halive
    have hrest := ih (hsame.comandos.trans hg) halive'
      fun j hj => his j (List.mem_cons_of_mem i hj)
    rw [List.flatMap_cons, List.foldl_append,
      List.filterMap_cons_some (f := fun i => paths[i - 1]?) hsome, List.foldl_cons, visit,
      if_pos halive]
    refine ⟨hsame.trans hrest.1, hrest.2.trans ?_⟩
    rw [halive', henv]
    rfl

/-- The loop asks every enabled module, also behind one that failed. -/
theorem loop_visits (scripts : Scripts P E) (line : Text) {cfg : Enabled P} {s : Shell P E}
    (hs : s.alive = true → s.Registered cfg) :
    Shell.SameVars s (loop scripts line s).toShell ∧
      ((loop scripts line s).alive, (loop scripts line s).env) =
        (loopOrder cfg.comandos).foldl
          (visit scripts.source (fun path => consultAction line (scripts.control path)) false)
          (s.alive, s.env) := by
  by_cases halive : s.alive = true
  · rw [loop, commands, (hs halive).names.1]
    exact bodies_visits (g := { toShell := s }) (hs halive).comandos halive
      fun i hi => mem_nameOrder.mp hi
  · have hdead : s.alive = false := by simpa using halive
    rw [loop, foldl_step_of_dead (g := { toShell := s }) hdead, Shell.foldl_visit_of_dead hdead]
    exact ⟨.refl s, rfl⟩

end Gate

theorem consultAction_inj {line : Text} {a b : Bool}
    (h : consultAction line a = consultAction line b) : a = b := by
  cases a <;> cases b <;> simp_all [consultAction]

/-- `grep "modulo_control_sesiones.sh"` -/
def controlSesiones : Text → Bool := occurs "modulo_control_sesiones.sh".toList

def AllConsulted (old new : Config) (line : Text) (g : Gate Text E) : Prop :=
  ∀ path ∈ activos old.comandos, path ∈ activos new.comandos →
    ∃ c ∈ g.consulted, c.path = some path ∧
      c.action = consultAction line (controlSesiones path) ∧ c.status = 0

/-- Whatever the modules do, a line that reaches `eval` has been through them. -/
def NotBypassed (missing : Action → ℕ) (old new : Config) (line : Text) (k : ℕ) : Prop :=
  ∀ (E : Type) (source : Source Text E) (s : Shell Text E), s.Registered old.enabled →
    s.alive = true →
    let g := Gate.run ⟨source, controlSesiones, missing⟩ line new.enabled k s
    g.evaluates line = true → AllConsulted old new line g

/-- With a reload before command `k` the gate holds for the lines that are never evaluated, where
one of the names left is not set and `source` fails, and where the names consulted before and
behind the reload denote every module that stays enabled. -/
theorem gate_not_bypassed_iff (missing : Action → ℕ) (old new : Config) (line : Text) (k : ℕ) :
    NotBypassed missing old new line k ↔
      line = "salir".toList ∨ line = "exit".toList ∨
      (∃ c ∈ lineCalls controlSesiones old.enabled new.enabled k,
        c.1 = none ∧ missing (consultAction line c.2) ≠ 0) ∨
      ∀ path ∈ activos old.comandos, path ∈ activos new.comandos →
        (some path, controlSesiones path) ∈
          lineCalls controlSesiones old.enabled new.enabled k := by
  constructor
  · intro h
    by_contra hnot
    obtain ⟨hsalir, hexit, hset, hall⟩ : line ≠ "salir".toList ∧ line ≠ "exit".toList ∧
        (∀ c ∈ lineCalls controlSesiones old.enabled new.enabled k,
          c.1 = none → missing (consultAction line c.2) = 0) ∧
        ¬ ∀ path ∈ activos old.comandos, path ∈ activos new.comandos →
          (some path, controlSesiones path) ∈
            lineCalls controlSesiones old.enabled new.enabled k := by
      simpa only [not_or, not_exists, not_and, not_not] using hnot
    -- Modules that all return 0.
    let scripts : Scripts Text Unit := ⟨fun _ _ _ => (0, ()), controlSesiones, missing⟩
    let s : Shell Text Unit := Shell.registrar old.enabled { env := () }
    have hs : s.Registered old.enabled := Shell.registrar_registered _ rfl rfl
    let g := Gate.run scripts line new.enabled k s
    have halive : g.alive = true :=
      Gate.run_alive (g := { toShell := s }) (fun _ _ _ => rfl) hs rfl
    have hrecords := (Gate.run_between scripts line
      (Q := fun c => c.status = c.path.elim (missing c.action) fun _ => 0)
      (by intro path action env; cases path <;> rfl) hs rfl halive).records
    have hquiet : g.huboError = false := by
      apply hrecords.error_eq_false.mpr
      intro c hc
      obtain ⟨call, hcall, hpath, haction⟩ := hrecords.call_of_mem hc
      have hstatus := hrecords.each c hc
      cases hcpath : c.path with
      | none =>
        rwa [hcpath, Option.elim_none, haction, hset call hcall (hpath.symm.trans hcpath)]
          at hstatus
      | some path => rwa [hcpath, Option.elim_some] at hstatus
    have heval : g.evaluates line = true := by
      rw [Gate.evaluates, halive, hquiet, bne_iff_ne.mpr hsalir, bne_iff_ne.mpr hexit]
      rfl
    apply hall
    intro path hold hnew
    obtain ⟨c, hc, hpath, haction, -⟩ := h Unit scripts.source s hs rfl heval path hold hnew
    obtain ⟨call, hcall, hcallPath, hcallAction⟩ := hrecords.call_of_mem hc
    have hkey : call = (some path, controlSesiones path) :=
      Prod.ext (hcallPath.symm.trans hpath) (consultAction_inj (hcallAction.symm.trans haction))
    rwa [hkey] at hcall
  · intro h E source s hs hs' g heval path hold hnew
    obtain ⟨⟨halive, hquiet⟩, hsalir, hexit⟩ : (g.alive = true ∧ g.huboError = false) ∧
        line ≠ "salir".toList ∧ line ≠ "exit".toList := by
      simpa only [Gate.evaluates, Bool.and_eq_true, Bool.not_eq_true', bne_iff_ne] using heval
    have hrecords := (Gate.run_between ⟨source, controlSesiones, missing⟩ line
      (Q := fun c => c.path = none → c.status = missing c.action)
      (by intro path action env hpath; cases hpath; rfl) hs hs' halive).records
    have hzero := hrecords.error_eq_false.mp hquiet
    rcases h with h | h | ⟨call, hcall, hpath, hmissing⟩ | h
    · exact absurd h hsalir
    · exact absurd h hexit
    · obtain ⟨c, hc, hcpath, hcaction⟩ := hrecords.mem_of_call hcall
      have hstatus := hrecords.each c hc (hcpath.trans hpath)
      rw [hzero c hc, hcaction] at hstatus
      exact absurd hstatus.symm hmissing
    · obtain ⟨c, hc, hcpath, hcaction⟩ := hrecords.mem_of_call (h path hold hnew)
      exact ⟨c, hc, hcpath, hcaction, hzero c hc⟩

section Renumbered

def twoModules : List Text :=
  ["/shield/modulo_control_sesiones.sh:on".toList, "/shield/modulo_seguridad.sh:on".toList]

def threeModules : List Text := "/shield/modulo_auditoria.sh:on".toList :: twoModules

def refuses : Source Text Unit := fun path action env =>
  if occurs "seguridad".toList path ∧ action = .procesar "pwd".toList then (1, env) else (0, env)

/-- The reload comes when the first name has been asked: the second now denotes the same module,
and a line that seguridad refuses is evaluated. -/
theorem gate_bypassed :
    ¬ NotBypassed (fun _ => 1) ⟨twoModules, []⟩ ⟨threeModules, []⟩ "pwd".toList 3 := by
  intro h
  have hpath := h Unit refuses (Shell.registrar (Config.enabled ⟨twoModules, []⟩) { env := () })
    (Shell.registrar_registered _ rfl rfl) rfl (by decide) "/shield/modulo_seguridad.sh".toList
    (by decide) (by decide)
  revert hpath
  decide

end Renumbered

end Sisop.Shield
