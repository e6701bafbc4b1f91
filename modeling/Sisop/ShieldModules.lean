import Sisop.ShieldGate
import Sisop.ShieldScripts

/-!
# Sessions with any modules enabled

A session is compared with one in which other modules are enabled. What a module keeps of its own
in the shared environment, its limits and its counters, is the same in both, and so is what it
answers to the same samples.
-/

namespace Sisop.Shield

/-- One `source` of a script: the files and variables it met, and what came of it. -/
structure Entry where
  modulo : Modulo
  action : Action
  files : Files
  vars : Vars
  status : ℕ
  effects : List Effect

structure Env where
  vars : Vars := {}
  log : List Entry := []

def scripts (files : Files) (sample : Sample) : Source Modulo Env := fun m action env =>
  let r := m.script files sample env.vars action
  (r.status,
    { vars := r.vars
      log := env.log ++ [⟨m, action, files, env.vars, r.status, r.effects⟩] })

structure Session where
  shell : Shell Modulo Env
  cfg : Enabled Modulo
  files : Files

inductive Event
  | reload (cfg : Enabled Modulo) (files : Files) (sample : Sample)
  | periodicos (sample : Sample)
  | line (text : Text) (sample : Sample)

namespace Session

/-- `iniciarShield`, in a shell that has inherited `vars`. -/
def start (vars : Vars) (cfg : Enabled Modulo) (files : Files) (sample : Sample) : Session where
  shell := Shell.iniciarShield (scripts files sample) cfg { env := { vars := vars } }
  cfg := cfg
  files := files

def step (s : Session) : Event → Session
  | .reload cfg files sample =>
    { shell := s.shell.actualizarModulos (scripts files sample) cfg, cfg := cfg, files := files }
  | .periodicos sample =>
    { s with shell := s.shell.executePeriodicos (scripts s.files sample) }
  | .line text sample =>
    { s with
      shell := (Gate.loop ⟨scripts s.files sample, (· == .controlSesiones), fun _ => 1⟩ text
        s.shell).toShell }

def run (s : Session) (events : List Event) : Session := events.foldl step s

end Session

def Enabled.Mem (m : Modulo) (cfg : Enabled Modulo) : Prop := m ∈ cfg.comandos ∨ m ∈ cfg.period

/-- control_carga and limitaciones are not both enabled, or have the same limit in their files. -/
def Compatible (cfg : Enabled Modulo) (files : Files) : Prop :=
  cfg.Mem .controlCarga → cfg.Mem .limitaciones →
    files.controlCarga = files.limitaciones.maxCpu.getD 50

def Event.Compatible : Event → Prop
  | .reload cfg files _ => Shield.Compatible cfg files
  | .periodicos _ => True
  | .line _ _ => True

/-- The configuration with every module but `m` switched off. -/
def Enabled.only (m : Modulo) (cfg : Enabled Modulo) : Enabled Modulo where
  comandos := cfg.comandos.filter (· == m)
  period := cfg.period.filter (· == m)

def Event.only (m : Modulo) : Event → Event
  | .reload cfg files sample => .reload (cfg.only m) files sample
  | .periodicos sample => .periodicos sample
  | .line text sample => .line text sample

def verdicts (m : Modulo) (log : List Entry) : List (Action × ℕ × List Effect) :=
  (log.filter (·.modulo == m)).map fun e => (e.action, e.status, e.effects)

/-- A `procesar` compared against the limits of the module's own file. -/
def Entry.Own (e : Entry) : Prop :=
  ∀ line, e.action = .procesar line → Shield.Own e.files e.vars e.modulo

section Visits

variable {files : Files} {sample : Sample} {action : Modulo → Action} {checked : Bool}
  {m m' : Modulo} {s t : Bool × Env}

theorem visit_alive (h : s.1 = true) :
    visit (scripts files sample) action checked s m =
      (!checked || (m.script files sample s.2.vars (action m)).status == 0,
        { vars := (m.script files sample s.2.vars (action m)).vars
          log := s.2.log ++ [⟨m, action m, files, s.2.vars,
            (m.script files sample s.2.vars (action m)).status,
            (m.script files sample s.2.vars (action m)).effects⟩] }) := by
  rw [visit, if_pos h]
  rfl

theorem visit_dead (h : ¬ s.1 = true) :
    visit (scripts files sample) action checked s m = s := by
  rw [visit, if_neg h]

theorem verdicts_append_other (hne : m' ≠ m) (log : List Entry) {e : Entry}
    (he : e.modulo = m') : verdicts m (log ++ [e]) = verdicts m log := by
  have hout : (e.modulo == m) = false := by
    rw [he]
    exact beq_false_of_ne hne
  simp [verdicts, List.filter_append, hout]

theorem verdicts_append_own (log : List Entry) {e : Entry} (he : e.modulo = m) :
    verdicts m (log ++ [e]) = verdicts m log ++ [(e.action, e.status, e.effects)] := by
  have hin : (e.modulo == m) = true := by
    rw [he]
    exact beq_self_eq_true m
  simp [verdicts, List.filter_append, hin]

theorem verdicts_visit (h : s.1 = true) :
    verdicts m (visit (scripts files sample) action checked s m).2.log =
      verdicts m s.2.log ++ [(action m, (m.script files sample s.2.vars (action m)).status,
        (m.script files sample s.2.vars (action m)).effects)] := by
  rw [visit_alive h]
  exact verdicts_append_own _ rfl

/-- The two sessions are the same to module `m`, as far as the first has got; once `ready`, the
module's limits are those of its file. -/
structure Alike (m : Modulo) (files : Files) (ready : Prop) (s t : Bool × Env) : Prop where
  earlier : verdicts m s.2.log <+: verdicts m t.2.log
  own : ∀ e ∈ s.2.log, e.modulo = m → e.Own
  same : s.1 = true → t.1 = true ∧ verdicts m s.2.log = verdicts m t.2.log
  agree : s.1 = true → ready → Own files s.2.vars m ∧ Agree s.2.vars t.2.vars m

theorem Alike.mono {ready ready' : Prop} (h : Alike m files ready s t) (himp : ready' → ready) :
    Alike m files ready' s t where
  earlier := h.earlier
  own := h.own
  same := h.same
  agree halive hready := h.agree halive (himp hready)

theorem Alike.unready {ready : Prop} (files' : Files) (h : Alike m files ready s t) :
    Alike m files' False s t where
  earlier := h.earlier
  own := h.own
  same := h.same
  agree _ hfalse := hfalse.elim

/-- Another module is sourced in the first session only. -/
theorem Alike.other {ready : Prop} (hne : m' ≠ m) (h : Alike m files ready s t)
    (hframe : s.1 = true → ready → Own files s.2.vars m →
      Agree (m'.script files sample s.2.vars (action m')).vars s.2.vars m) :
    Alike m files ready (visit (scripts files sample) action checked s m') t := by
  by_cases halive : s.1 = true
  · rw [visit_alive halive]
    obtain ⟨htalive, hverdicts⟩ := h.same halive
    refine ⟨?_, ?_, ?_, ?_⟩
    · rw [verdicts_append_other hne _ rfl]
      exact h.earlier
    · intro e he hmod
      rcases List.mem_append.mp he with he | he
      · exact h.own e he hmod
      · rw [List.mem_singleton.mp he] at hmod
        exact absurd hmod hne
    · intro _
      rw [verdicts_append_other hne _ rfl]
      exact ⟨htalive, hverdicts⟩
    · intro _ hready
      obtain ⟨hown, hagree⟩ := h.agree halive hready
      have hkept := hframe halive hready hown
      exact ⟨hown.of_agree hkept, hkept.trans hagree⟩
  · rw [visit_dead halive]
    exact h

/-- The module itself is sourced in both sessions, on samples that are the same. -/
theorem Alike.both {ready ready' : Prop} (h : Alike m files ready s t)
    (hentry : s.1 = true → ∀ line, action m = .procesar line → Own files s.2.vars m)
    (hstatus : s.1 = true → (m.script files sample s.2.vars (action m)).status =
      (m.script files sample t.2.vars (action m)).status)
    (heffects : s.1 = true → (m.script files sample s.2.vars (action m)).effects =
      (m.script files sample t.2.vars (action m)).effects)
    (hvars : s.1 = true → ready' →
      (!checked || (m.script files sample s.2.vars (action m)).status == 0) = true →
      Own files (m.script files sample s.2.vars (action m)).vars m ∧
        Agree (m.script files sample s.2.vars (action m)).vars
          (m.script files sample t.2.vars (action m)).vars m) :
    Alike m files ready' (visit (scripts files sample) action checked s m)
      (visit (scripts files sample) action checked t m) := by
  by_cases halive : s.1 = true
  · obtain ⟨htalive, hverdicts⟩ := h.same halive
    rw [visit_alive halive, visit_alive htalive]
    have hsame : verdicts m (visit (scripts files sample) action checked s m).2.log =
        verdicts m (visit (scripts files sample) action checked t m).2.log := by
      rw [verdicts_visit halive, verdicts_visit htalive, hverdicts, hstatus halive,
        heffects halive]
    rw [visit_alive halive, visit_alive htalive] at hsame
    refine ⟨?_, ?_, ?_, ?_⟩
    · exact hsame ▸ List.prefix_rfl
    · intro e he hmod
      rcases List.mem_append.mp he with he | he
      · exact h.own e he hmod
      · rw [List.mem_singleton.mp he]
        exact hentry halive
    · intro hgoes
      exact ⟨by rw [← hstatus halive]; exact hgoes, hsame⟩
    · intro hgoes hready
      exact hvars halive hready hgoes
  · rw [visit_dead halive]
    refine ⟨?_, h.own, fun hgoes => absurd hgoes halive, fun hgoes => absurd hgoes halive⟩
    by_cases htalive : t.1 = true
    · rw [verdicts_visit htalive]
      exact h.earlier.trans (List.prefix_append _ _)
    · rw [visit_dead htalive]
      exact h.earlier

end Visits

section Loops

variable {files : Files} {sample : Sample} {checked : Bool} {m : Modulo} {ready : Prop}
  {s t : Bool × Env}

/-- A fold over a list beside one over the entries `m` of it. -/
theorem foldl_filter_rel {σ : Type} {f : σ → Modulo → σ} {R : σ → σ → Prop} {ms : List Modulo}
    (hother : ∀ m' ∈ ms, m' ≠ m → ∀ s t, R s t → R (f s m') t)
    (hown : m ∈ ms → ∀ s t, R s t → R (f s m) (f t m)) {s t : σ} (h : R s t) :
    R (ms.foldl f s) ((ms.filter (· == m)).foldl f t) := by
  induction ms generalizing s t with
  | nil => exact h
  | cons m' ms ih =>
    have hrest := fun {s t} => ih (s := s) (t := t)
      (fun m'' hm'' => hother m'' (List.mem_cons_of_mem m' hm''))
      (fun hm => hown (List.mem_cons_of_mem m' hm))
    by_cases hm : m' = m
    · subst hm
      rw [List.filter_cons_of_pos (p := (· == m')) (beq_self_eq_true m'), List.foldl_cons,
        List.foldl_cons]
      exact hrest (hown List.mem_cons_self s t h)
    · rw [List.filter_cons_of_neg (by simpa using hm), List.foldl_cons]
      exact hrest (hother m' List.mem_cons_self hm s t h)

/-- A loop that runs and initialises modules, when the module is ready. -/
theorem Alike.loop (sample : Sample) (checked : Bool) {action : Modulo → Action} (ms : List Modulo)
    (haction : ∀ m', action m' ≠ .detener)
    (hcompatible : ready → ∀ m' ∈ ms, files.Compatible m m')
    (hready : m ∈ ms → ready)
    (h : Alike m files ready s t) :
    Alike m files ready (ms.foldl (visit (scripts files sample) action checked) s)
      ((ms.filter (· == m)).foldl (visit (scripts files sample) action checked) t) := by
  apply foldl_filter_rel (R := Alike m files ready) _ _ h
  · intro m' hm' hne s t h
    exact h.other hne fun _ hr hown =>
      script_frame (haction m') hne hown (hcompatible hr m' hm')
  · intro hm s t h
    have hr := hready hm
    apply h.both
    · intro halive _ _
      exact (h.agree halive hr).1
    · intro halive
      exact (script_same (haction m) (h.agree halive hr).2).1
    · intro halive
      exact (script_same (haction m) (h.agree halive hr).2).2.1
    · intro halive _ _
      obtain ⟨hown, hagree⟩ := h.agree halive hr
      exact ⟨script_own (haction m) hown, (script_same (haction m) hagree).2.2⟩

/-- The loop of `detenerModulos`: the modules answer, and nothing else is kept. -/
theorem Alike.detener (sample : Sample) (ms : List Modulo) (h : Alike m files ready s t) :
    Alike m files False
      (ms.foldl (visit (scripts files sample) (fun _ => .detener) false) s)
      ((ms.filter (· == m)).foldl (visit (scripts files sample) (fun _ => .detener) false) t) := by
  apply foldl_filter_rel (R := Alike m files False) _ _ (h.mono False.elim)
  · intro m' _ hne s t h
    exact h.other hne fun _ hfalse => hfalse.elim
  · intro _ s t h
    apply h.both
    · intro _ _ hline
      cases hline
    · intro _
      rw [(detener_outcome files sample s.2.vars m).1, (detener_outcome files sample t.2.vars m).1]
    · intro _
      rw [(detener_outcome files sample s.2.vars m).2, (detener_outcome files sample t.2.vars m).2]
    · intro _ hfalse
      exact hfalse.elim

/-- A module that is initialised is ready, or has ended both sessions. -/
theorem Alike.initialised (h : Alike m files ready s t) :
    Alike m files True (visit (scripts files sample) (fun _ => .iniciar) true s m)
      (visit (scripts files sample) (fun _ => .iniciar) true t m) := by
  apply h.both
  · intro _ _ hline
    cases hline
  · intro _
    exact (iniciar_agree files sample s.2.vars t.2.vars m).1
  · intro _
    exact (iniciar_agree files sample s.2.vars t.2.vars m).2.1
  · intro _ _ hgoes
    obtain ⟨-, -, hown, hagree⟩ := iniciar_agree files sample s.2.vars t.2.vars m
    exact ⟨hown, hagree (.inl (by simpa using hgoes))⟩

/-- The loop of `inicializar`: a module that it comes to is ready. -/
theorem Alike.iniciar (sample : Sample) (ms : List Modulo)
    (hcompatible : ready ∨ m ∈ ms → ∀ m' ∈ ms, files.Compatible m m')
    (h : Alike m files ready s t) :
    Alike m files (ready ∨ m ∈ ms)
      (ms.foldl (visit (scripts files sample) (fun _ => .iniciar) true) s)
      ((ms.filter (· == m)).foldl (visit (scripts files sample) (fun _ => .iniciar) true) t) := by
  induction ms generalizing s t ready with
  | nil => exact h.mono fun hready => hready.elim id fun hm => by cases hm
  | cons m' ms ih =>
    by_cases hm : m' = m
    · subst hm
      rw [List.filter_cons_of_pos (p := (· == m')) (beq_self_eq_true m'), List.foldl_cons,
        List.foldl_cons]
      apply (ih _ h.initialised).mono fun _ => .inl trivial
      intro _ m'' hm''
      exact hcompatible (.inr List.mem_cons_self) m'' (List.mem_cons_of_mem m' hm'')
    · rw [List.filter_cons_of_neg (by simpa using hm), List.foldl_cons]
      have hother : Alike m files ready
          (visit (scripts files sample) (fun _ => .iniciar) true s m') t :=
        h.other hm fun _ hr hown =>
          script_frame (by simp) hm hown (hcompatible (.inl hr) m' List.mem_cons_self)
      apply (ih _ hother).mono
      · rintro (hready | hin)
        · exact .inl hready
        · exact .inr ((List.mem_cons.mp hin).resolve_left (Ne.symm hm))
      · rintro hready m'' hm''
        exact hcompatible (hready.imp_right (List.mem_cons_of_mem m')) m''
          (List.mem_cons_of_mem m' hm'')

end Loops

theorem Compatible.files {cfg : Enabled Modulo} {files : Files} (h : Compatible cfg files)
    {m m' : Modulo} (hm : cfg.Mem m) (hm' : cfg.Mem m') : files.Compatible m m' := by
  rintro (⟨rfl, rfl⟩ | ⟨rfl, rfl⟩)
  · exact h hm hm'
  · exact h hm' hm

theorem mem_loopOrder {m : Modulo} {ms : List Modulo} : m ∈ loopOrder ms ↔ m ∈ ms :=
  (loopOrder_perm ms).mem_iff

/-- Both lists are initialised, and what is enabled in either is ready. -/
theorem Alike.bothLists {m : Modulo} {cfg : Enabled Modulo} {files : Files} (sample : Sample)
    {s t : Bool × Env} (hcompatible : Compatible cfg files) (h : Alike m files False s t) :
    Alike m files (cfg.Mem m)
      ((loopOrder cfg.period).foldl (visit (scripts files sample) (fun _ => .iniciar) true)
        ((loopOrder cfg.comandos).foldl (visit (scripts files sample) (fun _ => .iniciar) true) s))
      ((loopOrder (cfg.only m).period).foldl
        (visit (scripts files sample) (fun _ => .iniciar) true)
        ((loopOrder (cfg.only m).comandos).foldl
          (visit (scripts files sample) (fun _ => .iniciar) true) t)) := by
  rw [Enabled.only, loopOrder_filter, loopOrder_filter]
  have hcomandos := h.iniciar sample (loopOrder cfg.comandos) fun hm m' hm' =>
    hcompatible.files (.inl (mem_loopOrder.mp (hm.resolve_left id))) (.inl (mem_loopOrder.mp hm'))
  apply (hcomandos.iniciar sample _ _).mono
  · rintro (hm | hm)
    · exact .inl (.inr (mem_loopOrder.mpr hm))
    · exact .inr (mem_loopOrder.mpr hm)
  · intro hm m' hm'
    have hmem : cfg.Mem m := by
      rcases hm with (hfalse | hm) | hm
      · exact hfalse.elim
      · exact .inl (mem_loopOrder.mp hm)
      · exact .inr (mem_loopOrder.mp hm)
    exact hcompatible.files hmem (.inr (mem_loopOrder.mp hm'))

namespace Session

def view (s : Session) : Bool × Env := (s.shell.alive, s.shell.env)

structure Together (m : Modulo) (s t : Session) : Prop where
  files : t.files = s.files
  cfg : t.cfg = s.cfg.only m
  registered : s.shell.alive = true → s.shell.Registered s.cfg
  registeredAlone : t.shell.alive = true → t.shell.Registered (s.cfg.only m)
  compatible : Shield.Compatible s.cfg s.files
  alike : Alike m s.files (s.cfg.Mem m) s.view t.view

theorem together_start (vars : Vars) {cfg : Enabled Modulo} {files : Files} (sample : Sample)
    (m : Modulo) (h : Shield.Compatible cfg files) :
    Together m (start vars cfg files sample) (start vars (cfg.only m) files sample) := by
  have hregistered := fun cfg : Enabled Modulo =>
    Shell.registrar_registered cfg (s := ({ env := { vars := vars } } : Shell Modulo Env)) rfl rfl
  have hstart : Alike m files False (true, { vars := vars }) (true, { vars := vars }) := by
    refine ⟨List.prefix_rfl, ?_, fun _ => ⟨rfl, rfl⟩, fun _ => False.elim⟩
    intro e he
    cases he
  refine ⟨rfl, rfl, ?_, ?_, h, ?_⟩
  · intro _
    exact (Shell.inicializar_sameVars _ _).registered (hregistered cfg)
  · intro _
    exact (Shell.inicializar_sameVars _ _).registered (hregistered (cfg.only m))
  · have hboth := hstart.bothLists sample h
    rw [view, view, start, start, Shell.iniciarShield, Shell.iniciarShield, Shell.inicializar,
      Shell.inicializar, Shell.bothLoops_visits _ _ _ fun _ => hregistered cfg,
      Shell.bothLoops_visits _ _ _ fun _ => hregistered (cfg.only m)]
    exact hboth

variable {m : Modulo} {s t : Session}

theorem alive_of_reload {cfg : Enabled Modulo} {files : Files} {sample : Sample}
    (h : (s.step (.reload cfg files sample)).shell.alive = true) : s.shell.alive = true := by
  by_contra hdead
  rw [step, Shell.actualizarModulos, if_neg hdead] at h
  exact hdead h

theorem Together.reload (h : Together m s t) {cfg : Enabled Modulo} {files : Files}
    (sample : Sample) (hcompatible : Shield.Compatible cfg files) :
    Together m (s.step (.reload cfg files sample))
      (t.step (.reload (cfg.only m) files sample)) := by
  refine ⟨rfl, rfl, ?_, ?_, hcompatible, ?_⟩
  · intro hgoes
    have hs := alive_of_reload hgoes
    exact Shell.actualizarModulos_registered _ cfg (h.registered hs) hs
  · intro hgoes
    have ht := alive_of_reload hgoes
    exact Shell.actualizarModulos_registered _ (cfg.only m) (h.registeredAlone ht) ht
  · have hcomandos := (h.alike.unready files).detener sample (loopOrder s.cfg.comandos)
    have hperiod := hcomandos.detener sample (loopOrder s.cfg.period)
    rw [← loopOrder_filter, ← loopOrder_filter] at hperiod
    have hboth := hperiod.bothLists sample hcompatible
    rw [view, view, step, step, Shell.actualizarModulos_visits _ cfg h.registered,
      Shell.actualizarModulos_visits _ (cfg.only m) h.registeredAlone]
    exact hboth

theorem Together.periodicos (h : Together m s t) (sample : Sample) :
    Together m (s.step (.periodicos sample)) (t.step (.periodicos sample)) := by
  refine ⟨h.files, h.cfg, ?_, ?_, h.compatible, ?_⟩
  · exact Shell.Registered.forEachName h.registered _ _ _ _
  · exact Shell.Registered.forEachName h.registeredAlone _ _ _ _
  · have hasks : ∀ _ : Modulo, Action.procesar [] ≠ .detener := by simp
    have hloop := h.alike.loop sample true (loopOrder s.cfg.period) hasks
      (fun hm m' hm' => h.compatible.files hm (.inr (mem_loopOrder.mp hm')))
      (fun hm => .inr (mem_loopOrder.mp hm))
    rw [← loopOrder_filter] at hloop
    rw [view, view, step, step, h.files, Shell.executePeriodicos, Shell.executePeriodicos,
      Shell.forEachName_visits _ _ _ _ h.registered,
      Shell.forEachName_visits _ _ _ _ h.registeredAlone]
    exact hloop

theorem Together.line (h : Together m s t) (text : Text) (sample : Sample) :
    Together m (s.step (.line text sample)) (t.step (.line text sample)) := by
  let gate : Scripts Modulo Env := ⟨scripts s.files sample, (· == .controlSesiones), fun _ => 1⟩
  have hs := Gate.loop_visits gate text h.registered
  have ht := Gate.loop_visits gate text h.registeredAlone
  have hgate : ∀ u : Session, u.files = s.files →
      (u.step (.line text sample)).shell = (Gate.loop gate text u.shell).toShell := by
    intro u hu
    rw [step, hu]
  have hasks : ∀ m' : Modulo, consultAction text (m' == .controlSesiones) ≠ .detener := by
    intro m'
    cases m' <;> simp [consultAction]
  have hloop := h.alike.loop sample false (loopOrder s.cfg.comandos) hasks
    (fun hm m' hm' => h.compatible.files hm (.inl (mem_loopOrder.mp hm')))
    (fun hm => .inl (mem_loopOrder.mp hm))
  rw [← loopOrder_filter] at hloop
  refine ⟨h.files, h.cfg, ?_, ?_, h.compatible, ?_⟩
  · rw [hgate s rfl]
    intro hgoes
    have halive : s.shell.alive = true := Gate.alive_of_foldl_step _ hgoes
    exact hs.1.registered (h.registered halive)
  · rw [hgate t h.files]
    intro hgoes
    have halive : t.shell.alive = true := Gate.alive_of_foldl_step _ hgoes
    exact ht.1.registered (h.registeredAlone halive)
  · rw [view, view, hgate s rfl, hgate t h.files, hs.2, ht.2]
    exact hloop

end Session

/-- No weaker condition would do: right after the start, every enabled module has the limits of
its own file only if the two agree on `MAX_CPU`. -/
theorem start_own_iff (vars : Vars) (cfg : Enabled Modulo) (files : Files) (sample : Sample)
    (halive : (Session.start vars cfg files sample).shell.alive = true) :
    (∀ m, cfg.Mem m → Own files (Session.start vars cfg files sample).shell.env.vars m) ↔
      Compatible cfg files := by
  constructor
  · intro hown hcarga hlimitaciones
    have hcpu := (hown .controlCarga hcarga).symm.trans (hown .limitaciones hlimitaciones).1
    exact Option.some.inj hcpu
  · intro hcompatible m hm
    exact ((Session.together_start vars sample m hcompatible).alike.agree halive hm).1

section TwoLimits

end TwoLimits

end Sisop.Shield
