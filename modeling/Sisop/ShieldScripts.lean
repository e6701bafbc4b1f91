import Sisop.Shield
import Mathlib.Data.Rat.Defs

/-!
# The scripts of the six modules

All of them are sourced in one shell and keep what they know in its exported variables. A script
is its action on these variables, with the status it returns and what it does to other processes
and files. What it reads of the system is a sample.
-/

namespace Sisop.Shield

inductive Modulo
  | controlSesiones
  | auditoria
  | seguridad
  | limitaciones
  | limitacionTraficoRed
  | controlCarga
  deriving DecidableEq

structure Vars where
  maxSessionsPerUser : Option ℤ := none
  userActualSessions : Option ℤ := none
  ipServerInputLog : Option Text := none
  maxInputLogSize : Option ℤ := none
  actualInputLogSize : Option ℤ := none
  publicKeyAlreadySent : Option Bool := none
  restrictedCommands : Option (List Text) := none
  maxCpu : Option ℚ := none
  maxMem : Option ℚ := none
  maxProcs : Option ℚ := none
  maxSocks : Option ℤ := none
  maxArchs : Option ℤ := none
  limitePaquetes : Option ℤ := none
  paquetesEnviados : Option ℤ := none
  pidUltimoAumentado : Option ℤ := none
  cantIncrementos : Option ℤ := none
  niceActual : Option ℤ := none
  ultimoMatado : Option ℤ := none

/-- `limitaciones.config`: the assignments that are there. -/
structure Limitaciones where
  maxCpu : Option ℚ := none
  maxMem : Option ℚ := none
  maxProcs : Option ℚ := none
  maxSocks : Option ℤ := none
  maxArchs : Option ℤ := none

structure Files where
  maximaCantidad : ℤ
  ipServer : Text
  maxInputLog : ℤ
  restringidos : List Text
  limitaciones : Limitaciones
  limitePaquetes : ℤ
  controlCarga : ℚ

/-- A line of `lsof -i4 -w`, without the header and the local ones. -/
structure Socket where
  line : Text
  name : Text
  pid : ℤ

/-- What the commands inside the scripts print at one event. -/
structure Sample where
  sessions : ℤ := 0
  /-- `input.log`, when it is there: may it be written, and its size. -/
  inputLog : Option (Bool × ℤ) := none
  keys : Bool := false
  inputLogAfter : ℤ := 0
  cpu : List ℚ := []
  mem : List ℚ := []
  psLines : ℤ := 0
  pids : List ℤ := []
  socketPids : List ℤ := []
  fds : List (List Text) := []
  packets : List ℤ := []
  sockets : List Socket := []
  topPid : ℤ := 0
  topCpu : ℚ := 0
  topNice : ℤ := 0
  mktemp : Bool := true

inductive Effect
  | echoLog (line : Text)
  | sendKey (generated : Bool) (server : Option Text)
  | sshLog (server : Option Text) (line : Text)
  | killKill (pid : ℤ)
  | kill (pid : Option ℤ)
  | renice (nice pid : ℤ)
  deriving DecidableEq

structure Outcome where
  status : ℕ := 0
  effects : List Effect := []
  vars : Vars

/-- `[ $(echo "x > limit" | bc -l) -eq 1 ]`, or `[ x -gt limit ]`: with the limit unset the test
is an error, and not true. -/
def above {α : Type} [LT α] [DecidableLT α] (x : α) (limit : Option α) : Bool :=
  limit.any fun l => l < x

namespace ControlSesiones

def iniciar (files : Files) (sample : Sample) (v : Vars) : Outcome where
  status := if above sample.sessions (some files.maximaCantidad) then 1 else 0
  vars := { v with
    maxSessionsPerUser := some files.maximaCantidad
    userActualSessions := some sample.sessions }

def detener (v : Vars) : Outcome where
  vars := { v with maxSessionsPerUser := none, userActualSessions := none }

end ControlSesiones

namespace Auditoria

def iniciar (files : Files) (sample : Sample) (v : Vars) : Outcome :=
  let v := { v with
    ipServerInputLog := some files.ipServer
    maxInputLogSize := some files.maxInputLog
    actualInputLogSize := some 0 }
  match sample.inputLog with
  | none => { vars := { v with publicKeyAlreadySent := some false } }
  | some (true, size) =>
    { vars := { v with actualInputLogSize := some size, publicKeyAlreadySent := some false } }
  | some (false, _) => { status := 1, vars := v }

def procesar (sample : Sample) (line : Text) (v : Vars) : Outcome :=
  if (v.maxInputLogSize.any fun max => v.actualInputLogSize.any fun size => max ≤ size) then
    let sends := !sample.keys || v.publicKeyAlreadySent == some false
    { effects := (if sends then [.sendKey (!sample.keys) v.ipServerInputLog] else []) ++
        [.sshLog v.ipServerInputLog line]
      vars := { v with
        publicKeyAlreadySent := if sends then some true else v.publicKeyAlreadySent
        actualInputLogSize := some sample.inputLogAfter } }
  else
    { effects := [.echoLog line]
      vars := { v with actualInputLogSize := some sample.inputLogAfter } }

def detener (v : Vars) : Outcome where
  vars := { v with
    ipServerInputLog := none
    maxInputLogSize := none
    actualInputLogSize := none
    publicKeyAlreadySent := none }

end Auditoria

namespace Seguridad

def iniciar (files : Files) (v : Vars) : Outcome where
  vars := { v with restrictedCommands := some files.restringidos }

def procesar (line : Text) (v : Vars) : Outcome where
  status := if (v.restrictedCommands.getD []).any (occurs · line) then 1 else 0
  vars := v

def detener (v : Vars) : Outcome where
  vars := { v with restrictedCommands := none }

end Seguridad

namespace Limitaciones

/-- The defaults, and over them `eval "$(cat limitaciones.config)"`. -/
def iniciar (files : Files) (v : Vars) : Outcome where
  vars := { v with
    maxCpu := some (files.limitaciones.maxCpu.getD 50)
    maxMem := some (files.limitaciones.maxMem.getD 75)
    maxProcs := some (files.limitaciones.maxProcs.getD 10)
    maxSocks := some (files.limitaciones.maxSocks.getD 3)
    maxArchs := some (files.limitaciones.maxArchs.getD 4) }

/-- The pairs of one of the user's processes and a process with a socket that are the same. -/
def consumoSocks (sample : Sample) : ℤ :=
  sample.pids.foldl (fun n pid => n + (sample.socketPids.filter (· == pid)).length) 0

/-- `grep -v 0 | grep -v 1 | grep -v 2 | grep -v 3 | grep -v 255` -/
def keptFd (fd : Text) : Bool :=
  ["0", "1", "2", "3", "255"].all fun p => !occurs p.toList fd

def consumoArchs (sample : Sample) : ℤ :=
  sample.fds.foldl (fun n fds => n + (fds.filter keptFd).length) 0

def procesar (sample : Sample) (v : Vars) : Outcome where
  status :=
    if above (sample.cpu.foldl (· + ·) 0) v.maxCpu then 1
    else if above (sample.mem.foldl (· + ·) 0) v.maxMem then 1
    else if above ((sample.psLines - 9 : ℤ) : ℚ) v.maxProcs then 1
    else if above (consumoSocks sample) v.maxSocks then 1
    else if above (consumoArchs sample) v.maxArchs then 1
    else 0
  vars := v

def detener (v : Vars) : Outcome where
  vars := { v with
    maxCpu := none
    maxMem := none
    maxProcs := none
    maxSocks := none
    maxArchs := none }

end Limitaciones

namespace LimitacionTraficoRed

def obtenerPaquetesEnviados (sample : Sample) : ℤ := sample.packets.foldl (· + ·) 0

def iniciar (files : Files) (sample : Sample) (v : Vars) : Outcome where
  vars := { v with
    limitePaquetes := some files.limitePaquetes
    paquetesEnviados := some (obtenerPaquetesEnviados sample) }

def uniq : List Text → List Text
  | [] => []
  | [a] => [a]
  | a :: b :: l => if a = b then uniq (b :: l) else a :: uniq (b :: l)

/-- The processes killed for one program name: when the name occurs in more than one name. -/
def elimina (sample : Sample) (name : Text) : List Effect :=
  if 1 < (sample.sockets.filter fun s => occurs name s.name).length then
    (sample.sockets.filter fun s => occurs name s.line).map fun s => .killKill s.pid
  else []

def procesar (sample : Sample) (v : Vars) : Outcome where
  effects :=
    if above (obtenerPaquetesEnviados sample) v.limitePaquetes then
      (uniq (sample.sockets.map Socket.name)).flatMap (elimina sample)
    else []
  vars := { v with paquetesEnviados := some (obtenerPaquetesEnviados sample) }

def detener (v : Vars) : Outcome where
  vars := { v with paquetesEnviados := none, limitePaquetes := none }

end LimitacionTraficoRed

namespace ControlCarga

def iniciar (files : Files) (v : Vars) : Outcome where
  vars := { v with
    maxCpu := some files.controlCarga
    pidUltimoAumentado := some 0
    cantIncrementos := some 0
    niceActual := some 0
    ultimoMatado := some 0 }

def procesar (sample : Sample) (v : Vars) : Outcome :=
  if !sample.mktemp then { status := 1, vars := v }
  else if above sample.topCpu v.maxCpu then
    let nuevoNice := sample.topNice + 5
    let renice := Effect.renice nuevoNice sample.topPid
    if v.pidUltimoAumentado = some sample.topPid then
      let cant := v.cantIncrementos.getD 0 + 1
      if cant = 4 then
        { effects := [renice, .kill v.pidUltimoAumentado]
          vars := { v with
            pidUltimoAumentado := some 0
            cantIncrementos := some 0
            niceActual := some 0
            ultimoMatado := some sample.topPid } }
      else
        { effects := [renice]
          vars := { v with cantIncrementos := some cant, niceActual := some nuevoNice } }
    else
      { effects := [renice]
        vars := { v with
          cantIncrementos := some 1
          pidUltimoAumentado := some sample.topPid
          niceActual := some nuevoNice } }
  else { vars := v }

def detener (v : Vars) : Outcome where
  vars := { v with
    maxCpu := none
    pidUltimoAumentado := none
    cantIncrementos := none
    niceActual := none
    ultimoMatado := none }

end ControlCarga

/-- `source modulo action`; control_sesiones has no `procesar` and does nothing there. -/
def Modulo.script (files : Files) (sample : Sample) (v : Vars) : Modulo → Action → Outcome
  | .controlSesiones, .iniciar => ControlSesiones.iniciar files sample v
  | .controlSesiones, .procesar _ => { vars := v }
  | .controlSesiones, .detener => ControlSesiones.detener v
  | .auditoria, .iniciar => Auditoria.iniciar files sample v
  | .auditoria, .procesar line => Auditoria.procesar sample line v
  | .auditoria, .detener => Auditoria.detener v
  | .seguridad, .iniciar => Seguridad.iniciar files v
  | .seguridad, .procesar line => Seguridad.procesar line v
  | .seguridad, .detener => Seguridad.detener v
  | .limitaciones, .iniciar => Limitaciones.iniciar files v
  | .limitaciones, .procesar _ => Limitaciones.procesar sample v
  | .limitaciones, .detener => Limitaciones.detener v
  | .limitacionTraficoRed, .iniciar => LimitacionTraficoRed.iniciar files sample v
  | .limitacionTraficoRed, .procesar _ => LimitacionTraficoRed.procesar sample v
  | .limitacionTraficoRed, .detener => LimitacionTraficoRed.detener v
  | .controlCarga, .iniciar => ControlCarga.iniciar files v
  | .controlCarga, .procesar _ => ControlCarga.procesar sample v
  | .controlCarga, .detener => ControlCarga.detener v

/-- The limits that `procesar` compares against are those of the module's own file. -/
def Own (files : Files) (v : Vars) : Modulo → Prop
  | .controlSesiones => v.maxSessionsPerUser = some files.maximaCantidad
  | .auditoria =>
    v.ipServerInputLog = some files.ipServer ∧ v.maxInputLogSize = some files.maxInputLog
  | .seguridad => v.restrictedCommands = some files.restringidos
  | .limitaciones =>
    v.maxCpu = some (files.limitaciones.maxCpu.getD 50) ∧
      v.maxMem = some (files.limitaciones.maxMem.getD 75) ∧
      v.maxProcs = some (files.limitaciones.maxProcs.getD 10) ∧
      v.maxSocks = some (files.limitaciones.maxSocks.getD 3) ∧
      v.maxArchs = some (files.limitaciones.maxArchs.getD 4)
  | .limitacionTraficoRed => v.limitePaquetes = some files.limitePaquetes
  | .controlCarga => v.maxCpu = some files.controlCarga

def Agree (v w : Vars) : Modulo → Prop
  | .controlSesiones =>
    v.maxSessionsPerUser = w.maxSessionsPerUser ∧ v.userActualSessions = w.userActualSessions
  | .auditoria =>
    v.ipServerInputLog = w.ipServerInputLog ∧ v.maxInputLogSize = w.maxInputLogSize ∧
      v.actualInputLogSize = w.actualInputLogSize ∧
      v.publicKeyAlreadySent = w.publicKeyAlreadySent
  | .seguridad => v.restrictedCommands = w.restrictedCommands
  | .limitaciones =>
    v.maxCpu = w.maxCpu ∧ v.maxMem = w.maxMem ∧ v.maxProcs = w.maxProcs ∧
      v.maxSocks = w.maxSocks ∧ v.maxArchs = w.maxArchs
  | .limitacionTraficoRed =>
    v.limitePaquetes = w.limitePaquetes ∧ v.paquetesEnviados = w.paquetesEnviados
  | .controlCarga =>
    v.maxCpu = w.maxCpu ∧ v.pidUltimoAumentado = w.pidUltimoAumentado ∧
      v.cantIncrementos = w.cantIncrementos ∧ v.niceActual = w.niceActual ∧
      v.ultimoMatado = w.ultimoMatado

/-- control_carga and limitaciones keep their limit of the processor in one variable, `MAX_CPU`:
both may be enabled only with one value. -/
def Files.Compatible (files : Files) (m m' : Modulo) : Prop :=
  (m = .controlCarga ∧ m' = .limitaciones) ∨ (m = .limitaciones ∧ m' = .controlCarga) →
    files.controlCarga = files.limitaciones.maxCpu.getD 50

section Frame

variable {files : Files} {sample : Sample} {v w u : Vars} {m m' : Modulo} {action : Action}

theorem Agree.refl (v : Vars) (m : Modulo) : Agree v v m := by
  cases m <;> simp only [Agree, and_self]

theorem Agree.trans (h : Agree u v m) (h' : Agree v w m) : Agree u w m := by
  cases m <;> simp_all only [Agree, and_self]

theorem Own.of_agree (h : Own files w m) (hagree : Agree v w m) : Own files v m := by
  cases m <;> simp_all only [Own, Agree, and_self]

theorem Auditoria.iniciar_agree (files : Files) (sample : Sample) (v w : Vars) :
    (iniciar files sample v).status = (iniciar files sample w).status ∧
      (iniciar files sample v).effects = (iniciar files sample w).effects ∧
      Own files (iniciar files sample v).vars .auditoria ∧
      ((iniciar files sample v).status = 0 ∨ Agree v w .auditoria →
        Agree (iniciar files sample v).vars (iniciar files sample w).vars .auditoria) := by
  rw [iniciar, iniciar]
  cases sample.inputLog with
  | none => exact ⟨rfl, rfl, ⟨rfl, rfl⟩, fun _ => ⟨rfl, rfl, rfl, rfl⟩⟩
  | some log =>
    obtain ⟨writable, size⟩ := log
    cases writable with
    | true => exact ⟨rfl, rfl, ⟨rfl, rfl⟩, fun _ => ⟨rfl, rfl, rfl, rfl⟩⟩
    | false =>
      refine ⟨rfl, rfl, ⟨rfl, rfl⟩, ?_⟩
      rintro (h | h)
      · exact absurd h Nat.one_ne_zero
      · exact ⟨rfl, rfl, rfl, h.2.2.2⟩

theorem Auditoria.procesar_agree (sample : Sample) (line : Text) (h : Agree v w .auditoria) :
    (procesar sample line v).effects = (procesar sample line w).effects ∧
      Agree (procesar sample line v).vars (procesar sample line w).vars .auditoria := by
  obtain ⟨hserver, hmax, hsize, hsent⟩ := h
  rw [procesar, procesar, hserver, hmax, hsize, hsent]
  split
  · exact ⟨rfl, rfl, rfl, rfl, rfl⟩
  · exact ⟨rfl, rfl, rfl, rfl, rfl⟩

theorem ControlCarga.procesar_agree (sample : Sample) (h : Agree v w .controlCarga) :
    (procesar sample v).status = (procesar sample w).status ∧
      (procesar sample v).effects = (procesar sample w).effects ∧
      Agree (procesar sample v).vars (procesar sample w).vars .controlCarga := by
  obtain ⟨hcpu, hpid, hcant, hnice, hlast⟩ := h
  rw [procesar, procesar, hcpu, hpid, hcant]
  split
  · exact ⟨rfl, rfl, hcpu, hpid, hcant, hnice, hlast⟩
  split
  · dsimp only
    split
    · split
      · exact ⟨rfl, rfl, rfl, rfl, rfl, rfl, rfl⟩
      · exact ⟨rfl, rfl, rfl, rfl, rfl, rfl, hlast⟩
    · exact ⟨rfl, rfl, rfl, rfl, rfl, rfl, hlast⟩
  · exact ⟨rfl, rfl, hcpu, hpid, hcant, hnice, hlast⟩

/-- An initialisation leaves the limits of the module's own file and, where it succeeds, nothing
of what was there before. -/
theorem iniciar_agree (files : Files) (sample : Sample) (v w : Vars) (m : Modulo) :
    (m.script files sample v .iniciar).status = (m.script files sample w .iniciar).status ∧
      (m.script files sample v .iniciar).effects = (m.script files sample w .iniciar).effects ∧
      Own files (m.script files sample v .iniciar).vars m ∧
      ((m.script files sample v .iniciar).status = 0 ∨ Agree v w m →
        Agree (m.script files sample v .iniciar).vars (m.script files sample w .iniciar).vars
          m) := by
  cases m with
  | controlSesiones => exact ⟨rfl, rfl, rfl, fun _ => ⟨rfl, rfl⟩⟩
  | auditoria => exact Auditoria.iniciar_agree files sample v w
  | seguridad => exact ⟨rfl, rfl, rfl, fun _ => rfl⟩
  | limitaciones => exact ⟨rfl, rfl, ⟨rfl, rfl, rfl, rfl, rfl⟩, fun _ => ⟨rfl, rfl, rfl, rfl, rfl⟩⟩
  | limitacionTraficoRed => exact ⟨rfl, rfl, rfl, fun _ => ⟨rfl, rfl⟩⟩
  | controlCarga => exact ⟨rfl, rfl, rfl, fun _ => ⟨rfl, rfl, rfl, rfl, rfl⟩⟩

/-- What `procesar` answers and does rests on the module's own variables. -/
theorem procesar_agree (line : Text) (h : Agree v w m) :
    (m.script files sample v (.procesar line)).status =
        (m.script files sample w (.procesar line)).status ∧
      (m.script files sample v (.procesar line)).effects =
        (m.script files sample w (.procesar line)).effects ∧
      Agree (m.script files sample v (.procesar line)).vars
        (m.script files sample w (.procesar line)).vars m := by
  cases m with
  | controlSesiones => exact ⟨rfl, rfl, h⟩
  | auditoria =>
    have hstatus : ∀ u, (Auditoria.procesar sample line u).status = 0 := by
      intro u
      rw [Auditoria.procesar]
      split <;> rfl
    exact ⟨(hstatus v).trans (hstatus w).symm, Auditoria.procesar_agree sample line h⟩
  | seguridad =>
    have hwords : v.restrictedCommands = w.restrictedCommands := h
    simp only [Modulo.script, Seguridad.procesar, hwords]
    exact ⟨trivial, trivial, h⟩
  | limitaciones =>
    obtain ⟨hcpu, hmem, hprocs, hsocks, harchs⟩ := id h
    simp only [Modulo.script, Limitaciones.procesar, hcpu, hmem, hprocs, hsocks, harchs]
    exact ⟨trivial, trivial, h⟩
  | limitacionTraficoRed =>
    simp only [Modulo.script, LimitacionTraficoRed.procesar, h.1]
    exact ⟨trivial, trivial, rfl, rfl⟩
  | controlCarga => exact ControlCarga.procesar_agree sample h

theorem detener_outcome (files : Files) (sample : Sample) (v : Vars) (m : Modulo) :
    (m.script files sample v .detener).status = 0 ∧
      (m.script files sample v .detener).effects = [] := by
  cases m <;> exact ⟨rfl, rfl⟩

theorem Auditoria.iniciar_vars (files : Files) (sample : Sample) (v : Vars) :
    ∃ size key, (iniciar files sample v).vars = { v with
      ipServerInputLog := some files.ipServer
      maxInputLogSize := some files.maxInputLog
      actualInputLogSize := size
      publicKeyAlreadySent := key } := by
  rw [iniciar]
  dsimp only
  split
  · exact ⟨_, _, rfl⟩
  · exact ⟨_, _, rfl⟩
  · exact ⟨_, _, rfl⟩

theorem Auditoria.procesar_vars (sample : Sample) (line : Text) (v : Vars) :
    ∃ key, (procesar sample line v).vars = { v with
      actualInputLogSize := some sample.inputLogAfter
      publicKeyAlreadySent := key } := by
  rw [procesar]
  split
  · exact ⟨_, rfl⟩
  · exact ⟨_, rfl⟩

theorem ControlCarga.procesar_vars (sample : Sample) (v : Vars) :
    ∃ pid cant nice last, (procesar sample v).vars = { v with
      pidUltimoAumentado := pid
      cantIncrementos := cant
      niceActual := nice
      ultimoMatado := last } := by
  rw [procesar]
  split
  · exact ⟨_, _, _, _, rfl⟩
  split
  · dsimp only
    split
    · split
      · exact ⟨_, _, _, _, rfl⟩
      · exact ⟨_, _, _, _, rfl⟩
    · exact ⟨_, _, _, _, rfl⟩
  · exact ⟨_, _, _, _, rfl⟩

/-- `procesar` writes no limit, and nothing that is another module's. -/
theorem procesar_frame (files : Files) (sample : Sample) (line : Text) (v : Vars) (m m' : Modulo) :
    (m' ≠ m → Agree (m'.script files sample v (.procesar line)).vars v m) ∧
      (Own files v m → Own files (m'.script files sample v (.procesar line)).vars m) := by
  cases m' with
  | controlSesiones => exact ⟨fun _ => .refl v m, id⟩
  | auditoria =>
    obtain ⟨key, hvars⟩ := Auditoria.procesar_vars sample line v
    rw [Modulo.script, hvars]
    cases m with
    | auditoria => exact ⟨fun hne => absurd rfl hne, id⟩
    | _ => exact ⟨fun _ => by simp only [Agree, and_self], id⟩
  | seguridad => exact ⟨fun _ => .refl v m, id⟩
  | limitaciones => exact ⟨fun _ => .refl v m, id⟩
  | limitacionTraficoRed =>
    rw [Modulo.script, LimitacionTraficoRed.procesar]
    cases m with
    | limitacionTraficoRed => exact ⟨fun hne => absurd rfl hne, id⟩
    | _ => exact ⟨fun _ => by simp only [Agree, and_self], id⟩
  | controlCarga =>
    obtain ⟨pid, cant, nice, last, hvars⟩ := ControlCarga.procesar_vars sample v
    rw [Modulo.script, hvars]
    cases m with
    | controlCarga => exact ⟨fun hne => absurd rfl hne, id⟩
    | _ => exact ⟨fun _ => by simp only [Agree, and_self], id⟩

/-- An initialisation writes nothing that is another module's, `MAX_CPU` excepted, and that gets
the value it has. -/
theorem iniciar_frame (sample : Sample) (hne : m' ≠ m) (hown : Own files v m)
    (hcompatible : files.Compatible m m') :
    Agree (m'.script files sample v .iniciar).vars v m := by
  cases m' with
  | controlSesiones =>
    cases m with
    | controlSesiones => exact absurd rfl hne
    | _ => simp only [Modulo.script, Agree, and_self, ControlSesiones.iniciar]
  | auditoria =>
    obtain ⟨size, key, hvars⟩ := Auditoria.iniciar_vars files sample v
    rw [Modulo.script, hvars]
    cases m with
    | auditoria => exact absurd rfl hne
    | _ => simp only [Agree, and_self]
  | seguridad =>
    cases m with
    | seguridad => exact absurd rfl hne
    | _ => simp only [Modulo.script, Agree, and_self, Seguridad.iniciar]
  | limitaciones =>
    cases m with
    | limitaciones => exact absurd rfl hne
    | controlCarga =>
      have hcpu : v.maxCpu = some (files.limitaciones.maxCpu.getD 50) := by
        rw [show v.maxCpu = some files.controlCarga from hown, hcompatible (.inl ⟨rfl, rfl⟩)]
      exact ⟨hcpu.symm, rfl, rfl, rfl, rfl⟩
    | _ => simp only [Modulo.script, Agree, and_self, Limitaciones.iniciar]
  | limitacionTraficoRed =>
    cases m with
    | limitacionTraficoRed => exact absurd rfl hne
    | _ => simp only [Modulo.script, Agree, and_self, LimitacionTraficoRed.iniciar]
  | controlCarga =>
    cases m with
    | controlCarga => exact absurd rfl hne
    | limitaciones =>
      have hcpu : v.maxCpu = some files.controlCarga := by
        rw [hown.1, hcompatible (.inr ⟨rfl, rfl⟩)]
      exact ⟨hcpu.symm, rfl, rfl, rfl, rfl⟩
    | _ => simp only [Modulo.script, Agree, and_self, ControlCarga.iniciar]

theorem script_same (haction : action ≠ .detener) (h : Agree v w m) :
    (m.script files sample v action).status = (m.script files sample w action).status ∧
      (m.script files sample v action).effects = (m.script files sample w action).effects ∧
      Agree (m.script files sample v action).vars (m.script files sample w action).vars m := by
  cases action with
  | iniciar =>
    obtain ⟨hstatus, heffects, -, hagree⟩ := iniciar_agree files sample v w m
    exact ⟨hstatus, heffects, hagree (.inr h)⟩
  | procesar line => exact procesar_agree line h
  | detener => exact absurd rfl haction

theorem script_own (haction : action ≠ .detener) (h : Own files v m) :
    Own files (m.script files sample v action).vars m := by
  cases action with
  | iniciar => exact (iniciar_agree files sample v v m).2.2.1
  | procesar line => exact (procesar_frame files sample line v m m).2 h
  | detener => exact absurd rfl haction

theorem script_frame (haction : action ≠ .detener) (hne : m' ≠ m) (hown : Own files v m)
    (hcompatible : files.Compatible m m') :
    Agree (m'.script files sample v action).vars v m := by
  cases action with
  | iniciar => exact iniciar_frame sample hne hown hcompatible
  | procesar line => exact (procesar_frame files sample line v m m').1 hne
  | detener => exact absurd rfl haction

end Frame

end Sisop.Shield
