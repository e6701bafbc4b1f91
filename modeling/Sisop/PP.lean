import Sisop.Configure
import Sisop.GuardedRun
import Sisop.LTS
import Sisop.Procer

/-!
# All threads of PP together

A state of PP is what the threads share and where each of them stands. The signal handler only
raises `SUSPEND`. `PP.start` is the moment at which `main` has created all threads.
-/

namespace Sisop

abbrev PP := Threads Tid Operation Label Shared

abbrev Step := Tid × Choice

def Config.threads (cfg : Config) : Finset Tid :=
  {.ltsConex, .ltsNew, .sts, .configure, .procer, .signalHandler} ∪
    (Finset.range cfg.IO_THREADS).image .ioThread

def SignalHandler.control (s : Shared) : Label → Choice → Option Control
  | .awaitSignal, .raise => some ({ s with SUSPEND := true }, ⟨.awaitSignal, []⟩)
  | _, _ => none

namespace PP

def control (cfg : Config) (t : Tid) (pc : Label) (c : Choice) (s : Shared) : Option Control :=
  match t with
  | .ltsConex => LTSconex.control cfg s pc c
  | .ltsNew => LTSnew.control s pc c
  | .sts => STS.control s pc c
  | .configure => Configure.control s pc c
  | .procer => PROCER.control cfg s pc c
  | .signalHandler => SignalHandler.control s pc c
  | .ioThread _ => IoThread.control s pc c

def machine (cfg : Config) : Machine Tid Operation Label Choice Shared where
  exec := Operation.exec
  control := control cfg

def next (cfg : Config) (st : PP) (a : Step) : Option PP :=
  if a.1 ∈ cfg.threads then (machine cfg).step st a else none

def initialValue (cfg : Config) : Semaphore → ℕ
  | .mmpSem => cfg.MMP
  | .mpsSem => cfg.MPS
  | .ioThreads => cfg.IO_THREADS
  | _ => 0

def initialArray : List TQueuesArray := [⟨.plpn, 0⟩, ⟨.plpr, 0⟩, ⟨.plfq, 0⟩, ⟨.plfio, 0⟩]

def initialThread : Tid → Thread Operation Label
  | .ltsConex => ⟨.epollWait, [.logCreate] ++ logWrite⟩
  | .ltsNew => ⟨.popFIFO, [.logCreate] ++ LTSnew.wait⟩
  | .sts => ⟨.readALG, [.logCreate] ++ STS.wait⟩
  | .configure => ⟨.awaitReload, []⟩
  | .procer => ⟨.popReady, [.logCreate] ++ PROCER.wait⟩
  | .signalHandler => ⟨.awaitSignal, []⟩
  | .ioThread _ => ⟨.popLPB, [.logCreate] ++ IoThread.wait⟩

/-- `ALG` and the priorities are those of the first reading of `pp.config`. -/
def start (cfg : Config) (ALG : Algorithm) (priorities : QueueName → ℤ) : PP where
  shared :=
    { sem := initialValue cfg
      owner := fun _ => none
      queue := fun _ => []
      LPB := []
      LPS := []
      sendingList := []
      image := fun _ => newImage 0 0 0 [] 0
      allocated := 0
      freed := []
      SUSPEND := false
      ALG := ALG
      queuesArray := readPriorities priorities initialArray
      openLogs := 0
      connection := fun _ => none
      accepted := 0
      submitter := fun _ => none
      written := []
      resumed := [] }
  thread := initialThread

def smallConfig : Config := ⟨2, 2, 2, 2, 0, 0, fun _ => []⟩

def idleScript : CString := cstr "comienzo_programa\nfin_programa"

/-- `n` steps of a thread in which nothing but the shared state decides. -/
def goes (t : Tid) (n : ℕ) : List Step := List.replicate n (t, .go)

/-- A client connects, its script arrives whole and `LTSconex` builds an image and puts it into
`LPN` or `LFIFO`. -/
def submits (script : CString) (priority : Int32) : List Step :=
  [(.ltsConex, .connect [0, 1, 2, 3] true),
    (.ltsConex,
      .frame (3, 7 + (script.length + 1)) (framePri 78 priority (payloadBlock script)) .zeros)] ++
    goes .ltsConex 8

end PP
end Sisop
