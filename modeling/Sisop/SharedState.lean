import Sisop.Collections
import Sisop.Dispatches
import Sisop.Interleaving
import Sisop.StreamReading

/-!
# What the threads of PP share

An address stands for one allocation: it is the number of images built before. `freed` lists the
images `PROCER` has freed. The program stores neither which connection a descriptor belongs to
nor which one submitted an image; `connection`, `submitter`, `written` and `resumed` keep book of
it.
-/

namespace Sisop

/-- What `strSwitch` makes of `ALG`. -/
inductive Algorithm where
  | fifo | rr | pri | spn | other
  deriving DecidableEq, Repr

inductive Tid where
  | ltsConex | ltsNew | sts | configure | procer | signalHandler
  | ioThread (i : ℕ)
  deriving DecidableEq, Repr

/-- The names of the lists that `STS` serves, as in `queuesArray` and `pp.config`. -/
inductive QueueName where
  | plpn | plpr | plfq | plfio
  deriving DecidableEq, Repr

def QueueName.queue : QueueName → Queue
  | .plpn => .lpn
  | .plpr => .lpr
  | .plfq => .lfq
  | .plfio => .lfio

/-- `t_queuesArray`; the name decides which list is meant. -/
structure TQueuesArray where
  name : QueueName
  priority : ℤ
  deriving DecidableEq, Repr

/-- `pp.config`, as far as it is read once, and the text of the reports. -/
structure Config where
  MPS : ℕ
  MMP : ℕ
  IO_THREADS : ℕ
  quantum : ℤ
  TANT : ℤ
  ALFA : ℚ
  prepareMessage : TProcessImage → CString

abbrev Connection := ℕ

structure Shared where
  sem : Semaphore → ℕ
  owner : Mutex → Option Tid
  queue : Queue → List Ptr
  LPB : List TIoProcessing
  LPS : List Ptr
  sendingList : List (TMsg × Ptr)
  image : Ptr → TProcessImage
  allocated : ℕ
  freed : List Ptr
  SUSPEND : Bool
  ALG : Algorithm
  queuesArray : List TQueuesArray
  openLogs : ℕ
  connection : ℕ → Option Connection
  accepted : ℕ
  submitter : Ptr → Option Connection
  written : List (Ptr × Connection)
  resumed : List (Ptr × Option Connection)

namespace Shared

variable (s : Shared)

def post (sem : Semaphore) : Shared := { s with sem := Function.update s.sem sem (s.sem sem + 1) }

def tryWait (sem : Semaphore) : Shared :=
  { s with sem := Function.update s.sem sem (s.sem sem - 1) }

def setQueue (q : Queue) (ps : List Ptr) : Shared :=
  { s with queue := Function.update s.queue q ps }

def setOwner (m : Mutex) (t : Option Tid) : Shared :=
  { s with owner := Function.update s.owner m t }

def setImage (p : Ptr) (image : TProcessImage) : Shared :=
  { s with image := Function.update s.image p image }

/-- `malloc` and the assignments behind it; the connection open at `clientfd` submits the image. -/
def allocate (image : TProcessImage) : Shared :=
  { s with
    image := Function.update s.image s.allocated image
    allocated := s.allocated + 1
    submitter := Function.update s.submitter s.allocated (s.connection image.clientfd) }

def setConnection (fd : ℕ) (c : Option Connection) : Shared :=
  { s with connection := Function.update s.connection fd c }

/-- The lowest descriptor not open; `busy` are those of the other files. -/
def lowestFree (busy : List ℕ) : Option ℕ :=
  (List.range (s.accepted + busy.length + 1)).find? fun fd =>
    decide (fd ∉ busy) && (s.connection fd).isNone

def accept (fd : ℕ) : Shared :=
  { s.setConnection fd (some s.accepted) with accepted := s.accepted + 1 }

def env : Env := ⟨s.SUSPEND, decide (s.LPB.length < s.sem .ioThreads), s.ALG == .rr⟩

end Shared

/-- An operation of thread `t`; a blocked one has no result, and neither has the unlocking of a
mutex that somebody else holds. -/
def Operation.exec (t : Tid) (op : Operation) (s : Shared) : Option Shared :=
  match op with
  | .lock m => if s.owner m = none then some (s.setOwner m (some t)) else none
  | .unlock m => if s.owner m = some t then some (s.setOwner m none) else none
  | .wait sem => if 0 < s.sem sem then some (s.tryWait sem) else none
  | .post sem => some (s.post sem)
  | .enqueue q p => some ((s.setQueue q (s.queue q ++ [p])).post q.empty)
  | .enqueueLPB e => some ({ s with LPB := s.LPB ++ [e] }.post .lpbEmpty)
  | .addLPS p => some { s with LPS := s.LPS ++ [p] }
  | .addMsg m origin => some { s with sendingList := s.sendingList ++ [(m, origin)] }
  | .readImage _ => some s
  | .freeImage p => some { s with freed := p :: s.freed }
  | .clearSUSPEND => some { s with SUSPEND := false }
  | .logCreate => some { s with openLogs := s.openLogs + 1 }
  | .logDestroy => some { s with openLogs := s.openLogs - 1 }
  | .writeStream _ _ => some s
  | .close fd => some (s.setConnection fd none)

/-- What decides a step besides the shared state: the kernel, the clients, the operator. -/
inductive Choice where
  | go
  | hangup (fd : ℕ)
  | connect (busy : List ℕ) (handshake : Bool)
  | readable (fd : ℕ)
  | writable (fd : ℕ)
  | frame (arrived : ℕ × ℕ) (net : List UInt8) (stale : Stale)
  | sent (ok : Bool)
  | reload (ALG : Algorithm) (priorities : QueueName → ℤ)
  | raise

inductive Round where
  | fifo | pri | spn
  deriving DecidableEq, Repr

inductive SortKey where
  | priority | tspn
  deriving DecidableEq, Repr

/-- Who called `orderInsertPrioList` or `orderInsertSPNList`. -/
inductive SortCaller where
  | sts
  | configure (priorities : QueueName → ℤ)

/-- The control points, with the local variables that live there. -/
inductive Label where
  | epollWait
  | awaitScript (fd : ℕ)
  | building (fd : ℕ) (data : List UInt8) (priority : Int32)
  | awaitRequest (fd : ℕ)
  | restoring (fd : ℕ)
  | sizing (fd : ℕ)
  | getting (fd : ℕ)
  | sending (fd : ℕ) (m : TMsg) (origin : Ptr)
  | popFIFO
  | readALG
  | round (kind : Round) (i : ℕ) (prioList : List Ptr)
  | collect (kind : Round) (i : ℕ) (name : QueueName) (prioList : List Ptr)
  | takeIn (kind : Round) (i : ℕ) (name : QueueName) (prioList : List Ptr)
  | popQueue (kind : Round) (i : ℕ) (name : QueueName) (prioList : List Ptr)
  | sortStart (key : SortKey) (prioList : List Ptr) (caller : SortCaller)
  | drain (key : SortKey) (remaining : ℕ) (prioList : List Ptr) (caller : SortCaller)
  | awaitReload
  | setALG (ALG : Algorithm) (priorities : QueueName → ℤ)
  | configured (priorities : QueueName → ℤ)
  | setPriorities (priorities : QueueName → ℤ)
  | popReady
  | execute (p : Ptr) (code : List CString) (e : Exec)
  | popLPB
  | awaitSignal

abbrev Control := Shared × Thread Operation Label

end Sisop
