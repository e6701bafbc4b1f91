import Sisop.ProcessData
import Sisop.Serialization
import Mathlib.Data.Rat.Defs

/-!
# The records and the atomic operations of PP

A thread of PP runs straight-line stretches of operations on the shared lists, semaphores and
mutexes. `queue_push` on a list of images and the `sem_post` of that list's semaphore are one
operation: they stand next to each other under the mutex of the list, and nobody looks at the
list without it. `origin` is the image a message reports on; the program does not store it.
-/

namespace Sisop

/-- The address of a `t_ProcessImage`. -/
abbrev Ptr := ℕ

structure TStack where
  functionName : CString
  PC : ℕ
  linecall : ℕ
  deriving DecidableEq, Repr

structure TProcessImage where
  clientfd : ℕ
  pid : ℕ
  priority : Int32
  PC : ℕ
  code : CString
  data : DataArray
  stack : List TStack
  Tspn : ℚ
  deriving DecidableEq

structure TMsg where
  fd : ℕ
  type : UInt8
  msg : CString
  deriving DecidableEq, Repr

structure TIoInfo where
  ioTime : ℕ
  flagNonBlocking : Bool
  deriving DecidableEq, Repr

structure TIoProcessing where
  processImage : Ptr
  ioInfo : TIoInfo
  deriving DecidableEq, Repr

inductive Mutex where
  | sendingList | lps | lpb | lpl | lfq | lfifo | lpr | lpn | lfio
  | sentTime | alg | queuePriorities | log
  deriving DecidableEq, Repr

inductive Semaphore where
  | lplEmpty | lpbEmpty | lfqEmpty | lfifoEmpty | lprEmpty | lpnEmpty | lfioEmpty
  | stsInEmpty | mmpSem | mpsSem | ioThreads
  deriving DecidableEq, Repr

/-- The lists of images that have a semaphore of their own. -/
inductive Queue where
  | lfifo | lpn | lpr | lfq | lfio | lpl
  deriving DecidableEq, Repr

def Queue.empty : Queue → Semaphore
  | .lfifo => .lfifoEmpty
  | .lpn => .lpnEmpty
  | .lpr => .lprEmpty
  | .lfq => .lfqEmpty
  | .lfio => .lfioEmpty
  | .lpl => .lplEmpty

def Queue.mutex : Queue → Mutex
  | .lfifo => .lfifo
  | .lpn => .lpn
  | .lpr => .lpr
  | .lfq => .lfq
  | .lfio => .lfio
  | .lpl => .lpl

inductive Operation where
  | lock (m : Mutex)
  | unlock (m : Mutex)
  | wait (s : Semaphore)
  | post (s : Semaphore)
  | enqueue (q : Queue) (p : Ptr)
  | enqueueLPB (e : TIoProcessing)
  | addLPS (p : Ptr)
  | addMsg (m : TMsg) (origin : Ptr)
  | readImage (p : Ptr)
  | freeImage (p : Ptr)
  | clearSUSPEND
  | logCreate
  | logDestroy
  | writeStream (fd : ℕ) (m : TDataStream)
  | close (fd : ℕ)
  deriving DecidableEq, Repr

/-- `logWriteLSCH`, `logWriteINFO` and `logWriteERROR`. -/
def logWrite : List Operation := [.lock .log, .unlock .log]

/-- `pthread_mutex_lock`, `queue_push`, `sem_post`, `pthread_mutex_unlock` of one list. -/
def enqueueLocked (q : Queue) (p : Ptr) : List Operation :=
  [.lock q.mutex, .enqueue q p, .unlock q.mutex]

def enqueueForSTS (q : Queue) (p : Ptr) : List Operation :=
  [.lock q.mutex, .enqueue q p, .post .stsInEmpty, .unlock q.mutex]

def sendMsg (m : TMsg) (origin : Ptr) : List Operation :=
  [.lock .sendingList, .addMsg m origin, .unlock .sendingList]

end Sisop
