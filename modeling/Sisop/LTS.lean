import Sisop.SharedState

/-!
# The long-term scheduler

`LTSconex` handles one epoll event after the other: it admits scripts, resumes suspended
processes and sends what waits in `sendingList`. `LTSnew` moves delayed scripts on. A frame is
read with what has arrived of it, however little, by the readers of `Stale`; a read from a
descriptor that is not open is an `ERROR`.
-/

namespace Sisop

/-- `none` when the list is empty: the search then looks at an unset pointer. -/
def restoreSuspended (image : Ptr → TProcessImage) (LPS : List Ptr) (clientfd : ℕ) :
    Option (Option (Ptr × List Ptr)) :=
  if LPS = [] then none
  else match LPS.findIdx? (fun p => (image p).clientfd == clientfd) with
    | none => some none
    | some i => LPS[i]?.map fun p => some (p, LPS.eraseIdx i)

def list_fd_msg_get (lista : List (TMsg × Ptr)) (clientfd : ℕ) :
    Option (Option ((TMsg × Ptr) × List (TMsg × Ptr))) :=
  if lista = [] then none
  else match lista.findIdx? (·.1.fd == clientfd) with
    | none => some none
    | some i => lista[i]?.map fun m => some (m, lista.eraseIdx i)

def writeText (fd : ℕ) (type : UInt8) (text : CString) : Operation :=
  .writeStream fd ⟨type, payloadBlock text⟩

namespace LTSconex

def refuse (fd : ℕ) : List Operation := [writeText fd 70 (cstr "MPS superado"), .close fd]

def admission (fd : ℕ) (p : Ptr) : List Operation :=
  logWrite ++ [writeText fd 0 (cstr "Script AnSISOP cargado")] ++ enqueueForSTS .lpn p

def delay (fd : ℕ) (p : Ptr) : List Operation :=
  logWrite ++ [writeText fd 78 (cstr "MMP superado, ejecución demorada")] ++ enqueueLocked .lfifo p

def resume (p : Ptr) : List Operation :=
  [.unlock .lps, .readImage p] ++ logWrite ++ enqueueForSTS .lpr p

def notRestored (fd : ℕ) : List Operation :=
  [.unlock .lps] ++ logWrite ++ [.post .mmpSem, .close fd]

/-- The script read at `fd`, when `MPS_sem` gave a token. -/
def script (s : Shared) (fd : ℕ) (dataIn : TDataStream) (priority : Int32) : Control :=
  if dataIn.type = 78 then
    if 0 < s.sem .mpsSem then (s.tryWait .mpsSem, ⟨.building fd dataIn.data priority, []⟩)
    else (s, ⟨.epollWait, refuse fd⟩)
  else (s, ⟨.epollWait, []⟩)

def build (s : Shared) (fd : ℕ) (TANT : ℤ) (priority : Int32) (code : CString) : Control :=
  let s' := s.allocate (newImage fd (11 + s.allocated) priority code TANT)
  if 0 < s.sem .mmpSem then (s'.tryWait .mmpSem, ⟨.epollWait, admission fd s.allocated⟩)
  else (s', ⟨.epollWait, delay fd s.allocated⟩)

def control (cfg : Config) (s : Shared) : Label → Choice → Option Control
  | .epollWait, .hangup fd => some (s, ⟨.epollWait, [.close fd]⟩)
  | .epollWait, .connect busy handshake =>
    (s.lowestFree busy).map fun fd =>
      (s.accept fd, if handshake then ⟨.awaitScript fd, []⟩ else ⟨.epollWait, [.close fd]⟩)
  | .epollWait, .readable fd =>
    if 0 < s.sem .mmpSem then some (s.tryWait .mmpSem, ⟨.awaitRequest fd, []⟩)
    else some (s, ⟨.epollWait, []⟩)
  | .epollWait, .writable fd => some (s, ⟨.sizing fd, [.lock .sendingList]⟩)
  | .awaitScript fd, .frame arrived net stale =>
    (stale.readStreamPri arrived net).map fun r => match r.1 with
      | .ERROR => (s, ⟨.epollWait, [.close fd]⟩)
      | .stream (dataIn, priority) => script s fd dataIn priority
  | .building fd data priority, .go =>
    (copyScript data).map fun bytes => build s fd cfg.TANT priority (printed bytes)
  | .awaitRequest fd, .frame arrived net stale =>
    if (s.connection fd).isNone then some (s, ⟨.epollWait, [.post .mmpSem, .close fd]⟩)
    else (stale.readStream arrived net).map fun r => match r.1 with
      | .ERROR => (s, ⟨.epollWait, [.post .mmpSem, .close fd]⟩)
      | .stream dataIn =>
        if dataIn.type = 82 then (s, ⟨.restoring fd, [.lock .lps]⟩) else (s, ⟨.epollWait, []⟩)
  | .restoring fd, .go =>
    (restoreSuspended s.image s.LPS fd).map fun
      | none => (s, ⟨.epollWait, notRestored fd⟩)
      | some (p, LPS) =>
        ({ s with LPS, resumed := s.resumed ++ [(p, s.connection fd)] }, ⟨.epollWait, resume p⟩)
  | .sizing fd, .go =>
    if 0 < s.sendingList.length then
      some (s, ⟨.getting fd, [.unlock .sendingList, .lock .sendingList]⟩)
    else some (s, ⟨.epollWait, [.unlock .sendingList]⟩)
  | .getting fd, .go =>
    (list_fd_msg_get s.sendingList fd).map fun
      | none => (s, ⟨.epollWait, [.unlock .sendingList]⟩)
      | some ((m, origin), sendingList) =>
        ({ s with sendingList }, ⟨.sending fd m origin, [.unlock .sendingList]⟩)
  | .sending fd _ origin, .sent ok =>
    match s.connection fd, ok with
    | some c, true => some ({ s with written := s.written ++ [(origin, c)] }, ⟨.epollWait, []⟩)
    | _, _ => some (s, ⟨.epollWait, [.close fd]⟩)
  | _, _ => none

end LTSconex

namespace LTSnew

def wait : List Operation := [.wait .lfifoEmpty, .wait .mmpSem, .lock .lfifo]

def deliver (p : Ptr) : List Operation :=
  [.unlock .lfifo, .readImage p] ++ logWrite ++ enqueueForSTS .lpn p ++ wait

def control (s : Shared) : Label → Choice → Option Control
  | .popFIFO, .go =>
    match s.queue .lfifo with
    | [] => none
    | p :: ps => some (s.setQueue .lfifo ps, ⟨.popFIFO, deliver p⟩)
  | _, _ => none

end LTSnew
end Sisop
