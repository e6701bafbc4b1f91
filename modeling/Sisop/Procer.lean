import Sisop.SharedState

/-!
# The processor and the I/O threads

`PROCER` takes a ready image, runs `processExecution` on it and then tries the four ways in which
a dispatch may have ended, in this order: finished, blocked, suspended, end of quantum. An I/O
thread serves one entry of `LPB` after the other.
-/

namespace Sisop

namespace PROCER

def wait : List Operation := [.wait .lplEmpty, .lock .lpl]

def dispatch (p : Ptr) (enter : List Operation) : List Operation :=
  [.unlock .lpl, .readImage p] ++ logWrite ++ [.clearSUSPEND] ++ enter

def finished (image : TProcessImage) (report : CString) (p : Ptr) : List Operation :=
  [.readImage p] ++ logWrite ++ [.clearSUSPEND] ++ sendMsg ⟨image.clientfd, 84, report⟩ p ++
    [.freeImage p, .post .mmpSem, .post .mpsSem] ++ wait

def suspended (image : TProcessImage) (report : CString) (p : Ptr) : List Operation :=
  [.readImage p] ++ logWrite ++ [.lock .lps, .addLPS p, .post .mmpSem, .unlock .lps] ++
    sendMsg ⟨image.clientfd, 83, report⟩ p ++ [.clearSUSPEND] ++ wait

def endOfQuantum (p : Ptr) : List Operation :=
  [.readImage p] ++ logWrite ++ enqueueForSTS .lfq p ++ wait

def estimate (cfg : Config) (e : Exec) : TProcessImage :=
  { e.processImage with Tspn := e.processImage.Tspn * cfg.ALFA + e.rafaga * (1 - cfg.ALFA) }

def cascade (cfg : Config) (s : Shared) (p : Ptr) (code : List CString) (e : Exec) : Control :=
  let image := estimate cfg e
  let s' := s.setImage p image
  if e.atFinPrograma code then (s', ⟨.popReady, finished image (cfg.prepareMessage image) p⟩)
  else if e.ioBlockInterrupt then ({ s' with SUSPEND := false }, ⟨.popReady, wait⟩)
  else if s.SUSPEND then (s', ⟨.popReady, suspended image (cfg.prepareMessage image) p⟩)
  else if (e.quantumCount : ℤ) = cfg.quantum then (s', ⟨.popReady, endOfQuantum p⟩)
  else (s', ⟨.popReady, wait⟩)

def control (cfg : Config) (s : Shared) : Label → Choice → Option Control
  | .popReady, .go =>
    match s.queue .lpl with
    | [] => none
    | p :: ps => (codeSegmentCreator (s.image p).code).map fun code =>
      (s.setQueue .lpl ps, ⟨.execute p code (Exec.enter (s.image p)).1,
        dispatch p (Exec.enter (s.image p)).2⟩)
  | .execute p code e, .go =>
    if e.point = .returned then some (cascade cfg s p code e)
    else (e.step code cfg.quantum p s.env).map fun (e', ops, _) => (s, ⟨.execute p code e', ops⟩)
  | _, _ => none

end PROCER

namespace IoThread

def wait : List Operation := [.wait .lpbEmpty, .wait .ioThreads, .lock .lpb]

def serve (ioProcessing : TIoProcessing) : List Operation :=
  if ioProcessing.ioInfo.flagNonBlocking then
    [.readImage ioProcessing.processImage] ++ logWrite
  else
    [.readImage ioProcessing.processImage] ++ logWrite ++
      [.readImage ioProcessing.processImage] ++ logWrite ++
      enqueueForSTS .lfio ioProcessing.processImage

def control (s : Shared) : Label → Choice → Option Control
  | .popLPB, .go =>
    match s.LPB with
    | [] => none
    | ioProcessing :: LPB => some ({ s with LPB },
        ⟨.popLPB, [.unlock .lpb] ++ serve ioProcessing ++ [.post .ioThreads] ++ wait⟩)
  | _, _ => none

end IoThread
end Sisop
