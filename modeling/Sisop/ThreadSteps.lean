import Sisop.InterpreterSteps
import Sisop.PP

/-!
# The control steps of the threads, one by one

For every thread the list of everything one of its control steps can do. What the invariants do
not need of a choice (the bytes of a frame, the texts of the reports) is left free.
-/

namespace Sisop

variable {cfg : Config} {s s' : Shared} {pc : Label} {c : Choice} {th : Thread Operation Label}

theorem Shared.connection_of_lowestFree {busy : List ℕ} {fd : ℕ}
    (h : s.lowestFree busy = some fd) : s.connection fd = none := by
  have hfd := List.find?_some h
  simp only [Bool.and_eq_true, Option.isNone_iff_eq_none] at hfd
  exact hfd.2

theorem restoreSuspended_eq_some {image : Ptr → TProcessImage} {LPS LPS' : List Ptr}
    {clientfd : ℕ} {p : Ptr} (h : restoreSuspended image LPS clientfd = some (some (p, LPS'))) :
    LPS.Perm (p :: LPS') ∧ (image p).clientfd = clientfd := by
  unfold restoreSuspended at h
  split_ifs at h
  split at h
  case h_1 => cases h
  case h_2 i hi =>
    obtain ⟨hlt, hfd, -⟩ := List.findIdx?_eq_some_iff_getElem.mp hi
    rw [List.getElem?_eq_getElem hlt] at h
    cases h
    exact ⟨(List.getElem_cons_eraseIdx_perm hlt).symm, by simpa using hfd⟩

theorem list_fd_msg_get_eq_some {lista lista' : List (TMsg × Ptr)} {clientfd : ℕ}
    {m : TMsg × Ptr} (h : list_fd_msg_get lista clientfd = some (some (m, lista'))) :
    lista.Perm (m :: lista') ∧ m.1.fd = clientfd := by
  unfold list_fd_msg_get at h
  split_ifs at h
  split at h
  case h_1 => cases h
  case h_2 i hi =>
    obtain ⟨hlt, hfd, -⟩ := List.findIdx?_eq_some_iff_getElem.mp hi
    rw [List.getElem?_eq_getElem hlt] at h
    cases h
    exact ⟨(List.getElem_cons_eraseIdx_perm hlt).symm, by simpa using hfd⟩

structure Unwritten (s s' : Shared) : Prop where
  image : s'.image = s.image
  allocated : s'.allocated = s.allocated
  ALG : s'.ALG = s.ALG
  queuesArray : s'.queuesArray = s.queuesArray
  accepted : s'.accepted = s.accepted
  submitter : s'.submitter = s.submitter

theorem unwritten_exec {t : Tid} {op : Operation} (h : op.exec t s = some s') : Unwritten s s' := by
  cases op with
  | lock m | unlock m | wait m =>
    simp only [Operation.exec] at h
    split_ifs at h
    cases h
    exact ⟨rfl, rfl, rfl, rfl, rfl, rfl⟩
  | _ =>
    cases h
    exact ⟨rfl, rfl, rfl, rfl, rfl, rfl⟩

section Owner

variable {t : Tid} {m : Mutex}

/-- Locked and unlocked again, a mutex is as it was. -/
theorem setOwner_setOwner {o : Option Tid} (h : s.owner m = none) :
    (s.setOwner m o).setOwner m none = s := by
  have howner : Function.update (Function.update s.owner m o) m none = s.owner := by
    rw [Function.update_idem, ← h, Function.update_eq_self]
  exact congrArg (fun owner => { s with owner }) howner

theorem exec_lock (h : s.owner m = none) :
    (Operation.lock m).exec t s = some (s.setOwner m (some t)) := if_pos h

theorem exec_unlock (h : s.owner m = none) :
    (Operation.unlock m).exec t (s.setOwner m (some t)) = some s := by
  have howner : (s.setOwner m (some t)).owner m = some t := by simp [Shared.setOwner]
  exact (if_pos howner).trans (congrArg some (setOwner_setOwner h))

end Owner

namespace LTSconex

inductive Moves (cfg : Config) (s : Shared) : Label → Shared → Thread Operation Label → Prop
  | hangup (fd : ℕ) : Moves cfg s .epollWait s ⟨.epollWait, [.close fd]⟩
  | connect {fd : ℕ} : s.connection fd = none →
      Moves cfg s .epollWait (s.accept fd) ⟨.awaitScript fd, []⟩
  | badHandshake {fd : ℕ} : s.connection fd = none →
      Moves cfg s .epollWait (s.accept fd) ⟨.epollWait, [.close fd]⟩
  | readable (fd : ℕ) : 0 < s.sem .mmpSem →
      Moves cfg s .epollWait (s.tryWait .mmpSem) ⟨.awaitRequest fd, []⟩
  | postponed : Moves cfg s .epollWait s ⟨.epollWait, []⟩
  | writable (fd : ℕ) : Moves cfg s .epollWait s ⟨.sizing fd, [.lock .sendingList]⟩
  | noScript (fd : ℕ) : Moves cfg s (.awaitScript fd) s ⟨.epollWait, [.close fd]⟩
  | notAScript (fd : ℕ) : Moves cfg s (.awaitScript fd) s ⟨.epollWait, []⟩
  | script (fd : ℕ) (data : List UInt8) (priority : Int32) : 0 < s.sem .mpsSem →
      Moves cfg s (.awaitScript fd) (s.tryWait .mpsSem) ⟨.building fd data priority, []⟩
  | refuse (fd : ℕ) : Moves cfg s (.awaitScript fd) s ⟨.epollWait, refuse fd⟩
  | admission (fd : ℕ) (data : List UInt8) (priority : Int32) (code : CString) :
      0 < s.sem .mmpSem → Moves cfg s (.building fd data priority)
        ((s.allocate (newImage fd (11 + s.allocated) priority code cfg.TANT)).tryWait .mmpSem)
        ⟨.epollWait, admission fd s.allocated⟩
  | delay (fd : ℕ) (data : List UInt8) (priority : Int32) (code : CString) :
      Moves cfg s (.building fd data priority)
        (s.allocate (newImage fd (11 + s.allocated) priority code cfg.TANT))
        ⟨.epollWait, delay fd s.allocated⟩
  | noRequest (fd : ℕ) :
      Moves cfg s (.awaitRequest fd) s ⟨.epollWait, [.post .mmpSem, .close fd]⟩
  | notARequest (fd : ℕ) : Moves cfg s (.awaitRequest fd) s ⟨.epollWait, []⟩
  | request {fd : ℕ} : s.connection fd ≠ none →
      Moves cfg s (.awaitRequest fd) s ⟨.restoring fd, [.lock .lps]⟩
  | notRestored (fd : ℕ) : Moves cfg s (.restoring fd) s ⟨.epollWait, notRestored fd⟩
  | restored {fd : ℕ} {p : Ptr} {LPS : List Ptr} : s.LPS.Perm (p :: LPS) →
      (s.image p).clientfd = fd → Moves cfg s (.restoring fd)
        { s with LPS, resumed := s.resumed ++ [(p, s.connection fd)] } ⟨.epollWait, resume p⟩
  | someMessages (fd : ℕ) :
      Moves cfg s (.sizing fd) s ⟨.getting fd, [.unlock .sendingList, .lock .sendingList]⟩
  | noMessages (fd : ℕ) : Moves cfg s (.sizing fd) s ⟨.epollWait, [.unlock .sendingList]⟩
  | noMessage (fd : ℕ) : Moves cfg s (.getting fd) s ⟨.epollWait, [.unlock .sendingList]⟩
  | message {fd : ℕ} {m : TMsg} {origin : Ptr} {sendingList : List (TMsg × Ptr)} :
      s.sendingList.Perm ((m, origin) :: sendingList) → m.fd = fd →
      Moves cfg s (.getting fd) { s with sendingList }
        ⟨.sending fd m origin, [.unlock .sendingList]⟩
  | sent {fd : ℕ} (m : TMsg) (origin : Ptr) {c : Connection} : s.connection fd = some c →
      Moves cfg s (.sending fd m origin) { s with written := s.written ++ [(origin, c)] }
        ⟨.epollWait, []⟩
  | notSent (fd : ℕ) (m : TMsg) (origin : Ptr) :
      Moves cfg s (.sending fd m origin) s ⟨.epollWait, [.close fd]⟩

theorem moves_of_script {fd : ℕ} {dataIn : TDataStream} {priority : Int32}
    (h : script s fd dataIn priority = (s', th)) : Moves cfg s (.awaitScript fd) s' th := by
  unfold script at h
  split_ifs at h with htype hsem
  · cases h
    exact .script fd dataIn.data priority hsem
  · cases h
    exact .refuse fd
  · cases h
    exact .notAScript fd

theorem moves_of_build {fd : ℕ} {data : List UInt8} {priority : Int32} {code : CString}
    (h : build s fd cfg.TANT priority code = (s', th)) :
    Moves cfg s (.building fd data priority) s' th := by
  simp only [build] at h
  split_ifs at h with hsem
  · cases h
    exact .admission fd data priority code hsem
  · cases h
    exact .delay fd data priority code

theorem moves_of_control (h : control cfg s pc c = some (s', th)) : Moves cfg s pc s' th := by
  unfold control at h
  split at h
  case h_1 =>
    cases h
    exact .hangup _
  case h_2 =>
    obtain ⟨fd, hfd, h⟩ := Option.map_eq_some_iff.mp h
    have hfree := Shared.connection_of_lowestFree hfd
    split_ifs at h
    · cases h
      exact .connect hfree
    · cases h
      exact .badHandshake hfree
  case h_3 =>
    split_ifs at h with hsem
    · cases h
      exact .readable _ hsem
    · cases h
      exact .postponed
  case h_4 =>
    cases h
    exact .writable _
  case h_5 =>
    obtain ⟨⟨r, rest⟩, -, h⟩ := Option.map_eq_some_iff.mp h
    rcases r with _ | ⟨dataIn, priority⟩
    · cases h
      exact .noScript _
    · exact moves_of_script h
  case h_6 =>
    obtain ⟨bytes, -, h⟩ := Option.map_eq_some_iff.mp h
    exact moves_of_build h
  case h_7 =>
    split_ifs at h with hclosed
    · cases h
      exact .noRequest _
    · obtain ⟨⟨r, rest⟩, -, h⟩ := Option.map_eq_some_iff.mp h
      rcases r with _ | dataIn
      · cases h
        exact .noRequest _
      · dsimp only at h
        split_ifs at h
        · cases h
          exact .request (by simpa using hclosed)
        · cases h
          exact .notARequest _
  case h_8 =>
    obtain ⟨r, hr, h⟩ := Option.map_eq_some_iff.mp h
    rcases r with _ | ⟨p, LPS⟩
    · cases h
      exact .notRestored _
    · cases h
      obtain ⟨hperm, hfd⟩ := restoreSuspended_eq_some hr
      exact .restored hperm hfd
  case h_9 =>
    split_ifs at h
    · cases h
      exact .someMessages _
    · cases h
      exact .noMessages _
  case h_10 =>
    obtain ⟨r, hr, h⟩ := Option.map_eq_some_iff.mp h
    rcases r with _ | ⟨⟨m, origin⟩, sendingList⟩
    · cases h
      exact .noMessage _
    · cases h
      obtain ⟨hperm, hfd⟩ := list_fd_msg_get_eq_some hr
      exact .message hperm hfd
  case h_11 =>
    split at h
    case h_1 hconnection =>
      cases h
      exact .sent _ _ hconnection
    case h_2 =>
      cases h
      exact .notSent _ _ _
  case h_12 => cases h

end LTSconex

namespace LTSnew

theorem control_eq_some (h : control s pc c = some (s', th)) :
    ∃ p ps, pc = .popFIFO ∧ s.queue .lfifo = p :: ps ∧ s' = s.setQueue .lfifo ps ∧
      th = ⟨.popFIFO, deliver p⟩ := by
  unfold control at h
  split at h
  case h_1 =>
    split at h
    case h_1 => cases h
    case h_2 p ps hqueue =>
      cases h
      exact ⟨p, ps, rfl, hqueue, rfl, rfl⟩
  case h_2 => cases h

end LTSnew

namespace OrderInsert

inductive Moves (s : Shared) : Label → Shared → Thread Operation Label → Prop
  | sortStart (key : SortKey) (prioList : List Ptr) (caller : SortCaller) :
      Moves s (.sortStart key prioList caller) s
        ⟨.drain key (s.queue .lpl).length prioList caller, []⟩
  | finish (key : SortKey) {prioList sorted : List Ptr} (caller : SortCaller) :
      sorted.Perm prioList → Moves s (.drain key 0 prioList caller) s (finish sorted caller)
  | drainOne (key : SortKey) (remaining remaining' : ℕ) (prioList : List Ptr) {p : Ptr}
      {ready : List Ptr} (caller : SortCaller) : s.queue .lpl = p :: ready →
      Moves s (.drain key (remaining + 1) prioList caller)
        ((s.tryWait .lplEmpty).setQueue .lpl ready)
        ⟨.drain key remaining' (listAddInIndex prioList 0 p) caller, []⟩

theorem moves_of_control (h : control s pc = some (s', th)) : Moves s pc s' th := by
  unfold control at h
  split at h
  case h_1 =>
    cases h
    exact .sortStart _ _ _
  case h_2 =>
    cases h
    exact .finish _ _ (bubbleSort_perm _ _)
  case h_3 =>
    unfold drainOne at h
    split at h
    case h_1 => cases h
    case h_2 hqueue =>
      cases h
      exact .drainOne _ _ _ _ _ hqueue
  case h_4 => cases h

end OrderInsert

namespace STS

inductive Moves (s : Shared) : Label → Shared → Thread Operation Label → Prop
  | readALG (kind : Round) : Moves s .readALG s (startRound kind)
  | nextQueue {kind : Round} {i : ℕ} {prioList : List Ptr} {entry : TQueuesArray} :
      s.queuesArray[i]? = some entry →
      Moves s (.round kind i prioList) s ⟨.collect kind i entry.name prioList, []⟩
  | endRound (kind : Round) {i : ℕ} (prioList : List Ptr) : s.queuesArray[i]? = none →
      Moves s (.round kind i prioList) s (endRound kind prioList)
  | takeToken (kind : Round) (i : ℕ) {name : QueueName} (prioList : List Ptr) :
      0 < s.sem name.queue.empty → Moves s (.collect kind i name prioList)
        (s.tryWait name.queue.empty) ⟨.takeIn kind i name prioList, []⟩
  | noToken (kind : Round) (i : ℕ) {name : QueueName} (prioList : List Ptr) :
      s.sem name.queue.empty = 0 →
      Moves s (.collect kind i name prioList) s ⟨.round kind (i + 1) prioList, []⟩
  | takeIn (kind : Round) (i : ℕ) (name : QueueName) (prioList : List Ptr) :
      Moves s (.takeIn kind i name prioList) (s.tryWait .stsInEmpty)
        ⟨.popQueue kind i name prioList, [.lock name.queue.mutex]⟩
  | pop (kind : Round) (i : ℕ) {name : QueueName} (prioList : List Ptr) {p : Ptr}
      {ps : List Ptr} : s.queue name.queue = p :: ps →
      Moves s (.popQueue kind i name prioList) (s.setQueue name.queue ps)
        (takeOver kind i name prioList p)
  | orderInsert {pc : Label} {s' : Shared} {th : Thread Operation Label} :
      OrderInsert.Moves s pc s' th → Moves s pc s' th

theorem moves_of_control (h : control s pc c = some (s', th)) : Moves s pc s' th := by
  unfold control at h
  split at h
  case h_1 =>
    split at h
    case h_5 => cases h
    all_goals
      cases h
      exact .readALG _
  case h_2 =>
    split at h
    case h_1 hentry =>
      cases h
      exact .nextQueue hentry
    case h_2 hentry =>
      cases h
      exact .endRound _ _ hentry
  case h_3 =>
    split_ifs at h with hsem
    · cases h
      exact .takeToken _ _ _ hsem
    · cases h
      exact .noToken _ _ _ (Nat.eq_zero_of_not_pos hsem)
  case h_4 =>
    cases h
    exact .takeIn _ _ _ _
  case h_5 =>
    split at h
    case h_1 => cases h
    case h_2 hqueue =>
      cases h
      exact .pop _ _ _ hqueue
  case h_6 => exact .orderInsert (OrderInsert.moves_of_control h)
  case h_7 => cases h

end STS

namespace Configure

inductive Moves (s : Shared) : Label → Shared → Thread Operation Label → Prop
  | reload (ALG : Algorithm) (priorities : QueueName → ℤ) :
      Moves s .awaitReload s ⟨.setALG ALG priorities, [.lock .alg]⟩
  | setALG (ALG : Algorithm) (priorities : QueueName → ℤ) :
      Moves s (.setALG ALG priorities) { s with ALG } (afterALG ALG priorities)
  | configured (priorities : QueueName → ℤ) :
      Moves s (.configured priorities) s
        ⟨.setPriorities priorities, [.unlock .alg, .lock .queuePriorities]⟩
  | setPriorities (priorities : QueueName → ℤ) :
      Moves s (.setPriorities priorities)
        { s with queuesArray := readPriorities priorities s.queuesArray }
        ⟨.awaitReload, [.unlock .queuePriorities, .lock .sentTime, .unlock .sentTime]⟩
  | orderInsert {pc : Label} {s' : Shared} {th : Thread Operation Label} :
      OrderInsert.Moves s pc s' th → Moves s pc s' th

theorem moves_of_control (h : control s pc c = some (s', th)) : Moves s pc s' th := by
  unfold control at h
  split at h
  case h_1 =>
    cases h
    exact .reload _ _
  case h_2 =>
    cases h
    exact .setALG _ _
  case h_3 =>
    cases h
    exact .configured _
  case h_4 =>
    cases h
    exact .setPriorities _
  case h_5 => exact .orderInsert (OrderInsert.moves_of_control h)
  case h_6 => cases h

end Configure

namespace PROCER

inductive Moves (cfg : Config) (s : Shared) : Label → Shared → Thread Operation Label → Prop
  | pop {p : Ptr} {ps : List Ptr} {code : List CString} : s.queue .lpl = p :: ps →
      codeSegmentCreator (s.image p).code = some code →
      Moves cfg s .popReady (s.setQueue .lpl ps) ⟨.execute p code (Exec.enter (s.image p)).1,
        dispatch p (Exec.enter (s.image p)).2⟩
  | finished {p : Ptr} {code : List CString} {e : Exec} : e.point = .returned →
      e.atFinPrograma code = true →
      Moves cfg s (.execute p code e) (s.setImage p (estimate cfg e))
        ⟨.popReady, finished (estimate cfg e) (cfg.prepareMessage (estimate cfg e)) p⟩
  | blocked {p : Ptr} {code : List CString} {e : Exec} : e.point = .returned →
      e.atFinPrograma code = false → e.ioBlockInterrupt = true →
      Moves cfg s (.execute p code e) { s.setImage p (estimate cfg e) with SUSPEND := false }
        ⟨.popReady, wait⟩
  | suspended {p : Ptr} {code : List CString} {e : Exec} : e.point = .returned →
      e.atFinPrograma code = false → e.ioBlockInterrupt = false → s.SUSPEND = true →
      Moves cfg s (.execute p code e) (s.setImage p (estimate cfg e))
        ⟨.popReady, suspended (estimate cfg e) (cfg.prepareMessage (estimate cfg e)) p⟩
  | endOfQuantum {p : Ptr} {code : List CString} {e : Exec} : e.point = .returned →
      e.atFinPrograma code = false → e.ioBlockInterrupt = false →
      (e.quantumCount : ℤ) = cfg.quantum →
      Moves cfg s (.execute p code e) (s.setImage p (estimate cfg e)) ⟨.popReady, endOfQuantum p⟩
  | dropped {p : Ptr} {code : List CString} {e : Exec} : e.point = .returned →
      e.atFinPrograma code = false → e.ioBlockInterrupt = false → s.SUSPEND = false →
      (e.quantumCount : ℤ) ≠ cfg.quantum →
      Moves cfg s (.execute p code e) (s.setImage p (estimate cfg e)) ⟨.popReady, wait⟩
  | run {p : Ptr} {code : List CString} {e e' : Exec} {ops : List Operation}
      {events : List Event} : e.point ≠ .returned →
      Exec.Moves code cfg.quantum p s.env e e' ops events →
      Moves cfg s (.execute p code e) s ⟨.execute p code e', ops⟩

theorem moves_of_cascade {p : Ptr} {code : List CString} {e : Exec} (hpoint : e.point = .returned)
    (h : cascade cfg s p code e = (s', th)) : Moves cfg s (.execute p code e) s' th := by
  simp only [cascade] at h
  split_ifs at h with hfin hio hsuspend hquantum
  · cases h
    exact .finished hpoint hfin
  · cases h
    exact .blocked hpoint (by simpa using hfin) hio
  · cases h
    exact .suspended hpoint (by simpa using hfin) (by simpa using hio) hsuspend
  · cases h
    exact .endOfQuantum hpoint (by simpa using hfin) (by simpa using hio) hquantum
  · cases h
    exact .dropped hpoint (by simpa using hfin) (by simpa using hio) (by simpa using hsuspend)
      hquantum

theorem moves_of_control (h : control cfg s pc c = some (s', th)) : Moves cfg s pc s' th := by
  unfold control at h
  split at h
  case h_1 =>
    split at h
    case h_1 => cases h
    case h_2 hqueue =>
      obtain ⟨code, hcode, h⟩ := Option.map_eq_some_iff.mp h
      cases h
      exact .pop hqueue hcode
  case h_2 =>
    split_ifs at h with hpoint
    · exact moves_of_cascade hpoint (Option.some.inj h)
    · obtain ⟨⟨e', ops, events⟩, hstep, h⟩ := Option.map_eq_some_iff.mp h
      cases h
      exact .run hpoint (Exec.moves_of_step hstep)
  case h_3 => cases h

end PROCER

namespace IoThread

theorem control_eq_some (h : control s pc c = some (s', th)) :
    ∃ ioProcessing LPB, pc = .popLPB ∧ s.LPB = ioProcessing :: LPB ∧ s' = { s with LPB } ∧
      th = ⟨.popLPB, [.unlock .lpb] ++ serve ioProcessing ++ [.post .ioThreads] ++ wait⟩ := by
  unfold control at h
  split at h
  case h_1 =>
    split at h
    case h_1 => cases h
    case h_2 ioProcessing LPB hLPB =>
      cases h
      exact ⟨ioProcessing, LPB, rfl, hLPB, rfl, rfl⟩
  case h_2 => cases h

end IoThread

theorem SignalHandler.control_eq_some (h : SignalHandler.control s pc c = some (s', th)) :
    pc = .awaitSignal ∧ s' = { s with SUSPEND := true } ∧ th = ⟨.awaitSignal, []⟩ := by
  unfold SignalHandler.control at h
  split at h
  case h_1 =>
    cases h
    exact ⟨rfl, rfl, rfl⟩
  case h_2 => cases h

namespace PP

inductive Moves (cfg : Config) (s : Shared) :
    Tid → Label → Shared → Thread Operation Label → Prop
  | ltsConex {pc : Label} {s' : Shared} {th : Thread Operation Label} :
      LTSconex.Moves cfg s pc s' th → Moves cfg s .ltsConex pc s' th
  | ltsNew {p : Ptr} {ps : List Ptr} : s.queue .lfifo = p :: ps →
      Moves cfg s .ltsNew .popFIFO (s.setQueue .lfifo ps) ⟨.popFIFO, LTSnew.deliver p⟩
  | sts {pc : Label} {s' : Shared} {th : Thread Operation Label} :
      STS.Moves s pc s' th → Moves cfg s .sts pc s' th
  | configure {pc : Label} {s' : Shared} {th : Thread Operation Label} :
      Configure.Moves s pc s' th → Moves cfg s .configure pc s' th
  | procer {pc : Label} {s' : Shared} {th : Thread Operation Label} :
      PROCER.Moves cfg s pc s' th → Moves cfg s .procer pc s' th
  | raise : Moves cfg s .signalHandler .awaitSignal { s with SUSPEND := true } ⟨.awaitSignal, []⟩
  | ioThread (i : ℕ) {ioProcessing : TIoProcessing} {LPB : List TIoProcessing} :
      s.LPB = ioProcessing :: LPB →
      Moves cfg s (.ioThread i) .popLPB { s with LPB } ⟨.popLPB,
        [.unlock .lpb] ++ IoThread.serve ioProcessing ++ [.post .ioThreads] ++ IoThread.wait⟩

theorem moves_of_control {t : Tid} (h : control cfg t pc c s = some (s', th)) :
    Moves cfg s t pc s' th := by
  cases t with
  | ltsConex => exact .ltsConex (LTSconex.moves_of_control h)
  | ltsNew =>
    obtain ⟨p, ps, rfl, hqueue, rfl, rfl⟩ := LTSnew.control_eq_some h
    exact .ltsNew hqueue
  | sts => exact .sts (STS.moves_of_control h)
  | configure => exact .configure (Configure.moves_of_control h)
  | procer => exact .procer (PROCER.moves_of_control h)
  | signalHandler =>
    obtain ⟨rfl, rfl, rfl⟩ := SignalHandler.control_eq_some h
    exact .raise
  | ioThread i =>
    obtain ⟨ioProcessing, LPB, rfl, hLPB, rfl, rfl⟩ := IoThread.control_eq_some h
    exact .ioThread i hLPB

def homeOf : Label → Tid → Prop
  | .epollWait, t | .awaitScript _, t | .building _ _ _, t | .awaitRequest _, t
  | .restoring _, t | .sizing _, t | .getting _, t | .sending _ _ _, t => t = .ltsConex
  | .popFIFO, t => t = .ltsNew
  | .readALG, t | .round _ _ _, t | .collect _ _ _ _, t | .takeIn _ _ _ _, t
  | .popQueue _ _ _ _, t | .sortStart _ _ .sts, t | .drain _ _ _ .sts, t => t = .sts
  | .sortStart _ _ (.configure _), t | .drain _ _ _ (.configure _), t | .awaitReload, t
  | .setALG _ _, t | .configured _, t | .setPriorities _, t => t = .configure
  | .popReady, t | .execute _ _ _, t => t = .procer
  | .popLPB, t => ∃ i, t = .ioThread i
  | .awaitSignal, t => t = .signalHandler

theorem homeOf_orderInsert {t : Tid} (h : OrderInsert.Moves s pc s' th) (hpc : homeOf pc t) :
    homeOf th.pc t := by
  cases h with
  | sortStart key prioList caller => cases caller <;> exact hpc
  | finish key caller => cases caller <;> exact hpc
  | drainOne key remaining remaining' prioList caller => cases caller <;> exact hpc

/-- Every thread stays in its own code. -/
theorem homeOf_control {t : Tid} (h : Moves cfg s t pc s' th) (hpc : homeOf pc t) :
    homeOf th.pc t := by
  cases h with
  | ltsConex h => cases h <;> rfl
  | ltsNew | raise => rfl
  | sts h =>
    cases h with
    | orderInsert h => exact homeOf_orderInsert h hpc
    | endRound kind => cases kind <;> rfl
    | pop kind => cases kind <;> rfl
    | _ => rfl
  | configure h =>
    cases h with
    | orderInsert h => exact homeOf_orderInsert h hpc
    | setALG ALG => cases ALG <;> rfl
    | _ => rfl
  | procer h => cases h <;> rfl
  | ioThread i => exact ⟨i, rfl⟩

theorem homeOf_initial (t : Tid) : homeOf (initialThread t).pc t := by
  cases t with
  | ioThread i => exact ⟨i, rfl⟩
  | _ => rfl

section Runs

variable {st st' : PP} {a : Step}

theorem next_eq_some (h : next cfg st a = some st') :
    a.1 ∈ cfg.threads ∧ (machine cfg).step st a = some st' := by
  unfold next at h
  split_ifs at h with hmem
  exact ⟨hmem, h⟩

/-- A step carries out a pending operation or is a control step. -/
theorem next_cases (h : next cfg st a = some st') :
    (∃ op ops s, (st.thread a.1).ops = op :: ops ∧ op.exec a.1 st.shared = some s ∧
      st' = ⟨s, Function.update st.thread a.1 ⟨(st.thread a.1).pc, ops⟩⟩) ∨
    ∃ s th, (st.thread a.1).ops = [] ∧ Moves cfg st.shared a.1 (st.thread a.1).pc s th ∧
      st' = ⟨s, Function.update st.thread a.1 th⟩ := by
  rcases Machine.step_cases (next_eq_some h).2 with hexec | ⟨s, th, hops, hcontrol, hst⟩
  · exact .inl hexec
  · exact .inr ⟨s, th, hops, moves_of_control hcontrol, hst⟩

/-- A step either carries out an operation, and no thread changes its control point or gets new
operations, or is a control step of one thread. -/
theorem shared_next (h : next cfg st a = some st') :
    (∃ op ops, (st.thread a.1).ops = op :: ops ∧ op.exec a.1 st.shared = some st'.shared ∧
      ∀ t, (st'.thread t).pc = (st.thread t).pc ∧ (st'.thread t).ops ⊆ (st.thread t).ops) ∨
      ((st.thread a.1).ops = [] ∧
        Moves cfg st.shared a.1 (st.thread a.1).pc st'.shared (st'.thread a.1) ∧
        ∀ t, t ≠ a.1 → st'.thread t = st.thread t) := by
  rcases next_cases h with ⟨op, ops, s, hops, hexec, rfl⟩ | ⟨s, th, hops, hmoves, rfl⟩
  · refine .inl ⟨op, ops, hops, hexec, fun t => ?_⟩
    dsimp only
    by_cases ht : t = a.1
    · rw [ht, Function.update_self, hops]
      exact ⟨rfl, List.subset_cons_self op ops⟩
    · rw [Function.update_of_ne ht]
      exact ⟨rfl, List.Subset.refl _⟩
  · refine .inr ⟨hops, ?_, fun t ht => Function.update_of_ne ht ..⟩
    dsimp only
    rw [Function.update_self]
    exact hmoves

/-- What a step does to one thread: another thread moves, or this one carries out its first
pending operation, or it makes a control step. -/
theorem thread_next (h : next cfg st a = some st') (t : Tid) :
    (a.1 ≠ t ∧ st'.thread t = st.thread t) ∨
      (∃ op ops, a.1 = t ∧ st.thread t = ⟨(st.thread t).pc, op :: ops⟩ ∧
        op.exec t st.shared = some st'.shared ∧ st'.thread t = ⟨(st.thread t).pc, ops⟩) ∨
      (a.1 = t ∧ st.thread t = ⟨(st.thread t).pc, []⟩ ∧
        Moves cfg st.shared t (st.thread t).pc st'.shared (st'.thread t)) := by
  by_cases ha : a.1 = t
  · subst ha
    rcases next_cases h with ⟨op, ops, s, hops, hexec, rfl⟩ | ⟨s, th, hops, hmoves, rfl⟩
    · refine .inr (.inl ⟨op, ops, rfl, by rw [← hops], hexec, ?_⟩)
      exact Function.update_self ..
    · refine .inr (.inr ⟨rfl, by rw [← hops], ?_⟩)
      dsimp only
      rw [Function.update_self]
      exact hmoves
  · exact .inl ⟨ha, Machine.thread_of_ne (next_eq_some h).2 (Ne.symm ha)⟩

/-- The total of a ledger stays when operations and control steps are balanced. -/
theorem total_next {N : Type*} [AddCommMonoid N] {L : Ledger Operation Label Shared N}
    (hexec : ∀ {t op s s'}, Operation.exec t op s = some s' → L.held s' = L.held s + L.op op)
    (hcontrol : ∀ s' th, (st.thread a.1).ops = [] →
      Moves cfg st.shared a.1 (st.thread a.1).pc s' th →
      L.held s' + L.thread th = L.held st.shared + L.pc (st.thread a.1).pc)
    (h : next cfg st a = some st') : L.total cfg.threads st' = L.total cfg.threads st :=
  Ledger.total_step (next_eq_some h).2 (next_eq_some h).1 (fun _ _ => hexec)
    fun s' th hops hth => hcontrol s' th hops (moves_of_control hth)

/-- A shape of threads that the pending operations cannot lose one by one. -/
theorem shape_next {P : Tid → Thread Operation Label → Prop}
    (htail : ∀ t pc op ops, P t ⟨pc, op :: ops⟩ → P t ⟨pc, ops⟩)
    (hcontrol : ∀ {t pc s s' th}, Moves cfg s t pc s' th → P t ⟨pc, []⟩ → P t th)
    (h : next cfg st a = some st') (hP : ∀ t, P t (st.thread t)) : ∀ t, P t (st'.thread t) :=
  Machine.shape_step (next_eq_some h).2 htail (fun _ _ hth => hcontrol (moves_of_control hth)) hP

end Runs

end PP
end Sisop
