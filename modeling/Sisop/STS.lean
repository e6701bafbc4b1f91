import Sisop.SharedState

/-!
# The short-term scheduler and the re-sorting of the ready list

`ordenarFIFO`, `ordenarPRI` and `ordenarSPN` are one loop over `queuesArray` that differs in what
it does with an image it takes. `orderInsertPrioList` and `orderInsertSPNList` drain `LPL` in
front of the images collected, sort and push everything back; `configure` calls them with an
empty list. `STS` reads the array one entry at a time and without the mutex that protects its
reordering, which is one step here.
-/

namespace Sisop

namespace STS

def wait : List Operation := [.wait .stsInEmpty, .post .stsInEmpty, .lock .alg]

def startRound (kind : Round) : Thread Operation Label :=
  ⟨.round kind 0 [], [.unlock .alg, .logCreate]⟩

/-- What `ordenarFIFO` does at once and the other two do at the end of the round. -/
def takeOver (kind : Round) (i : ℕ) (name : QueueName) (prioList : List Ptr) (p : Ptr) :
    Thread Operation Label :=
  match kind with
  | .fifo => ⟨.collect kind i name prioList,
      [.unlock name.queue.mutex, .readImage p] ++ logWrite ++ enqueueLocked .lpl p⟩
  | _ => ⟨.collect kind i name (prioList ++ [p]),
      [.unlock name.queue.mutex, .readImage p] ++ logWrite⟩

/-- `ordenarSPN` does not destroy its log. -/
def endRound (kind : Round) (prioList : List Ptr) : Thread Operation Label :=
  match kind with
  | .fifo => ⟨.readALG, [.logDestroy] ++ wait⟩
  | .pri => ⟨.sortStart .priority prioList .sts, [.logDestroy, .lock .lpl]⟩
  | .spn => ⟨.sortStart .tspn prioList .sts, [.lock .lpl]⟩

end STS

def SortKey.greater (image : Ptr → TProcessImage) : SortKey → Ptr → Ptr → Bool
  | .priority, psImg1, psImg2 => decide ((image psImg2).priority < (image psImg1).priority)
  | .tspn, psImg1, psImg2 => decide ((image psImg2).Tspn < (image psImg1).Tspn)

namespace OrderInsert

def finish (sorted : List Ptr) (caller : SortCaller) : Thread Operation Label :=
  match caller with
  | .sts => ⟨.readALG, sorted.map (.enqueue .lpl) ++ [.unlock .lpl] ++ STS.wait⟩
  | .configure priorities =>
    ⟨.configured priorities, sorted.map (.enqueue .lpl) ++ [.unlock .lpl]⟩

/-- One round of the draining loop; a failed `sem_trywait` ends the loop, but only after the pop
and the insertion. -/
def drainOne (s : Shared) (key : SortKey) (remaining : ℕ) (prioList : List Ptr)
    (caller : SortCaller) : Option Control :=
  match s.queue .lpl with
  | [] => none
  | psImg2 :: ready =>
    some ((s.tryWait .lplEmpty).setQueue .lpl ready,
      ⟨.drain key (if 0 < s.sem .lplEmpty then remaining else 0)
        (listAddInIndex prioList 0 psImg2) caller, []⟩)

def control (s : Shared) : Label → Option Control
  | .sortStart key prioList caller =>
    some (s, ⟨.drain key (s.queue .lpl).length prioList caller, []⟩)
  -- the comparisons are one step; `beingSorted` has the images they are about
  | .drain key 0 prioList caller =>
    some (s, finish (bubbleSort (key.greater s.image) prioList) caller)
  | .drain key (remaining + 1) prioList caller => drainOne s key remaining prioList caller
  | _ => none

end OrderInsert

namespace STS

def control (s : Shared) : Label → Choice → Option Control
  | .readALG, .go =>
    match s.ALG with
    | .fifo | .rr => some (s, startRound .fifo)
    | .pri => some (s, startRound .pri)
    | .spn => some (s, startRound .spn)
    | .other => none
  | .round kind i prioList, .go =>
    match s.queuesArray[i]? with
    | some entry => some (s, ⟨.collect kind i entry.name prioList, []⟩)
    | none => some (s, endRound kind prioList)
  | .collect kind i name prioList, .go =>
    if 0 < s.sem name.queue.empty then
      some (s.tryWait name.queue.empty, ⟨.takeIn kind i name prioList, []⟩)
    else some (s, ⟨.round kind (i + 1) prioList, []⟩)
  | .takeIn kind i name prioList, .go =>
    some (s.tryWait .stsInEmpty, ⟨.popQueue kind i name prioList, [.lock name.queue.mutex]⟩)
  | .popQueue kind i name prioList, .go =>
    match s.queue name.queue with
    | [] => none
    | p :: ps => some (s.setQueue name.queue ps, takeOver kind i name prioList p)
  | pc, .go => OrderInsert.control s pc
  | _, _ => none

end STS
end Sisop
