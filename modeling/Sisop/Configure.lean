import Sisop.STS

/-!
# The configuration thread

`configurationReader` after a change of `pp.config`, from `ALG` on. The values read only once are
in `Config`.
-/

namespace Sisop

def exchangeEntries (queuesArray : List TQueuesArray) (i : ℕ) : List TQueuesArray :=
  match queuesArray[i]?, queuesArray[i + 1]? with
  | some entry, some next => (queuesArray.set (i + 1) entry).set i next
  | _, _ => queuesArray

def reorderQueuesArrayPriority (queuesArray : List TQueuesArray) : List TQueuesArray :=
  bubbleLoop (fun a b => decide (b.priority < a.priority)) exchangeEntries 3 4 queuesArray

def readPriorities (priorities : QueueName → ℤ) (queuesArray : List TQueuesArray) :
    List TQueuesArray :=
  reorderQueuesArrayPriority
    (queuesArray.map fun entry => { entry with priority := priorities entry.name })

theorem exchangeEntries_perm {queuesArray : List TQueuesArray} {i : ℕ}
    (h : i + 1 < queuesArray.length) : (exchangeEntries queuesArray i).Perm queuesArray := by
  have hi : i < queuesArray.length := by omega
  rw [exchangeEntries, List.getElem?_eq_getElem hi, List.getElem?_eq_getElem h]
  exact List.set_set_perm h hi

/-- The array keeps its four names. -/
theorem readPriorities_names (priorities : QueueName → ℤ) {queuesArray : List TQueuesArray}
    (h : queuesArray.length = 4) :
    ((readPriorities priorities queuesArray).map (·.name)).Perm (queuesArray.map (·.name)) := by
  have hperm := bubbleLoop_perm (fun a b : TQueuesArray => decide (b.priority < a.priority))
    exchangeEntries 3 (fun list i hlength hi => exchangeEntries_perm (by omega)) 4
    (queuesArray.map fun entry => { entry with priority := priorities entry.name })
    (by rw [List.length_map, h])
  refine (hperm.map _).trans ?_
  rw [List.map_map]
  rfl

namespace Configure

def afterALG (ALG : Algorithm) (priorities : QueueName → ℤ) : Thread Operation Label :=
  match ALG with
  | .pri => ⟨.sortStart .priority [] (.configure priorities), [.lock .lpl]⟩
  | .spn => ⟨.sortStart .tspn [] (.configure priorities), [.lock .lpl]⟩
  | _ => ⟨.configured priorities, []⟩

def control (s : Shared) : Label → Choice → Option Control
  | .awaitReload, .reload ALG priorities => some (s, ⟨.setALG ALG priorities, [.lock .alg]⟩)
  | .setALG ALG priorities, .go => some ({ s with ALG }, afterALG ALG priorities)
  | .configured priorities, .go =>
    some (s, ⟨.setPriorities priorities, [.unlock .alg, .lock .queuePriorities]⟩)
  | .setPriorities priorities, .go =>
    some ({ s with queuesArray := readPriorities priorities s.queuesArray },
      ⟨.awaitReload, [.unlock .queuePriorities, .lock .sentTime, .unlock .sentTime]⟩)
  | pc, .go => OrderInsert.control s pc
  | _, _ => none

end Configure
end Sisop
