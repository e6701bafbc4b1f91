import Sisop.PP

/-!
# PP and its clients

After the reply to its script a PI reads one message after the other: it shows a text, asks its
user for *enter* at an `'S'` and then sends an `'R'`, and leaves at the `'T'`. Each connection has
a PI behind it. When the user presses the key is up to him. Requests are counted here; what
becomes of their bytes is put on top.
-/

namespace Sisop

structure PI where
  /-- The messages `'S'` read and not answered yet. -/
  suspensions : ℕ
  /-- The frames `'R'` sent and not served yet. -/
  requests : ℕ
  /-- The `'T'` has been read. -/
  finished : Bool
  deriving DecidableEq

namespace PI

def start : PI := ⟨0, 0, false⟩

/-- One round of the loop of `main`, up to the `scanf` in it. -/
def read (pi : PI) (type : UInt8) : PI :=
  if type = 78 then pi
  else if type = 83 then { pi with suspensions := pi.suspensions + 1 }
  else if type = 84 then { pi with finished := true }
  else pi

/-- The key is pressed: "Reanudar" is sent. -/
def answer (pi : PI) : Option PI :=
  if 0 < pi.suspensions then
    some { pi with suspensions := pi.suspensions - 1, requests := pi.requests + 1 }
  else none

def served (pi : PI) : PI := { pi with requests := pi.requests - 1 }

theorem read_finished (pi : PI) (type : UInt8) :
    (pi.read type).finished = (pi.finished || type == 84) := by
  unfold read
  split_ifs with htext hsuspended hfinished
  · simp [htext]
  · simp [hsuspended]
  · simp [hfinished]
  · simp [hfinished]

theorem read_requests (pi : PI) (type : UInt8) : (pi.read type).requests = pi.requests := by
  unfold read
  split_ifs <;> rfl

theorem read_suspensions (pi : PI) (type : UInt8) :
    (pi.read type).suspensions = pi.suspensions + if type = 83 then 1 else 0 := by
  unfold read
  split_ifs with htext hsuspended
  · rw [htext] at hsuspended
    cases hsuspended
  all_goals simp_all

theorem answer_eq_some {pi pi' : PI} (h : pi.answer = some pi') :
    0 < pi.suspensions ∧
      pi' = { pi with suspensions := pi.suspensions - 1, requests := pi.requests + 1 } := by
  unfold answer at h
  split_ifs at h with hpos
  exact ⟨hpos, (Option.some.inj h).symm⟩

end PI

abbrev Clients := Connection → PI

inductive Turn where
  | step (a : Step)
  | answer (c : Connection)

namespace PP

/-- What a step of `LTSconex` is to the client at the other end. -/
def reached (s : Shared) (pis : Clients) : Label → Choice → Clients
  | .sending fd m _, .sent true =>
    match s.connection fd with
    | some c => Function.update pis c ((pis c).read m.type)
    | none => pis
  | .restoring fd, .go =>
    match s.connection fd with
    | some c => Function.update pis c (pis c).served
    | none => pis
  | _, _ => pis

def reaches (st : PP) (a : Step) (pis : Clients) : Clients :=
  match st.thread a.1 with
  | ⟨pc, []⟩ => reached st.shared pis pc a.2
  | _ => pis

def nextWithClients (cfg : Config) (x : PP × Clients) : Turn → Option (PP × Clients)
  | .step a => (next cfg x.1 a).map fun st => (st, reaches x.1 a x.2)
  | .answer c => (x.2 c).answer.map fun pi => (x.1, Function.update x.2 c pi)

def startWithClients (cfg : Config) (ALG : Algorithm) (priorities : QueueName → ℤ) : PP × Clients :=
  (start cfg ALG priorities, fun _ => .start)

/-- The frame that has arrived is a request. -/
def isRequest (arrived : ℕ × ℕ) (net : List UInt8) (stale : Stale) : Bool :=
  match stale.readStream arrived net with
  | some (.stream dataIn, _) => dataIn.type == 82
  | _ => false

/-- The clients keep to their loop and every frame of theirs is read whole: who hangs up has read
its `'T'`, a descriptor is readable when an `'R'` is not served yet, nothing else arrives, and who
has not read its `'T'` is there to be written to. -/
def inLoop (s : Shared) (pis : Clients) : Label → Choice → Bool
  | .epollWait, .hangup fd => (s.connection fd).any fun c => (pis c).finished
  | .epollWait, .readable fd => (s.connection fd).any fun c => decide (0 < (pis c).requests)
  | .awaitRequest _, .frame arrived net stale => isRequest arrived net stale
  | .sending fd _ _, .sent ok => ok || (s.connection fd).all fun c => (pis c).finished
  | _, _ => true

def keepsToLoop (x : PP × Clients) : Turn → Bool
  | .answer _ => true
  | .step a =>
    match x.1.thread a.1 with
    | ⟨pc, []⟩ => inLoop x.1.shared x.2 pc a.2
    | _ => true

end PP
end Sisop
