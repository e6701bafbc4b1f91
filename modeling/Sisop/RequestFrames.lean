import Sisop.Resumption

/-!
# The bytes of the requests

What a client has sent is a stream of bytes, and `recv` takes of it what has arrived, which need
not end where a frame ends. As long as every frame is read whole the stream is a number of
complete requests, and each of them finds its process. The rest of a request that was cut is
taken for another frame.
-/

namespace Sisop
namespace PP

/-- The bytes that each client has sent and nobody has read. -/
abbrev Wires := Connection → List UInt8

def resumeFrame : List UInt8 := frame 82 (payloadBlock (cstr "Reanudar"))

def leaves {α : Type} (wires : Wires) (c : Option Connection)
    (r : Option (Received α × List UInt8)) : Wires :=
  match c, r with
  | some c, some (_, rest) => Function.update wires c rest
  | _, _ => wires

def consumed (s : Shared) (wires : Wires) : Label → Choice → Wires
  | .awaitScript fd, .frame arrived net stale =>
    leaves wires (s.connection fd) (stale.readStreamPri arrived net)
  | .awaitRequest fd, .frame arrived net stale =>
    leaves wires (s.connection fd) (stale.readStream arrived net)
  | _, _ => wires

def consumes (st : PP) (a : Step) (wires : Wires) : Wires :=
  match st.thread a.1 with
  | ⟨pc, []⟩ => consumed st.shared wires pc a.2
  | _ => wires

abbrev Served := (PP × Clients) × Wires

def nextOnWires (cfg : Config) (x : Served) : Turn → Option Served
  | .step a => (nextWithClients cfg x.1 (.step a)).map fun y => (y, consumes x.1.1 a x.2)
  | .answer c => (nextWithClients cfg x.1 (.answer c)).map fun y =>
    (y, Function.update x.2 c (x.2 c ++ resumeFrame))

def startOnWires (cfg : Config) (ALG : Algorithm) (priorities : QueueName → ℤ) : Served :=
  (startWithClients cfg ALG priorities, fun _ => [])

def isFrame (net : List UInt8) : Bool := announced net == some net.length

/-- As much has arrived as a reader asks for. -/
def arrivesWhole (arrived : ℕ × ℕ) (net : List UInt8) : Bool :=
  decide (3 ≤ arrived.1) && (announced net).any fun length => decide (length ≤ arrived.2)

/-- The clients keep to their loop: who hangs up has read its `'T'`, a descriptor is readable when
there are bytes to read, these are what the client has sent, the script as one frame first, and
who has not read its `'T'` is there to be written to. -/
def loopsOnWires (s : Shared) (pis : Clients) (wires : Wires) : Label → Choice → Bool
  | .epollWait, .hangup fd => (s.connection fd).any fun c => (pis c).finished
  | .epollWait, .readable fd => (s.connection fd).any fun c => !(wires c).isEmpty
  | .awaitScript _, .frame _ net _ => isFrame net
  | .awaitRequest fd, .frame _ net _ => (s.connection fd).all fun c => net == wires c
  | .sending fd _ _, .sent ok => ok || (s.connection fd).all fun c => (pis c).finished
  | _, _ => true

def takesWhole : Label → Choice → Bool
  | .awaitScript _, .frame arrived net _ | .awaitRequest _, .frame arrived net _ =>
    arrivesWhole arrived net
  | _, _ => true

def keepsToWires (x : Served) : Turn → Bool
  | .answer _ => true
  | .step a =>
    match x.1.1.thread a.1 with
    | ⟨pc, []⟩ => loopsOnWires x.1.1.shared x.1.2 x.2 pc a.2
    | _ => true

def readsWhole (x : Served) : Turn → Bool
  | .answer _ => true
  | .step a =>
    match x.1.1.thread a.1 with
    | ⟨pc, []⟩ => takesWhole pc a.2
    | _ => true

/-- The request of the client has been read and is being served. -/
def inService (st : PP) (c : Connection) : ℕ :=
  match (st.thread .ltsConex).pc with
  | .restoring fd => if st.shared.connection fd = some c then 1 else 0
  | _ => 0

/-- What a client has on its wire are its requests, all but the one in service. -/
def OnWire (x : Served) : Prop := ∀ c, ∃ n, n + inService x.1.1 c = (x.1.2 c).requests ∧
  x.2 c = (List.replicate n resumeFrame).flatten

section Frames

variable {α : Type} {arrived : ℕ × ℕ} {net : List UInt8}

theorem exists_of_isFrame (h : isFrame net = true) : ∃ type lo hi body,
    net = type :: lo :: hi :: body ∧ value16 lo hi = body.length + 3 := by
  rw [isFrame, beq_iff_eq] at h
  rcases net with _ | ⟨type, _ | ⟨lo, _ | ⟨hi, body⟩⟩⟩
  case cons.cons.cons => exact ⟨type, lo, hi, body, rfl, Option.some.inj h⟩
  all_goals cases h

theorem le_of_arrivesWhole {length : ℕ} (h : arrivesWhole arrived net = true)
    (hlength : announced net = some length) : 3 ≤ arrived.1 ∧ length ≤ arrived.2 := by
  rw [arrivesWhole, hlength, Bool.and_eq_true, decide_eq_true_iff] at h
  exact ⟨h.1, decide_eq_true_iff.mp h.2⟩

/-- Nothing stays of a frame that is read whole. -/
theorem rest_of_frame {stale : Stale} {decode : Block UInt8 → Option α}
    {r : Received α} {rest : List UInt8} (hframe : isFrame net = true)
    (hwhole : arrivesWhole arrived net = true)
    (h : stale.readWith decode arrived net = some (r, rest)) : rest = [] := by
  obtain ⟨type, lo, hi, body, rfl, hlength⟩ := exists_of_isFrame hframe
  obtain ⟨hpeek, hrecv⟩ := le_of_arrivesWhole hwhole rfl
  have hread := stale.readWith_whole decode type hlength hpeek (hlength ▸ hrecv) []
  rw [List.append_nil, h, Eq.comm, Option.map_eq_some_iff] at hread
  obtain ⟨data, -, hdata⟩ := hread
  exact (Prod.mk.inj hdata).2.symm

/-- A request at the head of the wire is read as one, and the others stay. -/
theorem readStream_resumeFrame (stale : Stale) (tail : List UInt8) (hpeek : 3 ≤ arrived.1)
    (hrecv : resumeFrame.length ≤ arrived.2) :
    stale.readStream arrived (resumeFrame ++ tail) =
      some (.stream ⟨82, payloadBlock (cstr "Reanudar")⟩, tail) := by
  have hread := stale.readWith_whole deserialization 82
    (show value16 12 0 = (payloadBlock (cstr "Reanudar")).length + 3 by decide) hpeek
    (show (payloadBlock (cstr "Reanudar")).length + 3 ≤ arrived.2 from hrecv) tail
  have hdecode : deserialization (Block.filledTo (82 :: 12 :: 0 :: payloadBlock (cstr "Reanudar"))
      0) = some ⟨82, payloadBlock (cstr "Reanudar")⟩ := by decide
  rw [hdecode] at hread
  exact hread

theorem announced_resumeFrame (tail : List UInt8) :
    announced (resumeFrame ++ tail) = some resumeFrame.length := rfl

end Frames

section Runs

variable {cfg : Config} {ALG : Algorithm} {priorities : QueueName → ℤ} {s s' : Shared}
  {pc : Label} {th : Thread Operation Label} {pis : Clients} {wires : Wires} {c : Connection}
  {x y : Served} {a : Step} {st st' : PP}

theorem inService_of_ne (h : ∀ fd, (st.thread .ltsConex).pc ≠ .restoring fd) :
    inService st c = 0 := by
  unfold inService
  split
  case h_1 fd hpc => exact absurd hpc (h fd)
  case h_2 => rfl

theorem inService_restoring {fd : ℕ} (h : (st.thread .ltsConex).pc = .restoring fd) :
    inService st c = if st.shared.connection fd = some c then 1 else 0 := by
  rw [inService, h]

/-- While a request is in service its connection stays as it is. -/
theorem inService_same (hpc : (st'.thread .ltsConex).pc = (st.thread .ltsConex).pc)
    (hconnection : ∀ fd, (st.thread .ltsConex).pc = .restoring fd →
      st'.shared.connection fd = st.shared.connection fd) :
    inService st' c = inService st c := by
  by_cases hrestoring : ∃ fd, (st.thread .ltsConex).pc = .restoring fd
  · obtain ⟨fd, hfd⟩ := hrestoring
    rw [inService_restoring hfd, inService_restoring (hpc.trans hfd), hconnection fd hfd]
  · push Not at hrestoring
    rw [inService_of_ne hrestoring, inService_of_ne fun fd => hpc ▸ hrestoring fd]

theorem OnWire.same (h : OnWire x) (hservice : ∀ c, inService y.1.1 c = inService x.1.1 c)
    (hrequests : ∀ c, (y.1.2 c).requests = (x.1.2 c).requests) (hwires : y.2 = x.2) :
    OnWire y := by
  intro c
  rw [hservice, hrequests, hwires]
  exact h c

/-- No step but one of `LTSconex` opens a connection, and an operation may only close one. -/
theorem connection_exec {t : Tid} {op : Operation} (h : op.exec t s = some s') {fd : ℕ}
    (hc : s'.connection fd = some c) : s.connection fd = some c := by
  cases op with
  | close fd' =>
    cases h
    exact (connection_setConnection_none hc).2
  | lock m | unlock m | wait m =>
    simp only [Operation.exec] at h
    split_ifs at h
    cases h
    exact hc
  | _ =>
    cases h
    exact hc

theorem connection_other {t : Tid} (h : Moves cfg s t pc s' th) (ht : t ≠ .ltsConex) :
    s'.connection = s.connection := by
  cases h with
  | ltsConex => exact absurd rfl ht
  | sts h | configure h =>
    cases h with
    | orderInsert h => cases h <;> rfl
    | _ => rfl
  | procer h => cases h <;> rfl
  | _ => rfl

theorem consumes_of_ops (h : (st.thread a.1).ops ≠ []) : consumes st a wires = wires := by
  unfold consumes
  split
  case h_1 hthread =>
    rw [hthread] at h
    exact absurd rfl h
  case h_2 => rfl

theorem consumes_of_control (h : (st.thread a.1).ops = []) :
    consumes st a wires = consumed st.shared wires (st.thread a.1).pc a.2 := by
  have hthread : st.thread a.1 = ⟨(st.thread a.1).pc, []⟩ := by rw [← h]
  unfold consumes
  rw [hthread]

def reading : Label → Bool
  | .awaitScript _ | .awaitRequest _ => true
  | _ => false

theorem consumed_of_not_reading (h : reading pc = false) (c : Choice) :
    consumed s wires pc c = wires := by
  cases pc with
  | awaitScript | awaitRequest => cases h
  | _ => rfl

theorem reading_of_home {t : Tid} (hhome : homeOf pc t) (ht : t ≠ .ltsConex) :
    reading pc = false := by
  cases pc with
  | awaitScript | awaitRequest => exact absurd hhome ht
  | _ => rfl

/-- A request on the wire of a client that is not in service. -/
theorem OnWire.head (h : OnWire x) (hservice : inService x.1.1 c = 0)
    (hpos : 0 < (x.1.2 c).requests) : ∃ n, n + 1 = (x.1.2 c).requests ∧
      x.2 c = resumeFrame ++ (List.replicate n resumeFrame).flatten := by
  obtain ⟨n, hn, hwire⟩ := h c
  obtain ⟨m, rfl⟩ : ∃ m, n = m + 1 := ⟨n - 1, by omega⟩
  refine ⟨m, by omega, ?_⟩
  rw [hwire, List.replicate_succ, List.flatten_cons]

/-- On wires that hold whole requests the clients keep to the loop in which requests are
counted. -/
theorem inLoop_of_loopsOnWires {c : Choice} (hwire : OnWire x)
    (hregistry : Registry x.1.1.shared (x.1.1.thread .ltsConex) (x.1.1.thread .procer) x.1.2)
    (hpc : (x.1.1.thread .ltsConex).pc = pc)
    (hloop : loopsOnWires x.1.1.shared x.1.2 x.2 pc c = true) (hwhole : takesWhole pc c = true) :
    inLoop x.1.1.shared x.1.2 pc c = true := by
  have hidle : (∀ fd, pc ≠ .restoring fd) → ∀ c, inService x.1.1 c = 0 := fun hne c =>
    inService_of_ne fun fd => hpc ▸ hne fd
  cases pc with
  | epollWait =>
    cases c with
    | hangup => exact hloop
    | readable fd =>
      obtain ⟨c, hc, hne⟩ := (Option.any_eq_true _ _).mp hloop
      obtain ⟨n, hn, hflatten⟩ := hwire c
      rw [hidle (by simp) c] at hn
      refine (Option.any_eq_true _ _).mpr ⟨c, hc, decide_eq_true ?_⟩
      rcases n with _ | n
      · rw [hflatten] at hne
        cases hne
      · omega
    | _ => rfl
  | awaitRequest fd =>
    cases c with
    | frame arrived net stale =>
      obtain ⟨c, hc, hpos⟩ := hregistry.requested fd (.inl hpc)
      obtain ⟨n, -, hhead⟩ := hwire.head (hidle (by simp) c) hpos
      rw [loopsOnWires, hc, Option.all_some, beq_iff_eq, hhead] at hloop
      rw [takesWhole, hloop] at hwhole
      obtain ⟨hpeek, hrecv⟩ := le_of_arrivesWhole hwhole (announced_resumeFrame _)
      rw [inLoop, isRequest, hloop, readStream_resumeFrame stale _ hpeek hrecv]
      rfl
    | _ => rfl
  | sending =>
    cases c with
    | sent => exact hloop
    | _ => rfl
  | _ => rfl

theorem pc_of_conex {c : Choice} (h : LTSconex.control cfg s pc c = some (s', th))
    (hpc : ∀ fd, pc ≠ .awaitRequest fd) (fd : ℕ) : th.pc ≠ .restoring fd := by
  have hmoves := LTSconex.moves_of_control h
  cases hmoves with
  | request => exact absurd rfl (hpc _)
  | _ => exact Label.noConfusion

theorem reached_requests {ch : Choice} (h : ∀ fd, pc ≠ .restoring fd) (c : Connection) :
    (reached s pis pc ch c).requests = (pis c).requests := by
  unfold reached
  split
  case h_1 fd m _ =>
    cases hc : s.connection fd with
    | some c' =>
      dsimp only
      by_cases heq : c = c'
      · rw [heq, Function.update_self, PI.read_requests]
      · rw [Function.update_of_ne heq]
    | none => rfl
  case h_2 fd => exact absurd rfl (h fd)
  case h_3 => rfl

/-- The script of a client is read as one frame, and nothing has been sent behind it. -/
theorem wires_script {fd : ℕ} {ch : Choice} (hwire : OnWire x)
    (hregistry : Registry x.1.1.shared (x.1.1.thread .ltsConex) (x.1.1.thread .procer) x.1.2)
    (hpc : (x.1.1.thread .ltsConex).pc = .awaitScript fd)
    (h : LTSconex.control cfg x.1.1.shared (.awaitScript fd) ch = some (s', th))
    (hloop : loopsOnWires x.1.1.shared x.1.2 x.2 (.awaitScript fd) ch = true)
    (hwhole : takesWhole (.awaitScript fd) ch = true) (c : Connection) :
    ∃ n, n = (x.1.2 c).requests ∧ consumed x.1.1.shared x.2 (.awaitScript fd) ch c =
      (List.replicate n resumeFrame).flatten := by
  have hidle : inService x.1.1 c = 0 := inService_of_ne fun fd' => by simp [hpc]
  obtain ⟨c', hc', hnew⟩ := hregistry.newcomer fd (.inl hpc)
  obtain ⟨n, hn, hflatten⟩ := hwire c
  rw [hidle] at hn
  cases ch with
  | frame arrived net stale =>
    obtain ⟨⟨r, rest⟩, hread, -⟩ := Option.map_eq_some_iff.mp h
    obtain rfl := rest_of_frame hloop hwhole hread
    rw [consumed, hc', hread, leaves]
    by_cases heq : c = c'
    · have hstart : x.1.2 c' = .start := by
        by_contra hne
        obtain ⟨p, hp⟩ := hregistry.known c' hne
        exact hnew p hp
      refine ⟨0, ?_, ?_⟩
      · rw [heq, hstart]
        rfl
      · rw [heq, Function.update_self]
        rfl
    · rw [Function.update_of_ne heq]
      exact ⟨n, hn, hflatten⟩
  | _ => cases h

theorem onWire_script {fd : ℕ} {ch : Choice} (hwire : OnWire x)
    (hregistry : Registry x.1.1.shared (x.1.1.thread .ltsConex) (x.1.1.thread .procer) x.1.2)
    (hpc : (x.1.1.thread .ltsConex).pc = .awaitScript fd)
    (h : LTSconex.control cfg x.1.1.shared (.awaitScript fd) ch = some (s', th))
    (hloop : loopsOnWires x.1.1.shared x.1.2 x.2 (.awaitScript fd) ch = true)
    (hwhole : takesWhole (.awaitScript fd) ch = true)
    (hth : (st'.thread .ltsConex).pc = th.pc) :
    OnWire ((st', reached x.1.1.shared x.1.2 (.awaitScript fd) ch),
      consumed x.1.1.shared x.2 (.awaitScript fd) ch) := by
  intro c
  obtain ⟨n, hn, hflatten⟩ := wires_script hwire hregistry hpc h hloop hwhole c
  have hidle : inService st' c = 0 :=
    inService_of_ne fun fd' => hth ▸ pc_of_conex h (by simp) fd'
  refine ⟨n, ?_, hflatten⟩
  rw [hidle, reached_requests (by simp)]
  exact hn

/-- A request leaves the wire of its client and is in service. -/
theorem onWire_request {fd : ℕ} {ch : Choice} (hwire : OnWire x)
    (hregistry : Registry x.1.1.shared (x.1.1.thread .ltsConex) (x.1.1.thread .procer) x.1.2)
    (hpc : (x.1.1.thread .ltsConex).pc = .awaitRequest fd)
    (h : LTSconex.control cfg x.1.1.shared (.awaitRequest fd) ch = some (s', th))
    (hloop : loopsOnWires x.1.1.shared x.1.2 x.2 (.awaitRequest fd) ch = true)
    (hwhole : takesWhole (.awaitRequest fd) ch = true)
    (hst' : st'.shared = s' ∧ st'.thread .ltsConex = th) :
    OnWire ((st', reached x.1.1.shared x.1.2 (.awaitRequest fd) ch),
      consumed x.1.1.shared x.2 (.awaitRequest fd) ch) := by
  have hidle : ∀ c, inService x.1.1 c = 0 := fun c => inService_of_ne fun fd' => by simp [hpc]
  obtain ⟨c', hc', hpos⟩ := hregistry.requested fd (.inl hpc)
  obtain ⟨n, hn, hhead⟩ := hwire.head (hidle c') hpos
  cases ch with
  | frame arrived net stale =>
    rw [loopsOnWires, hc', Option.all_some, beq_iff_eq, hhead] at hloop
    rw [takesWhole, hloop] at hwhole
    obtain ⟨hpeek, hrecv⟩ := le_of_arrivesWhole hwhole (announced_resumeFrame _)
    have hread := readStream_resumeFrame stale (List.replicate n resumeFrame).flatten hpeek hrecv
    rw [LTSconex.control, if_neg (by simp [hc']), hloop, hread] at h
    have hth : (st'.thread .ltsConex).pc = .restoring fd ∧ st'.shared = x.1.1.shared := by
      rw [hst'.1, hst'.2]
      cases h
      exact ⟨rfl, rfl⟩
    intro c
    rw [inService_restoring hth.1, hth.2, hc', consumed, hc', hloop, hread, leaves]
    dsimp only
    by_cases heq : c = c'
    · rw [heq, Function.update_self, if_pos rfl]
      exact ⟨n, hn, rfl⟩
    · rw [Function.update_of_ne heq, if_neg fun h => heq (Option.some.inj h).symm]
      obtain ⟨m, hm, hflatten⟩ := hwire c
      rw [hidle c] at hm
      exact ⟨m, hm, hflatten⟩
  | _ => cases h

theorem onWire_restoring {fd : ℕ} {ch : Choice} (hx : Resuming cfg ALG priorities x.1)
    (hwire : OnWire x) (hpc : (x.1.1.thread .ltsConex).pc = .restoring fd)
    (h : LTSconex.control cfg x.1.1.shared (.restoring fd) ch = some (s', th))
    (hth : (st'.thread .ltsConex).pc = th.pc) :
    OnWire ((st', reached x.1.1.shared x.1.2 (.restoring fd) ch),
      consumed x.1.1.shared x.2 (.restoring fd) ch) := by
  obtain ⟨p, LPS, c', -, -, hc', -, hpos⟩ := hx.found hpc
  have hidle : ∀ c, inService st' c = 0 := fun c =>
    inService_of_ne fun fd' => hth ▸ pc_of_conex h (by simp) fd'
  cases ch with
  | go =>
    intro c
    obtain ⟨n, hn, hflatten⟩ := hwire c
    rw [inService_restoring hpc, hc'] at hn
    refine ⟨n, ?_, hflatten⟩
    rw [hidle c, reached, hc']
    dsimp only
    by_cases heq : c = c'
    · rw [heq, if_pos rfl] at hn
      rw [heq, Function.update_self, PI.served]
      dsimp only
      omega
    · rw [if_neg fun h => heq (Option.some.inj h).symm] at hn
      rw [Function.update_of_ne heq]
      exact hn
  | _ => cases h

theorem onWire_conex {ch : Choice} (hx : Resuming cfg ALG priorities x.1) (hwire : OnWire x)
    (hpc : (x.1.1.thread .ltsConex).pc = pc)
    (h : LTSconex.control cfg x.1.1.shared pc ch = some (s', th))
    (hloop : loopsOnWires x.1.1.shared x.1.2 x.2 pc ch = true)
    (hwhole : takesWhole pc ch = true)
    (hst' : st'.shared = s' ∧ st'.thread .ltsConex = th) :
    OnWire ((st', reached x.1.1.shared x.1.2 pc ch), consumed x.1.1.shared x.2 pc ch) := by
  have hth : (st'.thread .ltsConex).pc = th.pc := congrArg Thread.pc hst'.2
  by_cases hscript : ∃ fd, pc = .awaitScript fd
  · obtain ⟨fd, rfl⟩ := hscript
    exact onWire_script hwire hx.registry hpc h hloop hwhole hth
  by_cases hrequest : ∃ fd, pc = .awaitRequest fd
  · obtain ⟨fd, rfl⟩ := hrequest
    exact onWire_request hwire hx.registry hpc h hloop hwhole hst'
  by_cases hrestoring : ∃ fd, pc = .restoring fd
  · obtain ⟨fd, rfl⟩ := hrestoring
    exact onWire_restoring hx hwire hpc h hth
  push Not at hscript hrequest hrestoring
  have hreading : reading pc = false := by
    cases pc with
    | awaitScript fd => exact absurd rfl (hscript fd)
    | awaitRequest fd => exact absurd rfl (hrequest fd)
    | _ => rfl
  refine hwire.same (fun c => ?_) (reached_requests hrestoring)
    (consumed_of_not_reading hreading ch)
  have hbefore : inService x.1.1 c = 0 := inService_of_ne fun fd => hpc ▸ hrestoring fd
  rw [hbefore]
  exact inService_of_ne fun fd => hth ▸ pc_of_conex h hrequest fd

theorem loopsOnWires_of_keepsToWires (h : keepsToWires x (.step a) = true)
    (hops : (x.1.1.thread a.1).ops = []) :
    loopsOnWires x.1.1.shared x.1.2 x.2 (x.1.1.thread a.1).pc a.2 = true := by
  obtain ⟨pc, hthread⟩ : ∃ pc, x.1.1.thread a.1 = ⟨pc, []⟩ := ⟨_, by rw [← hops]⟩
  simpa [keepsToWires, hthread] using h

theorem takesWhole_of_readsWhole (h : readsWhole x (.step a) = true)
    (hops : (x.1.1.thread a.1).ops = []) : takesWhole (x.1.1.thread a.1).pc a.2 = true := by
  obtain ⟨pc, hthread⟩ : ∃ pc, x.1.1.thread a.1 = ⟨pc, []⟩ := ⟨_, by rw [← hops]⟩
  simpa [readsWhole, hthread] using h

theorem inLoop_other {ch : Choice} {t : Tid} (hhome : homeOf pc t) (ht : t ≠ .ltsConex) :
    inLoop s pis pc ch = true := by
  cases pc with
  | epollWait | awaitRequest | sending => exact absurd hhome ht
  | _ => rfl

/-- The run in which requests are counted makes the same step. -/
theorem keepsToLoop_of_keepsToWires (hx : Resuming cfg ALG priorities x.1) (hwire : OnWire x)
    (hkeeps : keepsToWires x (.step a) = true) (hwhole : readsWhole x (.step a) = true) :
    keepsToLoop x.1 (.step a) = true := by
  by_cases hops : (x.1.1.thread a.1).ops = []
  · have hin : inLoop x.1.1.shared x.1.2 (x.1.1.thread a.1).pc a.2 = true := by
      by_cases hconex : a.1 = .ltsConex
      · have hkeeps := loopsOnWires_of_keepsToWires hkeeps hops
        have hwhole := takesWhole_of_readsWhole hwhole hops
        rw [hconex] at hkeeps hwhole ⊢
        exact inLoop_of_loopsOnWires hwire hx.registry rfl hkeeps hwhole
      · exact inLoop_other (home_run hx.run a.1) hconex
    obtain ⟨pc, hthread⟩ : ∃ pc, x.1.1.thread a.1 = ⟨pc, []⟩ := ⟨_, by rw [← hops]⟩
    simpa [keepsToLoop, hthread] using hin
  · rw [keepsToLoop]
    split
    case h_1 hthread =>
      rw [hthread] at hops
      exact absurd rfl hops
    case h_2 => rfl

/-- An operation is carried out: nothing is read, and the connection whose request is in service
stays open. -/
theorem OnWire.exec {op : Operation} {ops : List Operation} (hwire : OnWire x)
    (hops : (x.1.1.thread a.1).ops = op :: ops)
    (hpc : ∀ t, (st'.thread t).pc = (x.1.1.thread t).pc)
    (hexec : op.exec a.1 x.1.1.shared = some st'.shared)
    (hnext : Resuming cfg ALG priorities (st', reaches x.1.1 a x.1.2)) :
    OnWire ((st', reaches x.1.1 a x.1.2), consumes x.1.1 a x.2) := by
  have hne : (x.1.1.thread a.1).ops ≠ [] := by simp [hops]
  rw [reaches_of_ops hne] at hnext ⊢
  rw [consumes_of_ops hne]
  refine hwire.same (fun c => inService_same (hpc .ltsConex) fun fd hfd => ?_) (fun _ => rfl) rfl
  obtain ⟨c', hc', -⟩ := hnext.registry.requested fd (.inr ((hpc .ltsConex).trans hfd))
  rw [hc', connection_exec hexec hc']

theorem OnWire.step (hx : Resuming cfg ALG priorities x.1) (hwire : OnWire x)
    (hnext : next cfg x.1.1 a = some st') (hloop : keepsToLoop x.1 (.step a) = true)
    (hkeeps : keepsToWires x (.step a) = true) (hwhole : readsWhole x (.step a) = true) :
    OnWire ((st', reaches x.1.1 a x.1.2), consumes x.1.1 a x.2) := by
  have hafter := hx.step hnext hloop
  rcases Machine.step_cases (next_eq_some hnext).2 with
    ⟨op, ops, s, hops, hexec, rfl⟩ | ⟨s, th, hops, hcontrol, rfl⟩
  · refine hwire.exec hops (fun t => ?_) hexec hafter
    dsimp only
    by_cases heq : t = a.1
    · rw [heq, Function.update_self]
    · rw [Function.update_of_ne heq]
  · have hkeeps := loopsOnWires_of_keepsToWires hkeeps hops
    have hwhole := takesWhole_of_readsWhole hwhole hops
    rw [reaches_of_control hops, consumes_of_control hops]
    by_cases hconex : a.1 = .ltsConex
    · rw [hconex] at hcontrol hkeeps hwhole ⊢
      refine onWire_conex hx hwire rfl hcontrol hkeeps hwhole ⟨rfl, ?_⟩
      dsimp only
      rw [Function.update_self]
    · have hhome := home_run hx.run a.1
      have hpc : (Function.update x.1.1.thread a.1 th .ltsConex).pc =
          (x.1.1.thread .ltsConex).pc :=
        congrArg Thread.pc (Function.update_of_ne (Ne.symm hconex) ..)
      rw [reached_other hhome hconex, consumed_of_not_reading (reading_of_home hhome hconex)]
      refine hwire.same (fun c => inService_same hpc fun fd _ => ?_) (fun _ => rfl) rfl
      dsimp only
      rw [connection_other (moves_of_control hcontrol) hconex]

/-- A client presses the key: one request more, behind the others. -/
theorem OnWire.answer {pi : PI} (hwire : OnWire x) (h : (x.1.2 c).answer = some pi) :
    OnWire ((x.1.1, Function.update x.1.2 c pi), Function.update x.2 c (x.2 c ++ resumeFrame)) := by
  obtain ⟨-, rfl⟩ := PI.answer_eq_some h
  intro c'
  obtain ⟨n, hn, hflatten⟩ := hwire c'
  dsimp only
  by_cases heq : c' = c
  · subst heq
    refine ⟨n + 1, ?_, ?_⟩
    · rw [Function.update_self]
      dsimp only
      omega
    · rw [Function.update_self, hflatten, List.replicate_succ', List.flatten_append,
        List.flatten_singleton]
  · rw [Function.update_of_ne heq, Function.update_of_ne heq]
    exact ⟨n, hn, hflatten⟩

theorem onWire_start : OnWire (startOnWires cfg ALG priorities) := fun _ => ⟨0, rfl, rfl⟩

theorem requests_run (h : RunsTo (nextOnWires cfg)
    (fun x turn => keepsToWires x turn = true ∧ readsWhole x turn = true)
    (startOnWires cfg ALG priorities) x) : Resuming cfg ALG priorities x.1 ∧ OnWire x := by
  refine h.invariant (P := fun x => Resuming cfg ALG priorities x.1 ∧ OnWire x)
    ⟨resuming_start, onWire_start⟩ ?_
  rintro x turn x' ⟨hx, hwire⟩ ⟨hkeeps, hwhole⟩ hnext
  cases turn with
  | step a =>
    obtain ⟨y, hy, rfl⟩ := Option.map_eq_some_iff.mp hnext
    obtain ⟨st', hst', rfl⟩ := Option.map_eq_some_iff.mp hy
    have hloop := keepsToLoop_of_keepsToWires hx hwire hkeeps hwhole
    exact ⟨hx.step hst' hloop, hwire.step hx hst' hloop hkeeps hwhole⟩
  | answer c =>
    obtain ⟨y, hy, rfl⟩ := Option.map_eq_some_iff.mp hnext
    obtain ⟨pi, hpi, rfl⟩ := Option.map_eq_some_iff.mp hy
    exact ⟨hx.answer hpi, hwire.answer hpi⟩

/-- Whenever `LTSconex` serves a request, `restoreSuspended` finds the image of the client in `LPS`,
the only one there with that descriptor. -/
theorem request_finds_process (cfg : Config) (ALG : Algorithm) (priorities : QueueName → ℤ)
    (x : Served) (fd : ℕ) (h : RunsTo (nextOnWires cfg)
      (fun x turn => keepsToWires x turn = true ∧ readsWhole x turn = true)
      (startOnWires cfg ALG priorities) x)
    (hpc : (x.1.1.thread .ltsConex).pc = .restoring fd) :
    ∃ p LPS, restoreSuspended x.1.1.shared.image x.1.1.shared.LPS fd = some (some (p, LPS)) ∧
      ∀ p' ∈ x.1.1.shared.LPS, (x.1.1.shared.image p').clientfd = fd → p' = p := by
  obtain ⟨hx, -⟩ := requests_run h
  obtain ⟨p, LPS, -, hrestore, hone, -⟩ := hx.found hpc
  exact ⟨p, LPS, hrestore, hone⟩

/-- A script is suspended in its first line, its client answers, and `arrived` of the request is
there when it is read. -/
def resumes (arrived : ℕ × ℕ) : List Turn :=
  List.map .step (goes .ltsConex 3 ++ submits idleScript 0 ++ goes .sts 19 ++ goes .procer 10 ++
    [(Tid.signalHandler, Choice.raise)] ++ goes .procer 13 ++ delivers 4) ++ [.answer 0] ++
  List.map .step ([(Tid.ltsConex, Choice.readable 4),
    (.ltsConex, .frame arrived resumeFrame .zeros)] ++ goes .ltsConex 1)

theorem request_finds_process_suspended : ∃ x : Served,
    (x.1.1.thread .ltsConex).pc = .restoring 4 ∧
      ∃ p LPS, restoreSuspended x.1.1.shared.image x.1.1.shared.LPS 4 = some (some (p, LPS)) ∧
        ∀ p' ∈ x.1.1.shared.LPS, (x.1.1.shared.image p').clientfd = 4 → p' = p := by
  have hrun : ((follow (nextOnWires smallConfig) (fun x turn => keepsToWires x turn &&
      readsWhole x turn) (startOnWires smallConfig .fifo fun _ => 0) (resumes (3, 12))).any fun x =>
        served (x.1.1.thread .ltsConex).pc == some 4) = true := by
    decide +kernel
  obtain ⟨x, hx, hserved⟩ := (Option.any_eq_true _ _).mp hrun
  have hpc := eq_restoring_of_served (eq_of_beq hserved)
  exact ⟨x, hpc, request_finds_process smallConfig .fifo (fun _ => 0) x 4
    (RunsTo.of_follow (fun _ _ h => (Bool.and_eq_true _ _).mp h) _ hx) hpc⟩

def asked : Thread Operation Label → Option ℕ
  | ⟨.awaitRequest fd, []⟩ => some fd
  | _ => none

theorem eq_awaitRequest_of_asked {fd : ℕ} (h : asked th = some fd) :
    th = ⟨.awaitRequest fd, []⟩ := by
  unfold asked at h
  split at h
  case h_1 =>
    cases h
    rfl
  case h_2 => cases h

/-- What stands behind the header of a request. -/
def reanudar : List UInt8 := [82, 101, 97, 110, 117, 100, 97, 114, 0]

/-- "Reanudar" is read where a frame is expected, and taken for a request. -/
theorem next_reanudar (cfg : Config) {fd : ℕ}
    (hasked : x.1.1.thread .ltsConex = ⟨.awaitRequest fd, []⟩)
    (hc : x.1.1.shared.connection fd = some c) (hwire : x.2 c = reanudar) : ∃ y,
      nextOnWires cfg x (.step (.ltsConex, .frame (9, 9) reanudar .zeros)) = some y ∧
      keepsToWires x (.step (.ltsConex, .frame (9, 9) reanudar .zeros)) = true ∧
      (y.1.1.thread .ltsConex).pc = .restoring fd ∧ y.1.1.shared.LPS = x.1.1.shared.LPS := by
  have hrequest : ∃ data unread, Stale.zeros.readStream (9, 9) reanudar =
      some (.stream ⟨82, data⟩, unread) :=
    Stale.zeros.readStream_header 82 _ (by decide) (by decide) (by decide)
  obtain ⟨data, unread, hread⟩ := hrequest
  have hcontrol : LTSconex.control cfg x.1.1.shared (.awaitRequest fd) (.frame (9, 9) reanudar
      .zeros) = some (x.1.1.shared, ⟨.restoring fd, [.lock .lps]⟩) := by
    rw [LTSconex.control, if_neg (by simp [hc]), hread]
    rfl
  have hnext : next cfg x.1.1 (.ltsConex, .frame (9, 9) reanudar .zeros) =
      some ⟨x.1.1.shared, Function.update x.1.1.thread .ltsConex
        ⟨.restoring fd, [.lock .lps]⟩⟩ := by
    rw [next, if_pos (by simp [Config.threads]), Machine.step]
    dsimp only
    rw [hasked]
    exact congrArg (Option.map _) hcontrol
  obtain ⟨y, hy, hst⟩ : ∃ y, nextOnWires cfg x (.step (.ltsConex, .frame (9, 9) reanudar .zeros)) =
      some y ∧ y.1.1 = ⟨x.1.1.shared, Function.update x.1.1.thread .ltsConex
        ⟨.restoring fd, [.lock .lps]⟩⟩ := by
    rw [nextOnWires, nextWithClients, hnext]
    exact ⟨_, rfl, rfl⟩
  refine ⟨y, hy, ?_, ?_, ?_⟩
  · rw [keepsToWires, hasked]
    simp [loopsOnWires, hc, hwire]
  · rw [hst]
    dsimp only
    rw [Function.update_self]
  · rw [hst]

/-- Cut behind its header a request is served, the rest of it is taken for another one, and
`LPS` is empty. -/
theorem cut_request_finds_nothing : ¬ ∀ (cfg : Config) (ALG : Algorithm)
    (priorities : QueueName → ℤ) (x : Served) (fd : ℕ), RunsTo (nextOnWires cfg)
      (fun x turn => keepsToWires x turn = true) (startOnWires cfg ALG priorities) x →
    (x.1.1.thread .ltsConex).pc = .restoring fd →
    ∃ p LPS, restoreSuspended x.1.1.shared.image x.1.1.shared.LPS fd = some (some (p, LPS)) ∧
      ∀ p' ∈ x.1.1.shared.LPS, (x.1.1.shared.image p').clientfd = fd → p' = p := by
  intro hall
  have hrun : ((follow (nextOnWires smallConfig) keepsToWires
      (startOnWires smallConfig .fifo fun _ => 0) (resumes (3, 3) ++
        List.map .step (goes .ltsConex 9 ++ [(Tid.ltsConex, Choice.readable 4)]))).any fun x =>
          asked (x.1.1.thread .ltsConex) == some 4 && x.1.1.shared.LPS == [] &&
            x.1.1.shared.connection 4 == some 0 && x.2 0 == reanudar) = true := by
    decide +kernel
  obtain ⟨x, hx, hstate⟩ := (Option.any_eq_true _ _).mp hrun
  simp only [Bool.and_eq_true, beq_iff_eq] at hstate
  obtain ⟨⟨⟨hasked, hLPS⟩, hc⟩, hwire⟩ := hstate
  obtain ⟨y, hnext, hkeeps, hpc, hsame⟩ := next_reanudar smallConfig
    (eq_awaitRequest_of_asked hasked) hc hwire
  obtain ⟨p, LPS, hrestore, -⟩ := hall smallConfig .fifo (fun _ => 0) y 4
    ((RunsTo.of_follow (fun _ _ h => h) _ hx).step _ hkeeps hnext) hpc
  rw [hsame, hLPS] at hrestore
  cases hrestore

end Runs

end PP
end Sisop
