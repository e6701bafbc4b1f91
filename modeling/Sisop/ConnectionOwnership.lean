import Sisop.ProcessReferences

/-!
# Which connection a process is served by

The program knows a client by its descriptor only. While a process lives and while a message of it
waits, the connection open at its descriptor, if there is one, is the one that submitted it, as
long as no new connection gets the descriptor: `LTSconex` closes it when the client hangs up, and
leaves the process and its messages as they are.
-/

namespace Sisop
namespace PP

variable {cfg : Config} {s s' : Shared} {pc conex : Label} {th procer : Thread Operation Label}
  {p : Ptr}

def Live (s : Shared) (p : Ptr) : Prop := p < s.allocated ∧ p ∉ s.freed

def Owned (s : Shared) (fd : ℕ) (p : Ptr) : Prop :=
  ∀ c, s.connection fd = some c → s.submitter p = some c

structure Ownership (s : Shared) (conex : Label) (procer : Thread Operation Label) : Prop where
  images : ∀ p, Live s p → Owned s (s.image p).clientfd p
  messages : ∀ m origin, (m, origin) ∈ s.sendingList →
    origin < s.allocated ∧ Owned s m.fd origin
  sending : ∀ fd m origin, conex = .sending fd m origin →
    origin < s.allocated ∧ Owned s fd origin
  restoring : ∀ fd, conex = .restoring fd → s.connection fd ≠ none
  reports : ∀ m origin, .addMsg m origin ∈ procer.ops →
    Live s origin ∧ (s.image origin).clientfd = m.fd
  running : ∀ p code e, procer.pc = .execute p code e →
    p < s.allocated ∧ e.processImage.clientfd = (s.image p).clientfd
  written : ∀ p c, (p, c) ∈ s.written → p < s.allocated ∧ s.submitter p = some c
  resumed : ∀ p c, (p, c) ∈ s.resumed →
    p < s.allocated ∧ ∃ connection, c = some connection ∧ s.submitter p = some connection

/-- The operations that matter to the ownership, and what they need. -/
structure Permitted (conex : Label) (procer : Thread Operation Label) (op : Operation) :
    Prop where
  addMsg : ∀ m origin, op = .addMsg m origin → .addMsg m origin ∈ procer.ops
  freeImage : ∀ p, op = .freeImage p → ∀ m origin, .addMsg m origin ∉ procer.ops
  close : ∀ fd, op = .close fd → conex = .epollWait

theorem Owned.close {fd : ℕ} (fd' : ℕ) (h : Owned s fd p) :
    Owned (s.setConnection fd' none) fd p := by
  intro c hc
  by_cases heq : fd = fd'
  · subst heq
    cases (Function.update_self ..).symm.trans hc
  · exact h c ((Function.update_of_ne heq _ _).symm.trans hc)

theorem ownership_exec {t : Tid} {op : Operation} (h : op.exec t s = some s')
    (hop : Permitted conex procer op) (hs : Ownership s conex procer) :
    Ownership s' conex procer := by
  cases op with
  | lock m | unlock m | wait m =>
    simp only [Operation.exec] at h
    split_ifs at h
    cases h
    exact ⟨hs.images, hs.messages, hs.sending, hs.restoring, hs.reports, hs.running,
      hs.written, hs.resumed⟩
  | addMsg m origin =>
    cases h
    refine ⟨hs.images, fun m' origin' hmem => ?_, hs.sending, hs.restoring,
      hs.reports, hs.running, hs.written, hs.resumed⟩
    rcases List.mem_append.mp hmem with hmem | hmem
    · exact hs.messages m' origin' hmem
    · cases List.mem_singleton.mp hmem
      obtain ⟨hlive, hfd⟩ := hs.reports m origin (hop.addMsg m origin rfl)
      exact ⟨hlive.1, hfd ▸ hs.images origin hlive⟩
  | freeImage p =>
    cases h
    refine ⟨fun p' hlive => ?_, hs.messages, hs.sending, hs.restoring,
      fun m origin hmem => ?_, hs.running, hs.written, hs.resumed⟩
    · exact hs.images p' ⟨hlive.1, fun hmem => hlive.2 (List.mem_cons_of_mem _ hmem)⟩
    · exact absurd hmem (hop.freeImage p rfl m origin)
  | close fd =>
    cases h
    refine ⟨fun p hlive => (hs.images p hlive).close fd, fun m origin hmem => ?_,
      fun fd' m origin heq => ?_, ?_, hs.reports, hs.running, hs.written, hs.resumed⟩
    · exact ⟨(hs.messages m origin hmem).1, (hs.messages m origin hmem).2.close fd⟩
    · exact ⟨(hs.sending fd' m origin heq).1, (hs.sending fd' m origin heq).2.close fd⟩
    · rw [hop.close fd rfl]
      simp
  | _ =>
    cases h
    exact ⟨hs.images, hs.messages, hs.sending, hs.restoring, hs.reports, hs.running,
      hs.written, hs.resumed⟩

theorem Ownership.moved (conex' : Label) (hs : Ownership s conex procer)
    (hsending : ∀ fd m origin, conex' ≠ .sending fd m origin)
    (hrestoring : ∀ fd, conex' ≠ .restoring fd) : Ownership s conex' procer :=
  ⟨hs.images, hs.messages, fun fd m origin heq => absurd heq (hsending fd m origin),
    fun fd heq => absurd heq (hrestoring fd), hs.reports, hs.running, hs.written, hs.resumed⟩

theorem Ownership.tryWait (sem : Semaphore) (hs : Ownership s conex procer) :
    Ownership (s.tryWait sem) conex procer :=
  ⟨hs.images, hs.messages, hs.sending, hs.restoring, hs.reports, hs.running, hs.written,
    hs.resumed⟩

def serves (s : Shared) (fd : ℕ) : Bool :=
  (List.range s.allocated).any (fun p => !s.freed.contains p && (s.image p).clientfd == fd) ||
    s.sendingList.any (·.1.fd == fd)

theorem serves_of_live {fd : ℕ} (h : Live s p) (hfd : (s.image p).clientfd = fd) :
    serves s fd = true := by
  rw [serves, Bool.or_eq_true, List.any_eq_true]
  exact .inl ⟨p, List.mem_range.mpr h.1, by simp [h.2, hfd]⟩

theorem serves_of_message {fd : ℕ} {m : TMsg} (h : (m, p) ∈ s.sendingList) (hfd : m.fd = fd) :
    serves s fd = true := by
  rw [serves, Bool.or_eq_true, List.any_eq_true (l := s.sendingList)]
  exact .inr ⟨(m, p), h, by simp [hfd]⟩

theorem Owned.accept {fd fd' : ℕ} (h : Owned s fd p) (hne : fd ≠ fd') :
    Owned (s.accept fd') fd p :=
  fun c hc => h c ((Function.update_of_ne hne _ _).symm.trans hc)

/-- A new connection gets a descriptor that nobody refers to. -/
theorem Ownership.accept {fd : ℕ} (hs : Ownership s .epollWait procer) (hfd : ¬ serves s fd) :
    Ownership (s.accept fd) .epollWait procer := by
  refine ⟨fun p hlive => ?_, fun m origin hmem => ?_, by simp, by simp, hs.reports, hs.running,
    hs.written, hs.resumed⟩
  · exact (hs.images p hlive).accept fun heq => hfd (serves_of_live hlive heq)
  · obtain ⟨hlt, howned⟩ := hs.messages m origin hmem
    exact ⟨hlt, howned.accept fun heq => hfd (serves_of_message hmem heq)⟩

theorem Owned.allocate {fd : ℕ} (image : TProcessImage) (h : Owned s fd p)
    (hp : p < s.allocated) : Owned (s.allocate image) fd p :=
  fun c hc => (Function.update_of_ne hp.ne _ _).trans (h c hc)

theorem allocate_image (s : Shared) (image : TProcessImage) {p : Ptr} (hp : p < s.allocated) :
    (s.allocate image).image p = s.image p := Function.update_of_ne hp.ne _ _

theorem allocate_submitter (s : Shared) (image : TProcessImage) {p : Ptr} (hp : p < s.allocated) :
    (s.allocate image).submitter p = s.submitter p := Function.update_of_ne hp.ne _ _

theorem Ownership.allocate (image : TProcessImage) (hs : Ownership s conex procer) :
    Ownership (s.allocate image) .epollWait procer := by
  refine ⟨fun p hlive => ?_, fun m origin hmem => ?_, by simp, by simp, fun m origin hmem => ?_,
    fun p code e hpc => ?_, fun p c hmem => ?_, fun p c hmem => ?_⟩
  · rcases Nat.lt_succ_iff_lt_or_eq.mp hlive.1 with hlt | rfl
    · rw [allocate_image s image hlt]
      exact (hs.images p ⟨hlt, hlive.2⟩).allocate image hlt
    · have himage : (s.allocate image).image s.allocated = image := Function.update_self ..
      rw [himage]
      exact fun c hc => (Function.update_self ..).trans hc
  · obtain ⟨hlt, howned⟩ := hs.messages m origin hmem
    exact ⟨hlt.trans (Nat.lt_succ_self _), howned.allocate image hlt⟩
  · obtain ⟨hlive, hfd⟩ := hs.reports m origin hmem
    rw [allocate_image s image hlive.1]
    exact ⟨⟨hlive.1.trans (Nat.lt_succ_self _), hlive.2⟩, hfd⟩
  · obtain ⟨hlt, hfd⟩ := hs.running p code e hpc
    rw [allocate_image s image hlt]
    exact ⟨hlt.trans (Nat.lt_succ_self _), hfd⟩
  · obtain ⟨hlt, hsubmitter⟩ := hs.written p c hmem
    rw [allocate_submitter s image hlt]
    exact ⟨hlt.trans (Nat.lt_succ_self _), hsubmitter⟩
  · obtain ⟨hlt, hsubmitter⟩ := hs.resumed p c hmem
    rw [allocate_submitter s image hlt]
    exact ⟨hlt.trans (Nat.lt_succ_self _), hsubmitter⟩

/-- `hopens`: a descriptor that the step opens serves nobody. -/
theorem ownership_conex (h : LTSconex.Moves cfg s pc s' th) (hs : Ownership s pc procer)
    (hLPS : ∀ p ∈ s.LPS, Live s p)
    (hopens : ∀ fd, s.connection fd = none → s'.connection fd ≠ none → ¬ serves s fd) :
    Ownership s' th.pc procer := by
  have hopen : ∀ fd, (s.accept fd).connection fd ≠ none := by
    intro fd
    simp [Shared.accept, Shared.setConnection]
  cases h with
  | @connect fd hfree =>
    exact (hs.accept (hopens fd hfree (hopen fd))).moved (.awaitScript fd) (by simp) (by simp)
  | @badHandshake fd hfree => exact hs.accept (hopens fd hfree (hopen fd))
  | readable fd => exact (hs.moved (.awaitRequest fd) (by simp) (by simp)).tryWait _
  | script fd data priority =>
    exact (hs.moved (.building fd data priority) (by simp) (by simp)).tryWait _
  | admission => exact (hs.allocate _).tryWait _
  | delay => exact hs.allocate _
  | request hopened =>
    refine ⟨hs.images, hs.messages, by simp, fun fd' heq => ?_, hs.reports, hs.running, hs.written,
      hs.resumed⟩
    cases heq
    exact hopened
  | @restored fd p LPS hperm hfd =>
    have hlive := hLPS p (hperm.mem_iff.mpr List.mem_cons_self)
    refine ⟨hs.images, hs.messages, by simp, by simp, hs.reports, hs.running, hs.written,
      fun p' c hmem => ?_⟩
    rcases List.mem_append.mp hmem with hmem | hmem
    · exact hs.resumed p' c hmem
    · cases List.mem_singleton.mp hmem
      obtain ⟨connection, hconnection⟩ := Option.ne_none_iff_exists'.mp (hs.restoring fd rfl)
      exact ⟨hlive.1, connection, hconnection,
        hs.images p hlive connection (hfd ▸ hconnection)⟩
  | @message fd m origin sendingList hperm hfd =>
    refine ⟨hs.images, fun m' origin' hmem => ?_, fun fd' m' origin' heq => ?_, by simp, hs.reports,
      hs.running, hs.written, hs.resumed⟩
    · exact hs.messages m' origin' (hperm.mem_iff.mpr (List.mem_cons_of_mem _ hmem))
    · cases heq
      rw [← hfd]
      exact hs.messages m origin (hperm.mem_iff.mpr List.mem_cons_self)
  | @sent fd m origin c hconnection =>
    obtain ⟨hlt, howned⟩ := hs.sending fd m origin rfl
    refine ⟨hs.images, hs.messages, by simp, by simp, hs.reports, hs.running, fun p' c' hmem => ?_,
      hs.resumed⟩
    rcases List.mem_append.mp hmem with hmem | hmem
    · exact hs.written p' c' hmem
    · cases List.mem_singleton.mp hmem
      exact ⟨hlt, howned c hconnection⟩
  | _ => exact hs.moved _ (by simp) (by simp)

/-- Only a new client makes `LTSconex` open a descriptor, the lowest one not open. -/
theorem connection_of_ne_epollWait (h : LTSconex.Moves cfg s pc s' th) (hpc : pc ≠ .epollWait) :
    s'.connection = s.connection := by
  cases h with
  | hangup | connect | badHandshake | readable | postponed | writable => exact absurd rfl hpc
  | _ => rfl

theorem opens_of_control {c : Choice} {fd : ℕ}
    (h : LTSconex.control cfg s pc c = some (s', th)) (hfree : s.connection fd = none)
    (hopened : s'.connection fd ≠ none) :
    pc = .epollWait ∧ ∃ busy handshake, c = .connect busy handshake ∧
      s.lowestFree busy = some fd := by
  by_cases hpc : pc = .epollWait
  · subst hpc
    cases c with
    | connect busy handshake =>
      obtain ⟨fd', hfd', h⟩ := Option.map_eq_some_iff.mp h
      cases h
      refine ⟨rfl, busy, handshake, rfl, ?_⟩
      by_cases heq : fd = fd'
      · rw [heq]
        exact hfd'
      · exact absurd ((Function.update_of_ne heq _ _).trans hfree) hopened
    | readable =>
      simp only [LTSconex.control] at h
      split_ifs at h <;>
      · cases h
        exact absurd hfree hopened
    | hangup | writable =>
      cases h
      exact absurd hfree hopened
    | _ => cases h
  · rw [connection_of_ne_epollWait (LTSconex.moves_of_control h) hpc] at hopened
    exact absurd hfree hopened

theorem Ownership.thread {procer' : Thread Operation Label} (hs : Ownership s conex procer)
    (hreports : ∀ m origin, .addMsg m origin ∈ procer'.ops →
      Live s origin ∧ (s.image origin).clientfd = m.fd)
    (hrunning : ∀ p code e, procer'.pc = .execute p code e →
      p < s.allocated ∧ e.processImage.clientfd = (s.image p).clientfd) :
    Ownership s conex procer' :=
  ⟨hs.images, hs.messages, hs.sending, hs.restoring, hreports, hrunning, hs.written,
    hs.resumed⟩

theorem setImage_clientfd {image : TProcessImage} (h : image.clientfd = (s.image p).clientfd)
    (p' : Ptr) : ((s.setImage p image).image p').clientfd = (s.image p').clientfd := by
  by_cases heq : p' = p
  · subst heq
    rw [← h]
    exact congrArg TProcessImage.clientfd (Function.update_self ..)
  · exact congrArg TProcessImage.clientfd (Function.update_of_ne heq ..)

/-- What `PROCER` writes back belongs to the same client. -/
theorem Ownership.setImage {image : TProcessImage} (hs : Ownership s conex procer)
    (h : image.clientfd = (s.image p).clientfd) :
    Ownership (s.setImage p image) conex procer := by
  refine ⟨fun p' hlive => ?_, hs.messages, hs.sending, hs.restoring,
    fun m origin hmem => ?_, fun p' code e hpc => ?_, hs.written, hs.resumed⟩
  · rw [setImage_clientfd h]
    exact hs.images p' hlive
  · rw [setImage_clientfd h]
    exact hs.reports m origin hmem
  · rw [setImage_clientfd h]
    exact hs.running p' code e hpc

theorem Ownership.clearSUSPEND (hs : Ownership s conex procer) :
    Ownership { s with SUSPEND := false } conex procer :=
  ⟨hs.images, hs.messages, hs.sending, hs.restoring, hs.reports, hs.running,
    hs.written, hs.resumed⟩

theorem enter_clientfd (image : TProcessImage) :
    (Exec.enter image).1.processImage.clientfd = image.clientfd := by
  obtain ⟨stack, elements, heq⟩ := Exec.stackExecution_eq (Exec.atEntry image)
  rw [Exec.enter, heq]
  rfl

theorem addMsg_not_dispatch (p : Ptr) (image : TProcessImage) (m : TMsg) (origin : Ptr) :
    .addMsg m origin ∉ PROCER.dispatch p (Exec.enter image).2 := by
  rw [PROCER.dispatch, Exec.enter]
  unfold Exec.stackExecution
  split <;> simp [logWrite]

/-- After a dispatch `PROCER` reports on the image it ran, if on any. -/
theorem Ownership.ended {code : List CString} {e : Exec} {ops : List Operation}
    (hs : Ownership s conex ⟨.execute p code e, []⟩)
    (hops : ∀ m origin, .addMsg m origin ∈ ops →
      m.fd = e.processImage.clientfd ∧ origin = p ∧ Live s p) :
    Ownership (s.setImage p (PROCER.estimate cfg e)) conex ⟨.popReady, ops⟩ := by
  have hfd : (PROCER.estimate cfg e).clientfd = (s.image p).clientfd := (hs.running p code e rfl).2
  refine (hs.setImage hfd).thread (fun m origin hmem => ?_) fun p' code' e' hpc => by cases hpc
  obtain ⟨hm, rfl, hlive⟩ := hops m origin hmem
  rw [setImage_clientfd hfd, hm]
  exact ⟨hlive, hfd.symm⟩

theorem ownership_procer (h : PROCER.Moves cfg s pc s' th) (hs : Ownership s conex ⟨pc, []⟩)
    (hready : ∀ p ∈ s.queue .lpl, Live s p)
    (hruns : ∀ p code e, pc = .execute p code e →
      Runs code e ∧ (e.ioBlockInterrupt = false → Live s p)) :
    Ownership s' conex th := by
  cases h with
  | @pop p ps code hqueue =>
    have hlive := hready p (by rw [hqueue]; exact List.mem_cons_self)
    have hs' : Ownership (s.setQueue .lpl ps) conex ⟨.popReady, []⟩ :=
      ⟨hs.images, hs.messages, hs.sending, hs.restoring, hs.reports, hs.running,
        hs.written, hs.resumed⟩
    refine hs'.thread (fun m origin hmem => ?_) fun p' code' e hpc => ?_
    · exact absurd hmem (addMsg_not_dispatch p (s.image p) m origin)
    · cases hpc
      exact ⟨hlive.1, enter_clientfd _⟩
  | @run p code e e' ops events _ hmoves =>
    obtain ⟨hrun, hlive⟩ := hruns p code e rfl
    obtain ⟨hlt, hfd⟩ := hs.running p code e rfl
    refine hs.thread (fun m origin hmem => ?_) fun p' code' e'' hpc => ?_
    · have hio := running_of_output hmoves hrun.sound hmem (by simp) (by simp)
      cases hmoves.scriptOperation _ hmem
      exact ⟨hlive hio, hfd.symm⟩
    · cases hpc
      exact ⟨hlt, hmoves.identity.1.trans hfd⟩
  | @finished p code e _ hfin =>
    obtain ⟨hrun, hlive⟩ := hruns p code e rfl
    have hio : e.ioBlockInterrupt = false := by
      by_contra hblocked
      rw [hrun.sound.blocked (by simpa using hblocked)] at hfin
      cases hfin
    refine hs.ended fun m origin hmem => ?_
    simp [PROCER.finished, PROCER.wait, logWrite, sendMsg] at hmem
    obtain ⟨rfl, rfl⟩ := hmem
    exact ⟨rfl, rfl, hlive hio⟩
  | blocked =>
    refine (hs.ended fun m origin hmem => ?_).clearSUSPEND
    simp [PROCER.wait] at hmem
  | @suspended p code e _ _ hio =>
    refine hs.ended fun m origin hmem => ?_
    simp [PROCER.suspended, PROCER.wait, logWrite, sendMsg] at hmem
    obtain ⟨rfl, rfl⟩ := hmem
    exact ⟨rfl, rfl, (hruns _ _ _ rfl).2 hio⟩
  | endOfQuantum =>
    refine hs.ended fun m origin hmem => ?_
    simp [PROCER.endOfQuantum, PROCER.wait, logWrite, enqueueForSTS] at hmem
  | dropped =>
    refine hs.ended fun m origin hmem => ?_
    simp [PROCER.wait] at hmem

/-- What the other threads do is nobody's business here. -/
theorem ownership_other {t : Tid} (h : Moves cfg s t pc s' th) (hconex : t ≠ .ltsConex)
    (hprocer : t ≠ .procer) (hs : Ownership s conex procer) : Ownership s' conex procer := by
  cases h with
  | ltsConex => exact absurd rfl hconex
  | procer => exact absurd rfl hprocer
  | sts h =>
    cases h with
    | orderInsert h =>
      cases h <;> exact ⟨hs.images, hs.messages, hs.sending, hs.restoring,
        hs.reports, hs.running, hs.written, hs.resumed⟩
    | _ => exact ⟨hs.images, hs.messages, hs.sending, hs.restoring, hs.reports,
        hs.running, hs.written, hs.resumed⟩
  | configure h =>
    cases h with
    | orderInsert h =>
      cases h <;> exact ⟨hs.images, hs.messages, hs.sending, hs.restoring,
        hs.reports, hs.running, hs.written, hs.resumed⟩
    | _ => exact ⟨hs.images, hs.messages, hs.sending, hs.restoring, hs.reports,
        hs.running, hs.written, hs.resumed⟩
  | _ => exact ⟨hs.images, hs.messages, hs.sending, hs.restoring, hs.reports,
      hs.running, hs.written, hs.resumed⟩

/-- Only `PROCER` reports, and it frees an image after its last report; only `LTSconex` closes
descriptors, before it waits for the next event. -/
structure MessageShape (t : Tid) (th : Thread Operation Label) : Prop where
  reports : ∀ m origin, .addMsg m origin ∈ th.ops → t = .procer
  closes : ∀ fd, .close fd ∈ th.ops → t = .ltsConex ∧ th.pc = .epollWait
  freesLast : th.ops.Pairwise fun op op' => ∀ p m origin, op = .freeImage p → op' ≠ .addMsg m origin

theorem messageShape_tail (t : Tid) (pc : Label) (op : Operation) (ops : List Operation)
    (h : MessageShape t ⟨pc, op :: ops⟩) : MessageShape t ⟨pc, ops⟩ :=
  ⟨fun m origin hmem => h.reports m origin (List.mem_cons_of_mem _ hmem),
    fun fd hmem => h.closes fd (List.mem_cons_of_mem _ hmem), h.freesLast.of_cons⟩

def Silent (ops : List Operation) : Prop :=
  (∀ m origin, .addMsg m origin ∉ ops) ∧ ∀ fd, .close fd ∉ ops

theorem pairwise_of_no_report {ops : List Operation} (h : ∀ m origin, .addMsg m origin ∉ ops) :
    ops.Pairwise fun op op' => ∀ p m origin, op = .freeImage p → op' ≠ .addMsg m origin := by
  refine List.pairwise_of_forall_mem_list fun op _ op' hop' p m origin _ heq => ?_
  exact h m origin (heq ▸ hop')

theorem Silent.messageShape {t : Tid} (h : Silent th.ops) : MessageShape t th :=
  ⟨fun m origin hmem => absurd hmem (h.1 m origin), fun fd hmem => absurd hmem (h.2 fd),
    pairwise_of_no_report h.1⟩

theorem silent_orderInsert (h : OrderInsert.Moves s pc s' th) : Silent th.ops := by
  cases h with
  | finish key caller => cases caller <;> simp [Silent, OrderInsert.finish, STS.wait]
  | _ => simp [Silent]

theorem silent_sts (h : STS.Moves s pc s' th) : Silent th.ops := by
  cases h with
  | orderInsert h => exact silent_orderInsert h
  | endRound kind => cases kind <;> simp [Silent, STS.endRound, STS.wait]
  | pop kind => cases kind <;> simp [Silent, STS.takeOver, logWrite, enqueueLocked]
  | _ => simp [Silent, STS.startRound]

theorem silent_configure (h : Configure.Moves s pc s' th) : Silent th.ops := by
  cases h with
  | orderInsert h => exact silent_orderInsert h
  | setALG ALG => cases ALG <;> simp [Silent, Configure.afterALG]
  | _ => simp [Silent]

theorem messageShape_ltsConex (h : LTSconex.Moves cfg s pc s' th) :
    MessageShape .ltsConex th := by
  have hreports : ∀ m origin, .addMsg m origin ∉ th.ops := by
    cases h <;> simp [LTSconex.refuse, LTSconex.admission, LTSconex.delay, LTSconex.notRestored,
      LTSconex.resume, logWrite, enqueueForSTS, enqueueLocked, writeText]
  refine ⟨fun m origin hmem => absurd hmem (hreports m origin), fun fd hmem => ⟨rfl, ?_⟩,
    pairwise_of_no_report hreports⟩
  cases h with
  | connect | readable | writable | script | request | someMessages | message => simp at hmem
  | _ => rfl

theorem messageShape_procer (h : PROCER.Moves cfg s pc s' th) : MessageShape .procer th := by
  have hcloses : ∀ fd, .close fd ∉ th.ops := by
    intro fd hmem
    cases h with
    | @pop p ps code =>
      rw [PROCER.dispatch, Exec.enter] at hmem
      unfold Exec.stackExecution at hmem
      split at hmem <;> simp [logWrite] at hmem
    | run _ hmoves => cases hmoves.scriptOperation _ hmem
    | _ =>
      simp [PROCER.finished, PROCER.suspended, PROCER.endOfQuantum, PROCER.wait, logWrite,
        sendMsg, enqueueForSTS] at hmem
  refine ⟨fun _ _ _ => rfl, fun fd hmem => absurd hmem (hcloses fd), ?_⟩
  cases h with
  | @pop p ps code => exact pairwise_of_no_report (addMsg_not_dispatch p (s.image p))
  | run _ hmoves =>
    refine List.pairwise_of_forall_mem_list fun op hop op' _ p m origin heq => ?_
    cases hmoves.scriptOperation op hop <;> cases heq
  | _ =>
    simp [PROCER.finished, PROCER.suspended, PROCER.endOfQuantum, PROCER.wait, logWrite, sendMsg,
      enqueueForSTS]

theorem messageShape_control {t : Tid} (h : Moves cfg s t pc s' th) : MessageShape t th := by
  cases h with
  | ltsConex h => exact messageShape_ltsConex h
  | ltsNew =>
    apply Silent.messageShape
    simp [Silent, LTSnew.deliver, LTSnew.wait, logWrite, enqueueForSTS]
  | sts h => exact (silent_sts h).messageShape
  | configure h => exact (silent_configure h).messageShape
  | procer h => exact messageShape_procer h
  | raise =>
    apply Silent.messageShape
    simp [Silent]
  | @ioThread i ioProcessing LPB =>
    apply Silent.messageShape
    cases hflag : ioProcessing.ioInfo.flagNonBlocking <;>
      simp [Silent, IoThread.serve, IoThread.wait, logWrite, enqueueForSTS, hflag]

theorem messageShape_initial (t : Tid) : MessageShape t (initialThread t) := by
  apply Silent.messageShape
  cases t <;> simp [Silent, initialThread, logWrite, LTSnew.wait, STS.wait, PROCER.wait,
    IoThread.wait]

section Runs

variable {ok : PP → Step → Prop} {st st' : PP} {a : Step} {ALG : Algorithm}
  {priorities : QueueName → ℤ}

/-- A new connection gets a descriptor that a process or a message still refers to. -/
def reusesDescriptor (st : PP) (a : Step) : Bool :=
  match st.thread a.1, a.2 with
  | ⟨.epollWait, []⟩, .connect busy _ => (st.shared.lowestFree busy).any (serves st.shared)
  | _, _ => false

theorem permitted_of_shape {op : Operation} {ops : List Operation}
    (hops : (st.thread a.1).ops = op :: ops) (hmessages : ∀ t, MessageShape t (st.thread t))
    (hrequests : ∀ t, RequestShape t (st.thread t)) :
    Permitted (st.thread .ltsConex).pc (st.thread .procer) op := by
  have hmem : op ∈ (st.thread a.1).ops := by
    rw [hops]
    exact List.mem_cons_self
  refine ⟨fun m origin heq => ?_, fun p heq m origin hreport => ?_, fun fd heq => ?_⟩
  · subst heq
    exact (hmessages a.1).reports m origin hmem ▸ hmem
  · subst heq
    have hprocer := ((hrequests a.1).frees p hmem).1
    rw [hprocer] at hops
    rw [hops] at hreport
    have hfrees := (hmessages .procer).freesLast
    rw [hops, List.pairwise_cons] at hfrees
    exact hfrees.1 _ (List.mem_of_ne_of_mem (by simp) hreport) p m origin rfl rfl
  · subst heq
    obtain ⟨hconex, hpc⟩ := (hmessages a.1).closes fd hmem
    exact hconex ▸ hpc

theorem opens_next (h : next cfg st a = some st') (hops : (st.thread a.1).ops = [])
    (hconex : a.1 = .ltsConex) (ha : ¬ reusesDescriptor st a) (fd : ℕ)
    (hfree : st.shared.connection fd = none) (hopened : st'.shared.connection fd ≠ none) :
    ¬ serves st.shared fd := by
  rcases Machine.step_cases (next_eq_some h).2 with ⟨op, ops, s, hops', -, -⟩ |
    ⟨s, th, -, hcontrol, rfl⟩
  · rw [hops] at hops'
    cases hops'
  · have hthread : st.thread a.1 = ⟨(st.thread a.1).pc, []⟩ := by rw [← hops]
    rw [hconex] at hcontrol hthread
    obtain ⟨hpc, busy, handshake, hchoice, hlowest⟩ := opens_of_control hcontrol hfree hopened
    rw [reusesDescriptor, hconex, hthread, hpc, hchoice] at ha
    simpa [hlowest] using ha

theorem imageCount_executing {p : Ptr} {code : List CString} {e : Exec}
    (hpc : (st.thread .procer).pc = .execute p code e) (hio : e.ioBlockInterrupt = false) :
    0 < (imageCount p).thread (st.thread .procer) := by
  rw [Ledger.thread, hpc, imageCount_running hio]
  simp

theorem ownership_next (hrun : RunsTo (next cfg) (fun _ _ => True) (start cfg ALG priorities) st)
    (h : next cfg st a = some st') (ha : ¬ reusesDescriptor st a)
    (hmessages : ∀ t, MessageShape t (st.thread t))
    (hrequests : ∀ t, RequestShape t (st.thread t))
    (hst : Ownership st.shared (st.thread .ltsConex).pc (st.thread .procer)) :
    Ownership st'.shared (st'.thread .ltsConex).pc (st'.thread .procer) := by
  rcases shared_next h with ⟨op, ops, hops, hexec, hthreads⟩ | ⟨hops, hmoves, hothers⟩
  · have hs := ownership_exec hexec (permitted_of_shape hops hmessages hrequests) hst
    obtain ⟨hpc, hsubset⟩ := hthreads .procer
    rw [(hthreads .ltsConex).1]
    refine hs.thread (fun m origin hmem => hs.reports m origin (hsubset hmem)) ?_
    rw [hpc]
    exact hs.running
  · by_cases hconex : a.1 = .ltsConex
    · have hopens := opens_next h hops hconex ha
      rw [hconex] at hmoves
      rw [hothers .procer (by rw [hconex]; decide)]
      cases hmoves with
      | ltsConex hmoves =>
        exact ownership_conex hmoves hst
          (fun p hp => live_of_place hrun (.inl (stored_pos (.inr (.inl hp))))) hopens
    · rw [hothers .ltsConex (Ne.symm hconex)]
      by_cases hprocer : a.1 = .procer
      · rw [hprocer] at hmoves hops
        have hthread : st.thread .procer = ⟨(st.thread .procer).pc, []⟩ := by rw [← hops]
        cases hmoves with
        | procer hmoves =>
          refine ownership_procer hmoves (hthread ▸ hst) (fun p hp => ?_) fun p code e hpc => ?_
          · exact live_of_place hrun (.inl (stored_pos (.inl ⟨.lpl, hp⟩)))
          · refine ⟨(processorSound_run hrun).runs p code e hpc, fun hio => ?_⟩
            exact live_of_place hrun (.inr ⟨.procer, by simp [Config.threads],
              imageCount_executing hpc hio⟩)
      · rw [hothers .procer (Ne.symm hprocer)]
        exact ownership_other hmoves hconex hprocer hst

theorem ownership_start : Ownership (start cfg ALG priorities).shared
    ((start cfg ALG priorities).thread .ltsConex).pc
    ((start cfg ALG priorities).thread .procer) := by
  refine ⟨fun p hlive => absurd hlive.1 (Nat.not_lt_zero p), by simp [start],
    by simp [start, initialThread], by simp [start, initialThread], fun m origin hmem => ?_,
    by simp [start, initialThread], by simp [start], by simp [start]⟩
  simp [start, initialThread, PROCER.wait] at hmem

theorem ownership_run
    (h : RunsTo (next cfg) (fun st a => ¬ reusesDescriptor st a) (start cfg ALG priorities) st) :
    Ownership st.shared (st.thread .ltsConex).pc (st.thread .procer) := by
  refine (h.invariant (P := fun st => RunsTo (next cfg) (fun _ _ => True)
    (start cfg ALG priorities) st ∧ (∀ t, MessageShape t (st.thread t)) ∧
      (∀ t, RequestShape t (st.thread t)) ∧
        Ownership st.shared (st.thread .ltsConex).pc (st.thread .procer))
    ⟨.start, messageShape_initial, requestShape_initial, ownership_start⟩
    fun st a st' hst ha hnext => ?_).2.2.2
  obtain ⟨hrun, hmessages, hrequests, hownership⟩ := hst
  exact ⟨hrun.step a trivial hnext,
    shape_next messageShape_tail (fun hmoves _ => messageShape_control hmoves) hnext hmessages,
    shape_next requestShape_tail (fun hmoves _ => requestShape_control hmoves) hnext hrequests,
    ownership_next hrun hnext ha hmessages hrequests hownership⟩

/-- In every run in which no new connection gets a descriptor that a living process or a waiting
message refers to, every message has been written to the connection that submitted its process,
and every suspended process resumed by it. -/
theorem served_by_submitter (cfg : Config) (ALG : Algorithm) (priorities : QueueName → ℤ)
    (st : PP) (h : RunsTo (next cfg) (fun st a => ¬ reusesDescriptor st a)
      (start cfg ALG priorities) st) :
    (∀ p c, (p, c) ∈ st.shared.written → st.shared.submitter p = some c) ∧
      ∀ p c, (p, c) ∈ st.shared.resumed →
        ∃ connection, c = some connection ∧ st.shared.submitter p = some connection := by
  have hownership := ownership_run h
  exact ⟨fun p c hmem => (hownership.written p c hmem).2,
    fun p c hmem => (hownership.resumed p c hmem).2⟩

def delivers (fd : ℕ) : List Step :=
  [(.ltsConex, .writable fd)] ++ goes .ltsConex 6 ++ [(.ltsConex, .sent true)]

theorem served_by_submitter_report : ∃ st : PP, st.shared.written = [(0, 0)] ∧
    (∀ p c, (p, c) ∈ st.shared.written → st.shared.submitter p = some c) ∧
      ∀ p c, (p, c) ∈ st.shared.resumed →
        ∃ connection, c = some connection ∧ st.shared.submitter p = some connection := by
  have hrun : ((follow (next smallConfig) (fun st a => !reusesDescriptor st a)
      (start smallConfig .fifo fun _ => 0) (goes .ltsConex 3 ++ submits idleScript 0 ++
        goes .sts 19 ++ goes .procer 21 ++ delivers 4)).any fun st =>
          st.shared.written == [(0, 0)]) = true := by
    decide +kernel
  obtain ⟨st, hst, hwritten⟩ := (Option.any_eq_true _ _).mp hrun
  exact ⟨st, by simpa using hwritten, served_by_submitter smallConfig .fifo (fun _ => 0) st
    (RunsTo.of_follow (fun st a h => by simpa using h) _ hst)⟩

/-- The client hangs up while its process waits, and the next one gets its descriptor. -/
theorem report_reaches_stranger : ¬ ∀ (cfg : Config) (ALG : Algorithm)
    (priorities : QueueName → ℤ) (st : PP),
    RunsTo (next cfg) (fun _ _ => True) (start cfg ALG priorities) st →
      ∀ p c, (p, c) ∈ st.shared.written → st.shared.submitter p = some c := by
  intro h
  have hrun : ((follow (next smallConfig) (fun _ _ => true)
      (start smallConfig .fifo fun _ => 0) (goes .ltsConex 3 ++ submits idleScript 0 ++
        [(.ltsConex, .hangup 4), (.ltsConex, .go)] ++ submits idleScript 0 ++ goes .sts 19 ++
          goes .procer 21 ++ delivers 4)).any fun st =>
            st.shared.written == [(0, 1)] && st.shared.submitter 0 == some 0) = true := by
    decide +kernel
  obtain ⟨st, hst, hvalues⟩ := (Option.any_eq_true _ _).mp hrun
  simp only [Bool.and_eq_true, beq_iff_eq] at hvalues
  obtain ⟨hwritten, hsubmitter⟩ := hvalues
  have howner := h smallConfig .fifo (fun _ => 0) st
    (RunsTo.of_follow (fun _ _ _ => trivial) _ hst) 0 1 (by rw [hwritten]; exact .head _)
  rw [hsubmitter] at howner
  cases howner

end Runs

end PP
end Sisop
