import Sisop.MessageOrder
import Sisop.PI
import Sisop.ThreadOperations

/-!
# Every request finds its process

A process is suspended in three critical sections: it goes into `LPS`, the token of `MMP_sem` is
returned, its `'S'` goes into `sendingList`. Behind every `'S'` on its way, and behind every `'R'`
that answers one, there is therefore an image in `LPS`, and no other image has its descriptor as
long as the clients keep to their loop.
-/

namespace Sisop
namespace PP

variable {cfg : Config} {s s' : Shared} {pc : Label} {th conex procer : Thread Operation Label}
  {pis : Clients} {p : Ptr}

/-- A message of the image, to the descriptor of its client, who waits for it. -/
structure Addressed (s : Shared) (pis : Clients) (m : TMsg) (p : Ptr) : Prop where
  fd : m.fd = (s.image p).clientfd
  expected : ∃ c, s.submitter p = some c ∧ (pis c).finished = false

/-- Who is connected: every connection has its own descriptor and submits at most one script, and
its descriptor stays open until the client has read its `'T'`. -/
structure Registry (s : Shared) (conex procer : Thread Operation Label) (pis : Clients) :
    Prop where
  opened : ∀ fd c, s.connection fd = some c → c < s.accepted
  distinct : ∀ fd fd' c, s.connection fd = some c → s.connection fd' = some c → fd = fd'
  submitted : ∀ p, p < s.allocated ↔ ∃ c, s.submitter p = some c
  accepted : ∀ p c, s.submitter p = some c → c < s.accepted
  one : ∀ p p' c, s.submitter p = some c → s.submitter p' = some c → p = p'
  connected : ∀ p c, s.submitter p = some c → (pis c).finished = false →
    s.connection (s.image p).clientfd = some c
  newcomer : ∀ fd, conex.pc = .awaitScript fd ∨
    (∃ data priority, conex.pc = .building fd data priority) →
      ∃ c, s.connection fd = some c ∧ ∀ p, s.submitter p ≠ some c
  closes : ∀ fd c, .close fd ∈ conex.ops → s.connection fd = some c →
    (pis c).finished = true ∨ ∀ p, s.submitter p ≠ some c
  requested : ∀ fd, conex.pc = .awaitRequest fd ∨ conex.pc = .restoring fd →
    ∃ c, s.connection fd = some c ∧ 0 < (pis c).requests
  known : ∀ c, pis c ≠ .start → ∃ p, s.submitter p = some c
  running : ∀ p code e, procer.pc = .execute p code e →
    p < s.allocated ∧ e.processImage.clientfd = (s.image p).clientfd

/-- What is on its way to the clients: the messages of a process go to its client, and none is
left behind a `'T'`; `closed` are the processes that report no more. -/
structure Mail (s : Shared) (conex procer : Thread Operation Label) (pis : Clients)
    (closed : Ptr → Prop) : Prop where
  reports : ∀ m p, .addMsg m p ∈ procer.ops → Addressed s pis m p
  waiting : ∀ m p, (m, p) ∈ s.sendingList → Addressed s pis m p
  sending : ∀ fd m p, conex.pc = .sending fd m p → m.fd = fd ∧ Addressed s pis m p
  last : s.sendingList.Pairwise fun r r' => r.1.type = 84 → r'.2 ≠ r.2
  lastSent : ∀ fd m p, conex.pc = .sending fd m p → m.type = 84 → ∀ m', (m', p) ∉ s.sendingList
  closedWaiting : ∀ m p, (m, p) ∈ s.sendingList → m.type = 84 → closed p
  closedSent : ∀ fd m p, conex.pc = .sending fd m p → m.type = 84 → closed p
  finished : ∀ p c, s.submitter p = some c → (pis c).finished = true → closed p

structure SameBook (s s' : Shared) : Prop where
  connection : s'.connection = s.connection
  accepted : s'.accepted = s.accepted
  submitter : s'.submitter = s.submitter
  allocated : s'.allocated = s.allocated
  clientfd : ∀ p, (s'.image p).clientfd = (s.image p).clientfd

theorem Addressed.same {m : TMsg} (h : Addressed s pis m p)
    (hsubmitter : s'.submitter p = s.submitter p)
    (hclientfd : (s'.image p).clientfd = (s.image p).clientfd) : Addressed s' pis m p :=
  ⟨h.fd.trans hclientfd.symm, by rw [hsubmitter]; exact h.expected⟩

theorem Registry.same (h : Registry s conex procer pis) (hs : SameBook s s') :
    Registry s' conex procer pis := by
  obtain ⟨hconnection, haccepted, hsubmitter, hallocated, hclientfd⟩ := hs
  refine ⟨?_, ?_, ?_, ?_, ?_, fun p => ?_, ?_, ?_, ?_, ?_, fun p => ?_⟩
  all_goals
    simp only [hconnection, haccepted, hsubmitter, hallocated, hclientfd]
  exacts [h.opened, h.distinct, h.submitted, h.accepted, h.one, h.connected p, h.newcomer, h.closes,
    h.requested, h.known, h.running p]

/-- The threads carry out operations. -/
theorem Registry.threads {conex' procer' : Thread Operation Label}
    (h : Registry s conex procer pis) (hconex : conex'.pc = conex.pc ∧ conex'.ops ⊆ conex.ops)
    (hprocer : procer'.pc = procer.pc) : Registry s conex' procer' pis := by
  refine { h with newcomer := ?_, closes := ?_, requested := ?_, running := ?_ }
  · rw [hconex.1]
    exact h.newcomer
  · exact fun fd c hmem => h.closes fd c (hconex.2 hmem)
  · rw [hconex.1]
    exact h.requested
  · rw [hprocer]
    exact h.running

theorem Mail.same {closed : Ptr → Prop} (h : Mail s conex procer pis closed)
    (hsubmitter : s'.submitter = s.submitter)
    (hclientfd : ∀ p, (s'.image p).clientfd = (s.image p).clientfd)
    (hlist : s'.sendingList = s.sendingList) : Mail s' conex procer pis closed := by
  have hsame : ∀ m p, Addressed s pis m p → Addressed s' pis m p := fun m p haddressed =>
    haddressed.same (by rw [hsubmitter]) (hclientfd p)
  refine ⟨fun m p hmem => hsame m p (h.reports m p hmem), fun m p hmem => ?_,
    fun fd m p hpc => (h.sending fd m p hpc).imp_right (hsame m p), ?_, ?_, ?_, h.closedSent, ?_⟩
  · exact hsame m p (h.waiting m p (hlist ▸ hmem))
  · rw [hlist]
    exact h.last
  · rw [hlist]
    exact h.lastSent
  · rw [hlist]
    exact h.closedWaiting
  · rw [hsubmitter]
    exact h.finished

theorem Mail.threads {conex' procer' : Thread Operation Label} {closed closed' : Ptr → Prop}
    (h : Mail s conex procer pis closed) (hconex : conex'.pc = conex.pc)
    (hprocer : procer'.ops ⊆ procer.ops) (hclosed : ∀ p, closed p → closed' p) :
    Mail s conex' procer' pis closed' := by
  refine ⟨fun m p hmem => h.reports m p (hprocer hmem), h.waiting, ?_, h.last, ?_,
    fun m p hmem htype => hclosed p (h.closedWaiting m p hmem htype), ?_,
    fun p c hc hfinished => hclosed p (h.finished p c hc hfinished)⟩
  · rw [hconex]
    exact h.sending
  · rw [hconex]
    exact h.lastSent
  · rw [hconex]
    exact fun fd m p hpc htype => hclosed p (h.closedSent fd m p hpc htype)

theorem sameBook_exec {t : Tid} {op : Operation} (h : op.exec t s = some s')
    (hop : ∀ fd, op ≠ .close fd) : SameBook s s' := by
  cases op with
  | close fd => exact absurd rfl (hop fd)
  | lock m | unlock m | wait m =>
    simp only [Operation.exec] at h
    split_ifs at h
    cases h
    exact ⟨rfl, rfl, rfl, rfl, fun _ => rfl⟩
  | _ =>
    cases h
    exact ⟨rfl, rfl, rfl, rfl, fun _ => rfl⟩

theorem connection_setConnection_none {fd fd' : ℕ} {c : Connection}
    (h : (s.setConnection fd none).connection fd' = some c) :
    fd' ≠ fd ∧ s.connection fd' = some c := by
  by_cases heq : fd' = fd
  · subst heq
    cases (Function.update_self ..).symm.trans h
  · exact ⟨heq, (Function.update_of_ne heq ..).symm.trans h⟩

theorem Registry.close {fd : ℕ} (h : Registry s conex procer pis) (hpc : conex.pc = .epollWait)
    (hclose : .close fd ∈ conex.ops) : Registry (s.setConnection fd none) conex procer pis := by
  refine ⟨fun fd' c hc => h.opened fd' c (connection_setConnection_none hc).2,
    fun fd' fd'' c hc hc' => h.distinct fd' fd'' c (connection_setConnection_none hc).2
      (connection_setConnection_none hc').2, h.submitted, h.accepted, h.one,
    fun p c hc hfinished => ?_, by simp [hpc],
    fun fd' c hmem hc => h.closes fd' c hmem (connection_setConnection_none hc).2, by simp [hpc],
    h.known, h.running⟩
  have hconnected := h.connected p c hc hfinished
  refine (Function.update_of_ne (fun heq => ?_) ..).trans hconnected
  rcases h.closes fd c hclose (heq ▸ hconnected) with hfinished' | hnone
  · rw [hfinished] at hfinished'
    cases hfinished'
  · exact hnone p hc

theorem registry_exec {t : Tid} {op : Operation} (h : op.exec t s = some s')
    (hclose : ∀ fd, op = .close fd → conex.pc = .epollWait ∧ .close fd ∈ conex.ops)
    (hs : Registry s conex procer pis) : Registry s' conex procer pis := by
  cases op with
  | close fd =>
    cases h
    exact hs.close (hclose fd rfl).1 (hclose fd rfl).2
  | _ => exact hs.same (sameBook_exec h (by simp))

/-- `PROCER` appends a report of a process that is not closed yet. -/
theorem Mail.report {closed closed' : Ptr → Prop} {m : TMsg} (h : Mail s conex procer pis closed)
    (hmem : .addMsg m p ∈ procer.ops) (hsilent : ∀ p, closed p → ∀ m, .addMsg m p ∉ procer.ops)
    (hclosed : ∀ p, closed p → closed' p) (hlast : m.type = 84 → closed' p) :
    Mail { s with sendingList := s.sendingList ++ [(m, p)] } conex procer pis closed' := by
  have hsame : ∀ m' p', Addressed s pis m' p' →
      Addressed { s with sendingList := s.sendingList ++ [(m, p)] } pis m' p' :=
    fun m' p' haddressed => haddressed.same rfl rfl
  refine ⟨fun m' p' hmem' => hsame m' p' (h.reports m' p' hmem'), fun m' p' hmem' => ?_,
    fun fd m' p' hpc => (h.sending fd m' p' hpc).imp_right (hsame m' p'), ?_,
    fun fd m' p' hpc htype m'' hmem'' => ?_, fun m' p' hmem' htype => ?_,
    fun fd m' p' hpc htype => hclosed p' (h.closedSent fd m' p' hpc htype),
    fun p' c hc hfinished => hclosed p' (h.finished p' c hc hfinished)⟩
  · rcases List.mem_append.mp hmem' with hmem' | hmem'
    · exact hsame m' p' (h.waiting m' p' hmem')
    · cases List.mem_singleton.mp hmem'
      exact hsame m p (h.reports m p hmem)
  · refine List.pairwise_append.mpr
      ⟨h.last, List.pairwise_singleton .., fun r hr r' hr' htype heq => ?_⟩
    cases List.mem_singleton.mp hr'
    have hr'' := h.closedWaiting r.1 r.2 hr htype
    rw [← heq] at hr''
    exact hsilent _ hr'' m hmem
  · rcases List.mem_append.mp hmem'' with hmem'' | hmem''
    · exact h.lastSent fd m' p' hpc htype m'' hmem''
    · cases List.mem_singleton.mp hmem''
      exact hsilent p (h.closedSent fd m' p hpc htype) m hmem
  · rcases List.mem_append.mp hmem' with hmem' | hmem'
    · exact hclosed p' (h.closedWaiting m' p' hmem' htype)
    · cases List.mem_singleton.mp hmem'
      exact hlast htype

theorem connection_accept {fd fd' : ℕ} {c : Connection}
    (h : (s.accept fd).connection fd' = some c) :
    (fd' = fd ∧ c = s.accepted) ∨ (fd' ≠ fd ∧ s.connection fd' = some c) := by
  have hself : (s.accept fd).connection fd = some s.accepted := Function.update_self ..
  by_cases heq : fd' = fd
  · rw [heq, hself] at h
    exact .inl ⟨heq, (Option.some.inj h).symm⟩
  · exact .inr ⟨heq, (Function.update_of_ne heq ..).symm.trans h⟩

/-- A new connection gets a descriptor that is not open. -/
theorem Registry.accept {fd : ℕ} {th : Thread Operation Label}
    (h : Registry s conex procer pis) (hfree : s.connection fd = none)
    (hpc : ∀ fd', th.pc = .awaitScript fd' ∨
      (∃ data priority, th.pc = .building fd' data priority) → fd' = fd)
    (hcloses : ∀ fd', .close fd' ∈ th.ops → fd' = fd)
    (hrequest : ∀ fd', th.pc ≠ .awaitRequest fd' ∧ th.pc ≠ .restoring fd') :
    Registry (s.accept fd) th procer pis := by
  have hnew : ∀ p, s.submitter p ≠ some s.accepted :=
    fun p hp => Nat.lt_irrefl _ (h.accepted p _ hp)
  have hself : (s.accept fd).connection fd = some s.accepted := Function.update_self ..
  refine ⟨fun fd' c hc => ?_, fun fd' fd'' c hc hc' => ?_, h.submitted,
    fun p c hc => (h.accepted p c hc).trans (Nat.lt_succ_self _), h.one,
    fun p c hc hfinished => ?_, fun fd' hfd => ⟨s.accepted, hpc fd' hfd ▸ hself, hnew⟩,
    fun fd' c hmem hc => .inr ?_, fun fd' hfd => ?_, h.known, h.running⟩
  · rcases connection_accept hc with ⟨-, rfl⟩ | ⟨-, hc⟩
    · exact Nat.lt_succ_self _
    · exact (h.opened fd' c hc).trans (Nat.lt_succ_self _)
  · rcases connection_accept hc with ⟨rfl, rfl⟩ | ⟨-, hc⟩
    · rcases connection_accept hc' with ⟨rfl, -⟩ | ⟨-, hc'⟩
      · rfl
      · exact absurd (h.opened fd'' _ hc') (Nat.lt_irrefl _)
    · rcases connection_accept hc' with ⟨-, rfl⟩ | ⟨-, hc'⟩
      · exact absurd (h.opened fd' _ hc) (Nat.lt_irrefl _)
      · exact h.distinct fd' fd'' c hc hc'
  · have hconnected := h.connected p c hc hfinished
    refine (Function.update_of_ne (fun heq => ?_) ..).trans hconnected
    rw [show fd = (s.image p).clientfd from heq.symm, hconnected] at hfree
    cases hfree
  · rw [hcloses fd' hmem, hself] at hc
    exact Option.some.inj hc ▸ hnew
  · exact absurd hfd (not_or.mpr (hrequest fd'))

/-- `LTSconex` goes on, and the clients and connections stay as they are. -/
theorem Registry.goesOn {th : Thread Operation Label} (h : Registry s conex procer pis)
    (hnewcomer : ∀ fd, th.pc = .awaitScript fd ∨
      (∃ data priority, th.pc = .building fd data priority) →
        ∃ c, s.connection fd = some c ∧ ∀ p, s.submitter p ≠ some c)
    (hcloses : ∀ fd c, .close fd ∈ th.ops → s.connection fd = some c →
      (pis c).finished = true ∨ ∀ p, s.submitter p ≠ some c)
    (hrequested : ∀ fd, th.pc = .awaitRequest fd ∨ th.pc = .restoring fd →
      ∃ c, s.connection fd = some c ∧ 0 < (pis c).requests) : Registry s th procer pis :=
  { h with newcomer := hnewcomer, closes := hcloses, requested := hrequested }

/-- The script of a new connection gets its image. -/
theorem Registry.allocate {fd : ℕ} {c : Connection} {th : Thread Operation Label}
    {image : TProcessImage} (h : Registry s conex procer pis) (hc : s.connection fd = some c)
    (hnew : ∀ p, s.submitter p ≠ some c) (hfd : image.clientfd = fd) (hpc : th.pc = .epollWait)
    (hcloses : ∀ fd', .close fd' ∉ th.ops) : Registry (s.allocate image) th procer pis := by
  have hself : (s.allocate image).submitter s.allocated = some c := by
    refine (Function.update_self ..).trans ?_
    rw [hfd, hc]
  have hold : ∀ p, p ≠ s.allocated → (s.allocate image).submitter p = s.submitter p :=
    fun p hp => Function.update_of_ne hp ..
  have himage : (s.allocate image).image s.allocated = image := Function.update_self ..
  have hsome : ∀ p c', (s.allocate image).submitter p = some c' →
      (p = s.allocated ∧ c' = c) ∨ (p ≠ s.allocated ∧ s.submitter p = some c') := by
    intro p c' hp
    by_cases heq : p = s.allocated
    · rw [heq, hself] at hp
      exact .inl ⟨heq, (Option.some.inj hp).symm⟩
    · exact .inr ⟨heq, (hold p heq) ▸ hp⟩
  refine ⟨h.opened, h.distinct, fun p => ?_, fun p c' hp => ?_, fun p p' c' hp hp' => ?_,
    fun p c' hp hfinished => ?_, by simp [hpc], fun fd' c' hmem => absurd hmem (hcloses fd'),
    by simp [hpc], fun c' hc' => ?_, fun p code e hexecute => ?_⟩
  · by_cases heq : p = s.allocated
    · rw [heq]
      exact ⟨fun _ => ⟨c, hself⟩, fun _ => Nat.lt_succ_self _⟩
    · rw [hold p heq, ← h.submitted p]
      exact ⟨fun hlt => lt_of_le_of_ne (Nat.lt_succ_iff.mp hlt) heq,
        fun hlt => hlt.trans (Nat.lt_succ_self _)⟩
  · rcases hsome p c' hp with ⟨-, rfl⟩ | ⟨-, hp⟩
    · exact h.opened fd c' hc
    · exact h.accepted p c' hp
  · rcases hsome p c' hp with ⟨rfl, rfl⟩ | ⟨-, hp⟩
    · rcases hsome p' c' hp' with ⟨rfl, -⟩ | ⟨-, hp'⟩
      · rfl
      · exact absurd hp' (hnew p')
    · rcases hsome p' c' hp' with ⟨-, rfl⟩ | ⟨-, hp'⟩
      · exact absurd hp (hnew p)
      · exact h.one p p' c' hp hp'
  · rcases hsome p c' hp with ⟨rfl, rfl⟩ | ⟨hne, hp⟩
    · rw [himage, hfd]
      exact hc
    · rw [allocate_image s image ((h.submitted p).mpr ⟨c', hp⟩)]
      exact h.connected p c' hp hfinished
  · obtain ⟨p, hp⟩ := h.known c' hc'
    have hlt := (h.submitted p).mpr ⟨c', hp⟩
    exact ⟨p, (hold p hlt.ne).trans hp⟩
  · obtain ⟨hlt, hclientfd⟩ := h.running p code e hexecute
    rw [allocate_image s image hlt]
    exact ⟨hlt.trans (Nat.lt_succ_self _), hclientfd⟩

/-- A client that has submitted a script makes a step of its own. -/
theorem Registry.client {c : Connection} {pi : PI} (h : Registry s conex procer pis)
    (hknown : ∃ p, s.submitter p = some c)
    (hfinished : (pis c).finished = true → pi.finished = true)
    (hrequests : ∀ fd, conex.pc = .awaitRequest fd ∨ conex.pc = .restoring fd →
      (pis c).requests ≤ pi.requests) :
    Registry s conex procer (Function.update pis c pi) := by
  have hother : ∀ c', c' ≠ c → Function.update pis c pi c' = pis c' :=
    fun c' hc' => Function.update_of_ne hc' ..
  have hself : Function.update pis c pi c = pi := Function.update_self ..
  refine { h with connected := ?_, closes := ?_, requested := ?_, known := ?_ }
  · intro p c' hp hfin
    refine h.connected p c' hp ?_
    by_cases heq : c' = c
    · rw [heq, hself] at hfin
      rw [heq, ← Bool.not_eq_true]
      exact fun htrue => absurd (hfinished htrue) (by simp [hfin])
    · rw [← hother c' heq]
      exact hfin
  · intro fd c' hmem hc'
    refine (h.closes fd c' hmem hc').imp_left fun hfin => ?_
    by_cases heq : c' = c
    · rw [heq, hself]
      exact hfinished (heq ▸ hfin)
    · rw [hother c' heq]
      exact hfin
  · intro fd hfd
    obtain ⟨c', hc', hpos⟩ := h.requested fd hfd
    refine ⟨c', hc', ?_⟩
    by_cases heq : c' = c
    · rw [heq, hself]
      exact (heq ▸ hpos).trans_le (hrequests fd hfd)
    · rw [hother c' heq]
      exact hpos
  · intro c' hc'
    by_cases heq : c' = c
    · rw [heq]
      exact hknown
    · exact h.known c' (hother c' heq ▸ hc')

/-- The message goes to the client that submitted its process. -/
theorem Registry.addressee {closed : Ptr → Prop} {fd : ℕ} {m : TMsg} {c : Connection}
    (h : Registry s conex procer pis) (hm : Mail s conex procer pis closed)
    (hpc : conex.pc = .sending fd m p) (hc : s.connection fd = some c) :
    s.submitter p = some c ∧ (pis c).finished = false := by
  obtain ⟨hfd, haddressed⟩ := hm.sending fd m p hpc
  obtain ⟨c', hc', hfinished⟩ := haddressed.expected
  have hconnected := h.connected p c' hc' hfinished
  rw [← haddressed.fd, hfd, hc] at hconnected
  obtain rfl : c = c' := Option.some.inj hconnected
  exact ⟨hc', hfinished⟩

theorem registry_script {fd : ℕ} {dataIn : TDataStream} {priority : Int32} {c : Connection}
    (h : LTSconex.script s fd dataIn priority = (s', th)) (hs : Registry s conex procer pis)
    (hc : s.connection fd = some c) (hnew : ∀ p, s.submitter p ≠ some c) :
    Registry s' th procer pis := by
  unfold LTSconex.script at h
  split_ifs at h <;> cases h
  · refine Registry.same (hs.goesOn (fun fd' hfd => ?_) (by simp) (by simp))
      ⟨rfl, rfl, rfl, rfl, fun _ => rfl⟩
    obtain rfl : fd = fd' := by simpa using hfd
    exact ⟨c, hc, hnew⟩
  · refine hs.goesOn (by simp) (fun fd' c' hmem hc' => .inr ?_) (by simp)
    obtain rfl : fd' = fd := by simpa [LTSconex.refuse, writeText] using hmem
    exact Option.some.inj (hc.symm.trans hc') ▸ hnew
  · exact hs.goesOn (by simp) (by simp) (by simp)

theorem registry_build {fd : ℕ} {TANT : ℤ} {priority : Int32} {code : CString} {c : Connection}
    (h : LTSconex.build s fd TANT priority code = (s', th)) (hs : Registry s conex procer pis)
    (hc : s.connection fd = some c) (hnew : ∀ p, s.submitter p ≠ some c) :
    Registry s' th procer pis := by
  simp only [LTSconex.build] at h
  split_ifs at h <;> cases h
  · refine Registry.same (hs.allocate hc hnew rfl rfl ?_) ⟨rfl, rfl, rfl, rfl, fun _ => rfl⟩
    simp [LTSconex.admission, logWrite, writeText, enqueueForSTS]
  · refine hs.allocate hc hnew rfl rfl ?_
    simp [LTSconex.delay, logWrite, writeText, enqueueLocked]

theorem registry_request (cfg : Config) {fd : ℕ} {arrived : ℕ × ℕ} {net : List UInt8}
    {stale : Stale}
    (h : LTSconex.control cfg s (.awaitRequest fd) (.frame arrived net stale) = some (s', th))
    (hs : Registry s ⟨.awaitRequest fd, []⟩ procer pis)
    (hloop : inLoop s pis (.awaitRequest fd) (.frame arrived net stale) = true) :
    Registry s' th procer pis := by
  obtain ⟨c, hc, hpos⟩ := hs.requested fd (.inl rfl)
  rw [LTSconex.control, if_neg (by simp [hc])] at h
  obtain ⟨⟨r, rest⟩, hr, h⟩ := Option.map_eq_some_iff.mp h
  rcases r with _ | dataIn
  · simp [inLoop, isRequest, hr] at hloop
  · have htype : dataIn.type = 82 := by simpa [inLoop, isRequest, hr] using hloop
    dsimp only at h
    rw [if_pos htype] at h
    cases h
    refine hs.goesOn (by simp) (by simp) fun fd' hpc => ?_
    obtain rfl : fd = fd' := by simpa using hpc
    exact ⟨c, hc, hpos⟩

theorem registry_restoring (cfg : Config) {fd : ℕ}
    (h : LTSconex.control cfg s (.restoring fd) .go = some (s', th))
    (hs : Registry s ⟨.restoring fd, []⟩ procer pis)
    (hfound : restoreSuspended s.image s.LPS fd ≠ some none) :
    Registry s' th procer (reached s pis (.restoring fd) .go) := by
  obtain ⟨c, hc, hpos⟩ := hs.requested fd (.inr rfl)
  obtain ⟨r, hr, h⟩ := Option.map_eq_some_iff.mp h
  rcases r with _ | ⟨p, LPS⟩
  · exact absurd hr hfound
  · cases h
    have hknown := hs.known c fun hstart => by simp [hstart, PI.start] at hpos
    simp only [reached, hc]
    refine Registry.same ((hs.goesOn (by simp) ?_ (by simp)).client hknown id (by simp))
      ⟨rfl, rfl, rfl, rfl, fun _ => rfl⟩
    simp [LTSconex.resume, logWrite, enqueueForSTS]

theorem registry_sending (cfg : Config) {fd : ℕ} {m : TMsg} {ok : Bool} {closed : Ptr → Prop}
    (h : LTSconex.control cfg s (.sending fd m p) (.sent ok) = some (s', th))
    (hs : Registry s ⟨.sending fd m p, []⟩ procer pis)
    (hm : Mail s ⟨.sending fd m p, []⟩ procer pis closed)
    (hloop : inLoop s pis (.sending fd m p) (.sent ok) = true) :
    Registry s' th procer (reached s pis (.sending fd m p) (.sent ok)) := by
  dsimp only [LTSconex.control] at h
  cases hc : s.connection fd with
  | none =>
    rw [hc] at h
    obtain ⟨rfl, rfl⟩ : s = s' ∧ ⟨.epollWait, [.close fd]⟩ = th := by
      cases ok <;> simpa using h
    have hreached : reached s pis (.sending fd m p) (.sent ok) = pis := by
      cases ok <;> simp [reached, hc]
    rw [hreached]
    refine hs.goesOn (by simp) (fun fd' c hmem hc' => ?_) (by simp)
    obtain rfl : fd' = fd := by simpa using hmem
    rw [hc] at hc'
    cases hc'
  | some c =>
    rw [hc] at h
    cases ok with
    | true =>
      cases h
      have haddressee := hs.addressee hm rfl hc
      simp only [reached, hc]
      refine Registry.same ((hs.goesOn (by simp) (by simp) (by simp)).client
        ⟨p, haddressee.1⟩ (fun hfinished => ?_) (by simp)) ⟨rfl, rfl, rfl, rfl, fun _ => rfl⟩
      rw [haddressee.2] at hfinished
      cases hfinished
    | false =>
      cases h
      refine hs.goesOn (by simp) (fun fd' c' hmem hc' => .inl ?_) (by simp)
      obtain rfl : fd' = fd := by simpa using hmem
      simpa [inLoop, hc'] using hloop

theorem registry_conex {c : Choice} {closed : Ptr → Prop}
    (h : LTSconex.control cfg s pc c = some (s', th)) (hs : Registry s ⟨pc, []⟩ procer pis)
    (hm : Mail s ⟨pc, []⟩ procer pis closed) (hloop : inLoop s pis pc c = true)
    (hfound : ∀ fd, pc = .restoring fd → restoreSuspended s.image s.LPS fd ≠ some none) :
    Registry s' th procer (reached s pis pc c) := by
  unfold LTSconex.control at h
  split at h
  case h_1 fd =>
    cases h
    refine hs.goesOn (by simp) (fun fd' c hmem hc => .inl ?_) (by simp)
    obtain rfl : fd' = fd := by simpa using hmem
    simpa [inLoop, hc] using hloop
  case h_2 busy handshake =>
    obtain ⟨fd, hfd, h⟩ := Option.map_eq_some_iff.mp h
    have hfree := Shared.connection_of_lowestFree hfd
    split_ifs at h <;> cases h
    · exact hs.accept hfree (by simp) (by simp) (by simp)
    · exact hs.accept hfree (by simp) (by simp) (by simp)
  case h_3 fd =>
    split_ifs at h <;> cases h
    · refine Registry.same (hs.goesOn (by simp) (by simp) fun fd' hpc => ?_)
        ⟨rfl, rfl, rfl, rfl, fun _ => rfl⟩
      obtain rfl : fd = fd' := by simpa using hpc
      simpa [inLoop, Option.any_eq_true] using hloop
    · exact hs.goesOn (by simp) (by simp) (by simp)
  case h_4 =>
    cases h
    exact hs.goesOn (by simp) (by simp) (by simp)
  case h_5 fd arrived net stale =>
    obtain ⟨c, hc, hnew⟩ := hs.newcomer fd (.inl rfl)
    obtain ⟨⟨r, rest⟩, -, h⟩ := Option.map_eq_some_iff.mp h
    rcases r with _ | ⟨dataIn, priority⟩
    · cases h
      refine hs.goesOn (by simp) (fun fd' c' hmem hc' => .inr ?_) (by simp)
      obtain rfl : fd' = fd := by simpa using hmem
      exact Option.some.inj (hc.symm.trans hc') ▸ hnew
    · exact registry_script h hs hc hnew
  case h_6 fd data priority =>
    obtain ⟨c, hc, hnew⟩ := hs.newcomer fd (.inr ⟨data, priority, rfl⟩)
    obtain ⟨bytes, -, h⟩ := Option.map_eq_some_iff.mp h
    exact registry_build h hs hc hnew
  case h_7 => exact registry_request cfg h hs hloop
  case h_8 fd => exact registry_restoring cfg h hs (hfound fd rfl)
  case h_9 fd =>
    split_ifs at h <;> cases h
    · exact hs.goesOn (by simp) (by simp) (by simp)
    · exact hs.goesOn (by simp) (by simp) (by simp)
  case h_10 fd =>
    obtain ⟨r, -, h⟩ := Option.map_eq_some_iff.mp h
    rcases r with _ | ⟨⟨m, origin⟩, sendingList⟩
    · cases h
      exact hs.goesOn (by simp) (by simp) (by simp)
    · cases h
      exact Registry.same (hs.goesOn (by simp) (by simp) (by simp))
        ⟨rfl, rfl, rfl, rfl, fun _ => rfl⟩
  case h_11 => exact registry_sending cfg h hs hm hloop
  case h_12 => cases h

section Mail

variable {closed : Ptr → Prop}

theorem Mail.goesOn {th : Thread Operation Label} (h : Mail s conex procer pis closed)
    (hpc : ∀ fd m p, th.pc ≠ .sending fd m p) : Mail s th procer pis closed :=
  { h with
    sending := fun fd m p heq => absurd heq (hpc fd m p)
    lastSent := fun fd m p heq => absurd heq (hpc fd m p)
    closedSent := fun fd m p heq => absurd heq (hpc fd m p) }

theorem Mail.clients {pis' : Clients} (h : Mail s conex procer pis closed)
    (hfinished : ∀ c, (pis' c).finished = (pis c).finished) :
    Mail s conex procer pis' closed := by
  have hsame : ∀ m p, Addressed s pis m p → Addressed s pis' m p := by
    rintro m p ⟨hfd, c, hc, hfin⟩
    exact ⟨hfd, c, hc, (hfinished c).trans hfin⟩
  exact { h with
    reports := fun m p hmem => hsame m p (h.reports m p hmem)
    waiting := fun m p hmem => hsame m p (h.waiting m p hmem)
    sending := fun fd m p hpc => (h.sending fd m p hpc).imp_right (hsame m p)
    finished := fun p c hc hfin => h.finished p c hc (hfinished c ▸ hfin) }

/-- The client has read its `'T'`; nothing else is on its way to it. -/
theorem Mail.readLast {fd : ℕ} {m : TMsg} {c : Connection} {pi : PI} {th : Thread Operation Label}
    (h : Mail s conex procer pis closed) (hs : Registry s conex procer pis)
    (hpc : conex.pc = .sending fd m p) (htype : m.type = 84) (hc : s.submitter p = some c)
    (hsilent : ∀ p, closed p → ∀ m, .addMsg m p ∉ procer.ops)
    (hth : ∀ fd m p, th.pc ≠ .sending fd m p) :
    Mail s th procer (Function.update pis c pi) closed := by
  have hsame : ∀ m' p', p' ≠ p → Addressed s pis m' p' →
      Addressed s (Function.update pis c pi) m' p' := by
    rintro m' p' hne ⟨hfd, c', hc', hfin⟩
    have hother : c' ≠ c := by
      rintro rfl
      exact hne (hs.one p' p c' hc' hc)
    exact ⟨hfd, c', hc', (congrArg PI.finished (Function.update_of_ne hother ..)).trans hfin⟩
  refine ⟨fun m' p' hmem => hsame m' p' ?_ (h.reports m' p' hmem),
    fun m' p' hmem => hsame m' p' ?_ (h.waiting m' p' hmem),
    fun fd m p heq => absurd heq (hth fd m p), h.last, fun fd m p heq => absurd heq (hth fd m p),
    h.closedWaiting, fun fd m p heq => absurd heq (hth fd m p), fun p' c' hc' hfin => ?_⟩
  · rintro rfl
    exact hsilent p' (h.closedSent fd m p' hpc htype) m' hmem
  · rintro rfl
    exact h.lastSent fd m p' hpc htype m' hmem
  · by_cases heq : c' = c
    · rw [hs.one p' p c (heq ▸ hc') hc]
      exact h.closedSent fd m p hpc htype
    · rw [Function.update_of_ne heq] at hfin
      exact h.finished p' c' hc' hfin

theorem Mail.read {fd : ℕ} {m : TMsg} {c : Connection} {th : Thread Operation Label}
    (h : Mail s conex procer pis closed) (hs : Registry s conex procer pis)
    (hpc : conex.pc = .sending fd m p) (hc : s.submitter p = some c)
    (hsilent : ∀ p, closed p → ∀ m, .addMsg m p ∉ procer.ops)
    (hth : ∀ fd m p, th.pc ≠ .sending fd m p) :
    Mail s th procer (Function.update pis c ((pis c).read m.type)) closed := by
  by_cases htype : m.type = 84
  · exact h.readLast hs hpc htype hc hsilent hth
  · refine (h.goesOn hth).clients fun c' => ?_
    by_cases heq : c' = c
    · rw [heq, Function.update_self, PI.read_finished]
      simp [htype]
    · rw [Function.update_of_ne heq]

theorem Mail.allocate {c : Connection} {image : TProcessImage} (h : Mail s conex procer pis closed)
    (hs : Registry s conex procer pis) (hc : s.connection image.clientfd = some c)
    (hnew : ∀ p, s.submitter p ≠ some c) :
    Mail (s.allocate image) conex procer pis closed := by
  have hself : (s.allocate image).submitter s.allocated = some c :=
    (Function.update_self ..).trans hc
  have hsame : ∀ m p, Addressed s pis m p → Addressed (s.allocate image) pis m p := by
    intro m p haddressed
    obtain ⟨c', hc', -⟩ := haddressed.expected
    have hlt := (hs.submitted p).mpr ⟨c', hc'⟩
    exact haddressed.same (allocate_submitter s image hlt)
      (congrArg TProcessImage.clientfd (allocate_image s image hlt))
  refine { h with
    reports := fun m p hmem => hsame m p (h.reports m p hmem)
    waiting := fun m p hmem => hsame m p (h.waiting m p hmem)
    sending := fun fd m p hpc => (h.sending fd m p hpc).imp_right (hsame m p)
    finished := fun p c' hc' hfin => ?_ }
  by_cases heq : p = s.allocated
  · rw [heq, hself] at hc'
    obtain rfl := Option.some.inj hc'
    obtain ⟨p', hp'⟩ := hs.known c fun hstart => by simp [hstart, PI.start] at hfin
    exact absurd hp' (hnew p')
  · exact h.finished p c' ((Function.update_of_ne heq ..).symm.trans hc') hfin

/-- The first message for the descriptor is taken: what was appended before it is for others. -/
theorem Mail.take {fd : ℕ} {m : TMsg} {sendingList : List (TMsg × Ptr)}
    {th : Thread Operation Label} (h : Mail s conex procer pis closed)
    (hget : list_fd_msg_get s.sendingList fd = some (some ((m, p), sendingList)))
    (hpc : th.pc = .sending fd m p) :
    Mail { s with sendingList } th procer pis closed := by
  obtain ⟨before, after, hlist, hrest, hfd, hbefore⟩ := list_fd_msg_get_split hget
  have hsub : ∀ r ∈ sendingList, r ∈ s.sendingList := by
    intro r hr
    rw [hrest, List.mem_append] at hr
    rw [hlist, List.mem_append]
    exact hr.imp_right (List.mem_cons_of_mem _)
  have hmem : (m, p) ∈ s.sendingList := by
    rw [hlist]
    exact List.mem_append_right _ List.mem_cons_self
  have hlast := h.last
  rw [hlist, List.pairwise_append, List.pairwise_cons] at hlast
  have hsame : ∀ m' p', Addressed s pis m' p' → Addressed { s with sendingList } pis m' p' :=
    fun m' p' haddressed => haddressed.same rfl rfl
  refine ⟨fun m' p' hmem' => hsame m' p' (h.reports m' p' hmem'),
    fun m' p' hmem' => hsame m' p' (h.waiting m' p' (hsub _ hmem')), fun fd' m' p' hpc' => ?_, ?_,
    fun fd' m' p' hpc' htype m'' hmem'' => ?_,
    fun m' p' hmem' htype => h.closedWaiting m' p' (hsub _ hmem') htype,
    fun fd' m' p' hpc' htype => ?_, h.finished⟩
  · rw [hpc] at hpc'
    cases hpc'
    exact ⟨hfd, hsame m p (h.waiting m p hmem)⟩
  · rw [hrest]
    refine List.pairwise_append.mpr ⟨hlast.1, hlast.2.1.2, fun r hr r' hr' => ?_⟩
    exact hlast.2.2 r hr r' (List.mem_cons_of_mem _ hr')
  · rw [hpc] at hpc'
    cases hpc'
    rw [hrest, List.mem_append] at hmem''
    rcases hmem'' with hmem'' | hmem''
    · have hfd'' : m''.fd = fd := by
        rw [(h.waiting m'' p (by rw [hlist]; exact List.mem_append_left _ hmem'')).fd,
          ← (h.waiting m p hmem).fd]
        exact hfd
      have hfilter := List.filter_eq_nil_iff.mp hbefore _ hmem''
      exact hfilter (by simpa using hfd'')
    · exact hlast.2.1.1 _ hmem'' htype rfl
  · rw [hpc] at hpc'
    cases hpc'
    exact h.closedWaiting m p hmem htype

theorem mail_script {fd : ℕ} {dataIn : TDataStream} {priority : Int32}
    (h : LTSconex.script s fd dataIn priority = (s', th))
    (hm : Mail s conex procer pis closed) : Mail s' th procer pis closed := by
  unfold LTSconex.script at h
  split_ifs at h <;> cases h
  · exact Mail.same (hm.goesOn (by simp)) rfl (fun _ => rfl) rfl
  · exact hm.goesOn (by simp)
  · exact hm.goesOn (by simp)

theorem mail_build {fd : ℕ} {TANT : ℤ} {priority : Int32} {code : CString} {c : Connection}
    (h : LTSconex.build s fd TANT priority code = (s', th)) (hs : Registry s conex procer pis)
    (hm : Mail s conex procer pis closed) (hc : s.connection fd = some c)
    (hnew : ∀ p, s.submitter p ≠ some c) : Mail s' th procer pis closed := by
  simp only [LTSconex.build] at h
  split_ifs at h <;> cases h
  · exact Mail.same ((hm.allocate hs hc hnew).goesOn (by simp)) rfl (fun _ => rfl) rfl
  · exact (hm.allocate hs hc hnew).goesOn (by simp)

theorem mail_restoring (cfg : Config) {fd : ℕ}
    (h : LTSconex.control cfg s (.restoring fd) .go = some (s', th))
    (hm : Mail s ⟨.restoring fd, []⟩ procer pis closed) :
    Mail s' th procer (reached s pis (.restoring fd) .go) closed := by
  have hfinished : ∀ c, (reached s pis (.restoring fd) .go c).finished = (pis c).finished := by
    intro c
    cases hc : s.connection fd with
    | none => simp [reached, hc]
    | some c' =>
      simp only [reached, hc]
      by_cases heq : c = c'
      · rw [heq, Function.update_self]
        rfl
      · rw [Function.update_of_ne heq]
  obtain ⟨r, -, h⟩ := Option.map_eq_some_iff.mp h
  rcases r with _ | ⟨p, LPS⟩
  · cases h
    exact (hm.goesOn (by simp)).clients hfinished
  · cases h
    exact Mail.same ((hm.goesOn (by simp)).clients hfinished) rfl (fun _ => rfl) rfl

theorem mail_sending (cfg : Config) {fd : ℕ} {m : TMsg} {ok : Bool}
    (h : LTSconex.control cfg s (.sending fd m p) (.sent ok) = some (s', th))
    (hs : Registry s ⟨.sending fd m p, []⟩ procer pis)
    (hm : Mail s ⟨.sending fd m p, []⟩ procer pis closed)
    (hsilent : ∀ p, closed p → ∀ m, .addMsg m p ∉ procer.ops) :
    Mail s' th procer (reached s pis (.sending fd m p) (.sent ok)) closed := by
  dsimp only [LTSconex.control] at h
  cases hc : s.connection fd with
  | none =>
    rw [hc] at h
    have hreached : reached s pis (.sending fd m p) (.sent ok) = pis := by
      cases ok <;> simp [reached, hc]
    rw [hreached]
    obtain ⟨rfl, rfl⟩ : s = s' ∧ ⟨.epollWait, [.close fd]⟩ = th := by
      cases ok <;> simpa using h
    exact hm.goesOn (by simp)
  | some c =>
    rw [hc] at h
    cases ok with
    | true =>
      cases h
      simp only [reached, hc]
      exact Mail.same (hm.read hs rfl (hs.addressee hm rfl hc).1 hsilent (by simp)) rfl
        (fun _ => rfl) rfl
    | false =>
      cases h
      exact hm.goesOn (by simp)

theorem mail_conex {c : Choice} (h : LTSconex.control cfg s pc c = some (s', th))
    (hs : Registry s ⟨pc, []⟩ procer pis) (hm : Mail s ⟨pc, []⟩ procer pis closed)
    (hsilent : ∀ p, closed p → ∀ m, .addMsg m p ∉ procer.ops) :
    Mail s' th procer (reached s pis pc c) closed := by
  unfold LTSconex.control at h
  split at h
  case h_1 | h_4 =>
    cases h
    exact hm.goesOn (by simp)
  case h_2 =>
    obtain ⟨fd, -, h⟩ := Option.map_eq_some_iff.mp h
    split_ifs at h <;> cases h <;>
      exact Mail.same (hm.goesOn (by simp)) rfl (fun _ => rfl) rfl
  case h_3 =>
    split_ifs at h <;> cases h
    · exact Mail.same (hm.goesOn (by simp)) rfl (fun _ => rfl) rfl
    · exact hm.goesOn (by simp)
  case h_5 =>
    obtain ⟨⟨r, rest⟩, -, h⟩ := Option.map_eq_some_iff.mp h
    rcases r with _ | ⟨dataIn, priority⟩
    · cases h
      exact hm.goesOn (by simp)
    · exact mail_script h hm
  case h_6 fd data priority =>
    obtain ⟨c, hc, hnew⟩ := hs.newcomer fd (.inr ⟨data, priority, rfl⟩)
    obtain ⟨bytes, -, h⟩ := Option.map_eq_some_iff.mp h
    exact mail_build h hs hm hc hnew
  case h_7 =>
    split_ifs at h
    · cases h
      exact hm.goesOn (by simp)
    · obtain ⟨⟨r, rest⟩, -, h⟩ := Option.map_eq_some_iff.mp h
      rcases r with _ | dataIn
      · cases h
        exact hm.goesOn (by simp)
      · dsimp only at h
        split_ifs at h <;> cases h <;> exact hm.goesOn (by simp)
  case h_8 => exact mail_restoring cfg h hm
  case h_9 =>
    split_ifs at h <;> cases h <;> exact hm.goesOn (by simp)
  case h_10 =>
    obtain ⟨r, hr, h⟩ := Option.map_eq_some_iff.mp h
    rcases r with _ | ⟨⟨m, origin⟩, sendingList⟩
    · cases h
      exact hm.goesOn (by simp)
    · cases h
      exact hm.take hr rfl
  case h_11 => exact mail_sending cfg h hs hm hsilent
  case h_12 => cases h

theorem sameBook_procer (h : PROCER.Moves cfg s pc s' th)
    (hrunning : ∀ p code e, pc = .execute p code e →
      e.processImage.clientfd = (s.image p).clientfd) : SameBook s s' := by
  cases h with
  | pop | run => exact ⟨rfl, rfl, rfl, rfl, fun _ => rfl⟩
  | _ => exact ⟨rfl, rfl, rfl, rfl, setImage_clientfd (hrunning _ _ _ rfl)⟩

theorem registry_procer (h : PROCER.Moves cfg s pc s' th) (hs : Registry s conex ⟨pc, []⟩ pis)
    (hready : ∀ p ∈ s.queue .lpl, p < s.allocated) : Registry s' conex th pis := by
  have hsame := sameBook_procer h fun p code e hpc => (hs.running p code e hpc).2
  have hrunning : ∀ p code e, th.pc = .execute p code e →
      p < s.allocated ∧ e.processImage.clientfd = (s.image p).clientfd := by
    intro p code e hpc
    cases h with
    | @pop p' ps code' hqueue =>
      cases hpc
      exact ⟨hready p (by rw [hqueue]; exact List.mem_cons_self), enter_clientfd _⟩
    | run _ hmoves =>
      cases hpc
      obtain ⟨hlt, hclientfd⟩ := hs.running _ _ _ rfl
      exact ⟨hlt, hmoves.identity.1.trans hclientfd⟩
    | _ => cases hpc
  exact Registry.same { hs with running := hrunning } hsame

/-- After a dispatch `PROCER` reports on the image it ran. -/
theorem reports_procer (h : PROCER.Moves cfg s pc s' th) {m : TMsg}
    (hmem : .addMsg m p ∈ th.ops) :
    ∃ code e, pc = .execute p code e ∧ m.fd = e.processImage.clientfd := by
  cases h with
  | @pop p' ps code => exact absurd hmem (addMsg_not_dispatch p' (s.image p') m p)
  | run _ hmoves =>
    cases hmoves.scriptOperation _ hmem
    exact ⟨_, _, rfl, rfl⟩
  | finished | suspended =>
    simp [PROCER.finished, PROCER.suspended, PROCER.wait, logWrite, sendMsg] at hmem
    exact ⟨_, _, by rw [hmem.2], by rw [hmem.1]; rfl⟩
  | _ => simp [PROCER.endOfQuantum, PROCER.wait, logWrite, enqueueForSTS] at hmem

theorem mail_procer {closed' : Ptr → Prop} (h : PROCER.Moves cfg s pc s' th)
    (hs : Registry s conex ⟨pc, []⟩ pis) (hm : Mail s conex ⟨pc, []⟩ pis closed)
    (hnotRun : ∀ p, closed p → ∀ code e, pc ≠ .execute p code e)
    (hclosed : ∀ p, closed p → closed' p) : Mail s' conex th pis closed' := by
  have hsame := sameBook_procer h fun p code e hpc => (hs.running p code e hpc).2
  have hlist : s'.sendingList = s.sendingList := by cases h <;> rfl
  have hreports : ∀ m p, .addMsg m p ∈ th.ops → Addressed s pis m p := by
    intro m p hmem
    obtain ⟨code, e, hpc, hfd⟩ := reports_procer h hmem
    obtain ⟨hlt, hclientfd⟩ := hs.running p code e hpc
    obtain ⟨c, hc⟩ := (hs.submitted p).mp hlt
    refine ⟨hfd.trans hclientfd, c, hc, ?_⟩
    rw [← Bool.not_eq_true]
    exact fun hfinished => hnotRun p (hm.finished p c hc hfinished) code e hpc
  have hmail : Mail s conex th pis closed' :=
    { hm with
      reports := hreports
      closedWaiting := fun m p hmem htype => hclosed p (hm.closedWaiting m p hmem htype)
      closedSent := fun fd m p hpc htype => hclosed p (hm.closedSent fd m p hpc htype)
      finished := fun p c hc hfin => hclosed p (hm.finished p c hc hfin) }
  exact hmail.same hsame.submitter hsame.clientfd hlist

/-- The other threads have nothing to do with the clients. -/
theorem sameBook_other {t : Tid} (h : Moves cfg s t pc s' th) (hconex : t ≠ .ltsConex)
    (hprocer : t ≠ .procer) : SameBook s s' ∧ s'.sendingList = s.sendingList ∧ s'.LPS = s.LPS := by
  cases h with
  | ltsConex => exact absurd rfl hconex
  | procer => exact absurd rfl hprocer
  | sts h =>
    cases h with
    | orderInsert h => cases h <;> exact ⟨⟨rfl, rfl, rfl, rfl, fun _ => rfl⟩, rfl, rfl⟩
    | _ => exact ⟨⟨rfl, rfl, rfl, rfl, fun _ => rfl⟩, rfl, rfl⟩
  | configure h =>
    cases h with
    | orderInsert h => cases h <;> exact ⟨⟨rfl, rfl, rfl, rfl, fun _ => rfl⟩, rfl, rfl⟩
    | _ => exact ⟨⟨rfl, rfl, rfl, rfl, fun _ => rfl⟩, rfl, rfl⟩
  | _ => exact ⟨⟨rfl, rfl, rfl, rfl, fun _ => rfl⟩, rfl, rfl⟩

end Mail

def suspends (p : Ptr) (r : TMsg × Ptr) : Bool := r.1.type == 83 && r.2 == p

/-- The suspensions of an image: the entries of `LPS` less the messages `'S'` and the requests that
belong to them. -/
def suspension (p : Ptr) : Ledger Operation Label Shared ℤ where
  held s := s.LPS.count p - (s.sendingList.countP (suspends p) : ℕ)
  pc
    | .sending _ m p' => if m.type = 83 ∧ p' = p then -1 else 0
    | _ => 0
  op
    | .addLPS p' => if p' = p then 1 else 0
    | .addMsg m p' => if m.type = 83 ∧ p' = p then -1 else 0
    | _ => 0

theorem suspension_exec {t : Tid} {op : Operation} (h : op.exec t s = some s') :
    (suspension p).held s' = (suspension p).held s + (suspension p).op op := by
  cases op with
  | lock m | unlock m | wait m =>
    simp only [Operation.exec] at h
    split_ifs at h
    cases h
    exact (add_zero _).symm
  | addLPS p' =>
    cases h
    by_cases heq : p' = p <;> simp [suspension, heq]
    omega
  | addMsg m p' =>
    cases h
    by_cases heq : m.type = 83 ∧ p' = p
    · simp [suspension, suspends, heq]
      omega
    · have hnot : suspends p (m, p') = false := by simpa [suspends] using heq
      simp [suspension, heq, hnot]
  | _ =>
    cases h
    exact (add_zero _).symm

theorem suspension_idle {t : Tid} (ht : t ≠ .procer) (h : ∀ op ∈ th.ops, OperationOf t op) :
    (suspension p).ops th.ops = 0 := by
  refine Ledger.ops_eq_zero _ fun op hmem => ?_
  cases h op hmem <;> first | rfl | exact absurd rfl ht

theorem suspension_conex (h : LTSconex.Moves cfg s pc s' th)
    (hsending : ∀ fd m p, pc ≠ .sending fd m p) (hrestoring : ∀ fd, pc ≠ .restoring fd) :
    (suspension p).held s' + (suspension p).thread th =
      (suspension p).held s + (suspension p).pc pc := by
  rw [Ledger.thread, suspension_idle (t := .ltsConex) (by decide) (operationOf_ltsConex h)]
  cases h with
  | sent | notSent => exact absurd rfl (hsending _ _ _)
  | restored | notRestored => exact absurd rfl (hrestoring _)
  | @message fd m origin sendingList hperm hfd =>
    have hcount := hperm.countP_eq (suspends p)
    rw [List.countP_cons] at hcount
    by_cases heq : m.type = 83 ∧ origin = p
    · rw [if_pos (by simp [suspends, heq])] at hcount
      simp [suspension, heq, hcount]
      omega
    · rw [if_neg (by simpa [suspends] using heq)] at hcount
      simp [suspension, heq, hcount]
  | _ => rfl

/-- `LTSconex` has written the message, and it is the client's turn. -/
theorem suspension_sent {fd : ℕ} {m : TMsg} {p' : Ptr}
    (h : LTSconex.Moves cfg s (.sending fd m p') s' th) :
    (suspension p).held s' + (suspension p).thread th =
      (suspension p).held s + (suspension p).pc (.sending fd m p') +
        if m.type = 83 ∧ p' = p then 1 else 0 := by
  rw [Ledger.thread, suspension_idle (t := .ltsConex) (by decide) (operationOf_ltsConex h)]
  by_cases heq : m.type = 83 ∧ p' = p <;> cases h <;> simp [suspension, heq]

theorem suspension_restored {p' : Ptr} {LPS : List Ptr} (h : s.LPS.Perm (p' :: LPS))
    (hLPS : s'.LPS = LPS) (hlist : s'.sendingList = s.sendingList) :
    (suspension p).held s' + (if p' = p then 1 else 0) = (suspension p).held s := by
  have hcount := h.count_eq p
  rw [List.count_cons] at hcount
  by_cases heq : p' = p <;> simp [suspension, hLPS, hlist, hcount, heq]
  omega

theorem suspension_procer (h : PROCER.Moves cfg s pc s' th) :
    (suspension p).held s' + (suspension p).thread th =
      (suspension p).held s + (suspension p).pc pc := by
  have hzero : (suspension p).ops th.ops = 0 := by
    cases h with
    | @pop p' ps code =>
      refine Ledger.ops_eq_zero _ fun op hmem => ?_
      rw [PROCER.dispatch, Exec.enter] at hmem
      unfold Exec.stackExecution at hmem
      split at hmem <;> simp [logWrite] at hmem <;>
        rcases hmem with rfl | rfl | rfl | rfl | rfl | rfl | rfl <;> rfl
    | run _ hmoves =>
      refine Ledger.ops_eq_zero _ fun op hmem => ?_
      cases hmoves.scriptOperation op hmem <;> simp [suspension]
    | @suspended p' code e =>
      by_cases heq : p' = p <;>
        simp [suspension, PROCER.suspended, PROCER.wait, logWrite, sendMsg, heq]
    | _ =>
      simp [suspension, PROCER.finished, PROCER.endOfQuantum, PROCER.wait, logWrite, sendMsg,
        enqueueForSTS]
  rw [Ledger.thread, hzero]
  cases h <;> rfl

theorem suspension_other {t : Tid} (h : Moves cfg s t pc s' th) (hhome : homeOf pc t)
    (hconex : t ≠ .ltsConex) (hprocer : t ≠ .procer) :
    (suspension p).held s' + (suspension p).thread th =
      (suspension p).held s + (suspension p).pc pc := by
  obtain ⟨-, hlist, hLPS⟩ := sameBook_other h hconex hprocer
  have hzero : ∀ pc, homeOf pc t → (suspension p).pc pc = 0 := by
    intro pc hpc
    cases pc with
    | sending => exact absurd hpc hconex
    | _ => rfl
  rw [Ledger.thread, suspension_idle hprocer (operationOf_control h hhome), hzero pc hhome,
    hzero th.pc (homeOf_control h hhome)]
  simp [suspension, hlist, hLPS]

/-- `PROCER` puts an image into `LPS` before it reports so. -/
def SuspendsFirst (p : Ptr) (th : Thread Operation Label) : Prop :=
  ∀ ops, ops <:+ th.ops → (suspension p).ops ops ≤ 0

theorem suspendsFirst_nil : SuspendsFirst p ⟨pc, []⟩ := by
  intro ops hops
  rw [List.suffix_nil.mp hops]
  exact le_rfl

theorem suspendsFirst_cons {op : Operation} {ops : List Operation} :
    SuspendsFirst p ⟨pc, op :: ops⟩ ↔
      (suspension p).op op + (suspension p).ops ops ≤ 0 ∧ SuspendsFirst p ⟨pc, ops⟩ := by
  constructor
  · intro h
    exact ⟨h _ List.suffix_rfl, fun ops' hops' => h ops' (hops'.trans (List.suffix_cons op ops))⟩
  · rintro ⟨hhead, htail⟩ ops' hops'
    rcases List.suffix_cons_iff.mp hops' with rfl | hops'
    · exact hhead
    · exact htail ops' hops'

theorem suspendsFirst_tail (_ : Tid) (pc : Label) (op : Operation) (ops : List Operation)
    (h : SuspendsFirst p ⟨pc, op :: ops⟩) : SuspendsFirst p ⟨pc, ops⟩ :=
  (suspendsFirst_cons.mp h).2

theorem suspendsFirst_of_le (h : ∀ op ∈ th.ops, (suspension p).op op ≤ 0) :
    SuspendsFirst p th := by
  obtain ⟨pc, ops⟩ := th
  induction ops with
  | nil => exact suspendsFirst_nil
  | cons op ops ih =>
    have hhead := h op List.mem_cons_self
    have htail := ih fun op' hmem => h op' (List.mem_cons_of_mem op hmem)
    have hops := htail ops List.suffix_rfl
    exact suspendsFirst_cons.mpr ⟨by omega, htail⟩

theorem suspension_op_le {op : Operation} (h : ∀ p, op ≠ .addLPS p) : (suspension p).op op ≤ 0 := by
  cases op with
  | addLPS p' => exact absurd rfl (h p')
  | addMsg m p' =>
    simp only [suspension]
    split_ifs <;> simp
  | _ => exact le_rfl

theorem suspendsFirst_control {t : Tid} (h : Moves cfg s t pc s' th) (hhome : homeOf pc t) :
    SuspendsFirst p th := by
  have hops := operationOf_control h hhome
  by_cases ht : t = .procer
  · subst ht
    cases h with
    | procer h =>
      cases h with
      | @suspended p' code e =>
        by_cases heq : p' = p <;>
          simp [PROCER.suspended, PROCER.wait, logWrite, sendMsg, suspendsFirst_cons,
            suspendsFirst_nil, suspension, heq]
      | @pop p' ps code =>
        refine suspendsFirst_of_le fun op hmem => suspension_op_le fun p heq => ?_
        rw [heq, PROCER.dispatch, Exec.enter] at hmem
        unfold Exec.stackExecution at hmem
        split at hmem <;> simp [logWrite] at hmem
      | run _ hmoves =>
        refine suspendsFirst_of_le fun op hmem => suspension_op_le fun p heq => ?_
        cases hmoves.scriptOperation op hmem <;> cases heq
      | _ =>
        refine suspendsFirst_of_le fun op hmem => suspension_op_le fun p heq => ?_
        simp [heq, PROCER.finished, PROCER.endOfQuantum, PROCER.wait, logWrite, sendMsg,
          enqueueForSTS] at hmem
  · refine suspendsFirst_of_le fun op hmem => suspension_op_le fun p heq => ?_
    subst heq
    cases hops _ hmem
    exact ht rfl

theorem suspendsFirst_initial (t : Tid) : SuspendsFirst p (initialThread t) := by
  refine suspendsFirst_of_le fun op hmem => suspension_op_le fun p heq => ?_
  cases t <;> simp [heq, initialThread, logWrite, LTSnew.wait, STS.wait, PROCER.wait,
    IoThread.wait] at hmem

/-- The messages `'S'` and the requests that a client owes for an image. -/
def owed (s : Shared) (pis : Clients) (p : Ptr) : ℕ :=
  match s.submitter p with
  | some c => (pis c).suspensions + (pis c).requests
  | none => 0

section Runs

variable {st st' : PP} {a : Step} {x x' : PP × Clients} {ALG : Algorithm}
  {priorities : QueueName → ℤ}

/-- A reachable state of PP and its clients. -/
structure Resuming (cfg : Config) (ALG : Algorithm) (priorities : QueueName → ℤ)
    (x : PP × Clients) : Prop where
  run : RunsTo (next cfg) (fun _ _ => True) (start cfg ALG priorities) x.1
  messages : ∀ t, MessageShape t (x.1.thread t)
  reports : ∀ t, ReportsLast (x.1.thread t)
  suspendsFirst : ∀ p t, SuspendsFirst p (x.1.thread t)
  registry : Registry x.1.shared (x.1.thread .ltsConex) (x.1.thread .procer) x.2
  mail : Mail x.1.shared (x.1.thread .ltsConex) (x.1.thread .procer) x.2
    (Closed x.1.shared (x.1.thread .procer))
  owed : ∀ p, (suspension p).total cfg.threads x.1 = owed x.1.shared x.2 p

/-- Whoever owes a request has an image in `LPS`. -/
theorem Resuming.mem_LPS {p : Ptr} (h : Resuming cfg ALG priorities x)
    (hp : 0 < PP.owed x.1.shared x.2 p) : p ∈ x.1.shared.LPS := by
  have hthread : ∀ t, (suspension p).thread (x.1.thread t) ≤ 0 := by
    intro t
    have hops := h.suspendsFirst p t _ List.suffix_rfl
    have hpc : (suspension p).pc (x.1.thread t).pc ≤ 0 := by
      simp only [suspension]
      split
      case h_1 =>
        split_ifs <;> simp
      case h_2 => exact le_rfl
    rw [Ledger.thread]
    omega
  have hsum : ∑ t ∈ cfg.threads, (suspension p).thread (x.1.thread t) ≤ 0 :=
    Finset.sum_nonpos fun t _ => hthread t
  have htotal := h.owed p
  rw [Ledger.total] at htotal
  simp only [suspension] at htotal hsum
  rw [← List.count_pos_iff]
  omega

/-- A suspended image is not closed: it is in `LPS` and nowhere else. -/
theorem not_closed_of_mem {p : Ptr}
    (h : RunsTo (next cfg) (fun _ _ => True) (start cfg ALG priorities) st)
    (hp : p ∈ st.shared.LPS) : ¬ Closed st.shared (st.thread .procer) p := by
  intro hclosed
  have hstored := stored_pos (s := st.shared) (.inr (.inl hp))
  rcases hclosed.freed with hfreed | hfree
  · exact (live_of_place h (.inl hstored)).2 hfreed
  · have hle := imageCount_le (p := p) h
    have hthread : 0 < (imageCount p).thread (st.thread .procer) := by
      obtain ⟨before, after, hops⟩ := List.append_of_mem hfree
      rw [Ledger.thread, hops]
      simp [imageCount, imagesOf]
    have hsingle := Finset.single_le_sum (f := fun t => (imageCount p).thread (st.thread t))
      (fun _ _ => Nat.zero_le _) (show Tid.procer ∈ cfg.threads by simp [Config.threads])
    rw [Ledger.total] at hle
    simp only [imageCount] at hle hsingle hthread
    omega

theorem restoreSuspended_found (image : Ptr → TProcessImage) {LPS : List Ptr} {p : Ptr}
    (hp : p ∈ LPS) : ∃ p' LPS',
      restoreSuspended image LPS (image p).clientfd = some (some (p', LPS')) := by
  unfold restoreSuspended
  rw [if_neg (List.ne_nil_of_mem hp)]
  split
  case h_1 hnone =>
    have hne := List.findIdx?_eq_none_iff.mp hnone p hp
    simp at hne
  case h_2 i hi =>
    obtain ⟨hlt, -⟩ := List.findIdx?_eq_some_iff_getElem.mp hi
    exact ⟨LPS[i], LPS.eraseIdx i, by rw [List.getElem?_eq_getElem hlt]; rfl⟩

/-- A suspended image has its client connected to its descriptor. -/
theorem Resuming.connected {p : Ptr} (h : Resuming cfg ALG priorities x)
    (hp : p ∈ x.1.shared.LPS) : ∃ c, x.1.shared.submitter p = some c ∧
      x.1.shared.connection (x.1.shared.image p).clientfd = some c := by
  have hlive := live_of_place h.run (.inl (stored_pos (.inr (.inl hp))))
  obtain ⟨c, hc⟩ := (h.registry.submitted p).mp hlive.1
  refine ⟨c, hc, h.registry.connected p c hc ?_⟩
  rw [← Bool.not_eq_true]
  exact fun hfinished => not_closed_of_mem h.run hp (h.mail.finished p c hc hfinished)

/-- The one image in `LPS` with the descriptor of the request. -/
theorem Resuming.found {fd : ℕ} (h : Resuming cfg ALG priorities x)
    (hpc : (x.1.thread .ltsConex).pc = .restoring fd) :
    ∃ p LPS c, restoreSuspended x.1.shared.image x.1.shared.LPS fd = some (some (p, LPS)) ∧
      (∀ p' ∈ x.1.shared.LPS, (x.1.shared.image p').clientfd = fd → p' = p) ∧
      x.1.shared.connection fd = some c ∧ x.1.shared.submitter p = some c ∧
      0 < (x.2 c).requests := by
  obtain ⟨c, hc, hpos⟩ := h.registry.requested fd (.inr hpc)
  obtain ⟨p, hp⟩ := h.registry.known c fun hstart => by simp [hstart, PI.start] at hpos
  have howed : 0 < PP.owed x.1.shared x.2 p := by
    rw [PP.owed, hp]
    exact Nat.add_pos_right _ hpos
  have hmem := h.mem_LPS howed
  have hone : ∀ p' ∈ x.1.shared.LPS, (x.1.shared.image p').clientfd = fd → p' = p := by
    intro p' hmem' hfd
    obtain ⟨c', hc', hopen⟩ := h.connected hmem'
    rw [hfd, hc] at hopen
    exact h.registry.one p' p c (Option.some.inj hopen ▸ hc') hp
  have hfd : (x.1.shared.image p).clientfd = fd := by
    obtain ⟨c', hc', hopen⟩ := h.connected hmem
    rw [hp] at hc'
    exact h.registry.distinct _ fd c (Option.some.inj hc' ▸ hopen) hc
  obtain ⟨p', LPS, hrestore⟩ := restoreSuspended_found x.1.shared.image hmem
  rw [hfd] at hrestore
  obtain ⟨hperm, hfd'⟩ := restoreSuspended_eq_some hrestore
  have heq := hone p' (hperm.mem_iff.mpr List.mem_cons_self) hfd'
  exact ⟨p, LPS, c, heq ▸ hrestore, hone, hc, hp, hpos⟩

theorem reaches_of_ops (h : (st.thread a.1).ops ≠ []) : reaches st a pis = pis := by
  unfold reaches
  split
  case h_1 hthread =>
    rw [hthread] at h
    exact absurd rfl h
  case h_2 => rfl

theorem reaches_of_control (h : (st.thread a.1).ops = []) :
    reaches st a pis = reached st.shared pis (st.thread a.1).pc a.2 := by
  have hthread : st.thread a.1 = ⟨(st.thread a.1).pc, []⟩ := by rw [← h]
  unfold reaches
  rw [hthread]

/-- Only the steps of `LTSconex` reach a client. -/
theorem reached_other {c : Choice} {t : Tid} (hhome : homeOf pc t) (ht : t ≠ .ltsConex) :
    reached s pis pc c = pis := by
  cases pc with
  | sending | restoring => exact absurd hhome ht
  | _ => rfl

theorem Resuming.exec {op : Operation} {ops : List Operation} (hx : Resuming cfg ALG priorities x)
    (hnext : next cfg x.1 a = some st') (hops : (x.1.thread a.1).ops = op :: ops)
    (hexec : op.exec a.1 x.1.shared = some st'.shared)
    (hthreads : ∀ t, (st'.thread t).pc = (x.1.thread t).pc ∧
      (st'.thread t).ops ⊆ (x.1.thread t).ops) :
    Registry st'.shared (st'.thread .ltsConex) (st'.thread .procer) x.2 ∧
      Mail st'.shared (st'.thread .ltsConex) (st'.thread .procer) x.2
        (Closed st'.shared (st'.thread .procer)) := by
  have hmem : op ∈ (x.1.thread a.1).ops := by
    rw [hops]
    exact List.mem_cons_self
  have hclosed := fun p => closed_next (p := p) hx.run hnext
  refine ⟨(registry_exec hexec (fun fd heq => ?_) hx.registry).threads (hthreads _)
    (hthreads _).1, ?_⟩
  · obtain ⟨hconex, hpc⟩ := (hx.messages a.1).closes fd (heq ▸ hmem)
    rw [hconex] at hpc hmem
    exact ⟨hpc, heq ▸ hmem⟩
  · rcases sendingList_exec hexec with ⟨m, p, rfl, -⟩ | ⟨-, hlist⟩
    · have hprocer := (hx.messages a.1).reports m p hmem
      rw [hprocer] at hmem
      have hmail := hx.mail.report hmem (fun p h => h.silent) hclosed fun htype =>
        closed_of_appends hnext hx.messages hx.reports (by simp [appends, hops]) htype
      rw [← Option.some.inj hexec] at hmail ⊢
      exact hmail.threads (hthreads _).1 (hthreads _).2 fun _ => id
    · have hsubmitter := (unwritten_exec hexec).submitter
      refine Mail.threads (hx.mail.same hsubmitter (fun p => ?_) hlist) (hthreads _).1
        (hthreads _).2 hclosed
      rw [(unwritten_exec hexec).image]

theorem inLoop_of_keepsToLoop (h : keepsToLoop x (.step a) = true)
    (hops : (x.1.thread a.1).ops = []) :
    inLoop x.1.shared x.2 (x.1.thread a.1).pc a.2 = true := by
  obtain ⟨pc, hthread⟩ : ∃ pc, x.1.thread a.1 = ⟨pc, []⟩ := ⟨_, by rw [← hops]⟩
  simpa [keepsToLoop, hthread] using h

theorem Resuming.control {th : Thread Operation Label} (hx : Resuming cfg ALG priorities x)
    (hnext : next cfg x.1 a = some ⟨s, Function.update x.1.thread a.1 th⟩)
    (hloop : keepsToLoop x (.step a) = true) (hops : (x.1.thread a.1).ops = [])
    (hcontrol : control cfg a.1 (x.1.thread a.1).pc a.2 x.1.shared = some (s, th)) :
    Registry s (Function.update x.1.thread a.1 th .ltsConex)
        (Function.update x.1.thread a.1 th .procer) (reaches x.1 a x.2) ∧
      Mail s (Function.update x.1.thread a.1 th .ltsConex)
        (Function.update x.1.thread a.1 th .procer) (reaches x.1 a x.2)
        (Closed s (Function.update x.1.thread a.1 th .procer)) := by
  have hclosed := fun p => closed_next (p := p) hx.run hnext
  have hhome := home_run hx.run a.1
  have hin := inLoop_of_keepsToLoop hloop hops
  have hthread : x.1.thread a.1 = ⟨(x.1.thread a.1).pc, []⟩ := by rw [← hops]
  have hregistry := hx.registry
  have hmail := hx.mail
  rw [reaches_of_control hops]
  dsimp only at hclosed
  by_cases hconex : a.1 = .ltsConex
  · rw [hconex] at hcontrol hthread hclosed hin ⊢
    rw [Function.update_of_ne (show Tid.procer ≠ .ltsConex by decide)] at hclosed
    rw [Function.update_self, Function.update_of_ne (show Tid.procer ≠ .ltsConex by decide)]
    rw [hthread] at hregistry hmail
    have hfound : ∀ fd, (x.1.thread .ltsConex).pc = .restoring fd →
        restoreSuspended x.1.shared.image x.1.shared.LPS fd ≠ some none := by
      intro fd hpc hnone
      obtain ⟨p, LPS, c, hrestore, -⟩ := hx.found hpc
      rw [hrestore] at hnone
      cases hnone
    exact ⟨registry_conex hcontrol hregistry hmail hin hfound,
      (mail_conex hcontrol hregistry hmail fun p h => h.silent).threads rfl
        (List.Subset.refl _) hclosed⟩
  · rw [reached_other hhome hconex]
    rw [Function.update_of_ne (Ne.symm hconex)]
    have hmoves := moves_of_control hcontrol
    by_cases hprocer : a.1 = .procer
    · rw [hprocer] at hmoves hthread hclosed ⊢
      rw [Function.update_self] at hclosed ⊢
      rw [hthread] at hregistry hmail
      have hready : ∀ p ∈ x.1.shared.queue .lpl, p < x.1.shared.allocated := fun p hp =>
        (live_of_place hx.run (.inl (stored_pos (.inl ⟨.lpl, hp⟩)))).1
      rw [hthread] at hclosed
      cases hmoves with
      | procer hmoves =>
        exact ⟨registry_procer hmoves hregistry hready,
          mail_procer hmoves hregistry hmail (fun p h => h.notRun) hclosed⟩
    · rw [Function.update_of_ne (Ne.symm hprocer)] at hclosed ⊢
      obtain ⟨hsame, hlist, -⟩ := sameBook_other hmoves hconex hprocer
      exact ⟨hregistry.same hsame,
        (hmail.same hsame.submitter hsame.clientfd hlist).threads rfl (List.Subset.refl _) hclosed⟩

theorem owed_of_submitter (h : s'.submitter = s.submitter) : owed s' pis p = owed s pis p := by
  rw [owed, owed, h]

/-- A client that makes a step of its own changes what is owed for its own image only. -/
theorem owed_client {c : Connection} (pi : PI) (h : Registry s conex procer pis) {p' : Ptr}
    (hp' : s.submitter p' = some c) :
    (owed s (Function.update pis c pi) p : ℤ) + (if p' = p then
        (pis c).suspensions + (pis c).requests else 0 : ℕ) =
      owed s pis p + (if p' = p then pi.suspensions + pi.requests else 0 : ℕ) := by
  by_cases heq : p' = p
  · subst heq
    simp only [owed, hp', Function.update_self, if_true]
    omega
  · rw [if_neg heq, if_neg heq]
    cases hp : s.submitter p with
    | none => simp [owed, hp]
    | some c' =>
      have hne : c' ≠ c := by
        rintro rfl
        exact heq (h.one p' p c' hp' hp)
      simp [owed, hp, Function.update_of_ne hne]

/-- Nobody owes anything for an image that has just been built. -/
theorem owed_allocate {image : TProcessImage} {c : Connection} (h : Registry s conex procer pis)
    (hc : s.connection image.clientfd = some c) (hnew : ∀ p, s.submitter p ≠ some c) :
    owed (s.allocate image) pis p = owed s pis p := by
  by_cases heq : p = s.allocated
  · have hself : (s.allocate image).submitter s.allocated = some c :=
      (Function.update_self ..).trans hc
    have hstart : pis c = .start := by
      by_contra hne
      obtain ⟨p', hp'⟩ := h.known c hne
      exact hnew p' hp'
    have hnone : s.submitter s.allocated = none := by
      rw [Option.eq_none_iff_forall_ne_some]
      intro c' hc'
      exact Nat.lt_irrefl _ ((h.submitted _).mpr ⟨c', hc'⟩)
    rw [heq, owed, owed, hself, hnone]
    simp [hstart, PI.start]
  · have hsame : (s.allocate image).submitter p = s.submitter p := Function.update_of_ne heq ..
    rw [owed, owed, hsame]

theorem owed_conex (h : LTSconex.Moves cfg s pc s' th) (hs : Registry s ⟨pc, []⟩ procer pis) :
    owed s' pis p = owed s pis p := by
  cases h with
  | admission fd data priority =>
    obtain ⟨c, hc, hnew⟩ := hs.newcomer fd (.inr ⟨data, priority, rfl⟩)
    exact (owed_of_submitter rfl).trans (owed_allocate hs hc hnew)
  | delay fd data priority =>
    obtain ⟨c, hc, hnew⟩ := hs.newcomer fd (.inr ⟨data, priority, rfl⟩)
    exact owed_allocate hs hc hnew
  | _ => rfl

/-- The client that reads an `'S'` owes a request. -/
theorem balance_sending {c : Choice} {fd : ℕ} {m : TMsg} {p' : Ptr} {closed : Ptr → Prop}
    (h : LTSconex.control cfg s (.sending fd m p') c = some (s', th))
    (hs : Registry s ⟨.sending fd m p', []⟩ procer pis)
    (hm : Mail s ⟨.sending fd m p', []⟩ procer pis closed)
    (hloop : inLoop s pis (.sending fd m p') c = true) :
    (suspension p).held s' + (suspension p).thread th + owed s pis p =
      (suspension p).held s + (suspension p).pc (.sending fd m p') +
        owed s' (reached s pis (.sending fd m p') c) p := by
  have hsent := suspension_sent (p := p) (LTSconex.moves_of_control h)
  obtain ⟨hfd, haddressed⟩ := hm.sending fd m p' rfl
  obtain ⟨c', hc', hfinished⟩ := haddressed.expected
  have hopen := hs.connected p' c' hc' hfinished
  rw [← haddressed.fd, hfd] at hopen
  cases c with
  | sent ok =>
    have hok : ok = true := by simpa [inLoop, hopen, hfinished] using hloop
    subst hok
    have hsubmitter : s'.submitter = s.submitter := by
      have hmoves := LTSconex.moves_of_control h
      cases hmoves <;> rfl
    have howed := owed_client (p := p) ((pis c').read m.type) hs hc'
    simp only [reached, hopen]
    rw [owed_of_submitter hsubmitter, hsent]
    rw [PI.read_requests, PI.read_suspensions] at howed
    by_cases heq : p' = p <;> by_cases htype : m.type = 83 <;> simp [heq, htype] at howed ⊢ <;>
      omega
  | _ => cases h

/-- The request of the client is served. -/
theorem balance_restoring {c : Choice} {fd : ℕ}
    (h : LTSconex.control cfg s (.restoring fd) c = some (s', th))
    (hs : Registry s ⟨.restoring fd, []⟩ procer pis)
    (hfound : ∃ p LPS c, restoreSuspended s.image s.LPS fd = some (some (p, LPS)) ∧
      s.connection fd = some c ∧ s.submitter p = some c ∧ 0 < (pis c).requests) :
    (suspension p).held s' + (suspension p).thread th + owed s pis p =
      (suspension p).held s + (suspension p).pc (.restoring fd) +
        owed s' (reached s pis (.restoring fd) c) p := by
  obtain ⟨p', LPS, c', hrestore, hc', hp', hpos⟩ := hfound
  cases c with
  | go =>
    have hops := suspension_idle (p := p) (t := .ltsConex) (by decide)
      (operationOf_ltsConex (LTSconex.moves_of_control h))
    simp only [LTSconex.control, hrestore, Option.map_some, Option.some.injEq, Prod.mk.injEq] at h
    have hLPS : s'.LPS = LPS := by rw [← h.1]
    have hlist : s'.sendingList = s.sendingList := by rw [← h.1]
    have hsubmitter : s'.submitter = s.submitter := by rw [← h.1]
    have hrestored := suspension_restored (p := p) (restoreSuspended_eq_some hrestore).1 hLPS hlist
    have howed := owed_client (p := p) (pis c').served hs hp'
    have hpc : (suspension p).pc th.pc = 0 := by rw [← h.2]; rfl
    have hrestoring : (suspension p).pc (.restoring fd) = 0 := rfl
    simp only [reached, hc']
    rw [owed_of_submitter hsubmitter, Ledger.thread, hops, hpc, hrestoring]
    by_cases heq : p' = p
    · have hserved : (pis c').served.suspensions + (pis c').served.requests + 1 =
          (pis c').suspensions + (pis c').requests := by
        simp only [PI.served]
        omega
      simp only [if_pos heq] at hrestored howed
      omega
    · simp only [if_neg heq] at hrestored howed
      omega
  | _ => cases h

theorem balance_conex {c : Choice} {closed : Ptr → Prop}
    (h : LTSconex.control cfg s pc c = some (s', th)) (hs : Registry s ⟨pc, []⟩ procer pis)
    (hm : Mail s ⟨pc, []⟩ procer pis closed) (hloop : inLoop s pis pc c = true)
    (hfound : ∀ fd, pc = .restoring fd → ∃ p LPS c,
      restoreSuspended s.image s.LPS fd = some (some (p, LPS)) ∧
        s.connection fd = some c ∧ s.submitter p = some c ∧ 0 < (pis c).requests) :
    (suspension p).held s' + (suspension p).thread th + owed s pis p =
      (suspension p).held s + (suspension p).pc pc + owed s' (reached s pis pc c) p := by
  by_cases hsending : ∃ fd m p', pc = .sending fd m p'
  · obtain ⟨fd, m, p', rfl⟩ := hsending
    exact balance_sending h hs hm hloop
  · by_cases hrestoring : ∃ fd, pc = .restoring fd
    · obtain ⟨fd, rfl⟩ := hrestoring
      exact balance_restoring h hs (hfound fd rfl)
    · push Not at hsending hrestoring
      have hmoves := LTSconex.moves_of_control h
      have hreached : reached s pis pc c = pis := by
        cases pc with
        | sending fd m p' => exact absurd rfl (hsending fd m p')
        | restoring fd => exact absurd rfl (hrestoring fd)
        | _ => rfl
      rw [hreached, owed_conex hmoves hs, suspension_conex hmoves hsending hrestoring]

/-- A step that has nothing to do with the clients. -/
theorem owed_step (hsubmitter : st'.shared.submitter = st.shared.submitter)
    (htotal : (suspension p).total cfg.threads st' = (suspension p).total cfg.threads st)
    (h : (suspension p).total cfg.threads st = owed st.shared pis p) :
    (suspension p).total cfg.threads st' = owed st'.shared pis p := by
  rw [htotal, h, owed_of_submitter hsubmitter]

theorem Resuming.balance {th : Thread Operation Label} (hx : Resuming cfg ALG priorities x)
    (hnext : next cfg x.1 a = some ⟨s, Function.update x.1.thread a.1 th⟩)
    (hloop : keepsToLoop x (.step a) = true) (hops : (x.1.thread a.1).ops = [])
    (hcontrol : PP.control cfg a.1 (x.1.thread a.1).pc a.2 x.1.shared = some (s, th)) (p : Ptr) :
    (suspension p).total cfg.threads ⟨s, Function.update x.1.thread a.1 th⟩ =
      PP.owed s (reaches x.1 a x.2) p := by
  have hhome := home_run hx.run a.1
  have hmoves := moves_of_control hcontrol
  have hmem := (next_eq_some hnext).1
  have hin := inLoop_of_keepsToLoop hloop hops
  have howed := hx.owed p
  rw [reaches_of_control hops]
  obtain ⟨t, c⟩ := a
  dsimp only at *
  by_cases hconex : t = .ltsConex
  · subst hconex
    have hthread : x.1.thread .ltsConex = ⟨(x.1.thread .ltsConex).pc, []⟩ := by rw [← hops]
    have hregistry := hx.registry
    have hmail := hx.mail
    rw [hthread] at hregistry hmail
    have hbalance := balance_conex (p := p) hcontrol hregistry hmail hin fun fd hpc => by
      obtain ⟨p, LPS, c, hrestore, -, hfound⟩ := hx.found hpc
      exact ⟨p, LPS, c, hrestore, hfound⟩
    have htotal := Ledger.total_control hmem hops hbalance
    omega
  · rw [reached_other hhome hconex]
    have hunchanged : s.submitter = x.1.shared.submitter ∧
        (suspension p).held s + (suspension p).thread th =
          (suspension p).held x.1.shared + (suspension p).pc (x.1.thread t).pc := by
      by_cases hprocer : t = .procer
      · subst hprocer
        have hrunning := hx.registry.running
        cases hmoves with
        | procer hmoves =>
          exact ⟨(sameBook_procer hmoves fun p code e hpc => (hrunning p code e hpc).2).submitter,
            suspension_procer hmoves⟩
      · exact ⟨(sameBook_other hmoves hconex hprocer).1.submitter,
          suspension_other hmoves hhome hconex hprocer⟩
    have htotal := Ledger.total_control hmem hops (congrArg (· + 0) hunchanged.2)
    rw [owed_of_submitter hunchanged.1]
    omega

theorem Resuming.step (hx : Resuming cfg ALG priorities x) (hnext : next cfg x.1 a = some st')
    (hloop : keepsToLoop x (.step a) = true) :
    Resuming cfg ALG priorities (st', reaches x.1 a x.2) := by
  have hrun := hx.run.step a trivial hnext
  have hmessages := shape_next messageShape_tail (fun hmoves _ => messageShape_control hmoves)
    hnext hx.messages
  have hreports := shape_next (P := fun _ th => ReportsLast th) reportsLast_tail
    (fun hmoves _ => reportsLast_control hmoves) hnext hx.reports
  have hsuspends : ∀ p t, SuspendsFirst p (st'.thread t) := fun p t =>
    (shape_next (P := fun t th => homeOf th.pc t ∧ SuspendsFirst p th)
      (fun t pc op ops h => ⟨h.1, suspendsFirst_tail t pc op ops h.2⟩)
      (fun hmoves hP => ⟨homeOf_control hmoves hP.1, suspendsFirst_control hmoves hP.1⟩) hnext
      (fun t => ⟨home_run hx.run t, hx.suspendsFirst p t⟩) t).2
  have htotal := fun p => Ledger.total_step (L := suspension p) (next_eq_some hnext).2
    (next_eq_some hnext).1 fun _ _ => suspension_exec
  rcases Machine.step_cases (next_eq_some hnext).2 with
    ⟨op, ops, s, hops, hexec, rfl⟩ | ⟨s, th, hops, hcontrol, rfl⟩
  · obtain ⟨hregistry, hmail⟩ := hx.exec hnext hops hexec fun t => by
      by_cases heq : t = a.1
      · subst heq
        dsimp only
        rw [Function.update_self, hops]
        exact ⟨rfl, List.subset_cons_self ..⟩
      · dsimp only
        rw [Function.update_of_ne heq]
        exact ⟨rfl, List.Subset.refl _⟩
    have hne : (x.1.thread a.1).ops ≠ [] := by simp [hops]
    rw [reaches_of_ops hne]
    refine ⟨hrun, hmessages, hreports, hsuspends, hregistry, hmail, fun p => ?_⟩
    exact owed_step (unwritten_exec hexec).submitter (htotal p fun _ _ h => absurd h hne)
      (hx.owed p)
  · obtain ⟨hregistry, hmail⟩ := hx.control hnext hloop hops hcontrol
    refine ⟨hrun, hmessages, hreports, hsuspends, hregistry, hmail, fun p => ?_⟩
    exact hx.balance hnext hloop hops hcontrol p

/-- A client answers an `'S'` that it has read. -/
theorem Resuming.answer {c : Connection} {pi : PI} (hx : Resuming cfg ALG priorities x)
    (h : (x.2 c).answer = some pi) :
    Resuming cfg ALG priorities (x.1, Function.update x.2 c pi) := by
  obtain ⟨hpos, rfl⟩ := PI.answer_eq_some h
  obtain ⟨p', hp'⟩ := hx.registry.known c fun hstart => by simp [hstart, PI.start] at hpos
  have hfinished : ∀ pi', (Function.update x.2 c { x.2 c with
      suspensions := (x.2 c).suspensions - 1, requests := (x.2 c).requests + 1 } pi').finished =
        (x.2 pi').finished := by
    intro c'
    by_cases heq : c' = c
    · rw [heq, Function.update_self]
    · rw [Function.update_of_ne heq]
  refine { hx with registry := ?_, mail := hx.mail.clients hfinished, owed := fun p => ?_ }
  · exact hx.registry.client ⟨p', hp'⟩ id fun _ _ => Nat.le_succ _
  · have howed := owed_client (p := p) { x.2 c with
      suspensions := (x.2 c).suspensions - 1, requests := (x.2 c).requests + 1 } hx.registry hp'
    rw [hx.owed p]
    dsimp only at howed ⊢
    split_ifs at howed with heq
    · omega
    · omega

theorem resuming_start : Resuming cfg ALG priorities (startWithClients cfg ALG priorities) := by
  have hregistry : Registry (start cfg ALG priorities).shared (initialThread .ltsConex)
      (initialThread .procer) fun _ => .start := by
    refine ⟨?_, ?_, fun p => ?_, ?_, ?_, ?_, ?_, ?_, ?_, ?_, ?_⟩ <;>
      simp [start, initialThread, PROCER.wait, logWrite]
  have hmail : Mail (start cfg ALG priorities).shared (initialThread .ltsConex)
      (initialThread .procer) (fun _ => .start)
      (Closed (start cfg ALG priorities).shared (initialThread .procer)) := by
    refine ⟨?_, ?_, ?_, ?_, ?_, ?_, ?_, ?_⟩ <;>
      simp [start, initialThread, PROCER.wait, logWrite]
  have hthread : ∀ p t, (suspension p).thread (initialThread t) = 0 := by
    intro p t
    cases t <;> rfl
  refine ⟨.start, messageShape_initial, reportsLast_initial, fun p => suspendsFirst_initial,
    hregistry, hmail, fun p => ?_⟩
  have hsum : ∑ t ∈ cfg.threads, (suspension p).thread (initialThread t) = 0 :=
    Finset.sum_eq_zero fun t _ => hthread p t
  exact (congrArg _ hsum).trans rfl

def served : Label → Option ℕ
  | .restoring fd => some fd
  | _ => none

theorem eq_restoring_of_served {fd : ℕ} (h : served pc = some fd) : pc = .restoring fd := by
  cases pc with
  | restoring fd' =>
    cases h
    rfl
  | _ => cases h

end Runs

end PP
end Sisop
