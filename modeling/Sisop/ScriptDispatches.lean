import Sisop.ScriptExecution

/-!
# A script over all its dispatches

However the quantum, the suspensions and the I/O requests cut the execution of a script into
dispatches, as long as no call is made over a waiting stack: the process prints what the script
means in its order, it is never stuck on the way, and it leaves with the script's variables. A
script whose meaning has no end is a process that never finishes.
-/

namespace Sisop

section AsksNothing

variable {code : List CString} {self : Ptr} {image : TProcessImage} {line : CString}
  {statement : Statement} {s : Script}

def Form.asks : Form → Bool
  | .io | .assignIo => true
  | _ => false

theorem asks_of_processLine (h : processLine code self image line = some .asksPool) :
    (processForm line).asks = true := by
  cases hform : processForm line with
  | io | assignIo => rfl
  | _ => simp [processLine, hform] at h

theorem asks_of_functionLine (h : functionLine self image line = some .asksPool) :
    (functionForm line).asks = true := by
  cases hform : functionForm line with
  | io | assignIo => rfl
  | _ => simp [functionLine, hform] at h

theorem paren_of_asks (h : (commonForm line).asks = true) : 40 ∈ line := by
  have hstarts : ∀ {text : CString}, stringStartsWith text (cstr "io(") → 40 ∈ text := by
    intro text htext
    exact (List.isPrefixOf_iff_prefix.mp htext).subset (by decide)
  rw [commonForm] at h
  split_ifs at h with hassign hassignIo hio hcall
  · cases h
  · exact List.mem_of_mem_drop (hstarts hassignIo.2)
  · exact hstarts hio
  · cases h
  · cases h

theorem paren_of_processForm (h : (processForm line).asks = true) : 40 ∈ line := by
  rw [processForm] at h
  split_ifs at h
  all_goals first | exact paren_of_asks h | cases h

theorem paren_of_functionForm (h : (functionForm line).asks = true) : 40 ∈ line := by
  rw [functionForm] at h
  split_ifs at h
  all_goals first | exact paren_of_asks h | cases h

def AsksNothing (line : CString) : Prop := ∀ code self image,
  processLine code self image line ≠ some .asksPool ∧ functionLine self image line ≠ some .asksPool

theorem asksNothing_of_forms {form form' : Form}
    (hforms : processForm line = form ∧ functionForm line = form') (hprocess : form.asks = false)
    (hfunction : form'.asks = false) : AsksNothing line := by
  intro code self image
  rw [← hforms.1] at hprocess
  rw [← hforms.2] at hfunction
  constructor
  · intro h
    exact absurd ((asks_of_processLine h).symm.trans hprocess) (by decide)
  · intro h
    exact absurd ((asks_of_functionLine h).symm.trans hfunction) (by decide)

theorem asksNothing_of_notMem (h : 40 ∉ line) : AsksNothing line := by
  apply asksNothing_of_forms ⟨rfl, rfl⟩
  · exact Bool.eq_false_iff.mpr fun hasks => h (paren_of_processForm hasks)
  · exact Bool.eq_false_iff.mpr fun hasks => h (paren_of_functionForm hasks)

/-- The requests of a script block. -/
theorem asksNothing_text (h : statement.Plain) : AsksNothing statement.text := by
  cases statement with
  | blank => exact asksNothing_of_forms ⟨rfl, rfl⟩ rfl rfl
  | label tagName => exact asksNothing_of_forms (forms_label tagName) rfl rfl
  | declaration names => exact asksNothing_of_forms (forms_declaration h) rfl rfl
  | imprimir varName => exact asksNothing_of_forms (forms_imprimir h) rfl rfl
  | jump kind varName tagName delay =>
    apply asksNothing_of_forms (forms_jump h)
    · cases kind <;> rfl
    · rfl
  | assign varName e delay => exact asksNothing_of_forms (forms_assign h) rfl rfl
  | io ioTime =>
    intro code self image
    rw [Statement.text, processLine, functionLine, (forms_io h).1, (forms_io h).2]
    dsimp only
    rw [ioLine_request 32 h, ioLine_request 16 h]
    exact ⟨(fun heq => by cases heq), fun heq => by cases heq⟩
  | assignIo varName ioTime =>
    intro code self image
    rw [Statement.text, processLine, functionLine, (forms_assignIo h).1, (forms_assignIo h).2]
    dsimp only
    rw [ioLine_assignRequest 32 h.2, ioLine_assignRequest 16 h.2]
    exact ⟨by simp, by simp⟩
  | call functionName =>
    intro code self image
    rw [Statement.text, (callLine code self image h).1, (callLine code self image h).2]
    exact ⟨(fun heq => by cases heq), fun heq => by cases heq⟩

theorem asksNothing_named {front functionName : CString} (hfront : 40 ∉ front)
    (h : Word functionName) : AsksNothing (front ++ functionName) := by
  apply asksNothing_of_notMem
  rw [List.mem_append, not_or]
  exact ⟨hfront, fun hmem => absurd (h.2 40 hmem) (by decide)⟩

theorem Script.Plain.asksNothing (hs : s.Plain) : ∀ line ∈ s.lines, AsksNothing line := by
  have htexts : ∀ {statements : List Statement}, (∀ statement ∈ statements, statement.Plain) →
      ∀ line ∈ statements.map Statement.text, AsksNothing line := by
    intro statements hplain line hline
    obtain ⟨statement, hmem, rfl⟩ := List.mem_map.mp hline
    exact asksNothing_text (hplain statement hmem)
  rw [lines, List.forall_mem_cons, List.forall_mem_append, List.forall_mem_cons]
  refine ⟨asksNothing_of_notMem (by decide), htexts hs.main, asksNothing_of_notMem (by decide), ?_⟩
  intro line hline
  obtain ⟨function, hfunction, hline⟩ := List.mem_flatMap.mp hline
  have hname := hs.names function hfunction
  rw [functionLines, List.mem_cons, List.mem_append, List.mem_singleton] at hline
  rcases hline with rfl | hline | rfl
  · exact asksNothing_named (by decide) hname
  · exact htexts (hs.bodies function hfunction) line hline
  · exact asksNothing_named (by decide) hname

theorem ne_poolTest_of_moves {quantum : ℤ} {env : Env} {e e' : Exec} {ops : List Operation}
    {events : List Event} (hasks : ∀ line ∈ code, AsksNothing line)
    (h : Exec.Moves code quantum self env e e' ops events) (he : e.point ≠ .poolTest) :
    e'.point ≠ .poolTest := by
  have hruns : ∀ {e₁ : Exec} {PC : ℕ} {outcome : LineOutcome},
      e₁.runLine code PC outcome = some (e', ops, events) → e₁.point = .loopTest →
        outcome ≠ .asksPool → e'.point ≠ .poolTest := by
    intro e₁ PC outcome hrun hpoint hasks
    cases outcome with
    | effect f =>
      cases hrun
      rw [Exec.perform]
      cases f.ticks <;> simp
    | asksPool => exact absurd rfl hasks
    | call functionName =>
      obtain ⟨entry, -, rfl, -, -⟩ := Exec.runLine_call hrun
      exact fun heq => by cases hpoint.symm.trans heq
  cases h with
  | returns => exact fun heq => by cases heq
  | resumes hpoint =>
    rw [Exec.stackExecution]
    split
    · exact he
    · exact he
  | runsLine hpoint _ _ _ _ _ hnext houtcome hrun =>
    refine hruns hrun hpoint ?_
    rintro rfl
    exact (hasks _ (List.mem_of_getElem? hnext) _ _ _).1 houtcome
  | @leaves element rest line hpoint =>
    have hstays (finished : Bool) : (e.leaveFunction finished element rest).point = e.point := by
      unfold Exec.leaveFunction
      dsimp only
      split <;> rfl
    rw [hstays]
    exact he
  | runsFunctionLine hpoint _ _ _ _ hnext houtcome hrun =>
    refine hruns hrun hpoint ?_
    rintro rfl
    exact (hasks _ (List.mem_of_getElem? hnext) code _ _).2 houtcome
  | asksPool hpoint => exact absurd hpoint he
  | asksPoolInFunction hpoint => exact absurd hpoint he
  | counts => exact fun heq => by cases heq

theorem ne_poolTest_of_next {quantum : ℤ} {d d' : Dispatch} {a : Action}
    (hasks : ∀ line ∈ code, AsksNothing line) (h : d.next code quantum a = some d')
    (hd : d.exec.point ≠ .poolTest) : d'.exec.point ≠ .poolTest := by
  cases a with
  | advance raise poolFree rr =>
    obtain ⟨⟨e', ops, events⟩, hstep, rfl⟩ := Option.map_eq_some_iff.mp h
    exact ne_poolTest_of_moves hasks (Exec.moves_of_step hstep) hd
  | redispatch =>
    simp only [Dispatch.next] at h
    split_ifs at h
    cases h
    rw [Exec.enter, Exec.stackExecution]
    split
    · exact fun heq => by cases heq
    · exact fun heq => by cases heq

end AsksNothing

section Ends

variable {s : Script} {e : Exec} {trace : List Event} {st : ScriptState} {fuel : ℕ}

/-- The last line of the script is run too, before the loop stops on it. -/
theorem end_leads (hs : s.Plain) (hready : Ready e) (hshows : Shows e trace st)
    (hat : At s [] e .process) : ∃ e' trace', Leads s.lines e trace e' trace' ∧
      Shows e' trace' st ∧ e'.point = .returned ∧ e'.atFinPrograma s.lines = true := by
  obtain ⟨helements, hstands⟩ := hat
  have hlast := hstands.last hs.short
  have hform : processForm finPrograma = .other := by decide
  have hskip : processLine s.lines 0 e.advanceProcess.processImage finPrograma =
      some (.effect (skipLine e.advanceProcess.processImage)) := by
    rw [processLine, hform]
  have hkeep : Keeping e.advanceProcess.processImage.data st := hshows.data
  obtain ⟨e₁, trace₁, hleads, hready₁, hshows₁, helements₁, hPC⟩ :=
    processLine_leads hready hshows helements hstands hlast hskip (skip_agrees hkeep)
  have hfin : s.lines[e₁.processImage.PC]? = some finPrograma := by
    rw [hPC]
    exact hlast
  have hreturns : Leads s.lines e₁ trace₁ _ _ :=
    leads_of_moves (.returns hready₁.point helements₁ hfin (.inl rfl))
  rw [List.append_nil] at hreturns
  refine ⟨_, _, hleads.trans hreturns, ⟨hshows₁.data, hshows₁.messages⟩, rfl, ?_⟩
  exact beq_iff_eq.mpr hfin

variable (clientfd pid : ℕ) (priority : Int32) (TANT : ℚ)

def Script.submitted (s : Script) : Dispatch :=
  .start (newImage clientfd pid priority s.text TANT)

theorem submitted_carried (hs : s.Plain) (fuel : ℕ) :
    CarriesOut (Dispatch.uninterruptedStep s.lines) (s.submitted clientfd pid priority TANT) fuel
      (s.run fuel .process s.main .initial) (Arrives s .process) := by
  have hstands : Stands s.lines finPrograma ([] : List CString).length s.main :=
    stands_of_lines rfl (by decide)
  have hat : At s s.main (Exec.atEntry (newImage clientfd pid priority s.text TANT)) .process :=
    ⟨rfl, hstands⟩
  exact run_carried hs fuel hs.main ⟨rfl, rfl, rfl⟩ ⟨keeping_initial, rfl⟩ hat

theorem uninterrupted_ends (hs : s.Plain) (h : s.execute fuel = .ok st) :
    ∃ n u, iterateStep (Dispatch.uninterruptedStep s.lines) n
        (s.submitted clientfd pid priority TANT) = some u ∧
      u.finished s.lines = true ∧ Shows u.exec u.trace st := by
  have hcarried := submitted_carried clientfd pid priority TANT hs fuel
  rw [Script.execute] at h
  cases hr : s.run fuel .process s.main .initial with
  | error reason =>
    rw [hr] at h
    cases h
  | ok r =>
    rw [hr] at h hcarried
    cases h
    obtain ⟨n, -, hn, e, trace, rfl, hready, hshows, hat⟩ := hcarried
    obtain ⟨e', trace', ⟨k, hk⟩, hshows', hreturned, hfin⟩ := end_leads hs hready hshows hat
    refine ⟨n + (1 + k), _, iterateStep_trans hn hk, ?_, hshows'⟩
    rw [Dispatch.finished, hreturned, hfin]
    rfl

theorem uninterrupted_runs_on (hs : s.Plain) (h : ∀ fuel, s.execute fuel = .error .running)
    (n : ℕ) : (iterateStep (Dispatch.uninterruptedStep s.lines) n
      (s.submitted clientfd pid priority TANT)).isSome := by
  have hcarried := submitted_carried clientfd pid priority TANT hs n
  have hn := h n
  rw [Script.execute] at hn
  cases hr : s.run n .process s.main .initial with
  | ok r =>
    rw [hr] at hn
    cases hn
  | error reason =>
    rw [hr] at hn hcarried
    cases hn
    obtain ⟨k, hle, hsome⟩ := hcarried
    exact iterateStep_isSome_of_le hle hsome

end Ends

section Dispatches

variable {s : Script} {quantum : ℤ} {clientfd pid : ℕ} {priority : Int32} {TANT : ℚ}
  {d t t' : Dispatch} {st : ScriptState} {fuel n : ℕ}

/-- The process can be dispatched again, or it goes on whatever it reads of the shared state. -/
def Dispatch.GoesOn (code : List CString) (quantum : ℤ) (d : Dispatch) : Prop :=
  (d.next code quantum .redispatch).isSome ∨
    ∀ raise poolFree rr, (d.next code quantum (.advance raise poolFree rr)).isSome

theorem stuck_of_finished {code : List CString} (h : t.finished code = true) :
    Dispatch.uninterruptedStep code t = none := by
  simp only [Dispatch.finished, Bool.and_eq_true, beq_iff_eq] at h
  rw [Dispatch.uninterruptedStep, Dispatch.next, Exec.step, h.1]
  rfl

theorem trace_prefix_of_iterate {code : List CString}
    (h : iterateStep (Dispatch.uninterruptedStep code) n t = some t') : t.trace <+: t'.trace := by
  induction n generalizing t' with
  | zero =>
    cases h
    exact List.prefix_rfl
  | succ n ih =>
    obtain ⟨u, hu, hstep⟩ := Option.bind_eq_some_iff.mp h
    obtain ⟨u', hu', rfl⟩ := Option.map_eq_some_iff.mp hstep
    obtain ⟨⟨e', ops, events⟩, -, rfl⟩ := Option.map_eq_some_iff.mp hu'
    exact (ih hu).trans (List.prefix_append _ _)

/-- The interrupted run beside the uninterrupted one; a plain script asks for no pool. -/
theorem follows_run (hs : s.Plain)
    (h : RunsTo (Dispatch.next s.lines quantum)
      (fun d a => ¬ d.callsOverStack s.lines quantum a)
      (s.submitted clientfd pid priority TANT) d) :
    ∃ n t, iterateStep (Dispatch.uninterruptedStep s.lines) n
        (s.submitted clientfd pid priority TANT) = some t ∧
      Dispatch.Follows s.lines quantum d t ∧ d.exec.point ≠ .poolTest := by
  have hstart : (s.submitted clientfd pid priority TANT).exec.point ≠ .poolTest :=
    fun heq => by cases heq
  refine RunsTo.simulated (R := fun d t => Dispatch.Follows s.lines quantum d t ∧
    d.exec.point ≠ .poolTest) ⟨Dispatch.follows_start rfl, hstart⟩ ?_ h
  rintro d a d' t ⟨hfollows, hpool⟩ hcall hnext
  have hblocking : ¬ d.issuesNonBlocking := by
    simpa [Dispatch.issuesNonBlocking] using hpool
  obtain ⟨k, t', hk, hfollows'⟩ := Dispatch.follows_next hnext hcall hblocking hfollows
  exact ⟨k, t', hk, hfollows', ne_poolTest_of_next hs.asksNothing hnext hpool⟩

theorem goesOn_of_follows {code : List CString} (hfollows : Dispatch.Follows code quantum d t)
    (hpool : d.exec.point ≠ .poolTest) (hstep : (Dispatch.uninterruptedStep code t).isSome)
    (hunfinished : ¬ d.finished code) : d.GoesOn code quantum := by
  obtain ⟨hsound, quantumCount, rafaga, rfl⟩ := hfollows
  by_cases hreturned : d.exec.point = .returned
  · left
    have hfin : ¬ d.exec.atFinPrograma code := by
      intro hfin
      apply hunfinished
      rw [Dispatch.finished, hreturned, hfin]
      rfl
    rw [Dispatch.next, if_pos ⟨hreturned, hfin⟩]
    rfl
  · right
    intro raise poolFree rr
    simp only [Dispatch.uninterruptedStep, Dispatch.next, Option.isSome_map] at hstep ⊢
    obtain ⟨r, hr⟩ := Option.isSome_iff_exists.mp hstep
    exact Exec.step_isSome_of_unrolled hsound.atCall hreturned hpool hr

/-- Once for a script whose meaning has an end, whose state is `st`. -/
theorem ends_of_follows (hs : s.Plain) (hexecute : s.execute fuel = .ok st)
    (hn : iterateStep (Dispatch.uninterruptedStep s.lines) n
      (s.submitted clientfd pid priority TANT) = some t)
    (hfollows : Dispatch.Follows s.lines quantum d t) (hpool : d.exec.point ≠ .poolTest) :
    messagesOf d.trace <+: outputTexts st ∧
      (d.finished s.lines → messagesOf d.trace = outputTexts st ∧
        Keeping d.exec.processImage.data st) ∧
      (¬ d.finished s.lines → d.GoesOn s.lines quantum) := by
  obtain ⟨N, u, hN, hufinished, hshows⟩ :=
    uninterrupted_ends clientfd pid priority TANT hs hexecute
  have hstuck := stuck_of_finished hufinished
  have hle := le_of_stuck hN hstuck hn
  have htrace : t.trace = d.trace := by
    obtain ⟨-, quantumCount, rafaga, rfl⟩ := hfollows
    rfl
  refine ⟨?_, ?_, ?_⟩
  · obtain ⟨t', ht', hrest⟩ := iterateStep_of_le hle hN
    obtain rfl := Option.some.inj (hn.symm.trans ht')
    rw [← hshows.messages, ← htrace]
    exact (trace_prefix_of_iterate hrest).filterMap _
  · intro hfinished
    obtain ⟨t', ht', htfinished, htrace', himage⟩ := Dispatch.follows_finished hfollows hfinished
    have hn' : iterateStep (Dispatch.uninterruptedStep s.lines) (n + 1)
        (s.submitted clientfd pid priority TANT) = some t' :=
      Option.bind_eq_some_iff.mpr ⟨t, hn, ht'⟩
    have hsame : n + 1 = N :=
      Nat.le_antisymm (le_of_stuck hN hstuck hn')
        (le_of_stuck hn' (stuck_of_finished htfinished) hN)
    rw [hsame] at hn'
    obtain rfl := Option.some.inj (hN.symm.trans hn')
    rw [← htrace', ← himage]
    exact ⟨hshows.messages, hshows.data⟩
  · intro hunfinished
    apply goesOn_of_follows hfollows hpool _ hunfinished
    have hne : n ≠ N := by
      rintro rfl
      obtain rfl := Option.some.inj (hn.symm.trans hN)
      obtain ⟨-, quantumCount, rafaga, rfl⟩ := hfollows
      simp only [Dispatch.finished, Bool.and_eq_true, beq_iff_eq, Exec.unrolled] at hufinished
      split_ifs at hufinished with hreturned
      · cases hufinished.1
      · exact hreturned hufinished.1
    have hsome : (iterateStep (Dispatch.uninterruptedStep s.lines) (n + 1)
        (s.submitted clientfd pid priority TANT)).isSome :=
      iterateStep_isSome_of_le (Nat.lt_of_le_of_ne hle hne) (Option.isSome_of_eq_some hN)
    rw [iterateStep, hn, Option.bind_some] at hsome
    exact hsome

/-- In every run of dispatches without a call over a waiting stack. -/
theorem script_executed (s : Script) (hs : s.Plain) (quantum : ℤ) (clientfd pid : ℕ)
    (priority : Int32) (TANT : ℚ) (d : Dispatch)
    (h : RunsTo (Dispatch.next s.lines quantum)
      (fun d a => ¬ d.callsOverStack s.lines quantum a)
      (s.submitted clientfd pid priority TANT) d) :
    codeSegmentCreator s.text = some s.lines ∧
      (∀ fuel st, s.execute fuel = .ok st →
        messagesOf d.trace <+: outputTexts st ∧
          (d.finished s.lines → messagesOf d.trace = outputTexts st ∧
            Keeping d.exec.processImage.data st) ∧
          (¬ d.finished s.lines → d.GoesOn s.lines quantum)) ∧
      ((∀ fuel, s.execute fuel = .error .running) →
        ¬ d.finished s.lines ∧ d.GoesOn s.lines quantum) := by
  obtain ⟨n, t, hn, hfollows, hpool⟩ := follows_run hs h
  refine ⟨hs.codeSegmentCreator_text, ?_, ?_⟩
  · exact fun fuel st hexecute => ends_of_follows hs hexecute hn hfollows hpool
  · intro hruns
    have hsome := uninterrupted_runs_on clientfd pid priority TANT hs hruns
    have hunfinished : ¬ d.finished s.lines := by
      intro hfinished
      obtain ⟨t', ht', htfinished, -⟩ := Dispatch.follows_finished hfollows hfinished
      have hnext := hsome (n + 1 + 1)
      rw [iterateStep, iterateStep, hn, Option.bind_some, ht', Option.bind_some,
        stuck_of_finished htfinished] at hnext
      cases hnext
    refine ⟨hunfinished, goesOn_of_follows hfollows hpool ?_ hunfinished⟩
    have hnext := hsome (n + 1)
    rw [iterateStep, hn, Option.bind_some] at hnext
    exact hnext

def sumScript : Script where
  main := [.declaration [97, 98], .assign 97 ⟨none, .digit 51, []⟩ none, .label (cstr "bucle"),
    .call (cstr "suma"), .imprimir 98, .assign 97 ⟨none, .varName 97, [(.minus, .digit 49)]⟩ none,
    .jump .snc 97 (cstr "bucle") none]
  functions := [(cstr "suma", [.io (cstr "5"),
    .assign 98 ⟨none, .varName 98, [(.plus, .varName 97)]⟩ none])]

theorem sumScript_plain : sumScript.Plain := by
  have hword : ∀ {text : CString}, text ≠ [] → text.all isLetter = true → Word text :=
    fun hne hall => ⟨hne, List.all_eq_true.mp hall⟩
  have hdelay : ∀ digits ∈ (none : Option CString), ∀ c ∈ digits, isdigit c :=
    fun _ h => by cases h
  have hentries : (valueOf [⟨97, 0⟩, ⟨98, 0⟩] 97).isSome = true ∧
      (valueOf [⟨97, 0⟩, ⟨98, 0⟩] 98).isSome = true ∧ valueOf [⟨97, 0⟩, ⟨98, 0⟩] 49 = none := by
    decide
  have hfirst : (Statement.assign 97 ⟨none, .digit 51, []⟩ none).Plain :=
    And.intro (by decide) (And.intro ⟨[], And.intro (by decide) rfl, List.forall_mem_nil _⟩ hdelay)
  have hminus : (Statement.assign 97 ⟨none, .varName 97, [(.minus, .digit 49)]⟩ none).Plain :=
    And.intro (by decide) (And.intro ⟨[⟨97, 0⟩, ⟨98, 0⟩], And.intro (by decide) hentries.1,
      List.forall_mem_singleton.mpr (And.intro (by decide) hentries.2.2)⟩ hdelay)
  have hplus : (Statement.assign 98 ⟨none, .varName 98, [(.plus, .varName 97)]⟩ none).Plain :=
    And.intro (by decide) (And.intro ⟨[⟨97, 0⟩, ⟨98, 0⟩], And.intro (by decide) hentries.2.1,
      List.forall_mem_singleton.mpr (And.intro (by decide) hentries.1)⟩ hdelay)
  have hletter : isLetter 98 = true := by decide
  have hbucle : Word (cstr "bucle") := hword (by decide) (by decide)
  have hsuma : Word (cstr "suma") := hword (by decide) (by decide)
  refine ⟨?_, List.forall_mem_singleton.mpr hsuma, List.forall_mem_singleton.mpr ?_, by decide⟩
  · simp only [sumScript, List.forall_mem_cons]
    refine ⟨And.intro (by decide) (List.all_eq_true.mp (by decide)), hfirst, hbucle,
      And.intro hsuma (by decide), hletter, hminus,
      And.intro (by decide) (And.intro hbucle hdelay), List.forall_mem_nil _⟩
  · simp only [List.forall_mem_cons]
    exact ⟨by exact List.all_eq_true.mp (by decide), hplus, List.forall_mem_nil _⟩

theorem script_executed_sum : ∃ d : Dispatch, d.finished sumScript.lines = true ∧
    messagesOf d.trace = [imprimirText 98 3, imprimirText 98 5, imprimirText 98 6] := by
  have hrun : ((follow (Dispatch.next sumScript.lines 2)
      (fun d a => !d.callsOverStack sumScript.lines 2 a) (sumScript.submitted 5 11 0 0)
      (Dispatch.dispatchesOf [8, 8, 6, 8, 6, 8, 4])).any (·.finished sumScript.lines)) = true := by
    decide +kernel
  have houtput : (sumScript.execute 20).toOption.map (·.output) =
      some [(98, 3), (98, 5), (98, 6)] := by
    decide +kernel
  obtain ⟨d, hd, hfinished⟩ := (Option.any_eq_true _ _).mp hrun
  have hreached : RunsTo (Dispatch.next sumScript.lines 2)
      (fun d a => ¬ d.callsOverStack sumScript.lines 2 a) (sumScript.submitted 5 11 0 0) d :=
    RunsTo.of_follow (fun d a h => by simpa using h) _ hd
  obtain ⟨-, hends, -⟩ := script_executed sumScript sumScript_plain 2 5 11 0 0 d hreached
  cases hexecute : sumScript.execute 20 with
  | error reason =>
    rw [hexecute] at houtput
    cases houtput
  | ok st =>
    rw [hexecute] at houtput
    have hst : st.output = [(98, 3), (98, 5), (98, 6)] := Option.some.inj houtput
    refine ⟨d, hfinished, ?_⟩
    rw [((hends 20 st hexecute).2.1 hfinished).1, outputTexts, hst]
    rfl

end Dispatches

end Sisop
