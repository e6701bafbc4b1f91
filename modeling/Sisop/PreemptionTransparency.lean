import Sisop.Dispatches
import Sisop.InterpreterSteps

/-!
# Preemption is transparent while no call happens over a waiting stack

The active calls of a process are spread over the running functions and the list of its image.
Read from the innermost one outwards they form one chain, and every step that only moves elements
between the two places leaves that chain alone. The uninterrupted run keeps the whole chain in
running functions. It stutters exactly where the interrupted one moves elements, returns to
`PROCER` or is dispatched again.
-/

namespace Sisop

variable {code : List CString} {quantum : ℤ} {self : Ptr} {image : TProcessImage}

namespace Exec

theorem keepsRunning_of_raised {e : Exec} {SUSPEND raise poolFree rr : Bool}
    (h : e.keepsRunning quantum ⟨SUSPEND || raise, poolFree, rr⟩ = true) :
    e.keepsRunning quantum ⟨SUSPEND, true, true⟩ = true := by
  simp only [keepsRunning, Bool.and_eq_true, Bool.not_eq_true', Bool.or_eq_false_iff] at h ⊢
  exact ⟨⟨h.1.1.1, h.1.2⟩, h.2⟩

def calls (e : Exec) : List TStack :=
  match e.elements with
  | [] => e.stack.reverse
  | element :: rest => element :: (e.stack.reverse ++ rest)

/-- The same process with its whole chain of calls in running functions. -/
def unrolled (e : Exec) (quantumCount rafaga : ℕ) : Exec where
  processImage := { e.processImage with stack := [] }
  elements := e.calls
  ioBlockInterrupt := false
  quantumCount := quantumCount
  rafaga := rafaga
  point := if e.point = .returned then .loopTest else e.point

section Stack

variable {e : Exec} {element : TStack} {rest : List TStack}

theorem calls_of_stack_nil (h : e.stack = []) : e.calls = e.elements := by
  unfold calls
  rw [h]
  cases e.elements <;> rfl

theorem calls_stackExecution (h : e.elements = []) : e.stackExecution.1.calls = e.calls := by
  rcases List.eq_nil_or_concat' e.stack with hstack | ⟨stack, element, hstack⟩
  · rw [stackExecution_of_nil hstack]
  · rw [stackExecution_of_concat hstack, calls, calls, h, hstack, List.reverse_concat']
    exact congrArg (element :: ·) (List.append_nil _)

theorem unrolled_stackExecution (h : e.elements = []) (quantumCount rafaga : ℕ) :
    e.stackExecution.1.unrolled quantumCount rafaga = e.unrolled quantumCount rafaga := by
  have hcalls := calls_stackExecution h
  rcases List.eq_nil_or_concat' e.stack with hstack | ⟨stack, element, hstack⟩
  · rw [stackExecution_of_nil hstack]
  · rw [stackExecution_of_concat hstack] at hcalls ⊢
    rw [unrolled, unrolled, hcalls]
    rfl

/-- An interrupted function goes to the end of the list; its caller, if there is one, is moved in
front of the whole list and the function is taken up once more in its place. -/
theorem leaveFunction_unfinished :
    e.leaveFunction false element rest = match rest with
      | [] => { e.setStack (e.stack ++ [element]) with elements := [] }
      | caller :: callers =>
        { e.setStack (caller :: e.stack) with elements := element :: callers } := by
  unfold leaveFunction reorderStack
  cases rest with
  | nil => rfl
  | cons caller callers => simp

theorem leaveFunction_last (finished : Bool) :
    e.leaveFunction finished element [] =
      { e.setStack (if finished then e.stack else e.stack ++ [element]) with elements := [] } := by
  cases finished <;> rfl

theorem leaveFunction_finished (h : e.stack = []) :
    e.leaveFunction true element rest = { e with elements := rest } := by
  cases rest with
  | nil =>
    rw [leaveFunction_last, if_pos rfl, h, setStack, ← h]
    rfl
  | cons caller callers =>
    simp only [leaveFunction, h, if_true, List.getLast?_nil]
    rw [setStack, ← h]
    rfl

theorem calls_leaveFunction_unfinished (h : e.elements = element :: rest) :
    (e.leaveFunction false element rest).calls = e.calls := by
  rw [leaveFunction_unfinished]
  cases rest with
  | nil => simp [calls, h, stack, setStack]
  | cons caller callers => simp [calls, h, stack, setStack]

theorem calls_leaveFunction_finished (h : e.elements = element :: rest)
    (hrest : rest = [] ∨ e.stack = []) :
    e.calls = element :: (e.leaveFunction true element rest).calls := by
  rcases hrest with rfl | hstack
  · simp [leaveFunction_last, calls, h, stack, setStack]
  · rw [leaveFunction_finished hstack, calls_of_stack_nil hstack, h]
    have hleft : ({ e with elements := rest } : Exec).stack = [] := hstack
    rw [calls_of_stack_nil hleft]

end Stack

/-- A function that leaves unfinished while its caller is running hands the interruption on: it
is taken up in the caller's place and leaves again at once. -/
structure ChainSound (code : List CString) (quantum : ℤ) (SUSPEND : Bool) (e : Exec) : Prop where
  atCall : e.AtCall code
  returned : e.point = .returned → e.elements = []
  leaving : ∀ element rest, e.elements = element :: rest → rest ≠ [] → e.stack ≠ [] →
    e.point = .loopTest ∧ e.keepsRunning quantum ⟨SUSPEND, true, true⟩ = false ∧
      ∀ line, code[element.PC]? = some line → isFinFuncion line element.functionName = false

theorem ChainSound.finishes {SUSPEND : Bool} {e : Exec} {element : TStack} {rest : List TStack}
    {line : CString} (hsound : ChainSound code quantum SUSPEND e)
    (helements : e.elements = element :: rest) (hline : code[element.PC]? = some line)
    (hfin : isFinFuncion line element.functionName = true) : rest = [] ∨ e.stack = [] := by
  by_contra hboth
  push Not at hboth
  have hnot := (hsound.leaving element rest helements hboth.1 hboth.2).2.2 line hline
  exact absurd (hfin.symm.trans hnot) (by decide)

section Matching

variable {e e' : Exec} {env : Env} {ops : List Operation} {events trace : List Event}

theorem uninterruptedStep_of_moves
    (h : Moves code (e.quantumCount + 1) 0 ⟨false, true, true⟩ e e' ops events) :
    Dispatch.uninterruptedStep code ⟨e, false, trace⟩ =
      some ⟨{ e' with ioBlockInterrupt := false }, false, trace ++ events⟩ := by
  have hstep := step_of_moves h
  simp only [Dispatch.uninterruptedStep, Dispatch.next, Bool.or_false, hstep, Option.map_some]

theorem keepsRunning_unrolled (e : Exec) (quantumCount rafaga : ℕ) :
    (e.unrolled quantumCount rafaga).keepsRunning
      ((e.unrolled quantumCount rafaga).quantumCount + 1) ⟨false, true, true⟩ = true := by
  exact decide_eq_true (Int.lt_succ _)

theorem unrolled_call (h : e.stack = []) (element : TStack) (quantumCount rafaga : ℕ) :
    ({ e with elements := element :: e.elements } : Exec).unrolled quantumCount rafaga =
      { e.unrolled quantumCount rafaga with elements := element :: e.calls } := by
  have hstack : ({ e with elements := element :: e.elements } : Exec).stack = [] := h
  rw [unrolled, calls_of_stack_nil hstack, calls_of_stack_nil h]
  rfl

theorem unrolled_leaveFunction (finished : Bool) (element : TStack) (rest : List TStack)
    (quantumCount rafaga : ℕ) :
    (e.leaveFunction finished element rest).unrolled quantumCount rafaga =
      { e.unrolled quantumCount rafaga with
        elements := (e.leaveFunction finished element rest).calls } := by
  unfold leaveFunction
  dsimp only
  split <;> rfl

theorem elements_unrolled {element : TStack} {rest : List TStack}
    (h : e.elements = element :: rest) (quantumCount rafaga : ℕ) :
    (e.unrolled quantumCount rafaga).elements = element :: (e.stack.reverse ++ rest) := by
  simp only [unrolled, calls, h]

theorem runLine_unrolled {PC : ℕ} {outcome : LineOutcome}
    (h : e.runLine code PC outcome = some (e', ops, events))
    (hcall : ∀ functionName, outcome = .call functionName → e.stack = [])
    (quantumCount rafaga : ℕ) :
    ∃ e'', (e.unrolled quantumCount rafaga).runLine code PC outcome = some (e'', ops, events) ∧
      { e'' with ioBlockInterrupt := false } = e'.unrolled quantumCount rafaga := by
  cases outcome with
  | effect f =>
    cases h
    refine ⟨_, rfl, ?_⟩
    rcases f with ⟨PC', data, operations, events', blocks, ticks⟩
    cases ticks <;> rfl
  | asksPool =>
    cases h
    exact ⟨_, rfl, rfl⟩
  | call functionName =>
    obtain ⟨entry, hentry, rfl, rfl, rfl⟩ := runLine_call h
    refine ⟨{ e.unrolled quantumCount rafaga with
      elements := ⟨functionName, entry, PC⟩ :: e.calls }, ?_, ?_⟩
    · rw [runLine, call_eq, hentry]
      rfl
    · rw [unrolled_call (hcall functionName rfl)]
      rfl

theorem stack_nil_of_call {SUSPEND raise poolFree rr : Bool} {element : TStack}
    {rest : List TStack} {line next : CString}
    (hcall : ¬ Dispatch.callsOverStack code quantum ⟨e, SUSPEND, trace⟩
      (.advance raise poolFree rr)) (hpoint : e.point = .loopTest)
    (helements : e.elements = element :: rest) (hline : code[element.PC]? = some line)
    (hfin : isFinFuncion line element.functionName = false)
    (hkeep : e.keepsRunning quantum ⟨SUSPEND || raise, poolFree, rr⟩ = true)
    (hnext : code[nextPC element.PC]? = some next) (hform : functionForm next = .call) :
    e.stack = [] := by
  by_contra hstack
  refine hcall ?_
  simp [Dispatch.callsOverStack, hpoint, helements, hstack, hkeep, hline, hfin, hnext, hform]

/-- One step of the interrupted run against no step or one step of the uninterrupted run. -/
theorem unrolled_of_moves {SUSPEND raise poolFree rr : Bool}
    (h : Moves code quantum 0 ⟨SUSPEND || raise, poolFree, rr⟩ e e' ops events)
    (hsound : ChainSound code quantum SUSPEND e) (hpool : e.point ≠ .poolTest)
    (hcall : ¬ Dispatch.callsOverStack code quantum ⟨e, SUSPEND, trace⟩
      (.advance raise poolFree rr)) (quantumCount rafaga : ℕ) :
    ∃ k quantumCount' rafaga', iterateStep (Dispatch.uninterruptedStep code) k
        ⟨e.unrolled quantumCount rafaga, false, trace⟩ =
      some ⟨e'.unrolled quantumCount' rafaga', false, trace ++ events⟩ := by
  cases h with
  | returns hpoint helements =>
    refine ⟨0, quantumCount, rafaga, ?_⟩
    simp [iterateStep, unrolled, calls, stack, hpoint, helements]
  | resumes hpoint helements =>
    refine ⟨0, quantumCount, rafaga, ?_⟩
    rw [unrolled_stackExecution helements, List.append_nil]
    rfl
  | runsLine hpoint helements hstack hline hne hkeep hnext houtcome hrun =>
    obtain ⟨e'', hrun', heq⟩ := runLine_unrolled hrun (fun _ _ => hstack)
      quantumCount rafaga
    refine ⟨1, quantumCount, rafaga, ?_⟩
    rw [← heq]
    refine uninterruptedStep_of_moves (.runsLine ?_ ?_ rfl hline hne
      (keepsRunning_unrolled e quantumCount rafaga) hnext houtcome hrun')
    · simp [unrolled, hpoint]
    · exact (calls_of_stack_nil hstack).trans helements
  | @leaves element rest line hpoint helements hline hstop =>
    rcases hfin : isFinFuncion line element.functionName with _ | _
    · refine ⟨0, quantumCount, rafaga, ?_⟩
      rw [List.append_nil, unrolled_leaveFunction, calls_leaveFunction_unfinished helements]
      rfl
    · have hcalls := calls_leaveFunction_finished helements (hsound.finishes helements hline hfin)
      have hleft : (e.unrolled quantumCount rafaga).elements =
          element :: (e.leaveFunction true element rest).calls := hcalls
      have hmove : Moves code ((e.unrolled quantumCount rafaga).quantumCount + 1) 0
          ⟨false, true, true⟩ (e.unrolled quantumCount rafaga) _ _ _ :=
        .leaves (by simp [unrolled, hpoint]) hleft hline (.inl hfin)
      rw [hfin, leaveFunction_finished rfl] at hmove
      refine ⟨1, quantumCount, rafaga, ?_⟩
      rw [unrolled_leaveFunction]
      exact uninterruptedStep_of_moves hmove
  | @runsFunctionLine element rest line next outcome e' ops events hpoint helements hline hfin hkeep
      hnext houtcome hrun =>
    have hstack : ∀ functionName, outcome = .call functionName → e.stack = [] := by
      rintro functionName rfl
      exact stack_nil_of_call hcall hpoint helements hline hfin hkeep hnext
        (functionLine_call houtcome)
    obtain ⟨e'', hrun', heq⟩ := runLine_unrolled hrun hstack quantumCount rafaga
    refine ⟨1, quantumCount, rafaga, ?_⟩
    rw [← heq]
    refine uninterruptedStep_of_moves (.runsFunctionLine ?_
      (elements_unrolled helements quantumCount rafaga) hline hfin
      (keepsRunning_unrolled e quantumCount rafaga) hnext houtcome hrun')
    simp [unrolled, hpoint]
  | asksPool hpoint => exact absurd hpoint hpool
  | asksPoolInFunction hpoint => exact absurd hpoint hpool
  | counts hpoint =>
    refine ⟨1, quantumCount + 1, rafaga + 1, ?_⟩
    have hpoint' : (e.unrolled quantumCount rafaga).point = .algTest := by
      simp [unrolled, hpoint]
    exact uninterruptedStep_of_moves (.counts hpoint')

theorem chainSound_of_not_leaving {SUSPEND : Bool} (hatCall : e.AtCall code)
    (hreturned : e.point = .returned → e.elements = [])
    (hleaving : e.elements.tail = [] ∨ e.stack = []) : ChainSound code quantum SUSPEND e := by
  refine ⟨hatCall, hreturned, fun element rest helements hrest hstack => ?_⟩
  rw [helements] at hleaving
  exact absurd hleaving (by simp [hrest, hstack])

theorem ChainSound.runs {SUSPEND raise poolFree rr : Bool}
    (hsound : ChainSound code quantum SUSPEND e)
    (hkeep : e.keepsRunning quantum ⟨SUSPEND || raise, poolFree, rr⟩ = true) :
    e.elements.tail = [] ∨ e.stack = [] := by
  by_contra hboth
  push Not at hboth
  rcases helements : e.elements with _ | ⟨element, rest⟩
  · exact hboth.1 (by rw [helements]; rfl)
  · have hrest : rest ≠ [] := by simpa [helements] using hboth.1
    have hnot := (hsound.leaving element rest helements hrest hboth.2).2.1
    exact absurd ((keepsRunning_of_raised hkeep).symm.trans hnot) (by decide)

theorem ChainSound.waits {SUSPEND : Bool} (hsound : ChainSound code quantum SUSPEND e)
    (hpoint : e.point ≠ .loopTest) : e.elements.tail = [] ∨ e.stack = [] := by
  by_contra hboth
  push Not at hboth
  rcases helements : e.elements with _ | ⟨element, rest⟩
  · exact hboth.1 (by rw [helements]; rfl)
  · have hrest : rest ≠ [] := by simpa [helements] using hboth.1
    exact hpoint (hsound.leaving element rest helements hrest hboth.2).1

theorem ChainSound.of_moves {SUSPEND raise poolFree rr : Bool}
    (h : Moves code quantum 0 ⟨SUSPEND || raise, poolFree, rr⟩ e e' ops events)
    (hsound : ChainSound code quantum SUSPEND e)
    (hcall : ¬ Dispatch.callsOverStack code quantum ⟨e, SUSPEND, trace⟩
      (.advance raise poolFree rr)) : ChainSound code quantum (SUSPEND || raise) e' := by
  have hatCall := h.atCall hsound.atCall
  cases h with
  | returns hpoint helements =>
    exact chainSound_of_not_leaving hatCall (fun _ => helements) (.inl (by simp [helements]))
  | resumes hpoint helements _ _ _ hstack =>
    obtain ⟨stack, element, hconcat⟩ := (List.eq_nil_or_concat' e.stack).resolve_left hstack
    rw [stackExecution_of_concat hconcat] at hatCall ⊢
    exact chainSound_of_not_leaving hatCall (fun h => by simp [setStack, hpoint] at h)
      (.inl helements)
  | runsLine hpoint helements hstack _ _ _ _ _ hrun =>
    obtain ⟨hrunning, hsame, -⟩ := runLine_frames hrun (by simp [advanceProcess, hpoint])
    exact chainSound_of_not_leaving hatCall (absurd · hrunning) (.inr (hsame.trans hstack))
  | @leaves element rest line hpoint helements hline hstop =>
    rcases hfin : isFinFuncion line element.functionName with _ | _
    · have hkeep := hstop.resolve_left (by simp [hfin])
      rw [hfin, leaveFunction_unfinished] at hatCall
      rw [leaveFunction_unfinished]
      cases rest with
      | nil => exact chainSound_of_not_leaving hatCall (fun _ => rfl) (.inl rfl)
      | cons caller callers =>
        refine ⟨hatCall, fun h => by simp [setStack, hpoint] at h, ?_⟩
        rintro _ _ ⟨⟩ - -
        refine ⟨hpoint, ?_, fun line' hline' => ?_⟩
        · exact hkeep
        · obtain rfl := Option.some.inj (hline.symm.trans hline')
          exact hfin
    · rw [hfin] at hatCall
      rcases hsound.finishes helements hline hfin with rfl | hstack
      · rw [leaveFunction_last] at hatCall ⊢
        exact chainSound_of_not_leaving hatCall (fun _ => rfl) (.inl rfl)
      · rw [leaveFunction_finished hstack] at hatCall ⊢
        exact chainSound_of_not_leaving hatCall (fun h => by simp [hpoint] at h) (.inr hstack)
  | @runsFunctionLine element rest line next outcome e' ops events hpoint helements hline hfin hkeep
      hnext houtcome hrun =>
    obtain ⟨hrunning, hsame, hframes⟩ := runLine_frames hrun (by simp [advanceFunction, hpoint])
    have hstay : e'.stack = e.stack := hsame
    refine chainSound_of_not_leaving hatCall (absurd · hrunning) ?_
    rcases hframes with hframes | ⟨⟨functionName, rfl⟩, -⟩
    · have hruns := hsound.runs hkeep
      rw [helements] at hruns
      rw [hframes]
      exact hruns.imp id hstay.trans
    · exact .inr (hstay.trans (stack_nil_of_call hcall hpoint helements hline hfin hkeep hnext
        (functionLine_call houtcome)))
  | asksPool hpoint helements =>
    refine chainSound_of_not_leaving hatCall ?_ (.inl (by simp [perform, helements]))
    simp [perform, helements]
  | asksPoolInFunction hpoint =>
    refine chainSound_of_not_leaving hatCall ?_ (hsound.waits (by simp [hpoint]))
    simp only [perform]
    split_ifs <;> simp
  | counts hpoint =>
    exact chainSound_of_not_leaving hatCall (by simp [algStep]) (hsound.waits (by simp [hpoint]))

end Matching
end Exec

namespace Dispatch

def Follows (code : List CString) (quantum : ℤ) (d t : Dispatch) : Prop :=
  d.exec.ChainSound code quantum d.SUSPEND ∧
    ∃ quantumCount rafaga, t = ⟨d.exec.unrolled quantumCount rafaga, false, d.trace⟩

theorem chainSound_enter {image : TProcessImage}
    (hatCall : image.stack ≠ [] → ∃ line, code[image.PC]? = some line ∧
      stringEndsWith line (cstr "()") = true) :
    (Exec.enter image).1.ChainSound code quantum false := by
  rw [Exec.enter]
  rcases List.eq_nil_or_concat' image.stack with hstack | ⟨stack, element, hstack⟩
  · rw [show (Exec.atEntry image).stackExecution = _ from Exec.stackExecution_of_nil hstack]
    exact Exec.chainSound_of_not_leaving
      (fun hactive => hactive.elim (absurd rfl) (absurd hstack)) (fun _ => rfl) (.inl rfl)
  · rw [show (Exec.atEntry image).stackExecution = _ from Exec.stackExecution_of_concat hstack]
    exact Exec.chainSound_of_not_leaving (fun _ => hatCall (by simp [hstack])) (fun h => by cases h)
      (.inl rfl)

theorem unrolled_enter {e : Exec} (hpoint : e.point = .returned) (helements : e.elements = [])
    (quantumCount rafaga : ℕ) :
    (Exec.enter e.processImage).1.unrolled quantumCount rafaga =
      e.unrolled quantumCount rafaga := by
  rw [Exec.enter, Exec.unrolled_stackExecution rfl]
  simp [Exec.unrolled, Exec.atEntry, Exec.calls, Exec.stack, hpoint, helements]

theorem follows_start {image : TProcessImage} (h : image.stack = []) :
    Follows code quantum (start image) (start image) := by
  refine ⟨chainSound_enter (absurd h), 0, 0, ?_⟩
  rw [start, Exec.enter, Exec.unrolled_stackExecution rfl,
    show (Exec.atEntry image).stackExecution = _ from Exec.stackExecution_of_nil h]
  rcases image with ⟨clientfd, pid, priority, PC, script, data, stack, Tspn⟩
  obtain rfl : stack = [] := h
  rfl

theorem follows_next {d d' t : Dispatch} {a : Action} (h : d.next code quantum a = some d')
    (hcall : ¬ d.callsOverStack code quantum a) (hpool : ¬ d.issuesNonBlocking)
    (hfollows : Follows code quantum d t) :
    ∃ k t', iterateStep (uninterruptedStep code) k t = some t' ∧ Follows code quantum d' t' := by
  obtain ⟨hsound, quantumCount, rafaga, rfl⟩ := hfollows
  cases a with
  | advance raise poolFree rr =>
    obtain ⟨⟨e', ops, events⟩, hstep, hd'⟩ := Option.map_eq_some_iff.mp h
    cases hd'
    have hmoves := Exec.moves_of_step hstep
    obtain ⟨k, quantumCount', rafaga', hk⟩ := Exec.unrolled_of_moves hmoves hsound
      (by simpa [issuesNonBlocking] using hpool) hcall quantumCount rafaga
    exact ⟨k, _, hk, hsound.of_moves hmoves hcall, quantumCount', rafaga', rfl⟩
  | redispatch =>
    simp only [next] at h
    split_ifs at h with hreturned
    cases h
    have helements := hsound.returned hreturned.1
    refine ⟨0, _, rfl, chainSound_enter fun hstack => hsound.atCall (.inr hstack), quantumCount,
      rafaga, ?_⟩
    rw [unrolled_enter hreturned.1 helements]

/-- The uninterrupted run stops with the last line when the interrupted one finishes. -/
theorem follows_finished {d t : Dispatch} (hfollows : Follows code quantum d t)
    (hfinished : d.finished code) :
    ∃ t', uninterruptedStep code t = some t' ∧ t'.finished code ∧ t'.trace = d.trace ∧
      t'.exec.processImage = d.exec.processImage := by
  obtain ⟨hsound, quantumCount, rafaga, rfl⟩ := hfollows
  simp only [finished, Bool.and_eq_true, beq_iff_eq, Exec.atFinPrograma] at hfinished
  obtain ⟨hreturned, hline⟩ := hfinished
  have helements := hsound.returned hreturned
  have hstack : d.exec.stack = [] := by
    by_contra hstack
    obtain ⟨line, hcall, hends⟩ := hsound.atCall (.inr hstack)
    exact ne_finPrograma hends (Option.some.inj (hcall.symm.trans hline))
  have hcalls : d.exec.calls = [] := (Exec.calls_of_stack_nil hstack).trans helements
  refine ⟨_, Exec.uninterruptedStep_of_moves (.returns ?_ hcalls hline (.inl rfl)), ?_,
    List.append_nil _, ?_⟩
  · simp [Exec.unrolled, hreturned]
  · simp [finished, Exec.atFinPrograma, Exec.unrolled, hline]
  · rcases d with ⟨⟨⟨clientfd, pid, priority, PC, script, data, stack, Tspn⟩, _⟩, _⟩
    obtain rfl : stack = [] := hstack
    rfl

end Dispatch

namespace Exec

theorem runLine_isSome {e : Exec} (e' : Exec) {PC : ℕ} {outcome : LineOutcome}
    (h : (e.runLine code PC outcome).isSome) : (e'.runLine code PC outcome).isSome := by
  cases outcome with
  | effect f => rfl
  | asksPool => rfl
  | call functionName =>
    simp only [runLine, call_eq, Option.isSome_map] at h ⊢
    exact h

theorem isSome_of_moves {e e' : Exec} {env : Env} {ops : List Operation} {events : List Event}
    (h : Moves code quantum self env e e' ops events) :
    (e.step code quantum self env).isSome := by
  rw [step_of_moves h]
  rfl

theorem step_isSome_of_waiting {e : Exec} {env : Env} (hpoint : e.point = .loopTest)
    (helements : e.elements = []) (hstack : e.stack ≠ []) (hatCall : e.AtCall code) :
    (e.step code quantum self env).isSome := by
  obtain ⟨line, hline, hends⟩ := hatCall (.inr hstack)
  rcases hkeep : e.keepsRunning quantum env with _ | _
  · exact isSome_of_moves (.returns hpoint helements hline (.inr hkeep))
  · exact isSome_of_moves (.resumes hpoint helements hline (ne_finPrograma hends) hkeep hstack)

/-- The innermost call runs in a function, or is the last of the list. -/
theorem calls_eq_cons {e : Exec} {element : TStack} {rest : List TStack}
    (h : e.calls = element :: rest) :
    (e.elements = [] ∧ e.stack ≠ []) ∨ ∃ rest', e.elements = element :: rest' := by
  unfold calls at h
  rcases helements : e.elements with _ | ⟨first, others⟩
  · rw [helements] at h
    refine .inl ⟨rfl, ?_⟩
    rintro hstack
    simp [hstack] at h
  · rw [helements] at h
    exact .inr ⟨others, by rw [List.head_eq_of_cons_eq h]⟩

/-- Where the uninterrupted run can go on, so can the interrupted one. -/
theorem step_isSome_of_unrolled {e : Exec} {quantumCount rafaga : ℕ} {env : Env}
    {r : StepResult} (hatCall : e.AtCall code)
    (hreturned : e.point ≠ .returned) (hpool : e.point ≠ .poolTest)
    (h : (e.unrolled quantumCount rafaga).step code
      ((e.unrolled quantumCount rafaga).quantumCount + 1) 0 ⟨false, true, true⟩ = some r) :
    (e.step code quantum 0 env).isSome := by
  obtain ⟨u, ops, events⟩ := r
  have hpoint : (e.unrolled quantumCount rafaga).point = e.point := if_neg hreturned
  have hempty (hcalls : (e.unrolled quantumCount rafaga).elements = []) :
      e.elements = [] ∧ e.stack = [] := by
    simp only [unrolled, calls] at hcalls
    split at hcalls
    case h_1 helements => exact ⟨helements, List.reverse_eq_nil_iff.mp hcalls⟩
    case h_2 => cases hcalls
  cases moves_of_step h with
  | returns hloop helements hline hstop =>
    have hfin := hstop.resolve_right (by rw [keepsRunning_unrolled]; decide)
    exact isSome_of_moves (.returns (hpoint ▸ hloop) (hempty helements).1 hline (.inl hfin))
  | resumes _ _ _ _ _ hstack => exact absurd rfl hstack
  | runsLine hloop helements hstack hline hne hkeep hnext houtcome hrun =>
    rcases hkeep' : e.keepsRunning quantum env with _ | _
    · exact isSome_of_moves (.returns (hpoint ▸ hloop) (hempty helements).1 hline (.inr hkeep'))
    · obtain ⟨⟨e', ops', events'⟩, hrun'⟩ := Option.isSome_iff_exists.mp
        (runLine_isSome e.advanceProcess (Option.isSome_of_eq_some hrun))
      exact isSome_of_moves (.runsLine (hpoint ▸ hloop) (hempty helements).1 (hempty helements).2
        hline hne hkeep' hnext houtcome hrun')
  | leaves hloop helements hline hstop =>
    rcases calls_eq_cons helements with ⟨hidle, hstack⟩ | ⟨rest', hrunning⟩
    · exact step_isSome_of_waiting (hpoint ▸ hloop) hidle hstack hatCall
    · have hfin := hstop.resolve_right (by rw [keepsRunning_unrolled]; decide)
      exact isSome_of_moves (.leaves (hpoint ▸ hloop) hrunning hline (.inl hfin))
  | @runsFunctionLine element rest line next outcome e' ops events hloop helements hline hfin hkeep
      hnext houtcome hrun =>
    rcases calls_eq_cons helements with ⟨hidle, hstack⟩ | ⟨rest', hrunning⟩
    · exact step_isSome_of_waiting (hpoint ▸ hloop) hidle hstack hatCall
    · rcases hkeep' : e.keepsRunning quantum env with _ | _
      · exact isSome_of_moves (.leaves (hpoint ▸ hloop) hrunning hline (.inr hkeep'))
      · obtain ⟨⟨e', ops', events'⟩, hrun'⟩ := Option.isSome_iff_exists.mp
          (runLine_isSome (e.advanceFunction element rest') (Option.isSome_of_eq_some hrun))
        exact isSome_of_moves (.runsFunctionLine (hpoint ▸ hloop) hrunning hline hfin hkeep' hnext
          houtcome hrun')
  | asksPool hasks => exact absurd (hpoint ▸ hasks) hpool
  | asksPoolInFunction hasks => exact absurd (hpoint ▸ hasks) hpool
  | counts hcounts => exact isSome_of_moves (.counts (hpoint ▸ hcounts))

end Exec

namespace Dispatch

/-- In every run that makes no call over a waiting stack and asks for no non-blocking I/O, the
lines, updates and messages so far are those of the uninterrupted run after some number of its
steps; the run is stuck only where that one is, and finishes only when that one does. -/
theorem preemption_transparent (code : List CString) (quantum : ℤ) (clientfd pid : ℕ)
    (priority : Int32) (script : CString) (TANT : ℚ) (d : Dispatch)
    (h : RunsTo (next code quantum)
      (fun d a => ¬ d.callsOverStack code quantum a ∧ ¬ d.issuesNonBlocking)
      (start (newImage clientfd pid priority script TANT)) d) :
    ∃ n u, iterateStep (uninterruptedStep code) n
        (start (newImage clientfd pid priority script TANT)) = some u ∧
      u.trace = d.trace ∧ u.exec.processImage.data = d.exec.processImage.data ∧
      (d.finished code → u.finished code) ∧
      (d.exec.point ≠ .returned → ¬ d.issuesNonBlocking → (uninterruptedStep code u).isSome →
        ∀ raise poolFree rr, (d.next code quantum (.advance raise poolFree rr)).isSome) := by
  obtain ⟨n, u, hn, hfollows⟩ := RunsTo.simulated (follows_start rfl)
    (fun d a d' t hfollows hok hnext => follows_next hnext hok.1 hok.2 hfollows) h
  by_cases hfinished : d.finished code
  · obtain ⟨t, ht, htfinished, htrace, himage⟩ := follows_finished hfollows hfinished
    refine ⟨n + 1, t, Option.bind_eq_some_iff.mpr ⟨u, hn, ht⟩, htrace, by rw [himage],
      fun _ => htfinished, fun hreturned => ?_⟩
    simp only [finished, Bool.and_eq_true, beq_iff_eq] at hfinished
    exact absurd hfinished.1 hreturned
  · obtain ⟨hsound, quantumCount, rafaga, rfl⟩ := hfollows
    refine ⟨n, _, hn, rfl, rfl, fun hd => absurd hd hfinished, ?_⟩
    intro hreturned hpool hu raise poolFree rr
    simp only [uninterruptedStep, next, Option.isSome_map] at hu ⊢
    obtain ⟨r, hr⟩ := Option.isSome_iff_exists.mp hu
    exact Exec.step_isSome_of_unrolled hsound.atCall hreturned
      (by simpa [issuesNonBlocking] using hpool) hr

def dispatchesOf (counts : List ℕ) : List Action :=
  List.intercalate [.redispatch] (counts.map (List.replicate · (.advance false true true)))

def submitted (code : List CString) : TProcessImage :=
  newImage 5 11 0 (List.intercalate [newline] code) 0

def nestedCode : List CString :=
  [cstr "comienzo_programa", cstr "variables,a", cstr "f()", cstr "fin_programa",
    cstr "comienzo_funcion f", cstr "a=10", cstr "g()", cstr "fin_funcion f",
    cstr "comienzo_funcion g", cstr "a=20", cstr "fin_funcion g"]

theorem preemption_transparent_nested : ∃ d : Dispatch, d.finished nestedCode ∧
    ∃ n u, iterateStep (uninterruptedStep nestedCode) n
        (start (submitted nestedCode)) = some u ∧
      u.trace = d.trace ∧ u.exec.processImage.data = d.exec.processImage.data ∧
      (d.finished nestedCode → u.finished nestedCode) ∧
      (d.exec.point ≠ .returned → ¬ d.issuesNonBlocking → (uninterruptedStep nestedCode u).isSome →
        ∀ raise poolFree rr, (d.next nestedCode 1 (.advance raise poolFree rr)).isSome) := by
  have hrun : ((follow (next nestedCode 1)
      (fun d a => !d.callsOverStack nestedCode 1 a && !d.issuesNonBlocking)
      (start (submitted nestedCode)) (dispatchesOf [6, 6, 7])).any
        (·.finished nestedCode)) = true := by decide +kernel
  obtain ⟨d, hd, hfinished⟩ := (Option.any_eq_true _ _).mp hrun
  refine ⟨d, hfinished, preemption_transparent nestedCode 1 5 11 0 _ 0 d ?_⟩
  exact RunsTo.of_follow (fun d a h => by simpa using h) _ hd

/-- `g` is resumed from the list, where `f` waits, and calls `h`. -/
def crossedCode : List CString :=
  [cstr "comienzo_programa", cstr "variables a", cstr "f()", cstr "fin_programa",
    cstr "comienzo_funcion f", cstr "g()", cstr "a=10", cstr "fin_funcion f",
    cstr "comienzo_funcion g", cstr "a=20", cstr "h()", cstr "a=30", cstr "fin_funcion g",
    cstr "comienzo_funcion h", cstr "fin_funcion h"]

theorem crossed_calls_not_transparent : ∃ d : Dispatch,
    RunsTo (next crossedCode 1) (fun d _ => ¬ d.issuesNonBlocking)
      (start (submitted crossedCode)) d ∧ d.finished crossedCode ∧
    ∃ u : Dispatch, iterateStep (uninterruptedStep crossedCode) 18
        (start (submitted crossedCode)) = some u ∧ u.finished crossedCode ∧
      u.trace ≠ d.trace := by
  have hrun : ((follow (next crossedCode 1) (fun d _ => !d.issuesNonBlocking)
      (start (submitted crossedCode)) (dispatchesOf [8, 7, 7, 4])).any fun d =>
        d.finished crossedCode &&
          (iterateStep (uninterruptedStep crossedCode) 18
            (start (submitted crossedCode))).any fun u =>
              u.finished crossedCode && u.trace != d.trace) = true := by decide +kernel
  obtain ⟨d, hd, hrest⟩ := (Option.any_eq_true _ _).mp hrun
  obtain ⟨hfinished, hrest⟩ := Bool.and_eq_true_iff.mp hrest
  obtain ⟨u, hu, hrest⟩ := (Option.any_eq_true _ _).mp hrest
  obtain ⟨hufinished, htrace⟩ := Bool.and_eq_true_iff.mp hrest
  exact ⟨d, RunsTo.of_follow (fun d a h => by simpa using h) _ hd, hfinished, u, hu, hufinished,
    by simpa using htrace⟩

end Dispatch
end Sisop
