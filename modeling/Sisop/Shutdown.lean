import Sisop.ProcessConservation

/-!
# `SIGINT`

The signal handler ends, and with it the program, when `MPS_sem` has its initial value again.
`main` then destroys the lists as they are, without the images they hold. None is left by then: a
token that is out belongs to an image not freed, to one that `LTSconex` is about to build or to
one that `PROCER` has just freed.
-/

namespace Sisop

/-- `sem_getvalue(MPS)` is compared with `MPS_max_val`; otherwise a line is printed. -/
def SignalHandler.exits (MPS_max_val : ℕ) (s : Shared) : Bool := s.sem .mpsSem == MPS_max_val

namespace PP

variable {cfg : Config} {ok : PP → Step → Prop} {st : PP} {ALG : Algorithm}
  {priorities : QueueName → ℤ} {p : Ptr}

/-- The tokens of `MPS_sem` in every reachable state. -/
theorem slots_conserved (h : RunsTo (next cfg) ok (start cfg ALG priorities) st) :
    (liveImages st.shared).card + building (st.thread .ltsConex) +
      unreturned (st.thread .procer) + st.shared.sem .mpsSem = cfg.MPS := by
  have htotal := slots_run h
  have hcard := liveImages_card h
  rw [Ledger.total, slots_threads (slotShape_run h)] at htotal
  simp only [slots] at htotal
  omega

/-- Nothing refers to an image that is not live. -/
theorem places_eq_zero (h : RunsTo (next cfg) ok (start cfg ALG priorities) st)
    (hp : p ∉ liveImages st.shared) : places cfg st p = 0 := by
  have hnone : ¬ (p < st.shared.allocated ∧ p ∉ st.shared.freed) := by
    simpa [liveImages] using hp
  by_contra hplaces
  refine hnone (live_of_place h ?_)
  rw [places] at hplaces
  by_cases hstored : stored p st.shared = 0
  · right
    by_contra hthreads
    push Not at hthreads
    refine hplaces ?_
    rw [hstored, zero_add]
    refine Finset.sum_eq_zero fun t ht => ?_
    rw [← imageCount_thread]
    exact Nat.le_zero.mp (hthreads t ht)
  · exact .inl (Nat.pos_of_ne_zero hstored)

/-- In every reachable state a `SIGINT` ends the program exactly when every image built has been
freed, no script is about to become one and no token is about to be returned; and then no list, no
blocking entry of `LPB` and no thread has an image any more. -/
theorem exits_iff_no_process (cfg : Config) (ALG : Algorithm) (priorities : QueueName → ℤ) (st : PP)
    (h : RunsTo (next cfg) (fun _ _ => True) (start cfg ALG priorities) st) :
    (SignalHandler.exits cfg.MPS st.shared = true ↔
      (∀ p < st.shared.allocated, p ∈ st.shared.freed) ∧ building (st.thread .ltsConex) = 0 ∧
        unreturned (st.thread .procer) = 0) ∧
      (SignalHandler.exits cfg.MPS st.shared = true → ∀ p, places cfg st p = 0) := by
  have hslots := slots_conserved h
  have hlive : (∀ p < st.shared.allocated, p ∈ st.shared.freed) ↔
      (liveImages st.shared).card = 0 := by
    rw [Finset.card_eq_zero, liveImages, Finset.sdiff_eq_empty_iff_subset]
    simp [Finset.subset_iff]
  have hexits : SignalHandler.exits cfg.MPS st.shared = true ↔
      (liveImages st.shared).card = 0 ∧ building (st.thread .ltsConex) = 0 ∧
        unreturned (st.thread .procer) = 0 := by
    rw [SignalHandler.exits, beq_iff_eq]
    omega
  refine ⟨by rw [hexits, hlive], fun hends p => places_eq_zero h ?_⟩
  rw [Finset.card_eq_zero.mp (hexits.mp hends).1]
  exact Finset.notMem_empty p

/-- The only script has run to its end. -/
theorem exits_after_last_process : ∃ st : PP, st.shared.freed = [0] ∧
    SignalHandler.exits smallConfig.MPS st.shared = true ∧
      (SignalHandler.exits smallConfig.MPS st.shared = true ↔
        (∀ p < st.shared.allocated, p ∈ st.shared.freed) ∧ building (st.thread .ltsConex) = 0 ∧
          unreturned (st.thread .procer) = 0) ∧
        (SignalHandler.exits smallConfig.MPS st.shared = true →
          ∀ p, places smallConfig st p = 0) := by
  have hrun : ((follow (next smallConfig) (fun _ _ => true) (start smallConfig .fifo fun _ => 0)
      (goes .ltsConex 3 ++ submits idleScript 0 ++ goes .sts 19 ++ goes .procer 24)).any fun st =>
        st.shared.freed == [0] && SignalHandler.exits smallConfig.MPS st.shared) = true := by
    decide +kernel
  obtain ⟨st, hst, hvalues⟩ := (Option.any_eq_true _ _).mp hrun
  rw [Bool.and_eq_true, beq_iff_eq] at hvalues
  exact ⟨st, hvalues.1, hvalues.2, exits_iff_no_process smallConfig .fifo (fun _ => 0) st
    (RunsTo.of_follow (fun _ _ _ => trivial) _ hst)⟩

end PP
end Sisop
