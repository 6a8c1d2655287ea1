import CegChain.Consensus.Handlers

/-!
# The order of execution

The last executed sequence is written by the loop of `TryExecuteValue`, by the jump of
`TryDoTraceOut` beyond the watermark, and by `UpdateValidators` from the proof of a closed
ledger.  All three only raise it, and only the loop hands a value over, with the sequence that
it has just raised it to.  So the sequences that are handed over increase, and none of them is
beyond the last executed one (`PbftState.InOrder`).  The validators may change in a run.
-/

namespace CegChain

/-- The sequence of a value that is handed over. -/
def Output.executed? : Output → Option ℤ
  | .valueCommited sequence _ _ => some sequence
  | _ => none

/-- The sequences of the values that have been handed over, in this order. -/
def PbftState.executed (st : PbftState) : List ℤ :=
  st.outputs.filterMap Output.executed?

/-- The values have been handed over in order, up to the last executed sequence. -/
structure PbftState.InOrder (st : PbftState) : Prop where
  increasing : st.executed.Pairwise (· < ·)
  le_lastExeSeq : ∀ sequence ∈ st.executed, sequence ≤ st.lastExeSeq

section Execution

variable {crypto : Crypto} {key : PrivateKey} {trigger : Trigger} {st st' : PbftState}
  {env : PbftEnv} {o : Output} {validators : List Bytes}

theorem executed_output (st : PbftState) (o : Output) :
    (st.output o).executed = st.executed ++ o.executed?.toList := by
  simp only [PbftState.executed, PbftState.output, List.filterMap_append]
  cases hexecuted : o.executed? <;> simp [hexecuted]

theorem executed_sendMessage : (st.sendMessage env).executed = st.executed := by
  unfold PbftState.sendMessage
  split
  · simp [executed_output, Output.executed?]
  · rfl

theorem sendMessage_lastExeSeq : (st.sendMessage env).lastExeSeq = st.lastExeSeq := by
  unfold PbftState.sendMessage
  split <;> rfl

/-- No move lowers the last executed sequence. -/
theorem Move.lastExeSeq_le (hmove : Move crypto key trigger st st') :
    st.lastExeSeq ≤ st'.lastExeSeq := by
  cases hmove with
  | other hsame => exact hsame.lastExeSeq_le
  | traceOut hsequence =>
      have hinterval : (0 : ℤ) ≤ ckpInterval := by decide
      omega
  | sendCommit => exact sendMessage_lastExeSeq.ge
  | execute => exact Int.le_add_one le_rfl
  | _ => exact le_rfl

/-- A move hands over no value, or the one after the last executed sequence. -/
theorem Move.executed (hmove : Move crypto key trigger st st') :
    st'.executed = st.executed ∨
      st'.lastExeSeq = st.lastExeSeq + 1 ∧ st'.executed = st.executed ++ [st.lastExeSeq + 1] := by
  cases hmove with
  | other hsame => exact Or.inl (congrArg (List.filterMap Output.executed?) hsame.outputs_eq)
  | traceOut _ _ _ houtputs => exact Or.inl (congrArg (List.filterMap Output.executed?) houtputs)
  | sendCommit => exact Or.inl executed_sendMessage
  | viewChanged => exact Or.inl (by simp [executed_output, Output.executed?])
  | resetCloseTimer => exact Or.inl (by simp [executed_output, Output.executed?])
  | sendOther => exact Or.inl (by simp [executed_output, Output.executed?])
  | execute _ _ hsequence =>
      refine Or.inr ⟨rfl, ?_⟩
      rw [executed_output, Output.executed?, hsequence]
      rfl
  | _ => exact Or.inl rfl

theorem PbftState.InOrder.move (horder : st.InOrder) (hmove : Move crypto key trigger st st') :
    st'.InOrder := by
  have hle := hmove.lastExeSeq_le
  rcases hmove.executed with heq | ⟨hlast, heq⟩
  · refine ⟨heq ▸ horder.increasing, fun sequence hsequence => ?_⟩
    exact (horder.le_lastExeSeq sequence (heq ▸ hsequence)).trans hle
  · constructor
    · rw [heq]
      refine List.pairwise_append.mpr ⟨horder.increasing, List.pairwise_singleton _ _, ?_⟩
      intro earlier hearlier later hlater
      rw [List.mem_singleton.mp hlater]
      exact Int.lt_add_one_of_le (horder.le_lastExeSeq earlier hearlier)
    · intro sequence hsequence
      rw [heq] at hsequence
      rcases List.mem_append.mp hsequence with hold | hnew
      · exact (horder.le_lastExeSeq sequence hold).trans hle
      · rw [List.mem_singleton.mp hnew, hlast]

/-! ## Events -/

theorem told_lastExeSeq (event : Event) :
    (event.told crypto key st).lastExeSeq = st.lastExeSeq := by
  rcases told_cases event with htold | ⟨_, htold⟩ <;> rw [htold]
  rfl

theorem told_executed (event : Event) : (event.told crypto key st).executed = st.executed := by
  rcases told_cases event with htold | ⟨_, htold⟩ <;> rw [htold]
  rfl

/-- No event lowers the last executed sequence. -/
theorem lastExeSeq_le_step (event : Event) (htyped : st.Typed) :
    st.lastExeSeq ≤ (step crypto key st event).lastExeSeq := by
  refine @Moves.invariant _ _ _ _ _ (fun mid => st.lastExeSeq ≤ mid.lastExeSeq)
    (step_moves_told event htyped) (fun mid mid' hmove hle => ?_) (told_lastExeSeq event).ge
  exact hle.trans hmove.lastExeSeq_le

theorem PbftState.InOrder.step (horder : st.InOrder) (event : Event) (htyped : st.Typed) :
    (step crypto key st event).InOrder := by
  have htold : (event.told crypto key st).InOrder := by
    constructor
    · rw [told_executed]
      exact horder.increasing
    · rw [told_executed, told_lastExeSeq]
      exact horder.le_lastExeSeq
  exact (step_moves_told event htyped).invariant
    (fun mid mid' hmove hmid => hmid.move hmove) htold

/-! ## Runs -/

theorem run_inOrder (events : List Event) : (run crypto key validators events).InOrder := by
  induction events using List.reverseRecOn with
  | nil => exact ⟨List.Pairwise.nil, fun _ hsequence => absurd hsequence List.not_mem_nil⟩
  | append_singleton events event ih =>
      rw [run, List.foldl_concat]
      exact ih.step event (run_typed events)

theorem lastExeSeq_le_run (before after : List Event) :
    (run crypto key validators before).lastExeSeq ≤
      (run crypto key validators (before ++ after)).lastExeSeq := by
  induction after using List.reverseRecOn with
  | nil => rw [List.append_nil]
  | append_singleton after event ih =>
      rw [← List.append_assoc]
      conv_rhs => rw [run, List.foldl_concat]
      exact ih.trans (lastExeSeq_le_step event (run_typed (before ++ after)))

/-- **The order of execution.**  In every run, the last executed sequence never decreases, and the
sequences that are handed over increase strictly. -/
theorem execution_order (crypto : Crypto) (key : PrivateKey) (validators : List Bytes)
    (events : List Event) :
    (∀ before after, events = before ++ after → (run crypto key validators before).lastExeSeq ≤
        (run crypto key validators events).lastExeSeq) ∧
      (run crypto key validators events).executed.Pairwise (· < ·) := by
  refine ⟨fun before after hsplit => ?_, (run_inOrder events).increasing⟩
  subst hsplit
  exact lastExeSeq_le_run before after

end Execution

end CegChain
