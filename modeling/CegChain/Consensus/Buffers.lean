import CegChain.Consensus.Handlers

/-!
# What an instance holds

`Kept` collects what has to be shown of a property of single instances so that every move
keeps it.  The first such property is `PbftInstance.Filed`, which holds in every run with
the same validators: the messages in a buffer have the type and the index of the buffer,
the COMMITs have been checked, and nothing is counted for a value before the value is
there.  `PbftInstance.Placed` is the part of it that does not depend on the validators,
with the view of the PREPAREs that are counted.
-/

namespace CegChain

/-- A property of instances that the moves keep. -/
structure Kept (crypto : Crypto) (trigger : Trigger) (quorumSize : ℕ)
    (good : PbftInstanceIndex → PbftInstance → Prop) : Prop where
  new : ∀ index now, good index (.new now)
  pushBack : ∀ {st index pinstance env}, good index pinstance →
    trigger.received st pinstance env → env.pbft.index? = some index →
    good index (pinstance.pushBack env)
  sameAgreement : ∀ {index pinstance pinstance'}, good index pinstance →
    pinstance.SameAgreement pinstance' → good index pinstance'
  proposed : ∀ {st index env} now, trigger.proposed st env → env.pbft.index? = some index →
    env.pbft.type = .preprepare →
    env.pbft.prePrepare.valueDigest = crypto.hash env.pbft.prePrepare.value →
    good index (.proposed env now)
  accepted : ∀ {index pinstance env} checkValueRet, good index pinstance →
    pinstance.phase = .none → pinstance.Due env →
    env.pbft.prePrepare.valueDigest = crypto.hash env.pbft.prePrepare.value →
    good index (pinstance.accepted env.pbft.prePrepare checkValueRet)
  withPrepare : ∀ {index pinstance env}, good index pinstance → pinstance.Due env →
    env.pbft.type = .prepare →
    pinstance.prePrepare.valueDigest = env.pbft.prepare.valueDigest →
    good index (pinstance.withPrepare quorumSize env.pbft.prepare)
  withCommit : ∀ {index pinstance env} now, good index pinstance →
    pinstance.Due env ∨ trigger.stray env ∧ env.pbft.index? = some index →
    env.pbft.type = .commit →
    pinstance.prePrepare.valueDigest = env.pbft.commit.valueDigest →
    pinstance.commits.lookup env.pbft.commit.replicaId = none →
    good index (pinstance.withCommit quorumSize env.pbft.commit now)

section Kept

variable {crypto : Crypto} {key : PrivateKey} {trigger : Trigger} {st st' : PbftState}
  {good : PbftInstanceIndex → PbftInstance → Prop}

theorem Kept.move (hkept : Kept crypto trigger st.quorumSize good)
    (hmove : Move crypto key trigger st st')
    (hgood : ∀ entry ∈ st.instances, good entry.1 entry.2) :
    ∀ entry ∈ st'.instances, good entry.1 entry.2 := by
  cases hmove with
  | other hsame => exact hsame.instances_eq ▸ hgood
  | traceOut _ _ hinstances _ =>
      intro entry hentry
      rw [hinstances] at hentry
      exact hgood entry (List.mem_of_mem_filter hentry)
  | viewChanged | resetCloseTimer | sendOther | execute => exact hgood
  | erase => exact fun entry hentry => hgood entry (List.mem_of_mem_filter hentry)
  | create now =>
      intro entry hentry
      exact forall_mem_setInstance hgood (hkept.new _ now) entry (List.mem_of_mem_filter hentry)
  | buffer hmem hreceived hindex =>
      exact forall_mem_setInstance hgood (hkept.pushBack (hgood _ hmem) hreceived hindex)
  | tick hmem hsame =>
      have hold := hgood _ hmem
      exact forall_mem_setInstance hgood (hkept.sameAgreement hold hsame)
  | propose now hproposed hindex htype _ hdigest =>
      refine forall_mem_setInstance (fun entry hentry => ?_)
        (hkept.proposed now hproposed hindex htype hdigest)
      exact hgood entry (List.mem_of_mem_filter hentry)
  | accept checkValueRet hmem hphase hdue hdigest =>
      exact forall_mem_setInstance hgood
        (hkept.accepted checkValueRet (hgood _ hmem) hphase hdue hdigest)
  | prepare hmem hdue htype hdigest =>
      exact forall_mem_setInstance hgood (hkept.withPrepare (hgood _ hmem) hdue htype hdigest)
  | sendCommit _ hmem _ hsame =>
      have hold := hgood _ hmem
      refine forall_mem_setInstance ?_ (hkept.sameAgreement hold hsame)
      rw [sendMessage_instances]
      exact hgood
  | commit now hmem hsource htype hdigest hnew =>
      exact forall_mem_setInstance hgood
        (hkept.withCommit now (hgood _ hmem) hsource htype hdigest hnew)

end Kept

/-- What is in an instance belongs there. -/
structure PbftInstance.Filed (crypto : Crypto) (validators : List Bytes)
    (index : PbftInstanceIndex) (pinstance : PbftInstance) : Prop where
  prePrepareBuf_type : ∀ env ∈ pinstance.prePrepareBuf, env.pbft.type = .preprepare
  prepareBuf_type : ∀ env ∈ pinstance.prepareBuf, env.pbft.type = .prepare
  commitBuf_type : ∀ env ∈ pinstance.commitBuf, env.pbft.type = .commit
  commitBuf_check : ∀ env ∈ pinstance.commitBuf,
    checkMessageItem crypto (.ofSet validators) env = true
  buffered_index : ∀ env ∈ pinstance.buffered, env.pbft.index? = some index
  waiting : pinstance.phase = .none → pinstance.prePrepare = {} ∧ pinstance.prepares = []
  prepares_eq : ∀ entry ∈ pinstance.prepares, entry.2.sequence = index.sequence ∧
    entry.2.valueDigest = pinstance.prePrepare.valueDigest
  commits_nodup : (pinstance.commits.map Prod.fst).Nodup

namespace PbftInstance.Filed

variable {crypto : Crypto} {validators : List Bytes} {index : PbftInstanceIndex}
  {pinstance : PbftInstance} {env : PbftEnv}

/-- A buffered COMMIT is in the buffer of the COMMITs. -/
theorem mem_commitBuf (hfiled : pinstance.Filed crypto validators index)
    (hmem : env ∈ pinstance.buffered) (htype : env.pbft.type = .commit) :
    env ∈ pinstance.commitBuf := by
  rcases List.mem_append.mp hmem with hother | hcommit
  · rcases List.mem_append.mp hother with hmem | hmem
    · simpa [htype] using hfiled.prePrepareBuf_type env hmem
    · simpa [htype] using hfiled.prepareBuf_type env hmem
  · exact hcommit

/-- Before there is a value, nothing but a PRE-PREPARE is handled. -/
theorem mem_prePrepareBuf (hdue : pinstance.Due env) (hphase : pinstance.phase = .none) :
    env ∈ pinstance.prePrepareBuf := by
  rcases hdue with hmem | ⟨-, hlate⟩
  · simpa only [PbftInstance.phaseBuf, hphase] using hmem
  · simp [hphase, PbftInstancePhase.toNat] at hlate

theorem phase_ne_none (hfiled : pinstance.Filed crypto validators index)
    (hdue : pinstance.Due env) (htype : env.pbft.type ≠ .preprepare) :
    pinstance.phase ≠ .none := fun hphase =>
  htype (hfiled.prePrepareBuf_type env (mem_prePrepareBuf hdue hphase))

/-- A PREPARE that is handled is for the sequence of the instance. -/
theorem prepare_sequence (hfiled : pinstance.Filed crypto validators index)
    (hmem : env ∈ pinstance.buffered) (htype : env.pbft.type = .prepare) :
    env.pbft.prepare.sequence = index.sequence := by
  have hindex := hfiled.buffered_index env hmem
  simp only [Pbft.index?, htype, Option.some.injEq] at hindex
  exact congrArg PbftInstanceIndex.sequence hindex

theorem commit_sequence (hindex : env.pbft.index? = some index) (htype : env.pbft.type = .commit) :
    env.pbft.commit.sequence = index.sequence := by
  simp only [Pbft.index?, htype, Option.some.injEq] at hindex
  exact congrArg PbftInstanceIndex.sequence hindex

theorem prePrepare_sequence (hindex : env.pbft.index? = some index)
    (htype : env.pbft.type = .preprepare) : env.pbft.prePrepare.sequence = index.sequence := by
  simp only [Pbft.index?, htype, Option.some.injEq] at hindex
  exact congrArg PbftInstanceIndex.sequence hindex

theorem new (index : PbftInstanceIndex) (now : ℤ) :
    (PbftInstance.new now).Filed crypto validators index := by
  constructor <;> simp [PbftInstance.new, PbftInstance.buffered]

theorem buffered_pushBack {other : PbftEnv} (hmem : other ∈ (pinstance.pushBack env).buffered) :
    other ∈ pinstance.buffered ∨ other = env := by
  unfold PbftInstance.pushBack PbftInstance.buffered at *
  split at hmem <;> simp only [List.mem_append, List.mem_singleton] at * <;> tauto

theorem pushBack (hfiled : pinstance.Filed crypto validators index)
    (hcheck : checkMessageItem crypto (.ofSet validators) env = true)
    (hindex : env.pbft.index? = some index) :
    (pinstance.pushBack env).Filed crypto validators index := by
  have hbuffered : ∀ other ∈ (pinstance.pushBack env).buffered, other.pbft.index? = some index := by
    intro other hother
    rcases buffered_pushBack hother with hold | rfl
    · exact hfiled.buffered_index other hold
    · exact hindex
  unfold PbftInstance.pushBack at *
  split at hbuffered <;> rename_i htype
  · refine { hfiled with prePrepareBuf_type := ?_, buffered_index := hbuffered }
    simpa [or_imp, forall_and, htype] using hfiled.prePrepareBuf_type
  · refine { hfiled with prepareBuf_type := ?_, buffered_index := hbuffered }
    simpa [or_imp, forall_and, htype] using hfiled.prepareBuf_type
  · refine { hfiled with
      commitBuf_type := ?_, commitBuf_check := ?_, buffered_index := hbuffered }
    · simpa [or_imp, forall_and, htype] using hfiled.commitBuf_type
    · simpa [or_imp, forall_and, hcheck] using hfiled.commitBuf_check
  · exact hfiled

theorem sameAgreement {pinstance' : PbftInstance} (hfiled : pinstance.Filed crypto validators index)
    (hsame : pinstance.SameAgreement pinstance') :
    pinstance'.Filed crypto validators index := by
  obtain ⟨hphase, hprePrepare, hprepares, hcommits, hprePrepareBuf, hprepareBuf, hcommitBuf, -⟩ :=
    hsame
  have hbuffered : pinstance'.buffered = pinstance.buffered := by
    simp only [PbftInstance.buffered, hprePrepareBuf, hprepareBuf, hcommitBuf]
  constructor <;> simp only [hphase, hprePrepare, hprepares, hcommits, hprePrepareBuf, hprepareBuf,
    hcommitBuf, hbuffered]
  exacts [hfiled.prePrepareBuf_type, hfiled.prepareBuf_type, hfiled.commitBuf_type,
    hfiled.commitBuf_check, hfiled.buffered_index, hfiled.waiting, hfiled.prepares_eq,
    hfiled.commits_nodup]

theorem proposed (now : ℤ) (hindex : env.pbft.index? = some index)
    (htype : env.pbft.type = .preprepare) :
    (PbftInstance.proposed env now).Filed crypto validators index := by
  constructor <;>
    simp [PbftInstance.proposed, PbftInstance.new, PbftInstance.buffered, htype, hindex]

theorem accepted (hfiled : pinstance.Filed crypto validators index)
    (prePrepare : PbftPrePrepare) (checkValueRet : CheckValueResult)
    (hphase : pinstance.phase = .none) :
    (pinstance.accepted prePrepare checkValueRet).Filed crypto validators index := by
  refine { hfiled with waiting := by simp [PbftInstance.accepted], prepares_eq := ?_ }
  simp [PbftInstance.accepted, (hfiled.waiting hphase).2]

theorem withPrepare (hfiled : pinstance.Filed crypto validators index) (quorumSize : ℕ)
    (hdue : pinstance.Due env) (htype : env.pbft.type = .prepare)
    (hdigest : pinstance.prePrepare.valueDigest = env.pbft.prepare.valueDigest) :
    (pinstance.withPrepare quorumSize env.pbft.prepare).Filed crypto validators index := by
  have hphase := hfiled.phase_ne_none hdue (by simp [htype])
  have hprepares : ∀ entry ∈ OrderedMap.insertNew env.pbft.prepare.replicaId env.pbft.prepare
      pinstance.prepares, entry.2.sequence = index.sequence ∧
        entry.2.valueDigest = pinstance.prePrepare.valueDigest := by
    intro entry hentry
    rcases OrderedMap.mem_insertNew hentry with rfl | hold
    · exact ⟨hfiled.prepare_sequence hdue.mem_buffered htype, hdigest.symm⟩
    · exact hfiled.prepares_eq entry hold
  unfold PbftInstance.withPrepare
  simp only
  split_ifs
  · exact { hfiled with waiting := by simp, prepares_eq := hprepares }
  · exact { hfiled with waiting := fun hnone => absurd hnone hphase, prepares_eq := hprepares }
  · exact { hfiled with waiting := fun hnone => absurd hnone hphase, prepares_eq := hprepares }

theorem withCommit (hfiled : pinstance.Filed crypto validators index) (quorumSize : ℕ)
    (commit : PbftCommit) (now : ℤ) :
    (pinstance.withCommit quorumSize commit now).Filed crypto validators index := by
  have hnodup := OrderedMap.nodup_insert commit.replicaId commit hfiled.commits_nodup
  unfold PbftInstance.withCommit
  simp only
  split_ifs
  · exact { hfiled with waiting := by simp, commits_nodup := hnodup }
  · exact { hfiled with commits_nodup := hnodup }

/-- The moves keep the instances in order if what arrives has been checked. -/
theorem kept {trigger : Trigger} (quorumSize : ℕ)
    (hcheck : ∀ st pinstance env, trigger.received st pinstance env →
      checkMessageItem crypto (.ofSet validators) env = true) :
    Kept crypto trigger quorumSize fun index pinstance =>
      pinstance.Filed crypto validators index where
  new := new
  pushBack hfiled hreceived hindex := hfiled.pushBack (hcheck _ _ _ hreceived) hindex
  sameAgreement hfiled hsame := hfiled.sameAgreement hsame
  proposed now _ hindex htype _ := proposed now hindex htype
  accepted checkValueRet hfiled hphase _ _ := hfiled.accepted _ checkValueRet hphase
  withPrepare hfiled hdue htype hdigest := hfiled.withPrepare quorumSize hdue htype hdigest
  withCommit now hfiled _ _ _ _ := hfiled.withCommit quorumSize _ now

end PbftInstance.Filed

/-! ## Messages and their instances -/

/-- The messages in the buffers and the PREPAREs that are counted are of the instance. -/
structure PbftInstance.Placed (index : PbftInstanceIndex) (pinstance : PbftInstance) : Prop where
  buffered_index : ∀ env ∈ pinstance.buffered, env.pbft.index? = some index
  prepares_index : ∀ entry ∈ pinstance.prepares,
    (⟨entry.2.viewNumber, entry.2.sequence⟩ : PbftInstanceIndex) = index

section Placed

variable {crypto : Crypto} {key : PrivateKey} {trigger : Trigger} {st st' : PbftState}
  {index : PbftInstanceIndex} {pinstance : PbftInstance} {env : PbftEnv}

theorem withPrepare_prepares (quorumSize : ℕ) (prepare : PbftPrepare) :
    (pinstance.withPrepare quorumSize prepare).prepares =
      OrderedMap.insertNew prepare.replicaId prepare pinstance.prepares := by
  unfold PbftInstance.withPrepare
  simp only
  split_ifs <;> rfl

/-- What a COMMIT that is counted leaves alone. -/
theorem withCommit_kept (quorumSize : ℕ) (commit : PbftCommit) (now : ℤ) :
    (pinstance.withCommit quorumSize commit now).buffered = pinstance.buffered ∧
      (pinstance.withCommit quorumSize commit now).prepares = pinstance.prepares ∧
      (pinstance.withCommit quorumSize commit now).lastCommitSendTime =
        pinstance.lastCommitSendTime := by
  unfold PbftInstance.withCommit PbftInstance.buffered
  simp only
  split_ifs <;> exact ⟨rfl, rfl, rfl⟩

/-- What a message that is buffered leaves alone. -/
theorem pushBack_kept (env : PbftEnv) :
    (pinstance.pushBack env).prepares = pinstance.prepares ∧
      (pinstance.pushBack env).lastCommitSendTime = pinstance.lastCommitSendTime := by
  unfold PbftInstance.pushBack
  split <;> exact ⟨rfl, rfl⟩

theorem PbftInstance.SameAgreement.buffered_eq {pinstance' : PbftInstance}
    (hsame : pinstance.SameAgreement pinstance') : pinstance'.buffered = pinstance.buffered := by
  simp only [PbftInstance.buffered, hsame.prePrepareBuf_eq, hsame.prepareBuf_eq,
    hsame.commitBuf_eq]

theorem PbftInstance.Placed.kept (quorumSize : ℕ) :
    Kept crypto trigger quorumSize fun index pinstance => pinstance.Placed index where
  new index now := ⟨by simp [PbftInstance.new, PbftInstance.buffered], by simp [PbftInstance.new]⟩
  pushBack hplaced _ hindex := by
    refine ⟨fun other hother => ?_, ?_⟩
    · rcases PbftInstance.Filed.buffered_pushBack hother with hold | rfl
      · exact hplaced.buffered_index other hold
      · exact hindex
    · rw [(pushBack_kept _).1]
      exact hplaced.prepares_index
  sameAgreement hplaced hsame :=
    ⟨hsame.buffered_eq ▸ hplaced.buffered_index, hsame.prepares_eq ▸ hplaced.prepares_index⟩
  proposed now _ hindex _ _ := by
    constructor <;> simp [PbftInstance.proposed, PbftInstance.new, PbftInstance.buffered, hindex]
  accepted _ hplaced _ _ _ := ⟨hplaced.buffered_index, hplaced.prepares_index⟩
  withPrepare hplaced hdue htype _ := by
    refine ⟨by rw [withPrepare_buffered]; exact hplaced.buffered_index, fun entry hentry => ?_⟩
    rw [withPrepare_prepares] at hentry
    rcases OrderedMap.mem_insertNew hentry with rfl | hold
    · have hindex := hplaced.buffered_index _ hdue.mem_buffered
      simpa only [Pbft.index?, htype, Option.some.injEq] using hindex
    · exact hplaced.prepares_index entry hold
  withCommit now hplaced _ _ _ _ := by
    constructor
    · rw [(withCommit_kept _ _ _).1]
      exact hplaced.buffered_index
    · rw [(withCommit_kept _ _ _).2.1]
      exact hplaced.prepares_index

/-- An instance that has sent a COMMIT has counted a PREPARE. -/
def PbftState.Backed (st : PbftState) : Prop :=
  ∀ entry ∈ st.instances, entry.2.lastCommitSendTime ≠ 0 → entry.2.prepares ≠ []

/-- The PREPARE that a COMMIT is sent for is of the instance. -/
theorem PbftInstance.Placed.commitsFor {viewNumber : ℤ} {prepare : PbftPrepare}
    (hplaced : pinstance.Placed index)
    (hbacked : pinstance.lastCommitSendTime ≠ 0 → pinstance.prepares ≠ [])
    (hprepare : pinstance.CommitsFor viewNumber index prepare) :
    (⟨prepare.viewNumber, prepare.sequence⟩ : PbftInstanceIndex) = index ∧
      pinstance.prepares ≠ [] ∧ (prepare.valueDigest = pinstance.prePrepare.valueDigest ∨
        ∃ entry ∈ pinstance.prepares, entry.2 = prepare) := by
  rcases hprepare with ⟨-, hne, env, hmem, htype, rfl, hdigest⟩ | ⟨htime, rfl⟩
  · have hindex := hplaced.buffered_index env hmem
    simp only [Pbft.index?, htype, Option.some.injEq] at hindex
    exact ⟨hindex, hne, Or.inl hdigest.symm⟩
  · have hne := hbacked htime
    obtain ⟨entry, rest, hprepares⟩ := List.exists_cons_of_ne_nil hne
    have hmem : entry ∈ pinstance.prepares := hprepares ▸ List.mem_cons_self ..
    rw [hprepares, List.map_cons, List.headD_cons]
    exact ⟨hplaced.prepares_index entry hmem, List.cons_ne_nil _ _, Or.inr
      ⟨entry, List.mem_cons_self .., rfl⟩⟩

theorem Move.backed (hmove : Move crypto key trigger st st') (hbacked : st.Backed) :
    st'.Backed := by
  cases hmove with
  | other hsame =>
      unfold PbftState.Backed
      rw [hsame.instances_eq]
      exact hbacked
  | traceOut _ _ hinstances =>
      intro entry hentry
      rw [hinstances] at hentry
      exact hbacked entry (List.mem_of_mem_filter hentry)
  | viewChanged | resetCloseTimer | sendOther | execute => exact hbacked
  | erase => exact fun entry hentry => hbacked entry (List.mem_of_mem_filter hentry)
  | create =>
      intro entry hentry
      exact forall_mem_setInstance hbacked (by simp [PbftInstance.new]) entry
        (List.mem_of_mem_filter hentry)
  | buffer hmem =>
      refine forall_mem_setInstance hbacked ?_
      rw [(pushBack_kept _).1, (pushBack_kept _).2]
      exact hbacked _ hmem
  | tick hmem hsame htime =>
      refine forall_mem_setInstance hbacked ?_
      rw [htime, hsame.prepares_eq]
      exact hbacked _ hmem
  | propose =>
      refine forall_mem_setInstance (fun entry hentry => ?_)
        (by simp [PbftInstance.proposed, PbftInstance.new])
      exact hbacked entry (List.mem_of_mem_filter hentry)
  | accept _ hmem =>
      have hold := hbacked _ hmem
      exact forall_mem_setInstance hbacked hold
  | prepare =>
      exact forall_mem_setInstance hbacked fun _ => withPrepare_prepares_ne_nil _ _
  | @sendCommit index pinstance pinstance' prepare _ hmem _ hsame hprepare =>
      have hne : pinstance.prepares ≠ [] :=
        hprepare.elim (fun hcounted => hcounted.2.1) fun hagain => hbacked _ hmem hagain.1
      refine forall_mem_setInstance ?_ fun _ => ?_
      · rw [sendMessage_instances]
        exact hbacked
      · rw [hsame.prepares_eq]
        exact hne
  | commit _ hmem =>
      refine forall_mem_setInstance hbacked ?_
      rw [(withCommit_kept _ _ _).2.1, (withCommit_kept _ _ _).2.2]
      exact hbacked _ hmem

end Placed

end CegChain
