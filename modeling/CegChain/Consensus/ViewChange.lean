import CegChain.Consensus.LocalProof

/-!
# The view changes that a replica asks for

`NewViewChangeRawValue` puts a prepared set into the message: the one it is given, which has
been taken from a view-change instance, or else the first PRE-PREPARE and all the PREPAREs
that the last PREPARED instance has buffered.  `CheckViewChangeWithRawValue` refuses the
whole message for one PREPARE that is for another digest.

A message is buffered before its digest is compared, so one PREPARE of a faulty validator for
something else is enough to have the view changes of the replica refused.  A prepared set that
is kept while the validators change may be refused as well.  `viewChange_accepted_iff` shows
that nothing else goes wrong, and `viewChange_accepted` follows a whole run: as long as what
arrives leaves one digest in the buffers, every view change of the replica is accepted.

The invariant is `PbftInstance.Vouched`: what an instance counts is in its buffers, and what is
in its buffers has been checked.
-/

namespace CegChain

/-- What `CheckViewChangeWithRawValue` wants of a prepared set. -/
structure PbftPreparedSet.Passes (crypto : Crypto) (validators : ValidatorMap)
    (preparedSet : PbftPreparedSet) : Prop where
  prePrepare : checkMessageItem crypto validators preparedSet.prePrepare = true
  prepares : checkPrepares crypto validators preparedSet.prePrepare.pbft.prePrepare
    preparedSet.prepare = true
  quorum : getQuorumSize validators.length ≤
    (preparedSet.prepare.map fun env => env.pbft.prepare.replicaId).toFinset.card

/-- The PREPAREs in the buffer are for the digest of the first PRE-PREPARE in the buffer. -/
def PbftInstance.OneDigest (pinstance : PbftInstance) : Prop :=
  ∀ first ∈ pinstance.prePrepareBuf.head?, ∀ env ∈ pinstance.prepareBuf,
    env.pbft.prepare.valueDigest = first.pbft.prePrepare.valueDigest

/-- The event leaves what view changes are built from in order: a message that is put into an
instance that is not COMMITED leaves one digest there, and the prepared sets that are still kept
after the validators have changed pass with the new ones. -/
structure Event.Orderly (crypto : Crypto) (key : PrivateKey) (event : Event) (st : PbftState) :
    Prop where
  oneDigest : ∀ pinstance env, event.Delivers crypto st pinstance env →
    pinstance.phase ≠ .commited → (pinstance.pushBack env).OneDigest
  sets : ∀ validators proof, event = .updateValidators validators proof →
    (step crypto key st event).validators ≠ st.validators →
    ∀ preparedSet, (step crypto key st event).Holds preparedSet →
      preparedSet.prePrepare?.isSome = true →
      preparedSet.Passes crypto (step crypto key st event).validators

section ViewChange

variable {crypto : Crypto} {key : PrivateKey} {trigger : Trigger} {st st' : PbftState}
  {index : PbftInstanceIndex} {pinstance : PbftInstance} {env : PbftEnv}
  {map : ValidatorMap} {validators : List Bytes}

/-! ## Own messages -/

/-- Every validator has an index. -/
theorem ValidatorMap.lookup_foldl_insert (rest : List Bytes) (next : ℕ) (map : ValidatorMap)
    (hnonneg : ∀ entry ∈ map, 0 ≤ entry.2) {a : Bytes}
    (hmem : a ∈ rest ∨ (map.lookup a).isSome = true) :
    ∃ index : ℤ, 0 ≤ index ∧ ((rest.zipIdx next).foldl (fun map entry =>
      if (map.lookup entry.1).isSome then map
      else map ++ [(entry.1, (entry.2 : ℤ))]) map).lookup a =
        some index := by
  induction rest generalizing next map with
  | nil =>
      obtain ⟨index, hindex⟩ := Option.isSome_iff_exists.mp (hmem.resolve_left List.not_mem_nil)
      exact ⟨index, hnonneg _ (OrderedMap.mem_of_lookup hindex), hindex⟩
  | cons b rest ih =>
      rw [List.zipIdx_cons, List.foldl_cons]
      split
      · rename_i hsome
        refine ih (next + 1) map hnonneg ?_
        rcases hmem with hmem | hmem
        · rcases List.mem_cons.mp hmem with rfl | hrest
          · exact Or.inr hsome
          · exact Or.inl hrest
        · exact Or.inr hmem
      · refine ih (next + 1) _ ?_ ?_
        · intro entry hentry
          rcases List.mem_append.mp hentry with hold | hnew
          · exact hnonneg entry hold
          · rw [List.mem_singleton.mp hnew]
            exact Int.natCast_nonneg next
        · rw [List.lookup_append]
          rcases hmem with hmem | hmem
          · rcases List.mem_cons.mp hmem with rfl | hrest
            · exact Or.inr (by simp)
            · exact Or.inl hrest
          · exact Or.inr (by rw [Option.isSome_or, hmem, Bool.true_or])

theorem ValidatorMap.lookup_ofSet_of_mem {a : Bytes} (hmem : a ∈ validators) :
    ∃ index : ℤ, 0 ≤ index ∧ (ValidatorMap.ofSet validators).lookup a = some index :=
  lookup_foldl_insert validators 0 [] (by simp) (Or.inl hmem)

/-- A replica with an index is found under its index. -/
theorem PbftState.Configured.lookup_own (hconf : st.Configured crypto key validators)
    (hreplica : 0 ≤ st.replicaId) :
    (ValidatorMap.ofSet validators).lookup (crypto.encAddress key.encPublicKey) =
      some st.replicaId := by
  have heq := hconf.replicaId_eq
  unfold getValidatorIndex at heq
  cases hlookup : (ValidatorMap.ofSet validators).lookup (crypto.encAddress key.encPublicKey) with
  | none =>
      rw [hlookup, Option.getD_none] at heq
      omega
  | some index => rw [heq, hlookup, Option.getD_some]

theorem PbftState.Configured.replicaId_nonneg (hconf : st.Configured crypto key validators)
    (hvalidator : st.isValidator = true) : 0 ≤ st.replicaId := by
  rw [hconf.isValidator_eq, decide_eq_true_eq] at hvalidator
  obtain ⟨index, hindex, hlookup⟩ := ValidatorMap.lookup_ofSet_of_mem hvalidator
  rw [hconf.replicaId_eq, getValidatorIndex, hlookup, Option.getD_some]
  exact hindex

theorem primaryOf_nonneg (size : ℕ) (viewNumber : ℤ) : 0 ≤ primaryOf size viewNumber := by
  have hview : 0 ≤ viewNumber % 2 ^ 64 := Int.emod_nonneg _ (by decide)
  rcases eq_or_ne (size : ℤ) 0 with hzero | hne
  · rw [primaryOf, hzero, Int.emod_zero]
    exact hview
  · exact Int.emod_nonneg _ hne

section Own

variable (hverify : ∀ pbft, crypto.verify pbft (key.sign pbft) key.encPublicKey = true)
include hverify

/-- What a replica signs in its own name is accepted. -/
theorem checkSender_own {pbft : Pbft} {replicaId : ℤ}
    (hlookup : map.lookup (crypto.encAddress key.encPublicKey) = some replicaId)
    (hreplica : 0 ≤ replicaId) (hchain : pbft.chainId = crypto.selfChainId) :
    checkSender crypto map pbft ⟨key.encPublicKey, key.sign pbft⟩ replicaId = true :=
  checkSender_iff.mpr ⟨hchain, hreplica, hlookup, hverify pbft⟩

/-- The own PRE-PREPARE of a primary is accepted. -/
theorem checkMessageItem_newPrePrepare (value : Bytes) (sequence : ℤ)
    (hconf : st.Configured crypto key validators)
    (hprimary : st.isPrimary st.viewNumber = true) :
    checkMessageItem crypto (.ofSet validators)
      (newPrePrepare crypto key value sequence st) = true := by
  have hreplica : 0 ≤ st.replicaId := by
    rw [← beq_iff_eq.mp hprimary]
    exact primaryOf_nonneg _ _
  rw [checkMessageItem_of_ne (by simp [newPrePrepare, signEnv, newPbft])]
  exact checkSender_own hverify (hconf.lookup_own hreplica) hreplica rfl

end Own

/-- The prepared set that `NewViewChangeRawValue` puts into the message. -/
def chosenSet (preparedSet : PbftPreparedSet) (st : PbftState) : Option PbftPreparedSet :=
  if preparedSet.prePrepare?.isSome then some preparedSet else lastPreparedSet st

/-- The last instance that is PREPARED and not executed. -/
def PbftState.lastPrepared (st : PbftState) : Option (PbftInstanceIndex × PbftInstance) :=
  st.instances.reverse.find? fun entry =>
    decide (st.lastExeSeq < entry.1.sequence) && entry.2.phase == .prepared

theorem lastPreparedSet_eq : lastPreparedSet st = st.lastPrepared.map fun entry =>
    ⟨some (entry.2.prePrepareBuf.headD default), entry.2.prepareBuf⟩ :=
  rfl

theorem mem_of_lastPrepared {entry : PbftInstanceIndex × PbftInstance}
    (hentry : st.lastPrepared = some entry) :
    entry ∈ st.instances ∧ entry.2.phase = .prepared := by
  have hprepared := List.find?_some hentry
  rw [Bool.and_eq_true, beq_iff_eq] at hprepared
  exact ⟨List.mem_reverse.mp (List.mem_of_find?_eq_some hentry), hprepared.2⟩

/-- An own view change is accepted exactly when the prepared set in it passes. -/
theorem checkMessageItem_newViewChangeRawValue
    (hverify : ∀ pbft, crypto.verify pbft (key.sign pbft) key.encPublicKey = true)
    (hconf : st.Configured crypto key validators) (hreplica : 0 ≤ st.replicaId)
    (viewNumber : ℤ) (preparedSet : PbftPreparedSet) :
    let viewChange := newViewChangeRawValue crypto key viewNumber preparedSet st
    (checkMessageItem crypto (.ofSet validators) viewChange = true ∧
      checkViewChangeWithRawValue crypto (.ofSet validators)
        viewChange.pbft.viewChangeWithRawvalue = true) ↔
      ∀ chosen ∈ chosenSet preparedSet st, chosen.Passes crypto (.ofSet validators) := by
  intro viewChange
  have hlookup := hconf.lookup_own hreplica
  set inner := viewChange.pbft.viewChangeWithRawvalue.viewChangeEnv
  have htype : inner.pbft.type = .viewchange := rfl
  have hinner : checkMessageItem crypto (.ofSet validators) inner = true := by
    rw [checkMessageItem_of_ne (by simp [htype])]
    exact checkSender_own hverify hlookup hreplica rfl
  have hdigest : inner.pbft.viewChange.prepredValueDigest =
      ((chosenSet preparedSet st).map fun set => set.prePrepare.pbft.prePrepare.valueDigest).getD
        [] := rfl
  have houter : checkMessageItem crypto (.ofSet validators) viewChange =
      checkViewChangeWithRawValue crypto (.ofSet validators)
        viewChange.pbft.viewChangeWithRawvalue := by
    have hsender : checkSender crypto (.ofSet validators) viewChange.pbft viewChange.signature
        st.replicaId = true := checkSender_own hverify hlookup hreplica rfl
    exact (congrArg (_ && ·) hsender).trans (Bool.and_true _)
  have hraw : viewChange.pbft.viewChangeWithRawvalue = ⟨some inner, chosenSet preparedSet st⟩ := rfl
  rw [houter, and_self, hraw]
  cases hchosen : chosenSet preparedSet st with
  | none =>
      rw [hchosen] at hdigest
      simp [checkViewChangeWithRawValue, htype, hinner, hdigest]
  | some chosen =>
      rw [hchosen] at hdigest
      rw [checkViewChangeWithRawValue_iff rfl]
      constructor
      · rintro ⟨-, -, -, hprePrepare, hprepares, hquorum, -⟩ other hother
        obtain rfl := Option.some.inj hother
        exact ⟨hprePrepare, hprepares, hquorum⟩
      · intro hpasses
        obtain ⟨hprePrepare, hprepares, hquorum⟩ := hpasses chosen rfl
        exact ⟨rfl, htype, hinner, hprePrepare, hprepares, hquorum, hdigest⟩

/-! ## Instances -/

/-- The messages in the buffers have been checked and are of the instance, and the PREPAREs that
are counted are among them. -/
structure PbftInstance.Vouched (crypto : Crypto) (map : ValidatorMap) (index : PbftInstanceIndex)
    (pinstance : PbftInstance) : Prop where
  prePrepareBuf : ∀ env ∈ pinstance.prePrepareBuf, env.pbft.type = .preprepare ∧
    checkMessageItem crypto map env = true ∧ env.pbft.index? = some index
  prepareBuf : ∀ env ∈ pinstance.prepareBuf, env.pbft.type = .prepare ∧
    checkMessageItem crypto map env = true ∧ env.pbft.index? = some index
  commitBuf_type : ∀ env ∈ pinstance.commitBuf, env.pbft.type = .commit
  started : pinstance.phase ≠ .none → pinstance.prePrepareBuf ≠ []
  prepares_nodup : (pinstance.prepares.map Prod.fst).Nodup
  prepares_buffered : ∀ entry ∈ pinstance.prepares, ∃ env ∈ pinstance.prepareBuf,
    env.pbft.prepare.replicaId = entry.1
  quorum : pinstance.phase = .prepared →
    getQuorumSize map.length ≤ pinstance.prepares.length

theorem phase_ne_commited_of_withPrepare {quorumSize : ℕ} {prepare : PbftPrepare}
    (hopen : (pinstance.withPrepare quorumSize prepare).phase ≠ .commited) :
    pinstance.phase ≠ .commited := by
  intro hphase
  refine hopen ?_
  unfold PbftInstance.withPrepare
  simp only
  split_ifs with _ hearly
  · rw [hphase] at hearly
    exact absurd hearly (by decide)
  · exact hphase
  · exact hphase

theorem phase_ne_commited_of_withCommit {quorumSize : ℕ} {commit : PbftCommit} {now : ℤ}
    (hopen : (pinstance.withCommit quorumSize commit now).phase ≠ .commited) :
    pinstance.phase ≠ .commited := by
  intro hphase
  refine hopen ?_
  unfold PbftInstance.withCommit
  simp only
  split_ifs
  · rfl
  · exact hphase

namespace PbftInstance.Vouched

/-- **The prepared set of a PREPARED instance** passes exactly when its buffers hold one
digest. -/
theorem passes_iff (hvouched : pinstance.Vouched crypto map index)
    (hphase : pinstance.phase = .prepared) :
    (⟨some (pinstance.prePrepareBuf.headD default), pinstance.prepareBuf⟩ :
      PbftPreparedSet).Passes crypto map ↔ pinstance.OneDigest := by
  obtain ⟨first, rest, hbuf⟩ :=
    List.exists_cons_of_ne_nil (hvouched.started (by simp [hphase]))
  have hfirst := hvouched.prePrepareBuf first (by simp [hbuf])
  have hone : pinstance.OneDigest ↔ ∀ env ∈ pinstance.prepareBuf,
      env.pbft.prepare.valueDigest = first.pbft.prePrepare.valueDigest := by
    simp [PbftInstance.OneDigest, hbuf]
  rw [hone, hbuf, List.headD_cons]
  constructor
  · intro hpasses env henv
    exact (checkPrepares_iff.mp hpasses.prepares env henv).2.2.2
  · intro hdigest
    refine ⟨hfirst.2.1, checkPrepares_iff.mpr fun env henv => ?_, ?_⟩
    · -- both are messages of the instance
      obtain ⟨htype, hcheck, hindex⟩ := hvouched.prepareBuf env henv
      have hsame := hindex.trans hfirst.2.2.symm
      simp only [Pbft.index?, htype, hfirst.1, Option.some.injEq, PbftInstanceIndex.mk.injEq]
        at hsame
      exact ⟨hcheck, hsame.1, hsame.2, hdigest env henv⟩
    · have hsub : (pinstance.prepares.map Prod.fst).toFinset ⊆
          (pinstance.prepareBuf.map fun env => env.pbft.prepare.replicaId).toFinset := by
        intro replicaId hreplica
        rw [List.mem_toFinset] at hreplica ⊢
        obtain ⟨entry, hentry, rfl⟩ := List.mem_map.mp hreplica
        obtain ⟨env, henv, heq⟩ := hvouched.prepares_buffered entry hentry
        exact List.mem_map.mpr ⟨env, henv, heq⟩
      calc getQuorumSize map.length
          ≤ pinstance.prepares.length := hvouched.quorum hphase
        _ = (pinstance.prepares.map Prod.fst).toFinset.card := by
          rw [List.toFinset_card_of_nodup hvouched.prepares_nodup, List.length_map]
        _ ≤ (pinstance.prepareBuf.map fun env => env.pbft.prepare.replicaId).toFinset.card :=
          Finset.card_le_card hsub

theorem pushBack (hvouched : pinstance.Vouched crypto map index)
    (hcheck : checkMessageItem crypto map env = true) (hindex : env.pbft.index? = some index) :
    (pinstance.pushBack env).Vouched crypto map index := by
  unfold PbftInstance.pushBack
  split
  · rename_i htype
    refine { hvouched with prePrepareBuf := ?_, started := fun _ => by simp }
    intro other hother
    rcases List.mem_append.mp hother with hold | hnew
    · exact hvouched.prePrepareBuf other hold
    · rw [List.mem_singleton.mp hnew]
      exact ⟨htype, hcheck, hindex⟩
  · rename_i htype
    refine { hvouched with prepareBuf := ?_, prepares_buffered := ?_ }
    · intro other hother
      rcases List.mem_append.mp hother with hold | hnew
      · exact hvouched.prepareBuf other hold
      · rw [List.mem_singleton.mp hnew]
        exact ⟨htype, hcheck, hindex⟩
    · intro entry hentry
      obtain ⟨other, hother, heq⟩ := hvouched.prepares_buffered entry hentry
      exact ⟨other, List.mem_append_left _ hother, heq⟩
  · rename_i htype
    refine { hvouched with commitBuf_type := ?_ }
    intro other hother
    rcases List.mem_append.mp hother with hold | hnew
    · exact hvouched.commitBuf_type other hold
    · rw [List.mem_singleton.mp hnew]
      exact htype
  · exact hvouched

theorem sameAgreement {pinstance' : PbftInstance} (hvouched : pinstance.Vouched crypto map index)
    (hsame : pinstance.SameAgreement pinstance') : pinstance'.Vouched crypto map index := by
  obtain ⟨hphase, -, hprepares, -, hprePrepareBuf, hprepareBuf, hcommitBuf, -⟩ := hsame
  constructor <;> simp only [hphase, hprepares, hprePrepareBuf, hprepareBuf, hcommitBuf]
  exacts [hvouched.prePrepareBuf, hvouched.prepareBuf, hvouched.commitBuf_type, hvouched.started,
    hvouched.prepares_nodup, hvouched.prepares_buffered, hvouched.quorum]

theorem proposed (now : ℤ) (htype : env.pbft.type = .preprepare)
    (hcheck : checkMessageItem crypto map env = true) (hindex : env.pbft.index? = some index) :
    (PbftInstance.proposed env now).Vouched crypto map index := by
  constructor <;> simp [PbftInstance.proposed, PbftInstance.new, htype, hcheck, hindex]

/-- A PREPARE that is handled is in the buffer of the PREPAREs. -/
theorem mem_prepareBuf (hvouched : pinstance.Vouched crypto map index) (hdue : pinstance.Due env)
    (htype : env.pbft.type = .prepare) : env ∈ pinstance.prepareBuf := by
  rcases List.mem_append.mp hdue.mem_buffered with hmem | hmem
  · rcases List.mem_append.mp hmem with hmem | hmem
    · simpa [htype] using (hvouched.prePrepareBuf env hmem).1
    · exact hmem
  · simpa [htype] using hvouched.commitBuf_type env hmem

theorem phase_ne_none (hvouched : pinstance.Vouched crypto map index) (hdue : pinstance.Due env)
    (htype : env.pbft.type = .prepare) : pinstance.phase ≠ .none := by
  intro hphase
  have hfirst := (hvouched.prePrepareBuf env (Filed.mem_prePrepareBuf hdue hphase)).1
  simp [htype] at hfirst

theorem withPrepare (hvouched : pinstance.Vouched crypto map index)
    (hdue : pinstance.Due env) (htype : env.pbft.type = .prepare) :
    (pinstance.withPrepare (getQuorumSize map.length) env.pbft.prepare).Vouched crypto map
      index := by
  have hphase := hvouched.phase_ne_none hdue htype
  have hnodup := OrderedMap.nodup_insertNew env.pbft.prepare.replicaId env.pbft.prepare
    hvouched.prepares_nodup
  have hbuffered : ∀ entry ∈ OrderedMap.insertNew env.pbft.prepare.replicaId env.pbft.prepare
      pinstance.prepares, ∃ other ∈ pinstance.prepareBuf,
        other.pbft.prepare.replicaId = entry.1 := by
    intro entry hentry
    rcases OrderedMap.mem_insertNew hentry with rfl | hold
    · exact ⟨env, hvouched.mem_prepareBuf hdue htype, rfl⟩
    · exact hvouched.prepares_buffered entry hold
  unfold PbftInstance.withPrepare
  simp only
  split_ifs with hquorum hearly
  · exact { hvouched with
      started := fun _ => hvouched.started hphase, prepares_nodup := hnodup
      prepares_buffered := hbuffered, quorum := fun _ => hquorum }
  · exact { hvouched with
      prepares_nodup := hnodup, prepares_buffered := hbuffered, quorum := fun _ => hquorum }
  · refine { hvouched with
      prepares_nodup := hnodup, prepares_buffered := hbuffered, quorum := fun hprepared => ?_ }
    -- what is counted does not become less
    exact absurd ((hvouched.quorum hprepared).trans (OrderedMap.length_le_insertNew _ _ _)) hquorum

theorem withCommit (hvouched : pinstance.Vouched crypto map index) (quorumSize : ℕ)
    (commit : PbftCommit) (now : ℤ)
    (hopen : (pinstance.withCommit quorumSize commit now).phase ≠ .commited) :
    (pinstance.withCommit quorumSize commit now).Vouched crypto map index := by
  unfold PbftInstance.withCommit at *
  simp only at *
  split_ifs at *
  · exact absurd rfl hopen
  · exact { hvouched with }

theorem new (index : PbftInstanceIndex) (now : ℤ) :
    (PbftInstance.new now).Vouched crypto map index := by
  constructor <;> simp [PbftInstance.new]

/-- The moves keep the instances that are not COMMITED vouched if what arrives and what is
proposed passes. -/
theorem kept
    (hreceived : ∀ st pinstance env, trigger.received st pinstance env →
      checkMessageItem crypto map env = true)
    (hproposed : ∀ st env, trigger.proposed st env → checkMessageItem crypto map env = true) :
    Kept crypto trigger (getQuorumSize map.length) fun index pinstance =>
      pinstance.phase ≠ .commited → pinstance.Vouched crypto map index where
  new index now _ := new index now
  pushBack hvouched hreceives hindex hopen := by
    rw [pushBack_phase] at hopen
    exact (hvouched hopen).pushBack (hreceived _ _ _ hreceives) hindex
  sameAgreement hvouched hsame hopen := by
    rw [hsame.phase_eq] at hopen
    exact (hvouched hopen).sameAgreement hsame
  proposed now hproposes hindex htype _ _ := proposed now htype (hproposed _ _ hproposes) hindex
  accepted checkValueRet hvouched hphase hdue _ _ := by
    have hmem := Filed.mem_prePrepareBuf hdue hphase
    exact { hvouched (by simp [hphase]) with
      started := fun _ => List.ne_nil_of_mem hmem, quorum := by simp [PbftInstance.accepted] }
  withPrepare hvouched hdue htype _ hopen :=
    (hvouched (phase_ne_commited_of_withPrepare hopen)).withPrepare hdue htype
  withCommit now hvouched _ _ _ _ hopen :=
    (hvouched (phase_ne_commited_of_withCommit hopen)).withCommit _ _ now hopen

end PbftInstance.Vouched

/-- The buffers of an instance are left alone. -/
theorem PbftInstance.OneDigest.of_buffers {pinstance' : PbftInstance}
    (hone : pinstance.OneDigest)
    (hprePrepareBuf : pinstance'.prePrepareBuf = pinstance.prePrepareBuf)
    (hprepareBuf : pinstance'.prepareBuf = pinstance.prepareBuf) : pinstance'.OneDigest := by
  unfold PbftInstance.OneDigest
  rw [hprePrepareBuf, hprepareBuf]
  exact hone

/-- The moves keep one digest in the instances that are not COMMITED if what arrives does. -/
theorem PbftInstance.OneDigest.kept (quorumSize : ℕ)
    (hreceived : ∀ st pinstance env, trigger.received st pinstance env →
      pinstance.phase ≠ .commited → (pinstance.pushBack env).OneDigest) :
    Kept crypto trigger quorumSize fun _ pinstance =>
      pinstance.phase ≠ .commited → pinstance.OneDigest where
  new index now _ := by simp [PbftInstance.OneDigest, PbftInstance.new]
  pushBack _ hreceives _ hopen := by
    rw [pushBack_phase] at hopen
    exact hreceived _ _ _ hreceives hopen
  sameAgreement hone hsame hopen := by
    rw [hsame.phase_eq] at hopen
    exact (hone hopen).of_buffers hsame.prePrepareBuf_eq hsame.prepareBuf_eq
  proposed now _ _ _ _ _ := by
    simp [PbftInstance.OneDigest, PbftInstance.proposed, PbftInstance.new]
  accepted checkValueRet hone hphase _ _ _ := hone (by simp [hphase])
  withPrepare hone _ _ _ hopen := by
    refine (hone (phase_ne_commited_of_withPrepare hopen)).of_buffers ?_ ?_
    · unfold PbftInstance.withPrepare
      simp only
      split_ifs <;> rfl
    · unfold PbftInstance.withPrepare
      simp only
      split_ifs <;> rfl
  withCommit now hone _ _ _ _ hopen := by
    refine (hone (phase_ne_commited_of_withCommit hopen)).of_buffers ?_ ?_
    · unfold PbftInstance.withCommit
      simp only
      split_ifs <;> rfl
    · unfold PbftInstance.withCommit
      simp only
      split_ifs <;> rfl

/-! ## Prepared sets -/

/-- The prepared sets that are kept come from somewhere. -/
theorem Move.holds (hmove : Move crypto key trigger st st') {preparedSet : PbftPreparedSet}
    (hholds : st'.Holds preparedSet) : st.Holds preparedSet ∨ trigger.brings preparedSet := by
  cases hmove with
  | other _ hcontinues => exact hcontinues.sets preparedSet hholds
  | traceOut _ _ _ _ _ hsets => exact Or.inl (hsets preparedSet hholds)
  | sendCommit =>
      unfold PbftState.sendMessage at hholds
      split at hholds <;> exact Or.inl hholds
  | _ => exact Or.inl hholds

theorem Moves.holds (hmoves : Moves crypto key trigger st st') {preparedSet : PbftPreparedSet}
    (hholds : st'.Holds preparedSet) : st.Holds preparedSet ∨ trigger.brings preparedSet := by
  induction hmoves with
  | refl => exact Or.inl hholds
  | tail _ hlast ih =>
      rcases hlast.holds hholds with hmid | hbrings
      · exact ih hmid
      · exact Or.inr hbrings

/-- A prepared set that is kept after an event was kept before, or it is empty, or the event
has brought it. -/
theorem holds_step (event : Event) (htyped : st.Typed) {preparedSet : PbftPreparedSet}
    (hholds : (step crypto key st event).Holds preparedSet) :
    st.Holds preparedSet ∨ preparedSet = default ∨ event.BringsSet crypto st preparedSet := by
  rcases (step_moves_told event htyped).holds hholds with htold | hbrings
  · rcases @told_cases crypto key st event with heq | ⟨_, heq⟩
    · exact Or.inl (heq ▸ htold)
    · rw [heq] at htold
      exact Or.inl htold
  · exact Or.inr hbrings

/-- A prepared set that a message has brought has been checked. -/
theorem PbftState.BringsSet.passes {preparedSet : PbftPreparedSet}
    (hbrings : st.BringsSet crypto env preparedSet) : preparedSet.Passes crypto st.validators := by
  obtain ⟨hcheck, htype, hset⟩ := hbrings
  obtain ⟨-, -, -, hprePrepare, hprepares, hquorum, -⟩ :=
    (checkViewChangeWithRawValue_iff hset).mp (checkViewChangeWithRawValue_of_check hcheck htype)
  exact ⟨hprePrepare, hprepares, hquorum⟩

/-! ## Runs -/

theorem enterTarget_instances_subset (newViewNumber newSeq : ℤ) :
    (enterTarget newViewNumber newSeq st).instances ⊆ st.instances := by
  by_cases henter : 0 < newViewNumber ∨ 0 < newSeq
  · rw [enterTarget_eq henter]
    exact List.filter_subset_self _
  · simp only [enterTarget, if_neg henter, if_neg (not_or.mp henter).2]
    exact List.Subset.refl _

/-- When the validators are told, nothing is left but what is COMMITED. -/
theorem told_eq_or_commited (event : Event) : event.told crypto key st = st ∨
    (∃ validators proof, event = .updateValidators validators proof ∧
        event.told crypto key st = setValidators crypto key validators st) ∧
      ∀ entry ∈ (step crypto key st event).instances, entry.2.phase = .commited := by
  cases event with
  | updateValidators validators proof =>
      unfold Event.told
      simp only
      split
      · rename_i htold
        rw [Bool.and_eq_true, Option.isSome_iff_exists] at htold
        obtain ⟨⟨⟨newViewNumber, newSeq⟩, htarget⟩, hchanged⟩ := htold
        refine Or.inr ⟨⟨validators, proof, rfl, rfl⟩, fun entry hentry => ?_⟩
        rw [step, updateValidators_eq, htarget, if_pos hchanged] at hentry
        have hkept := enterTarget_instances_subset _ _ hentry
        exact beq_iff_eq.mp (List.mem_filter.mp hkept).2
      · exact Or.inl rfl
  | _ => exact Or.inl rfl

/-- The replica has been told the validators, and its instances that are not COMMITED are
vouched. -/
structure PbftState.Vouched (crypto : Crypto) (key : PrivateKey) (validators : List Bytes)
    (st : PbftState) : Prop where
  typed : st.Typed
  configured : st.Configured crypto key validators
  instances : ∀ entry ∈ st.instances, entry.2.phase ≠ .commited →
    entry.2.Vouched crypto (.ofSet validators) entry.1

theorem PbftState.Vouched.move {trigger : Trigger} (hvouched : st.Vouched crypto key validators)
    (hreceived : ∀ st pinstance env, trigger.received st pinstance env →
      checkMessageItem crypto (.ofSet validators) env = true)
    (hproposed : ∀ st env, trigger.proposed st env →
      checkMessageItem crypto (.ofSet validators) env = true)
    (hmove : Move crypto key trigger st st') : st'.Vouched crypto key validators := by
  have hkept := PbftInstance.Vouched.kept hreceived hproposed
  rw [← hvouched.configured.validators_eq] at hkept
  refine ⟨hmove.typed hvouched.typed, hmove.configured hvouched.configured, ?_⟩
  rw [← hvouched.configured.validators_eq]
  refine hkept.move hmove ?_
  rw [hvouched.configured.validators_eq]
  exact hvouched.instances

theorem PbftState.Vouched.step
    (hverify : ∀ pbft, crypto.verify pbft (key.sign pbft) key.encPublicKey = true)
    (event : Event) (hvouched : st.Vouched crypto key validators) :
    ∃ validators', (step crypto key st event).Vouched crypto key validators' := by
  have hmoves := @step_moves_told crypto key st event hvouched.typed
  rcases @told_eq_or_commited crypto key st event with
    htold | ⟨⟨validators', -, -, htold⟩, hcommited⟩
  · rw [htold] at hmoves
    refine ⟨validators, hmoves.invariant (fun mid mid' hmove hmid => hmid.move ?_ ?_ hmove)
      hvouched⟩
    · rintro - pinstance env ⟨⟨checkValue, now, -, hcheck, -⟩, -⟩
      rwa [hvouched.configured.validators_eq] at hcheck
    · rintro - env ⟨-, ⟨value, now, -, hprimary, -⟩, henv⟩
      rw [henv]
      exact checkMessageItem_newPrePrepare hverify _ _ hvouched.configured hprimary
  · -- the other validators have vouched for nothing yet
    rw [htold] at hmoves
    refine ⟨validators', hmoves.typed (htold ▸ told_typed event hvouched.typed),
      hmoves.configured ⟨rfl, rfl, rfl⟩, fun entry hentry hopen => ?_⟩
    exact absurd (hcommited entry hentry) hopen

theorem run_vouched (hverify : ∀ pbft, crypto.verify pbft (key.sign pbft) key.encPublicKey = true)
    (events : List Event) :
    ∃ validators', (run crypto key validators events).Vouched crypto key validators' := by
  induction events using List.reverseRecOn with
  | nil =>
      refine ⟨validators, initialState_typed, initialState_configured, ?_⟩
      simp [run, initialState, setValidators]
  | append_singleton events event ih =>
      obtain ⟨validators', hvouched⟩ := ih
      rw [run, List.foldl_concat]
      exact hvouched.step hverify event

/-- **The view changes of a replica.**  After any run, a view change of a validator is accepted
exactly when the prepared set that it is given passes, or, without one, when the last instance
that is PREPARED and not executed holds one digest. -/
theorem viewChange_accepted_iff
    (hverify : ∀ pbft, crypto.verify pbft (key.sign pbft) key.encPublicKey = true)
    (events : List Event) (viewNumber : ℤ) (preparedSet : PbftPreparedSet) :
    let st := run crypto key validators events
    let viewChange := newViewChangeRawValue crypto key viewNumber preparedSet st
    st.isValidator = true →
      ((checkMessageItem crypto st.validators viewChange = true ∧
        checkViewChangeWithRawValue crypto st.validators
          viewChange.pbft.viewChangeWithRawvalue = true) ↔
        if preparedSet.prePrepare?.isSome then preparedSet.Passes crypto st.validators
        else ∀ entry, st.lastPrepared = some entry → entry.2.OneDigest) := by
  intro st viewChange hvalidator
  obtain ⟨validators', hvouched⟩ : ∃ validators', st.Vouched crypto key validators' :=
    run_vouched hverify events
  have hreplica := hvouched.configured.replicaId_nonneg hvalidator
  rw [hvouched.configured.validators_eq]
  refine (checkMessageItem_newViewChangeRawValue hverify hvouched.configured hreplica viewNumber
    preparedSet).trans ?_
  unfold chosenSet
  split
  · simp
  · rw [lastPreparedSet_eq]
    simp only [Option.mem_def, Option.map_eq_some_iff, forall_exists_index, and_imp]
    constructor
    · intro hpasses entry hentry
      obtain ⟨hmem, hphase⟩ := mem_of_lastPrepared hentry
      exact ((hvouched.instances entry hmem (by simp [hphase])).passes_iff hphase).mp
        (hpasses _ entry hentry rfl)
    · rintro hone chosen entry hentry rfl
      obtain ⟨hmem, hphase⟩ := mem_of_lastPrepared hentry
      exact ((hvouched.instances entry hmem (by simp [hphase])).passes_iff hphase).mpr
        (hone entry hentry)

/-- What view changes are built from is in order. -/
structure PbftState.Presentable (crypto : Crypto) (key : PrivateKey) (st : PbftState) : Prop where
  vouched : ∃ validators, st.Vouched crypto key validators
  oneDigest : ∀ entry ∈ st.instances, entry.2.phase ≠ .commited → entry.2.OneDigest
  sets : ∀ preparedSet, st.Holds preparedSet → preparedSet.prePrepare?.isSome = true →
    preparedSet.Passes crypto st.validators

theorem PbftState.Presentable.step
    (hverify : ∀ pbft, crypto.verify pbft (key.sign pbft) key.encPublicKey = true)
    {event : Event} (horder : st.Presentable crypto key) (horderly : event.Orderly crypto key st) :
    (step crypto key st event).Presentable crypto key := by
  obtain ⟨validators, hvouched⟩ := horder.vouched
  have hmoves := @step_moves_told crypto key st event hvouched.typed
  have hcases := @told_eq_or_commited crypto key st event
  refine ⟨hvouched.step hverify event, ?_, fun preparedSet hholds hsome => ?_⟩
  · rcases hcases with htold | ⟨-, hcommited⟩
    · rw [htold] at hmoves
      have hmove : ∀ mid mid', Move crypto key (event.trigger crypto key st) mid mid' →
          (∀ entry ∈ mid.instances, entry.2.phase ≠ .commited → entry.2.OneDigest) →
          ∀ entry ∈ mid'.instances, entry.2.phase ≠ .commited → entry.2.OneDigest := by
        intro mid mid' hmove
        refine (PbftInstance.OneDigest.kept mid.quorumSize ?_).move hmove
        exact fun _ pinstance env hreceived => horderly.oneDigest pinstance env hreceived.1
      exact hmoves.invariant hmove horder.oneDigest
    · exact fun entry hentry hopen => absurd (hcommited entry hentry) hopen
  · by_cases hsame : (CegChain.step crypto key st event).validators = st.validators
    · rw [hsame]
      rcases holds_step event hvouched.typed hholds with hold | rfl | hbrings
      · exact horder.sets preparedSet hold hsome
      · exact absurd hsome (by decide)
      · obtain ⟨env, checkValue, now, -, hbrings⟩ := hbrings
        exact hbrings.passes
    · rcases hcases with htold | ⟨⟨validators', proof, hevent, -⟩, -⟩
      · rw [htold] at hmoves
        refine absurd ?_ hsame
        rw [(hmoves.configured hvouched.configured).validators_eq,
          hvouched.configured.validators_eq]
      · exact horderly.sets validators' proof hevent hsame preparedSet hholds hsome

/-- **The view changes of a run are accepted**, as long as the events leave what they are built
from in order: for every view and every prepared set that is empty or kept, at every replica with
the same validators. -/
theorem viewChange_accepted
    (hverify : ∀ pbft, crypto.verify pbft (key.sign pbft) key.encPublicKey = true)
    (events : List Event)
    (hobeys : RunObeys (Event.Orderly crypto key) crypto key validators events)
    (hvalidator : (run crypto key validators events).isValidator = true)
    (viewNumber : ℤ) (preparedSet : PbftPreparedSet)
    (hset : preparedSet = default ∨ (run crypto key validators events).Holds preparedSet)
    (other : PbftState)
    (hother : other.validators = (run crypto key validators events).validators) :
    let viewChange := newViewChangeRawValue crypto key viewNumber preparedSet
      (run crypto key validators events)
    checkMessageItem crypto other.validators viewChange = true ∧
      checkViewChangeWithRawValue crypto other.validators
        viewChange.pbft.viewChangeWithRawvalue = true := by
  intro viewChange
  have horder : (run crypto key validators events).Presentable crypto key := by
    refine hobeys.invariant ⟨run_vouched hverify [], ?_, ?_⟩
      fun st event horderly horder => horder.step hverify horderly
    · simp [initialState, setValidators]
    · simp [initialState, setValidators, PbftState.Holds]
  rw [hother]
  refine (viewChange_accepted_iff hverify events viewNumber preparedSet hvalidator).mpr ?_
  split
  · rename_i hsome
    rcases hset with rfl | hholds
    · exact absurd hsome (by decide)
    · exact horder.sets preparedSet hholds hsome
  · intro entry hentry
    obtain ⟨hmem, hphase⟩ := mem_of_lastPrepared hentry
    exact horder.oneDigest entry hmem (by simp [hphase])

end ViewChange

/-! ## Runs of four replicas -/

section Decide

variable {crypto : Crypto} {key : PrivateKey}

/-- Whether the message that arrives leaves one digest in the buffers of its instance, and the
validators do not change. -/
def Event.orderly? (event : Event) (st : PbftState) : Bool :=
  match event with
  | .recv env _ _ => env.pbft.index?.all fun index =>
      let pinstance := (st.getInstance index).pushBack env
      pinstance.prePrepareBuf.head?.all fun first => pinstance.prepareBuf.all fun env =>
        env.pbft.prepare.valueDigest == first.pbft.prePrepare.valueDigest
  | .updateValidators _ _ => false
  | _ => true

theorem orderly_of_orderly? (event : Event) (st : PbftState) (horderly : event.orderly? st = true) :
    event.Orderly crypto key st := by
  constructor
  · rintro pinstance env ⟨checkValue, now, rfl, -, -, index, hindex, -, -, -, hinstance⟩ -
    have hone : ((st.getInstance index).pushBack env).OneDigest := by
      intro first hfirst other hother
      simp only [Event.orderly?, hindex, Option.all_some, Option.mem_def.mp hfirst,
        List.all_eq_true, beq_iff_eq] at horderly
      exact horderly other hother
    rcases hinstance with hlookup | ⟨hlookup, rfl⟩
    · rwa [getInstance_of_lookup hlookup] at hone
    · -- a new instance has nothing in its buffers
      have hempty : st.getInstance index = {} := by
        rw [PbftState.getInstance, hlookup, Option.getD_none]
      rw [hempty] at hone
      refine hone.of_buffers ?_ ?_
      · unfold PbftInstance.pushBack
        split <;> rfl
      · unfold PbftInstance.pushBack
        split <;> rfl
  · rintro validators proof rfl
    exact absurd horderly Bool.false_ne_true

end Decide

open Sample in
/-- Replica 1 is PREPARED and asks for view 1. -/
theorem viewChange_accepted_agree :
    let events := System.eventsOf [11] agree
    let st := run Sample.crypto (Sample.key 1) Sample.validators events
    (system [13]).Runs (fun _ _ => True) agree ∧ st.lastPrepared.isSome = true ∧
      checkMessageItem Sample.crypto (.ofSet Sample.validators)
        (newViewChangeRawValue Sample.crypto (Sample.key 1) 1 default st) = true ∧
      checkViewChangeWithRawValue Sample.crypto (.ofSet Sample.validators)
        (newViewChangeRawValue Sample.crypto (Sample.key 1) 1 default
          st).pbft.viewChangeWithRawvalue = true := by
  intro events st
  refine ⟨System.runs_of_runs? (fun _ _ => true) (fun _ _ _ => trivial) (by decide +kernel),
    by decide +kernel, ?_⟩
  exact viewChange_accepted (fun _ => beq_self_eq_true _) events
    (runObeys_of_obeys? Event.orderly? orderly_of_orderly? (by decide +kernel)) (by decide +kernel)
    1 default (Or.inl rfl) st rfl

open Sample in
/-- A PREPARE of the faulty validator for another value arrives at replica 1.  It is not counted,
and the next view change of replica 1 is refused by all. -/
theorem viewChange_refused :
    let moves := agree ++ [Sample.deliver 1 (prepareFor 3 0 [8])]
    let st := run Sample.crypto (Sample.key 1) Sample.validators (System.eventsOf [11] moves)
    (system [13]).Runs (fun _ _ => True) moves ∧ (system [13]).Honest [11] ∧
      st.isValidator = true ∧ ((system [13]).run moves [12]).validators = st.validators ∧
      checkMessageItem Sample.crypto ((system [13]).run moves [12]).validators
        (newViewChangeRawValue Sample.crypto (Sample.key 1) 1 default st) = false := by
  refine ⟨System.runs_of_runs? (fun _ _ => true) (fun _ _ _ => trivial) ?_, by decide, ?_, ?_, ?_⟩
  · decide +kernel
  · decide +kernel
  · decide +kernel
  · decide +kernel

end CegChain
