import CegChain.Consensus.Check
import CegChain.Contract.Calls

/-!
# The validators that the contract elects

`Pbft` takes the number of validators for a modulus and for the base of its quorum,
so the list that the contract hands to `setValidators` must not be empty.  The list
is cut from the candidates, and only `deleteCandidate` makes them fewer.  Nothing
stops it at the last one: `withdraw` has a lower bound for the committee only.

In a history in which no call deletes the only candidate there is always a candidate
and an elected validator (`validators_ne_nil`).  The sizes in the configuration
matter too; `cfgValid` keeps them positive.
-/

namespace CegChain.Dpos

open Layers

variable {host : Host} {receive : Receive} {msg : Msg}

/-! ## The invariant -/

/-- Somewhere in the call the only validator candidate was deleted. -/
def Emptied (w : World) : Prop :=
  ∃ candidate, .deleted .validator [candidate] ∈ w.journal ++ w.callbacks

/-- The mark of a deletion that `Emptied` is about. -/
def Mark.isLast : Mark → Bool
  | .deleted .validator [_] => true
  | _ => false

instance (w : World) : Decidable (Emptied w) :=
  decidable_of_iff (∃ mark ∈ w.journal ++ w.callbacks, mark.isLast = true) <| by
    constructor
    · rintro ⟨mark, hmem, hlast⟩
      unfold Mark.isLast at hlast
      split at hlast
      · exact ⟨_, hmem⟩
      · cases hlast
    · rintro ⟨candidate, hmem⟩
      exact ⟨_, hmem, rfl⟩

/-- The sizes that the validators are cut to. -/
structure Sized (cfg : Config) : Prop where
  validators : 0 < cfg.int .validatorSize
  candidates : 0 < cfg.int .validatorCandidateSize

/-- There are candidates and validators, and no configuration that is stored or
proposed will cut them to nothing. -/
structure Elected (host : Host) (w : World) : Prop where
  candidates : w.storage.valCands ≠ []
  validators : w.validators ≠ []
  sized : Sized w.storage.config
  proposed : ∀ key proposal, w.storage.proposals.lookup key = some proposal →
    ∀ item value, key.content = .item item → proposal.value = some value →
      cfgValid host item value = true

/-- What a part of a call may do to the ledger. -/
structure Keeps (host : Host) (w w' : World) : Prop where
  emptied : Emptied w → Emptied w'
  elected : Elected host w → Emptied w' ∨ Elected host w'

/-- The same for the whole of a call under way, whose configuration may be older. -/
structure RunKeeps (host : Host) (s s' : Run) : Prop where
  emptied : Emptied s.world → Emptied s'.world
  elected : Elected host s.world → Sized s.cfg →
    Emptied s'.world ∨ (Elected host s'.world ∧ Sized s'.cfg)

variable {s s₁ s₂ : Run} {w w₁ w₂ : World}

theorem Keeps.refl (w : World) : Keeps host w w :=
  ⟨id, .inr⟩

theorem Keeps.trans (h₁ : Keeps host w w₁) (h₂ : Keeps host w₁ w₂) : Keeps host w w₂ where
  emptied := h₂.emptied ∘ h₁.emptied
  elected helected := by
    rcases h₁.elected helected with hemptied | helected
    · exact .inl (h₂.emptied hemptied)
    · exact h₂.elected helected

theorem RunKeeps.refl (s : Run) : RunKeeps host s s :=
  ⟨id, fun helected hsized => .inr ⟨helected, hsized⟩⟩

theorem RunKeeps.trans (h₁ : RunKeeps host s s₁) (h₂ : RunKeeps host s₁ s₂) :
    RunKeeps host s s₂ where
  emptied := h₂.emptied ∘ h₁.emptied
  elected helected hsized := by
    rcases h₁.elected helected hsized with hemptied | ⟨helected, hsized⟩
    · exact .inl (h₂.emptied hemptied)
    · exact h₂.elected helected hsized

/-- The rule for what does not touch the configuration of the call. -/
theorem RunKeeps.of_keeps (hcfg : s₁.cfg = s.cfg) (hkeeps : Keeps host s.world s₁.world) :
    RunKeeps host s s₁ where
  emptied := hkeeps.emptied
  elected helected hsized := (hkeeps.elected helected).imp_right fun helected =>
    ⟨helected, hcfg ▸ hsized⟩

/-- The sizes of the call may be used. -/
theorem RunKeeps.of_sized (hemptied : Emptied s.world → Emptied s₁.world)
    (hkeeps : Sized s.cfg → RunKeeps host s s₁) : RunKeeps host s s₁ :=
  ⟨hemptied, fun helected hsized => (hkeeps hsized).elected helected hsized⟩

/-- The rule for what leaves candidates, validators and the configuration alone. -/
theorem Keeps.of_eq (hcands : w₁.storage.valCands = w.storage.valCands)
    (hvalidators : w₁.validators = w.validators) (hconfig : w₁.storage.config = w.storage.config)
    (hproposals : w₁.storage.proposals = w.storage.proposals)
    (hemptied : Emptied w → Emptied w₁) : Keeps host w w₁ where
  emptied := hemptied
  elected helected := .inr ⟨hcands ▸ helected.candidates, hvalidators ▸ helected.validators,
    hconfig ▸ helected.sized, hproposals ▸ helected.proposed⟩

theorem emptied_mark (entry : Mark) (hemptied : Emptied w) : Emptied (w.mark entry) := by
  obtain ⟨candidate, hmem⟩ := hemptied
  exact ⟨candidate, List.mem_cons_of_mem _ hmem⟩

/-! ## Proposals -/

theorem keeps_saveProposal (key : ProposalKey) (proposal : Proposal)
    (hvalue : ∀ item value, key.content = .item item → proposal.value = some value →
      Elected host s.world → cfgValid host item value = true) :
    RunKeeps host s (s.saveProposal key proposal) := by
  refine .of_keeps rfl ⟨id, fun helected => .inr ⟨helected.candidates, helected.validators,
    helected.sized, fun key' proposal' hlookup item value hitem hval => ?_⟩⟩
  have hlookup' : (s.world.storage.proposals.insert key proposal).lookup key' = some proposal' :=
    hlookup
  rw [lookup_insert_eq] at hlookup'
  split at hlookup'
  · rename_i hkey
    obtain rfl := Option.some.inj hlookup'
    exact hvalue item value (hkey ▸ hitem) hval helected
  · exact helected.proposed key' proposal' hlookup' item value hitem hval

theorem keeps_delProposal (key : ProposalKey) : RunKeeps host s (s.delProposal key) := by
  refine .of_keeps rfl ⟨id, fun helected => .inr ⟨helected.candidates, helected.validators,
    helected.sized, fun key' proposal' hlookup => ?_⟩⟩
  have hlookup' : (s.world.storage.proposals.erase key).lookup key' = some proposal' := hlookup
  refine helected.proposed key' proposal' ?_
  by_cases hkey : key' = key
  · rw [hkey, AList.lookup_erase] at hlookup'
    cases hlookup'
  · rwa [AList.lookup_erase_ne hkey] at hlookup'

/-- A proposal for a role has no part in the configuration. -/
theorem keeps_saveProposal_role (operate : Motion) (role : Role) (address : Address)
    (proposal : Proposal) :
    RunKeeps host s (s.saveProposal ⟨operate, .role role, address⟩ proposal) :=
  keeps_saveProposal _ _ fun _ _ hitem => by cases hitem

/-! ## Candidates -/

theorem perm_sortRows (candidates : List Candidate) : (sortRows candidates).Perm candidates :=
  List.perm_insertionSort ..

theorem sortRows_ne_nil {candidates : List Candidate} (hne : candidates ≠ []) :
    sortRows candidates ≠ [] := by
  intro hnil
  have hperm := perm_sortRows candidates
  rw [hnil] at hperm
  exact hne (List.nil_perm.mp hperm)

theorem take_ne_nil {α : Type*} {l : List α} {n : ℤ} (hne : l ≠ []) (hn : 0 < n) :
    l.take n.toNat ≠ [] := by
  obtain ⟨head, tail, rfl⟩ := List.exists_cons_of_ne_nil hne
  rw [show n.toNat = (n.toNat - 1) + 1 by omega, List.take_succ_cons]
  exact List.cons_ne_nil _ _

theorem keeps_updateValidators {candidates : List Candidate} (hne : candidates ≠ []) :
    RunKeeps host s (updateValidators candidates s) where
  emptied := id
  elected helected hsized := by
    refine .inr ⟨⟨helected.candidates, ?_, helected.sized, helected.proposed⟩, hsized⟩
    simpa [updateValidators] using take_ne_nil hne hsized.validators

theorem keeps_setCandidates (role : Role) (candidates : List Candidate) :
    RunKeeps host s (s.setCandidates role candidates) :=
  .of_keeps rfl (Keeps.refl _)

theorem keeps_saveCandidates (role : Role) {candidates : List Candidate}
    (hne : role = .validator → candidates ≠ []) :
    RunKeeps host s (s.saveCandidates role candidates) := by
  refine .of_keeps rfl ⟨id, fun helected => .inr ?_⟩
  unfold Run.saveCandidates Run.store World.store
  dsimp only
  split
  · rename_i hrole
    exact ⟨hne hrole, helected.validators, helected.sized, helected.proposed⟩
  · exact ⟨helected.candidates, helected.validators, helected.sized, helected.proposed⟩

/-- A distribution leaves the configuration and the candidates alone. -/
theorem rewardDistribution_frame (hdist : rewardDistribution s = some s₁) :
    s₁.cfg = s.cfg ∧ ∀ role, s₁.candidates role = s.candidates role := by
  obtain ⟨reward, -, hdist⟩ := of_bind hdist
  split at hdist
  · obtain rfl := Option.some.inj hdist
    exact ⟨rfl, fun _ => rfl⟩
  · obtain ⟨⟨valDist, kolDist⟩, -, hdist⟩ := of_bind hdist
    obtain rfl := Option.some.inj hdist
    exact ⟨rfl, fun _ => rfl⟩

theorem keeps_rewardDistribution (hdist : rewardDistribution s = some s₁) :
    RunKeeps host s s₁ := by
  obtain ⟨reward, -, hdist⟩ := of_bind hdist
  split at hdist
  · obtain rfl := Option.some.inj hdist
    exact RunKeeps.refl _
  · obtain ⟨⟨valDist, kolDist⟩, -, hdist⟩ := of_bind hdist
    obtain rfl := Option.some.inj hdist
    exact .of_keeps rfl (Keeps.of_eq rfl rfl rfl rfl (emptied_mark _))

theorem emptied_saveElection (role : Role) (sorted saved : List Candidate) (elected : Bool)
    (hemptied : Emptied s.world) : Emptied (saveElection role sorted saved elected s).world := by
  unfold saveElection
  dsimp only
  split
  · exact hemptied
  · exact hemptied

theorem keeps_saveElection (role : Role) (sorted : List Candidate) {saved : List Candidate}
    (hne : role = .validator → Sized s.cfg → saved ≠ []) (elected : Bool) :
    RunKeeps host s (saveElection role sorted saved elected s) := by
  refine .of_sized (emptied_saveElection role sorted saved elected) fun hsized => ?_
  have hsaved : RunKeeps host s ((s.setCandidates role sorted).saveCandidates role saved) :=
    (keeps_setCandidates role sorted).trans
      (keeps_saveCandidates role fun hrole => hne hrole hsized)
  unfold saveElection
  dsimp only
  split
  · rename_i hrole
    exact hsaved.trans (keeps_updateValidators (hne hrole.1 hsized))
  · exact hsaved

theorem cfg_addDist (role : Role) (address : Address) (proposal : Proposal) (s : Run) :
    (addDist role address proposal s).cfg = s.cfg := by
  unfold addDist
  split <;> rfl

theorem keeps_addDist (role : Role) (address : Address) (proposal : Proposal) :
    RunKeeps host s (addDist role address proposal s) := by
  unfold addDist
  split
  · exact RunKeeps.refl _
  · exact .of_keeps rfl (Keeps.refl _)

theorem keeps_addCandidates {role : Role} {address : Address} {proposal : Proposal}
    (hadd : addCandidates role address proposal (maxSize role s.cfg) s = some s₁) :
    RunKeeps host s s₁ := by
  obtain ⟨pledge, -, hadd⟩ := of_bind hadd
  obtain ⟨stake, -, hadd⟩ := of_bind hadd
  split at hadd
  · obtain rfl := Option.some.inj hadd
    exact RunKeeps.refl _
  · obtain ⟨s₂, hdist, hadd⟩ := of_bind hadd
    obtain ⟨-, hadd⟩ := of_assert hadd
    obtain rfl := Option.some.inj hadd
    refine (keeps_rewardDistribution hdist).trans
      ((keeps_addDist role address proposal).trans ?_)
    refine keeps_saveElection role _ (fun hrole hsized => ?_) _
    rw [cfg_addDist, (rewardDistribution_frame hdist).1] at hsized
    subst hrole
    refine take_ne_nil (sortRows_ne_nil ?_) hsized.candidates
    exact List.append_ne_nil_of_right_ne_nil _ (List.cons_ne_nil _ _)

/-- Deleting the last candidate is noted; any other leaves some. -/
theorem keeps_deleteCandidate {role : Role} {address : Address}
    (hdelete : deleteCandidate role address s = some s₁) : RunKeeps host s s₁ := by
  unfold deleteCandidate at hdelete
  split at hdelete
  · rename_i hany
    obtain ⟨s₂, hdist, hdelete⟩ := of_bind hdelete
    obtain rfl := Option.some.inj hdelete
    refine (keeps_rewardDistribution hdist).trans ?_
    have hmark : RunKeeps host s₂
        { s₂ with world := s₂.world.mark (.deleted role (s₂.candidates role)) } :=
      .of_keeps rfl (Keeps.of_eq rfl rfl rfl rfl (emptied_mark _))
    generalize hindex : (s₂.candidates role).findIdx _ = index
    by_cases hlast : role = .validator ∧ (s₂.candidates role).eraseIdx index = []
    · -- the candidate was the only one
      obtain ⟨rfl, hnil⟩ := hlast
      obtain ⟨candidate, hone⟩ : ∃ candidate, s₂.candidates .validator = [candidate] := by
        have hlength := congrArg List.length hnil
        rw [List.length_eraseIdx, List.length_nil] at hlength
        have hne : s₂.candidates .validator ≠ [] := by
          rw [(rewardDistribution_frame hdist).2]
          rintro hempty
          rw [hempty] at hany
          cases hany
        have hpos := List.length_pos_iff.mpr hne
        refine List.length_eq_one_iff.mp ?_
        split at hlength <;> omega
      have hemptied : Emptied (s₂.world.mark (.deleted .validator (s₂.candidates .validator))) := by
        rw [hone]
        exact ⟨candidate, List.mem_cons_self ..⟩
      exact ⟨fun _ => emptied_saveElection _ _ _ _ hemptied,
        fun _ _ => .inl (emptied_saveElection _ _ _ _ hemptied)⟩
    · exact hmark.trans (keeps_saveElection role _
        (fun hrole _ => sortRows_ne_nil fun hnil => hlast ⟨hrole, hnil⟩) _)
  · obtain rfl := Option.some.inj hdelete
    exact RunKeeps.refl _

theorem keeps_updateStake {role : Role} {found : Candidate} {formalSize amount : ℤ}
    (hne : s.candidates role ≠ [])
    (hupdate : updateStake role found formalSize amount s = some s₁) : RunKeeps host s s₁ := by
  obtain ⟨stake, -, hupdate⟩ := of_bind hupdate
  dsimp only at hupdate
  generalize hsorted : sortRows _ = sorted at hupdate
  have hsorted' : sorted ≠ [] := by
    rw [← hsorted]
    refine sortRows_ne_nil fun hnil => hne ?_
    have hlength := congrArg List.length hnil
    rw [List.length_set] at hlength
    exact List.length_eq_zero_iff.mp hlength
  have hsaved : RunKeeps host s ((s.setCandidates role sorted).saveCandidates role sorted) :=
    (keeps_setCandidates role sorted).trans (keeps_saveCandidates role fun _ => hsorted')
  refine hsaved.trans ?_
  split at hupdate
  · obtain ⟨s₂, hdist, hupdate⟩ := of_bind hupdate
    refine (keeps_rewardDistribution hdist).trans ?_
    split at hupdate
    · obtain rfl := Option.some.inj hupdate
      exact keeps_updateValidators hsorted'
    · obtain rfl := Option.some.inj hupdate
      exact RunKeeps.refl _
  · obtain rfl := Option.some.inj hupdate
    exact RunKeeps.refl _

/-! ## Payments -/

/-- The accounts that are paid keep the invariant. -/
def ReceiveKeeps (host : Host) (receive : Receive) : Prop :=
  ∀ i w w', receive i w = some w' → Keeps host w w'

theorem keeps_transferCoin (hreceive : ReceiveKeeps host receive) {dest : Address} {amount : ℤ}
    {remark : Remark} (htransfer : transferCoin host receive dest amount remark s = some s₁) :
    RunKeeps host s s₁ := by
  rcases transferCoin_cases htransfer with ⟨-, rfl⟩ | ⟨w, hw, -, -, rfl⟩
  · exact RunKeeps.refl _
  · refine .of_keeps rfl (Keeps.trans ?_ (hreceive _ _ _ hw))
    exact Keeps.of_eq rfl rfl rfl rfl (emptied_mark _)

theorem keeps_electInit (s : Run) : RunKeeps host s (electInit s) :=
  .of_keeps rfl (Keeps.refl _)

theorem keeps_extract (hreceive : ReceiveKeeps host receive) {list : Option (List Payee)}
    (hextract : extract host receive msg list s = some s₁) : RunKeeps host s s₁ := by
  refine @extract_invariant host receive msg s s₁ (RunKeeps host s) ?_ ?_ list hextract ?_
  · intro dest amount remark s₂ s₃ htransfer hkeeps
    exact hkeeps.trans (keeps_transferCoin hreceive htransfer)
  · intro s₂ role address entry hkeeps
    exact ⟨hkeeps.trans (.of_keeps rfl (Keeps.refl _)),
      hkeeps.trans (.of_keeps rfl (Keeps.refl _))⟩
  · intro s₂ hdist
    exact (keeps_electInit s).trans (keeps_rewardDistribution hdist)

/-! ## The methods -/

/-- The rule for stores that leave candidates, configuration and proposals alone. -/
theorem keeps_store {f : Storage → Storage} (hcands : ∀ st, (f st).valCands = st.valCands)
    (hconfig : ∀ st, (f st).config = st.config)
    (hproposals : ∀ st, (f st).proposals = st.proposals) : RunKeeps host s (s.store f) :=
  .of_keeps rfl (Keeps.of_eq (hcands _) rfl (hconfig _) (hproposals _) id)

theorem candidates_ne_nil {role : Role} {address : Address} {found : Candidate}
    (hfound : findCandidate role address s = some found) : s.candidates role ≠ [] :=
  List.ne_nil_of_mem (List.mem_of_find?_eq_some hfound)

theorem keeps_apply {role : Role} {pool : Option Address} {ratio : Option ℤ}
    {node : Option Address} (happly : apply host msg role pool ratio node s = some s₁) :
    RunKeeps host s s₁ := by
  obtain ⟨-, happly⟩ := of_assert happly
  obtain ⟨-, -, happly⟩ := of_bind happly
  obtain ⟨proposal, -, happly⟩ := of_bind happly
  obtain rfl := Option.some.inj happly
  exact keeps_saveProposal_role ..

theorem keeps_append {role : Role} (happend : append msg role s = some s₁) :
    RunKeeps host s s₁ := by
  obtain ⟨proposal, -, happend⟩ := of_bind happend
  obtain ⟨-, happend⟩ := of_assert happend
  obtain ⟨odd, -, happend⟩ := of_bind happend
  obtain ⟨-, happend⟩ := of_assert happend
  obtain ⟨old, -, happend⟩ := of_bind happend
  obtain ⟨pledge, -, happend⟩ := of_bind happend
  dsimp only at happend
  split at happend
  · obtain rfl := Option.some.inj happend
    exact keeps_saveProposal_role ..
  · obtain ⟨-, happend⟩ := of_assert happend
    have hinit : ∀ {proposal s₂}, RunKeeps host (electInit (s.saveProposal
        ⟨.apply, .role role, msg.sender⟩ proposal)) s₂ → RunKeeps host s s₂ :=
      fun hkeeps => (keeps_saveProposal_role ..).trans ((keeps_electInit _).trans hkeeps)
    split at happend
    · exact hinit (keeps_addCandidates happend)
    · rename_i found hfound
      obtain ⟨stake, -, hupdate⟩ := of_bind happend
      exact hinit (keeps_updateStake (candidates_ne_nil hfound) hupdate)

theorem keeps_penalty {evil : Address} {role : Role} (hpenalty : penalty evil role s = some s₁) :
    RunKeeps host s s₁ := by
  obtain ⟨proposal, -, rfl⟩ := Option.map_eq_some_iff.mp hpenalty
  exact keeps_delProposal _

theorem int_pos_of_cfgValid {item : Item} {value : Value} {cfg : Config}
    (hitem : item = .validatorSize ∨ item = .validatorCandidateSize)
    (hvalid : cfgValid host item value = true) :
    0 < Config.int (Function.update cfg item value) item := by
  rcases hitem with rfl | rfl
  all_goals
    cases value with
    | number n =>
        have hn : 0 < n ∧ n.den = 1 := of_decide_eq_true hvalid
        simpa [Config.int] using hn.1
    | share => cases hvalid
    | address => cases hvalid

theorem Sized.update {cfg : Config} {item : Item} {value : Value} (hsized : Sized cfg)
    (hvalid : cfgValid host item value = true) : Sized (Function.update cfg item value) := by
  have hint : ∀ {other : Item}, other = .validatorSize ∨ other = .validatorCandidateSize →
      0 < cfg.int other → 0 < Config.int (Function.update cfg item value) other := by
    intro other hother hpos
    by_cases heq : other = item
    · subst heq
      exact int_pos_of_cfgValid hother hvalid
    · rw [Config.int, Function.update_of_ne heq]
      exact hpos
  exact ⟨hint (.inl rfl) hsized.validators, hint (.inr rfl) hsized.candidates⟩

/-- A configuration that passes was proposed before. -/
theorem keeps_updateCfg {key : ProposalKey} {proposal : Proposal} {value : Value} {item : Item}
    (hlookup : s.proposals.lookup key = some proposal) (hitem : key.content = .item item)
    (hvalue : proposal.value = some value) : RunKeeps host s (updateCfg key value item s) := by
  have hupdate : RunKeeps host s { (s.delProposal key).store fun st =>
      { st with config := Function.update s.cfg item value } with
        cfg := Function.update s.cfg item value } := by
    refine ⟨id, fun helected hsized => ?_⟩
    have hvalid := helected.proposed key proposal hlookup item value hitem hvalue
    have hsized' := hsized.update hvalid
    rcases (keeps_delProposal key).elected helected hsized with hemptied | ⟨helected', -⟩
    · exact .inl hemptied
    · exact .inr ⟨⟨helected'.candidates, helected'.validators, hsized', helected'.proposed⟩,
        hsized'⟩
  unfold updateCfg
  dsimp only
  split
  · exact hupdate.trans (.of_keeps rfl (Keeps.of_eq rfl rfl rfl rfl (emptied_mark _)))
  · exact hupdate

theorem keeps_passIn {key : ProposalKey} {proposal : Proposal} {role : Role} {address : Address}
    (hkey : key.content = .role role) (hpass : passIn msg key proposal role address s = some s₁) :
    RunKeeps host s s₁ := by
  have hsave : RunKeeps host s
      (s.saveProposal key { proposal with passTime := some msg.timestamp }) :=
    keeps_saveProposal _ _ fun _ _ hitem => by
      rw [hkey] at hitem
      cases hitem
  unfold passIn at hpass
  dsimp only at hpass
  refine hsave.trans ?_
  split at hpass
  · split at hpass
    · obtain rfl := Option.some.inj hpass
      exact keeps_store (fun _ => rfl) (fun _ => rfl) fun _ => rfl
    · obtain rfl := Option.some.inj hpass
      exact RunKeeps.refl _
  · exact (keeps_electInit _).trans (keeps_addCandidates hpass)

theorem keeps_passOut {key : ProposalKey} {role : Role} {address : Address}
    (hpass : passOut key role address s = some s₁) : RunKeeps host s s₁ := by
  unfold passOut at hpass
  dsimp only at hpass
  refine (keeps_delProposal key).trans ?_
  split at hpass
  · obtain ⟨-, hpass⟩ := of_assert hpass
    obtain rfl := Option.some.inj hpass
    exact keeps_store (fun _ => rfl) (fun _ => rfl) fun _ => rfl
  · obtain ⟨s₂, hdelete, hpenalty⟩ := of_bind hpass
    exact (keeps_electInit _).trans ((keeps_deleteCandidate hdelete).trans (keeps_penalty hpenalty))

theorem keeps_approve {operate : Motion} {content : Content} {address : Address}
    (happrove : approve host msg operate content address s = some s₁) : RunKeeps host s s₁ := by
  obtain ⟨-, happrove⟩ := of_assert happrove
  obtain ⟨-, happrove⟩ := of_assert happrove
  obtain ⟨-, happrove⟩ := of_assert happrove
  obtain ⟨proposal, hlookup, happrove⟩ := of_bind happrove
  obtain ⟨-, happrove⟩ := of_assert happrove
  split at happrove
  · obtain rfl := Option.some.inj happrove
    exact RunKeeps.refl _
  · obtain ⟨-, happrove⟩ := of_assert happrove
    dsimp only at happrove
    split at happrove
    · obtain rfl := Option.some.inj happrove
      exact keeps_saveProposal _ _ fun item value hitem hvalue helected =>
        helected.proposed _ proposal hlookup item value hitem hvalue
    · split at happrove
      · obtain ⟨value, hvalue, rfl⟩ := Option.map_eq_some_iff.mp happrove
        exact keeps_updateCfg hlookup rfl hvalue
      · exact keeps_passIn rfl happrove
      · exact keeps_passOut happrove
      · cases happrove

theorem keeps_vote {role : Role} {address : Address}
    (hvote : vote host msg role address s = some s₁) : RunKeeps host s s₁ := by
  obtain ⟨-, hvote⟩ := of_assert hvote
  obtain ⟨-, hvote⟩ := of_assert hvote
  obtain ⟨odd, -, hvote⟩ := of_bind hvote
  obtain ⟨-, hvote⟩ := of_assert hvote
  obtain ⟨voteAmount, -, hvote⟩ := of_bind hvote
  obtain ⟨found, hfound, hupdate⟩ := of_bind hvote
  refine RunKeeps.trans ?_ ((keeps_electInit _).trans
    (keeps_updateStake (candidates_ne_nil hfound) hupdate))
  exact keeps_store (fun _ => rfl) (fun _ => rfl) fun _ => rfl

theorem keeps_unVote (hreceive : ReceiveKeeps host receive) {role : Role} {address : Address}
    (hunvote : unVote host receive msg role address s = some s₁) : RunKeeps host s s₁ := by
  obtain ⟨-, hunvote⟩ := of_assert hunvote
  obtain ⟨-, hunvote⟩ := of_assert hunvote
  obtain ⟨amount, -, hunvote⟩ := of_bind hunvote
  obtain ⟨s₂, htransfer, hunvote⟩ := of_bind hunvote
  refine RunKeeps.trans ?_ ((keeps_transferCoin hreceive htransfer).trans
    ((keeps_electInit _).trans ?_))
  · exact keeps_store (fun _ => rfl) (fun _ => rfl) fun _ => rfl
  · dsimp only at hunvote
    split at hunvote
    · obtain rfl := Option.some.inj hunvote
      exact RunKeeps.refl _
    · rename_i found hfound
      obtain ⟨-, hupdate⟩ := of_assert hunvote
      exact keeps_updateStake (candidates_ne_nil hfound) hupdate

theorem keeps_abolish {role : Role} {address : Address}
    (habolish : abolish host msg role address s = some s₁) : RunKeeps host s s₁ := by
  obtain ⟨-, -, habolish⟩ := of_bind habolish
  obtain ⟨-, habolish⟩ := of_assert habolish
  obtain ⟨applied, -, habolish⟩ := of_bind habolish
  obtain ⟨-, habolish⟩ := of_assert habolish
  obtain rfl := Option.some.inj habolish
  exact keeps_saveProposal_role ..

theorem keeps_withdraw (hreceive : ReceiveKeeps host receive) {role : Role}
    (hwithdraw : withdraw host receive msg role s = some s₁) : RunKeeps host s s₁ := by
  unfold withdraw at hwithdraw
  dsimp only at hwithdraw
  split at hwithdraw
  · obtain ⟨-, hwithdraw⟩ := of_assert hwithdraw
    obtain ⟨-, hwithdraw⟩ := of_assert hwithdraw
    obtain rfl := Option.some.inj hwithdraw
    exact (keeps_delProposal _).trans (keeps_store (fun _ => rfl) (fun _ => rfl) fun _ => rfl)
  · split at hwithdraw
    · obtain ⟨applicant, -, hwithdraw⟩ := of_bind hwithdraw
      obtain ⟨pledge, -, hwithdraw⟩ := of_bind hwithdraw
      split at hwithdraw
      · exact (keeps_delProposal _).trans (keeps_transferCoin hreceive hwithdraw)
      · obtain ⟨s₂, hdelete, hwithdraw⟩ := of_bind hwithdraw
        obtain rfl := Option.some.inj hwithdraw
        exact (keeps_delProposal _).trans ((keeps_electInit _).trans
          ((keeps_deleteCandidate hdelete).trans (keeps_saveProposal_role ..)))
    · obtain ⟨-, hwithdraw⟩ := of_assert hwithdraw
      obtain ⟨pledge, -, htransfer⟩ := of_bind hwithdraw
      exact (keeps_delProposal _).trans (keeps_transferCoin hreceive htransfer)

theorem keeps_configure {item : Item} {value : Value}
    (hconfigure : configure host msg item value s = some s₁) : RunKeeps host s s₁ := by
  obtain ⟨hvalid, hconfigure⟩ := of_assert hconfigure
  obtain ⟨-, hconfigure⟩ := of_assert hconfigure
  dsimp only at hconfigure
  split at hconfigure
  · obtain rfl := Option.some.inj hconfigure
    exact RunKeeps.refl _
  · obtain rfl := Option.some.inj hconfigure
    refine keeps_saveProposal _ _ fun item' value' hitem hvalue _ => ?_
    cases hitem
    cases hvalue
    exact hvalid

theorem keeps_setNodeAddress {address : Address}
    (hset : setNodeAddress host msg address s = some s₁) : RunKeeps host s s₁ := by
  obtain ⟨-, -, hset⟩ := of_bind hset
  obtain ⟨proposal, -, hset⟩ := of_bind hset
  dsimp only at hset
  split at hset
  · obtain rfl := Option.some.inj hset
    exact keeps_saveProposal_role ..
  · rename_i found hfound
    generalize hrows : List.set _ _ _ = rows at hset
    have hne : rows ≠ [] := by
      rw [← hrows]
      rintro hnil
      have hlength := congrArg List.length hnil
      rw [List.length_set, List.length_nil, List.length_eq_zero_iff] at hlength
      rw [hlength] at hfound
      cases hfound
    split at hset
    · obtain rfl := Option.some.inj hset
      exact (keeps_saveProposal_role ..).trans
        ((keeps_saveCandidates .validator fun _ => hne).trans (keeps_updateValidators hne))
    · obtain rfl := Option.some.inj hset
      exact (keeps_saveProposal_role ..).trans (keeps_saveCandidates .validator fun _ => hne)

theorem keeps_setVoteDividend {role : Role} {pool : Option Address} {ratio : Option ℤ}
    (hset : setVoteDividend host msg role pool ratio s = some s₁) : RunKeeps host s s₁ := by
  obtain ⟨proposal, -, hset⟩ := of_bind hset
  obtain ⟨-, hset⟩ := of_assert hset
  obtain ⟨-, hset⟩ := of_assert hset
  obtain rfl := Option.some.inj hset
  refine (keeps_saveProposal_role ..).trans (keeps_store ?_ ?_ ?_)
  all_goals
    intro st
    split <;> rfl

theorem keeps_clean (hreceive : ReceiveKeeps host receive) {operate : Motion} {content : Content}
    {address : Address} (hclean : clean host receive msg operate content address s = some s₁) :
    RunKeeps host s s₁ := by
  obtain ⟨-, hclean⟩ := of_assert hclean
  obtain ⟨proposal, -, hclean⟩ := of_bind hclean
  obtain ⟨-, hclean⟩ := of_assert hclean
  dsimp only at hclean
  split at hclean
  · split at hclean
    · exact (keeps_delProposal _).trans (keeps_transferCoin hreceive hclean)
    · obtain rfl := Option.some.inj hclean
      exact keeps_delProposal _
  · obtain rfl := Option.some.inj hclean
    exact keeps_delProposal _

theorem keeps_dispatch (hreceive : ReceiveKeeps host receive) {method : Method}
    (hdispatch : dispatch host receive msg method s = some s₁) : RunKeeps host s s₁ := by
  cases method with
  | apply => exact keeps_apply hdispatch
  | append => exact keeps_append hdispatch
  | approve => exact keeps_approve hdispatch
  | vote => exact keeps_vote hdispatch
  | unVote => exact keeps_unVote hreceive hdispatch
  | abolish => exact keeps_abolish hdispatch
  | withdraw => exact keeps_withdraw hreceive hdispatch
  | extract => exact keeps_extract hreceive hdispatch
  | configure => exact keeps_configure hdispatch
  | setNodeAddress => exact keeps_setNodeAddress hdispatch
  | setVoteDividend => exact keeps_setVoteDividend hdispatch
  | clean => exact keeps_clean hreceive hdispatch
  | unknown => cases hdispatch

/-! ## Calls and histories -/

theorem keeps_prepare (host : Host) (hprepare : prepare msg w = some s) :
    Keeps host w s.world ∧ s.cfg = w.storage.config := by
  obtain ⟨allStake, -, ⟨-, rfl⟩ | ⟨-, rfl⟩⟩ := prepare_cases hprepare
  · exact ⟨Keeps.of_eq rfl rfl rfl rfl id, rfl⟩
  · exact ⟨Keeps.refl _, rfl⟩

theorem keeps_saveDists (s : Run) : Keeps host s.world (saveDists s) := by
  unfold saveDists
  split
  · exact Keeps.of_eq rfl rfl rfl rfl id
  · exact Keeps.refl _

/-- **One call**, whatever the accounts do that are paid in it. -/
theorem keeps_main (hreceive : ReceiveKeeps host receive) {method : Method}
    (hmain : main host receive msg method w = some w₁) : Keeps host w w₁ := by
  obtain ⟨s, hprepare, hmain⟩ := of_bind hmain
  obtain ⟨-, hmain⟩ := of_assert hmain
  obtain ⟨s₁, hdispatch, hmain⟩ := of_bind hmain
  obtain rfl := Option.some.inj hmain
  obtain ⟨hbefore, hcfg⟩ := keeps_prepare host hprepare
  have hrun := keeps_dispatch hreceive hdispatch
  have hafter : Keeps host s₁.world ((saveDists s₁).log ⟨msg, method, w.storage, s.loaded⟩) :=
    (keeps_saveDists s₁).trans (.of_eq rfl rfl rfl rfl id)
  refine ⟨fun hemptied => hafter.emptied (hrun.emptied (hbefore.emptied hemptied)),
    fun helected => ?_⟩
  rcases hbefore.elected helected with hemptied | helected'
  · exact .inl (hafter.emptied (hrun.emptied hemptied))
  · rcases hrun.elected helected' (hcfg ▸ helected.sized) with hemptied | ⟨helected'', -⟩
    · exact .inl (hafter.emptied hemptied)
    · exact hafter.elected helected''

theorem keeps_arrive (amount : ℤ) : Keeps host w (w.arrive amount) :=
  Keeps.of_eq rfl rfl rfl rfl id

/-- A call from within a payment keeps the invariant of the call it is made in. -/
theorem keeps_within {f : World → Option World}
    (hf : ∀ w w', f w = some w' → Keeps host w w') : Keeps host w (w.within f) := by
  unfold World.within
  split
  · rename_i w' hw'
    have hkeeps := hf _ _ hw'
    refine ⟨fun ⟨candidate, hmem⟩ => ⟨candidate, ?_⟩, fun helected => ?_⟩
    · rcases List.mem_append.mp hmem with hmem | hmem
      · exact List.mem_append_left _ hmem
      · exact List.mem_append_right _ (List.mem_append_right _ hmem)
    · rcases hkeeps.elected ⟨helected.candidates, helected.validators, helected.sized,
        helected.proposed⟩ with ⟨candidate, hmem⟩ | helected'
      · exact .inl ⟨candidate, List.mem_append_right _ (List.mem_append_left _ hmem)⟩
      · exact .inr ⟨helected'.candidates, helected'.validators, helected'.sized,
          helected'.proposed⟩
  · exact Keeps.refl _

/-- **Any reaction**, by induction on the calls that are made in it. -/
theorem keeps_react (reaction : Reaction) :
    ∀ {w w₁ : World}, react host reaction w = some w₁ → Keeps host w w₁ := by
  induction reaction with
  | done =>
      intro w w₁ hreact
      obtain rfl := Option.some.inj hreact
      exact Keeps.refl _
  | fail =>
      intro w w₁ hreact
      cases hreact
  | call msg method reactions next ihreactions ihnext =>
      intro w w₁ hreact
      refine Keeps.trans (keeps_within fun w' w'' hmain => ?_) (ihnext hreact)
      exact (keeps_arrive _).trans (keeps_main (fun i _ _ h => ihreactions i h) hmain)

/-- One step of the history. -/
theorem elected_step (helected : Elected host w) {st : Step}
    (hstep : ¬ Emptied (step host w st)) : Elected host (step host w st) := by
  cases st with
  | reward amount =>
      exact ((keeps_arrive amount).elected helected).resolve_left hstep
  | call msg method reactions =>
      have hreset : Elected host { w with journal := [], callbacks := [] } :=
        ⟨helected.candidates, helected.validators, helected.sized, helected.proposed⟩
      unfold step at hstep ⊢
      dsimp only at hstep ⊢
      generalize hmain : main host (fun i => react host (reactions i)) msg method _ = r at hstep ⊢
      cases r with
      | none => exact hreset
      | some w₁ =>
          have hkeeps := keeps_main (fun i _ _ h => keeps_react (reactions i) h) hmain
          exact (((keeps_arrive msg.coinAmount).trans hkeeps).elected hreset).resolve_left hstep

/-- **All states of a history.** -/
theorem elected_states (helected : Elected host w) {steps : List Step}
    (hsteps : ∀ w' ∈ states host w steps, ¬ Emptied w') :
    ∀ w' ∈ states host w steps, Elected host w' := by
  induction steps generalizing w with
  | nil =>
      intro w' hmem
      obtain rfl := List.mem_singleton.mp hmem
      exact helected
  | cons st steps ih =>
      rw [states, List.scanl_cons] at hsteps ⊢
      intro w' hmem
      rcases List.mem_cons.mp hmem with rfl | hmem
      · exact helected
      · have hlater : ∀ w' ∈ states host (step host w st) steps, ¬ Emptied w' :=
          fun w' h => hsteps w' (List.mem_cons_of_mem _ h)
        have hfirst : step host w st ∈ states host (step host w st) steps := by
          rw [states]
          cases steps with
          | nil => exact List.mem_cons_self ..
          | cons => rw [List.scanl_cons]; exact List.mem_cons_self ..
        exact ih (elected_step helected (hlater _ hfirst)) hlater w' hmem

/-! ## From the contract to the consensus -/

/-- The validators that a closed ledger hands to `Pbft::UpdateValidators`: one of a
hard fork, or those of the contract. -/
def closedValidators (newValidator : Option Address) (w : World) : List (Address × ℤ) :=
  match newValidator with
  | some address => [(address, 0)]
  | none => w.validators

theorem ofSet_ne_nil {validators : List Bytes} (hne : validators ≠ []) :
    ValidatorMap.ofSet validators ≠ [] := by
  have hstep : ∀ (map : ValidatorMap) (entry : Bytes × ℕ),
      (if (map.lookup entry.1).isSome then map else map ++ [(entry.1, (entry.2 : ℤ))]) ≠ [] := by
    intro map entry
    split
    · rename_i hsome
      rintro rfl
      cases hsome
    · exact List.append_ne_nil_of_right_ne_nil _ (List.cons_ne_nil _ _)
  obtain ⟨last, rest, rfl⟩ : ∃ last rest, validators = rest ++ [last] :=
    ⟨validators.getLast hne, validators.dropLast, (List.dropLast_append_getLast hne).symm⟩
  rw [ValidatorMap.ofSet, List.zipIdx_append, List.foldl_append]
  exact hstep _ _

theorem sized_initialConfig (logicContract : Address) : Sized (initialConfig logicContract) :=
  ⟨show (0 : ℤ) < 19 by decide, show (0 : ℤ) < 100 by decide⟩

theorem elected_initialization {logicContract : Address} {committee : List Address}
    {validators : List (Address × ℤ)} {balance : ℕ}
    (hinit : initialization host msg logicContract committee validators balance = some w)
    (hvalidators : validators ≠ []) : Elected host w := by
  obtain ⟨-, hinit⟩ := of_assert hinit
  obtain ⟨-, hinit⟩ := of_assert hinit
  obtain rfl := Option.some.inj hinit
  refine ⟨sortRows_ne_nil (by simpa using hvalidators), hvalidators,
    sized_initialConfig logicContract, fun key proposal hlookup item value hitem => ?_⟩
  -- the first proposals are for roles
  have hroles : ∀ {α : Type} (f : α → ProposalKey) (g : α → Proposal) (list : List α)
      (table : Table ProposalKey Proposal),
      (∀ a, ∀ item, (f a).content ≠ .item item) →
      (∀ key ∈ table, ∀ item, key.content ≠ .item item) →
      ∀ key ∈ list.foldl (fun table a => table.insert (f a) (g a)) table,
        ∀ item, key.content ≠ .item item := by
    intro α f g list
    induction list with
    | nil => exact fun table _ htable => htable
    | cons a list ih =>
        intro table hf htable
        refine ih _ hf fun key hmem => ?_
        rcases (AList.mem_insert _).mp hmem with rfl | hmem
        · exact hf a
        · exact htable key hmem
  have hmem : key ∈ _ := AList.lookup_isSome.mp (by rw [hlookup]; rfl)
  exact absurd hitem (hroles _ _ _ _ (fun _ _ => by simp)
    (hroles _ _ _ _ (fun _ _ => by simp) (fun key h => absurd h (AList.notMem_empty key)))
    key hmem item)

/-- **There are always validators** in a history in which no call deletes the only
candidate: the list last given to `setValidators` is not empty, and neither is the
set that the consensus makes of it when a ledger is closed. -/
theorem validators_ne_nil {logicContract : Address} {committee : List Address}
    {validators : List (Address × ℤ)} {balance : ℕ}
    (hinit : initialization host msg logicContract committee validators balance = some w)
    (hvalidators : validators ≠ []) {steps : List Step}
    (hsteps : ∀ w' ∈ states host w steps, ¬ Emptied w') :
    ∀ w' ∈ states host w steps, w'.validators ≠ [] ∧
      ∀ newValidator,
        ValidatorMap.ofSet ((closedValidators newValidator w').map Prod.fst) ≠ [] := by
  intro w' hmem
  have helected := elected_states (elected_initialization hinit hvalidators) hsteps w' hmem
  refine ⟨helected.validators, fun newValidator => ofSet_ne_nil ?_⟩
  cases newValidator with
  | none => simpa [closedValidators] using helected.validators
  | some address => simp [closedValidators]

/-- Of two validators one withdraws. -/
theorem validators_ne_nil_withdraw :
    ∃ w ∈ states sampleHost (sampleWorld [([3], 0), ([4], 0)])
        [plainCall [3] 1 (.withdraw .validator)],
      w.storage.valCands.length = 1 ∧ w.validators ≠ [] ∧
        ∀ newValidator,
          ValidatorMap.ofSet ((closedValidators newValidator w).map Prod.fst) ≠ [] := by
  obtain ⟨w, hw, hlength⟩ : ∃ w ∈ states sampleHost (sampleWorld [([3], 0), ([4], 0)])
      [plainCall [3] 1 (.withdraw .validator)], w.storage.valCands.length = 1 := by
    decide +kernel
  refine ⟨w, hw, hlength, ?_⟩
  refine validators_ne_nil (initialization_sample _) (List.cons_ne_nil _ _) ?_ w hw
  decide +kernel

/-- Of one validator one withdraws, and no modulus is left. -/
theorem validators_nil_withdraw :
    (sampleWorld [([3], 0)]).storage.valCands.length = 1 ∧
      ∃ w ∈ states sampleHost (sampleWorld [([3], 0)]) [plainCall [3] 1 (.withdraw .validator)],
        w.validators = [] ∧ ValidatorMap.ofSet ((closedValidators none w).map Prod.fst) = [] := by
  decide +kernel

end CegChain.Dpos
