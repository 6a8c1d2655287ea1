import CegChain.Contract.Reentrancy
import CegChain.Contract.Rewards

/-!
# Who is rewarded

A distribution goes to the formal candidates of a role, which `electInit` has cut off the list
when the call read it, and to the others, which `calculate` cuts off the list as it is then.
Between the two, `updateStake` sorts the list: and it distributes only if the candidate whose
stake has changed has crossed the border.  So this candidate is rewarded in both groups or in
none, whenever `updateStake` distributes.  All other methods distribute before they change the
list, and everybody is rewarded in the group in which it was, once if no address is twice on a
list (`rewarded_iff`).

An account that is paid by `unVote` may change the lists before the call reads them; for `unVote`
the accounts that are paid are supposed to leave the lists alone.
-/

namespace CegChain.Dpos

open Layers

variable {host : Host} {receive : Receive} {msg : Msg} {s s₁ s₂ : Run} {w w₁ : World}
  {elect : Elect} {good : Elect → Prop}

/-! ## Groups -/

namespace Elect

/-- The formal candidates of a role, as they were when the list was read. -/
def formal (role : Role) (elect : Elect) : List Candidate :=
  if role = .validator then elect.validators else elect.kols

/-- The candidates of a role, as the list is now. -/
def cands (role : Role) (elect : Elect) : List Candidate :=
  if role = .validator then elect.valCands else elect.kolCands

/-- The other candidates of a role, as `calculate` cuts them off. -/
def reserve (cfg : Config) (role : Role) (elect : Elect) : List Candidate :=
  (elect.cands role).drop (formalSize role cfg).toNat

end Elect

/-- The groups of the distribution that a line of the journal is about. -/
def Mark.groups? : Mark → Option Elect
  | .credited before _ _ => some before
  | _ => none

/-- The groups of the distributions that the last call has made. -/
def World.distributions (w : World) : List Elect :=
  w.journal.filterMap Mark.groups?

theorem exists_mark_of_mem_distributions (helect : elect ∈ w.distributions) :
    ∃ valDist kolDist, .credited elect valDist kolDist ∈ w.journal := by
  obtain ⟨mark, hmark, hgroups⟩ := List.mem_filterMap.mp helect
  unfold Mark.groups? at hgroups
  split at hgroups
  · obtain rfl := Option.some.inj hgroups
    exact ⟨_, _, hmark⟩
  · cases hgroups

/-- How often an address is in a group. -/
def timesIn (address : Address) (group : List Candidate) : ℕ :=
  (group.map Candidate.address).count address

/-- The owners on the list of a role. -/
def World.owners (role : Role) (w : World) : List Address :=
  (w.register.cands role).map Candidate.address

/-- Everybody on the lists is rewarded once, in the group of its role in which it was before
the call. -/
def RewardedInGroups (w : World) (elect : Elect) : Prop :=
  ∀ role, role ≠ .committee → ∀ i (hi : i < (w.owners role).length),
    let size := (formalSize role w.storage.config).toNat
    timesIn (w.owners role)[i] (elect.formal role) = (if i < size then 1 else 0) ∧
      timesIn (w.owners role)[i] (elect.reserve w.storage.config role) =
        (if i < size then 0 else 1)

/-- No address is twice on a list. -/
def World.Distinct (w : World) : Prop :=
  ∀ role, role ≠ .committee → (w.owners role).Nodup

/-- These are the groups of the lists before the call. -/
def FromLists (w : World) (elect : Elect) : Prop :=
  RewardedInGroups w elect ↔ w.Distinct

/-- The call adds to the stake of a candidate that is on the list. -/
def Method.updatesStake (msg : Msg) (w : World) : Method → Bool
  | .vote .. | .unVote .. => true
  | .append role => (w.register.find role msg.sender).isSome
  | _ => false

theorem count_take_drop {l : List Address} (hnodup : l.Nodup) {i n : ℕ} (hi : i < l.length) :
    (l.take n).count l[i] = (if i < n then 1 else 0) ∧
      (l.drop n).count l[i] = (if i < n then 0 else 1) := by
  have hmem : l[i] ∈ l := List.getElem_mem hi
  have hsplit : (l.take n).count l[i] + (l.drop n).count l[i] = 1 := by
    rw [← List.count_append, List.take_append_drop]
    exact List.count_eq_one_of_mem hnodup hmem
  have htake : l[i] ∈ l.take n ↔ i < n := by
    rw [List.mem_take_iff_idxOf_lt hmem, hnodup.idxOf_getElem i hi]
  split_ifs with hlt
  · have hpos := List.count_pos_iff.mpr (htake.mpr hlt)
    omega
  · have hzero := List.count_eq_zero.mpr fun h => hlt (htake.mp h)
    omega

/-- If everybody is once in two parts that are as long as the list, nobody is on it twice. -/
theorem nodup_of_count {l l' : List Address} {n : ℕ} (hperm : l'.Perm l)
    (hcount : ∀ address ∈ l, (l.take n).count address + (l'.drop n).count address = 1) :
    l.Nodup := by
  have hparts : (l.take n ++ l'.drop n).Nodup := by
    refine List.nodup_iff_count_eq_one.mpr fun address hmem => ?_
    rw [List.count_append]
    refine hcount address ?_
    rcases List.mem_append.mp hmem with hmem | hmem
    · exact List.mem_of_mem_take hmem
    · exact hperm.mem_iff.mp (List.mem_of_mem_drop hmem)
  have hsub : (l.take n ++ l'.drop n).Subperm l := by
    refine List.subperm_of_subset hparts fun address hmem => ?_
    rcases List.mem_append.mp hmem with hmem | hmem
    · exact List.mem_of_mem_take hmem
    · exact hperm.mem_iff.mp (List.mem_of_mem_drop hmem)
  refine (hsub.perm_of_length_le ?_).nodup_iff.mp hparts
  rw [List.length_append, List.length_take, List.length_drop, hperm.length_eq]
  omega

/-- The rule for the groups of a role. -/
theorem nodup_of_rewarded {role : Role} {l : List Address} (hrole : role ≠ .committee)
    (hperm : l.Perm (w.owners role))
    (hformal : (elect.formal role).map Candidate.address =
      (w.owners role).take (formalSize role w.storage.config).toNat)
    (hreserve : (elect.reserve w.storage.config role).map Candidate.address =
      l.drop (formalSize role w.storage.config).toNat)
    (hrewarded : RewardedInGroups w elect) : (w.owners role).Nodup := by
  refine nodup_of_count (n := (formalSize role w.storage.config).toNat) hperm
    fun address hmem => ?_
  obtain ⟨i, hi, rfl⟩ := List.mem_iff_getElem.mp hmem
  obtain ⟨hone, hother⟩ := hrewarded role hrole i hi
  rw [timesIn, hformal] at hone
  rw [timesIn, hreserve] at hother
  rw [hone, hother]
  split_ifs <;> rfl

/-- The distributions of a call under way have been to good groups. -/
def Run.Credits (good : Elect → Prop) (s : Run) : Prop :=
  ∀ elect valDist kolDist, .credited elect valDist kolDist ∈ s.world.journal → good elect

theorem Run.Credits.of_eq (hcredits : s.Credits good)
    (hjournal : s₁.world.journal = s.world.journal) :
    s₁.Credits good := by
  intro elect valDist kolDist hmark
  rw [hjournal] at hmark
  exact hcredits elect valDist kolDist hmark

/-- A mark that is not about a distribution. -/
theorem Run.Credits.mark {entry : Mark} (hcredits : s.Credits good)
    (hjournal : s₁.world.journal = entry :: s.world.journal)
    (hentry : ∀ elect valDist kolDist, entry ≠ .credited elect valDist kolDist) :
    s₁.Credits good := by
  intro elect valDist kolDist hmark
  rw [hjournal] at hmark
  rcases List.mem_cons.mp hmark with heq | hmem
  · exact absurd heq.symm (hentry elect valDist kolDist)
  · exact hcredits elect valDist kolDist hmem

theorem credits_rewardDistribution (hdist : rewardDistribution s = some s₁)
    (hcredits : s.Credits good) (hgood : good s.elect) : s₁.Credits good := by
  obtain ⟨reward, -, hdist⟩ := of_bind hdist
  split at hdist
  · obtain rfl := Option.some.inj hdist
    exact hcredits
  · obtain ⟨⟨valDist, kolDist⟩, -, hdist⟩ := of_bind hdist
    obtain rfl := Option.some.inj hdist
    intro elect valDist' kolDist' hmark
    rcases List.mem_cons.mp hmark with heq | hmem
    · cases heq
      exact hgood
    · exact hcredits elect valDist' kolDist' hmem

/-! ## Candidates -/

theorem journal_saveElection (role : Role) (sorted saved : List Candidate) (elected : Bool)
    (s : Run) : (saveElection role sorted saved elected s).world.journal = s.world.journal := by
  unfold saveElection
  dsimp only
  split <;> rfl

theorem journal_addDist (role : Role) (address : Address) (proposal : Proposal) (s : Run) :
    (addDist role address proposal s).world.journal = s.world.journal := by
  unfold addDist
  split <;> rfl

theorem credits_addCandidates {role : Role} {address : Address} {proposal : Proposal}
    {maxSize : ℕ} (hadd : addCandidates role address proposal maxSize s = some s₁)
    (hcredits : s.Credits good) (hgood : good s.elect) : s₁.Credits good := by
  obtain ⟨pledge, -, hadd⟩ := of_bind hadd
  obtain ⟨stake, -, hadd⟩ := of_bind hadd
  split at hadd
  · obtain rfl := Option.some.inj hadd
    exact hcredits
  · obtain ⟨s₂, hdist, hadd⟩ := of_bind hadd
    obtain ⟨-, hadd⟩ := of_assert hadd
    obtain rfl := Option.some.inj hadd
    refine (credits_rewardDistribution hdist hcredits hgood).of_eq ?_
    rw [journal_saveElection, journal_addDist]

theorem credits_deleteCandidate {role : Role} {address : Address}
    (hdelete : deleteCandidate role address s = some s₁) (hcredits : s.Credits good)
    (hgood : good s.elect) : s₁.Credits good := by
  unfold deleteCandidate at hdelete
  split at hdelete
  · obtain ⟨s₂, hdist, hdelete⟩ := of_bind hdelete
    obtain rfl := Option.some.inj hdelete
    refine (credits_rewardDistribution hdist hcredits hgood).mark
      (journal_saveElection ..) fun _ _ _ => ?_
    simp
  · obtain rfl := Option.some.inj hdelete
    exact hcredits

/-- A call that updates a stake distributes only when the candidate crosses the border, with the
list that has been sorted. -/
theorem credits_updateStake {role : Role} {found : Candidate} {formalSize amount : ℤ}
    (hupdate : updateStake role found formalSize amount s = some s₁) (hcredits : s.Credits good)
    (hgood : ∀ sorted : List Candidate, sorted.Perm ((s.candidates role).set
        ((s.candidates role).findIdx (·.address = found.address))
        { found with stake := found.stake + amount }) →
      crosses formalSize ((s.candidates role).findIdx (·.address = found.address))
        (sorted.findIdx (· = { found with stake := found.stake + amount })) →
      good (s.setCandidates role sorted).elect) : s₁.Credits good := by
  obtain ⟨stake, hstake, hupdate⟩ := of_bind hupdate
  obtain rfl := of_int64Add hstake
  dsimp only at hupdate
  split at hupdate
  · rename_i hcrosses
    obtain ⟨s₂, hdist, hupdate⟩ := of_bind hupdate
    have hcredits₂ : s₂.Credits good := by
      refine credits_rewardDistribution hdist ?_ ?_
      · exact hcredits.of_eq rfl
      · exact hgood _ (List.perm_insertionSort ..) hcrosses
    split at hupdate
    · obtain rfl := Option.some.inj hupdate
      exact hcredits₂.of_eq rfl
    · obtain rfl := Option.some.inj hupdate
      exact hcredits₂
  · obtain rfl := Option.some.inj hupdate
    exact hcredits.of_eq rfl

/-! ## Payments -/

theorem credits_transferCoin (hreceive : ReceiveSilent receive) {dest : Address} {amount : ℤ}
    {remark : Remark} (htransfer : transferCoin host receive dest amount remark s = some s₁)
    (hcredits : s.Credits good) : s₁.Credits good := by
  rcases transferCoin_cases htransfer with ⟨-, rfl⟩ | ⟨w, hw, -, -, rfl⟩
  · exact hcredits
  · exact hcredits.mark (hreceive _ _ _ hw) fun _ _ _ => by simp

theorem credits_extract (hreceive : ReceiveSilent receive) {list : Option (List Payee)}
    (hcredits : s.Credits good) (hgood : good (electInit s).elect)
    (hextract : extract host receive msg list s = some s₁) : s₁.Credits good := by
  refine extract_invariant (credits_transferCoin hreceive) ?_ hextract ?_
  · intro s₂ role address entry hcredits₂
    exact ⟨hcredits₂.of_eq rfl, hcredits₂.of_eq rfl⟩
  · intro s₂ hdist
    exact credits_rewardDistribution hdist (hcredits.of_eq rfl) hgood

theorem credits_withdraw (hreceive : ReceiveSilent receive) {role : Role}
    (hcredits : s.Credits good)
    (hgood : ∀ {s' : Run}, s'.cfg = s.cfg → (∀ role, s'.world.register.cands role =
      s.world.register.cands role) → good (electInit s').elect)
    (hwithdraw : withdraw host receive msg role s = some s₁) : s₁.Credits good := by
  unfold withdraw at hwithdraw
  dsimp only at hwithdraw
  split at hwithdraw
  · obtain ⟨-, hwithdraw⟩ := of_assert hwithdraw
    obtain ⟨-, hwithdraw⟩ := of_assert hwithdraw
    obtain rfl := Option.some.inj hwithdraw
    exact hcredits.of_eq rfl
  · split at hwithdraw
    · obtain ⟨applicant, -, hwithdraw⟩ := of_bind hwithdraw
      obtain ⟨pledge, -, hwithdraw⟩ := of_bind hwithdraw
      split at hwithdraw
      · exact credits_transferCoin hreceive hwithdraw (hcredits.of_eq rfl)
      · obtain ⟨s₂, hdelete, hwithdraw⟩ := of_bind hwithdraw
        obtain rfl := Option.some.inj hwithdraw
        have hcredits₂ : s₂.Credits good :=
          credits_deleteCandidate hdelete (hcredits.of_eq rfl) (hgood rfl fun _ => rfl)
        exact hcredits₂.of_eq rfl
    · obtain ⟨-, hwithdraw⟩ := of_assert hwithdraw
      obtain ⟨pledge, -, htransfer⟩ := of_bind hwithdraw
      exact credits_transferCoin hreceive htransfer (hcredits.of_eq rfl)

theorem credits_clean (hreceive : ReceiveSilent receive) {operate : Motion} {content : Content}
    {address : Address} (hcredits : s.Credits good)
    (hclean : clean host receive msg operate content address s = some s₁) : s₁.Credits good := by
  obtain ⟨-, hclean⟩ := of_assert hclean
  obtain ⟨proposal, -, hclean⟩ := of_bind hclean
  obtain ⟨-, hclean⟩ := of_assert hclean
  dsimp only at hclean
  split at hclean
  · split at hclean
    · exact credits_transferCoin hreceive hclean (hcredits.of_eq rfl)
    · obtain rfl := Option.some.inj hclean
      exact hcredits.of_eq rfl
  · obtain rfl := Option.some.inj hclean
    exact hcredits.of_eq rfl

/-- The accounts that are paid leave the candidate lists alone. -/
def ReceiveListless (receive : Receive) : Prop :=
  ∀ i w w', receive i w = some w' → ∀ role, w'.register.cands role = w.register.cands role

/-- The candidate lists and the configuration of the call are these. -/
def Run.Finds (w : World) (s : Run) : Prop :=
  s.cfg = w.storage.config ∧ ∀ role, s.world.register.cands role = w.register.cands role

theorem finds_transferCoin (hlistless : ReceiveListless receive) {dest : Address} {amount : ℤ}
    {remark : Remark} (htransfer : transferCoin host receive dest amount remark s = some s₁)
    (hfinds : s.Finds w) : s₁.Finds w := by
  rcases transferCoin_cases htransfer with ⟨-, rfl⟩ | ⟨w, hw, -, -, rfl⟩
  · exact hfinds
  · exact ⟨hfinds.1, fun role => (hlistless _ _ _ hw role).trans (hfinds.2 role)⟩

/-! ## Methods without payments -/

/-- The groups are those of the lists before the call. -/
theorem rewardedInGroups_electInit (hfinds : s.Finds w) :
    FromLists w (electInit s).elect := by
  obtain ⟨hcfg, hcands⟩ := hfinds
  have hformal (role : Role) :
      ((electInit s).elect.formal role).map Candidate.address =
        (w.owners role).take (formalSize role w.storage.config).toNat := by
    rw [World.owners, ← hcfg, ← hcands, ← List.map_take]
    cases role <;> rfl
  have hreserve (role : Role) :
      ((electInit s).elect.reserve w.storage.config role).map Candidate.address =
        (w.owners role).drop (formalSize role w.storage.config).toNat := by
    rw [World.owners, ← hcands, ← List.map_drop]
    cases role <;> rfl
  constructor
  · intro hrewarded role hrole
    exact nodup_of_rewarded hrole (.refl _) (hformal role) (hreserve role) hrewarded
  · intro hdistinct role hrole i hi
    rw [timesIn, timesIn, hformal role, hreserve role]
    exact count_take_drop (hdistinct role hrole) hi

theorem credits_approve {operate : Motion} {content : Content} {address : Address}
    (hcredits : s.Credits (FromLists w)) (hfinds : s.Finds w)
    (happrove : approve host msg operate content address s = some s₁) :
    s₁.Credits (FromLists w) := by
  obtain ⟨-, happrove⟩ := of_assert happrove
  obtain ⟨-, happrove⟩ := of_assert happrove
  obtain ⟨-, happrove⟩ := of_assert happrove
  obtain ⟨proposal, -, happrove⟩ := of_bind happrove
  obtain ⟨-, happrove⟩ := of_assert happrove
  split at happrove
  · obtain rfl := Option.some.inj happrove
    exact hcredits
  · obtain ⟨-, happrove⟩ := of_assert happrove
    dsimp only at happrove
    split at happrove
    · obtain rfl := Option.some.inj happrove
      exact hcredits.of_eq rfl
    · split at happrove
      · obtain ⟨value, -, rfl⟩ := Option.map_eq_some_iff.mp happrove
        unfold updateCfg
        dsimp only
        split
        · exact hcredits.mark rfl fun _ _ _ => by simp
        · exact hcredits.of_eq rfl
      · unfold passIn at happrove
        dsimp only at happrove
        split at happrove
        · split at happrove
          · obtain rfl := Option.some.inj happrove
            exact hcredits.of_eq rfl
          · obtain rfl := Option.some.inj happrove
            exact hcredits.of_eq rfl
        · exact credits_addCandidates happrove (hcredits.of_eq rfl)
            (rewardedInGroups_electInit hfinds)
      · unfold passOut at happrove
        dsimp only at happrove
        split at happrove
        · obtain ⟨-, happrove⟩ := of_assert happrove
          obtain rfl := Option.some.inj happrove
          exact hcredits.of_eq rfl
        · obtain ⟨s₂, hdelete, hpenalty⟩ := of_bind happrove
          have hcredits₂ : s₂.Credits (FromLists w) :=
            credits_deleteCandidate hdelete (hcredits.of_eq rfl)
              (rewardedInGroups_electInit hfinds)
          obtain ⟨proposal, -, rfl⟩ := Option.map_eq_some_iff.mp hpenalty
          exact hcredits₂.of_eq rfl
      · cases happrove

theorem credits_apply {role : Role} {pool : Option Address} {ratio : Option ℤ}
    {node : Option Address} (happly : apply host msg role pool ratio node s = some s₁)
    (hcredits : s.Credits good) : s₁.Credits good := by
  obtain ⟨-, happly⟩ := of_assert happly
  obtain ⟨-, -, happly⟩ := of_bind happly
  obtain ⟨proposal, -, happly⟩ := of_bind happly
  obtain rfl := Option.some.inj happly
  exact hcredits.of_eq rfl

theorem credits_abolish {role : Role} {address : Address}
    (habolish : abolish host msg role address s = some s₁) (hcredits : s.Credits good) :
    s₁.Credits good := by
  obtain ⟨-, -, habolish⟩ := of_bind habolish
  obtain ⟨-, habolish⟩ := of_assert habolish
  obtain ⟨applied, -, habolish⟩ := of_bind habolish
  obtain ⟨-, habolish⟩ := of_assert habolish
  obtain rfl := Option.some.inj habolish
  exact hcredits.of_eq rfl

theorem credits_configure {item : Item} {value : Value}
    (hconfigure : configure host msg item value s = some s₁) (hcredits : s.Credits good) :
    s₁.Credits good := by
  obtain ⟨-, hconfigure⟩ := of_assert hconfigure
  obtain ⟨-, hconfigure⟩ := of_assert hconfigure
  dsimp only at hconfigure
  split at hconfigure
  · obtain rfl := Option.some.inj hconfigure
    exact hcredits
  · obtain rfl := Option.some.inj hconfigure
    exact hcredits.of_eq rfl

theorem credits_setNodeAddress {address : Address}
    (hset : setNodeAddress host msg address s = some s₁) (hcredits : s.Credits good) :
    s₁.Credits good := by
  obtain ⟨-, -, hset⟩ := of_bind hset
  obtain ⟨proposal, -, hset⟩ := of_bind hset
  dsimp only at hset
  split at hset
  · obtain rfl := Option.some.inj hset
    exact hcredits.of_eq rfl
  · split at hset
    · obtain rfl := Option.some.inj hset
      exact hcredits.of_eq rfl
    · obtain rfl := Option.some.inj hset
      exact hcredits.of_eq rfl

theorem credits_setVoteDividend {role : Role} {pool : Option Address} {ratio : Option ℤ}
    (hset : setVoteDividend host msg role pool ratio s = some s₁) (hcredits : s.Credits good) :
    s₁.Credits good := by
  obtain ⟨proposal, -, hset⟩ := of_bind hset
  obtain ⟨-, hset⟩ := of_assert hset
  obtain ⟨-, hset⟩ := of_assert hset
  obtain rfl := Option.some.inj hset
  exact hcredits.of_eq rfl

/-! ## Crossing the border -/

theorem findIdx_address (rows : List Candidate) (address : Address) :
    rows.findIdx (·.address = address) = (rows.map Candidate.address).idxOf address := by
  rw [List.idxOf, List.findIdx_map]
  congr 1
  funext row
  exact (beq_eq_decide row.address address).symm

theorem set_idxOf_self {l : List Address} {address : Address} (hmem : address ∈ l) :
    l.set (l.idxOf address) address = l := by
  have hlt := List.idxOf_lt_length_iff.mpr hmem
  calc l.set (l.idxOf address) address
      = l.set (l.idxOf address) l[l.idxOf address] := by rw [List.getElem_idxOf hlt]
    _ = l := List.set_getElem_self hlt

/-- The candidate that crosses the border is not rewarded as it should be. -/
theorem not_rewardedInGroups {role : Role} {found : Candidate} {stake : ℤ}
    (hrole : role ≠ .committee)
    (hfinds : s.Finds w) (hfound : findCandidate role found.address (electInit s) = some found)
    {sorted : List Candidate}
    (hsorted : sorted.Perm (((electInit s).candidates role).set
      (((electInit s).candidates role).findIdx (·.address = found.address))
      { found with stake := stake }))
    (hcrosses : crosses (formalSize role s.cfg)
      (((electInit s).candidates role).findIdx (·.address = found.address))
      (sorted.findIdx (· = { found with stake := stake }))) :
    ¬ RewardedInGroups w ((electInit s).setCandidates role sorted).elect := by
  intro hrewarded
  obtain ⟨hcfg, hcands⟩ := hfinds
  have hrows : (electInit s).candidates role = w.register.cands role := by
    rw [← hcands, read_electInit]
    rfl
  have hmem : found.address ∈ w.owners role := by
    rw [World.owners, ← hrows]
    exact List.mem_map_of_mem (List.mem_of_find?_eq_some hfound)
  have hi : (w.owners role).idxOf found.address < (w.owners role).length :=
    List.idxOf_lt_length_iff.mpr hmem
  rw [hrows, findIdx_address] at hcrosses hsorted
  rw [hcfg] at hcrosses
  change crosses _ ((w.owners role).idxOf found.address) _ at hcrosses
  -- the addresses on the list are the same as before
  have hperm : (sorted.map Candidate.address).Perm (w.owners role) := by
    refine (hsorted.map _).trans (List.Perm.of_eq ?_)
    rw [List.map_set]
    exact set_idxOf_self hmem
  have hformal : (((electInit s).setCandidates role sorted).elect.formal role).map
      Candidate.address = (w.owners role).take (formalSize role w.storage.config).toNat := by
    rw [World.owners, ← hcfg, ← hcands, ← List.map_take]
    cases role <;> rfl
  have hreserve : (((electInit s).setCandidates role sorted).elect.reserve w.storage.config
      role).map Candidate.address =
        (sorted.map Candidate.address).drop (formalSize role w.storage.config).toNat := by
    rw [← List.map_drop]
    cases role <;> rfl
  have hnodup := nodup_of_rewarded hrole hperm hformal hreserve hrewarded
  -- so the place of the row is that of its address
  have hrow : { found with stake := stake } ∈ sorted :=
    hsorted.mem_iff.mpr (List.mem_set (by rwa [World.owners, List.length_map] at hi) _)
  have hnodup' := hperm.nodup_iff.mpr hnodup
  have hplace : sorted.findIdx (· = { found with stake := stake }) =
      (sorted.map Candidate.address).idxOf found.address := by
    obtain ⟨a, b, rfl⟩ := List.append_of_mem hrow
    rw [List.map_append, List.map_cons, List.nodup_append] at hnodup'
    have hbefore : ∀ row ∈ a, row.address ≠ found.address := fun row hmem =>
      hnodup'.2.2 _ (List.mem_map_of_mem hmem) _ (List.mem_cons_self ..)
    have hbefore' : ∀ row ∈ a, row ≠ { found with stake := stake } := by
      rintro row hmem rfl
      exact hbefore _ hmem rfl
    rw [findIdx_split hbefore' rfl, ← findIdx_address]
    exact (@findIdx_split a b { found with stake := stake } (·.address = found.address) _ hbefore
      rfl).symm
  rw [hplace] at hcrosses
  have hmem' := hperm.mem_iff.mpr hmem
  have hcount := (count_take_drop hnodup' (List.idxOf_lt_length_iff.mpr hmem')
    (n := (formalSize role w.storage.config).toNat)).2
  obtain ⟨-, hother⟩ := hrewarded role hrole _ hi
  rw [timesIn, hreserve] at hother
  rw [List.getElem_idxOf] at hother hcount
  rw [hcount] at hother
  rw [crosses] at hcrosses
  split_ifs at hother <;> omega

/-! ## Calls -/

theorem misses_updateStake {role : Role} {found : Candidate} {amount : ℤ}
    (hupdate : updateStake role found (formalSize role s.cfg) amount (electInit s) = some s₁)
    (hrole : role ≠ .committee) (hfinds : s.Finds w)
    (hfound : findCandidate role found.address (electInit s) = some found)
    (hcredits : s.Credits fun elect => ¬ RewardedInGroups w elect) :
    s₁.Credits fun elect => ¬ RewardedInGroups w elect := by
  refine credits_updateStake hupdate (hcredits.of_eq rfl) fun sorted hsorted hcrosses => ?_
  exact not_rewardedInGroups hrole hfinds hfound hsorted hcrosses

theorem misses_vote {role : Role} {address : Address}
    (hvote : vote host msg role address s = some s₁) (hfinds : s.Finds w)
    (hcredits : s.Credits fun elect => ¬ RewardedInGroups w elect) :
    s₁.Credits fun elect => ¬ RewardedInGroups w elect := by
  obtain ⟨hrole, hvote⟩ := of_assert hvote
  obtain ⟨-, hvote⟩ := of_assert hvote
  obtain ⟨odd, -, hvote⟩ := of_bind hvote
  obtain ⟨-, hvote⟩ := of_assert hvote
  obtain ⟨voteAmount, -, hvote⟩ := of_bind hvote
  obtain ⟨found, hfound, hupdate⟩ := of_bind hvote
  obtain rfl : found.address = address := (of_findCandidate (read_electInit _) hfound).1
  exact misses_updateStake hupdate hrole hfinds hfound (hcredits.of_eq rfl)

theorem misses_unVote (hreceive : ReceiveSilent receive) (hlistless : ReceiveListless receive)
    {role : Role} {address : Address} (hunvote : unVote host receive msg role address s = some s₁)
    (hfinds : s.Finds w) (hcredits : s.Credits fun elect => ¬ RewardedInGroups w elect) :
    s₁.Credits fun elect => ¬ RewardedInGroups w elect := by
  obtain ⟨hrole, hunvote⟩ := of_assert hunvote
  obtain ⟨-, hunvote⟩ := of_assert hunvote
  obtain ⟨amount, -, hunvote⟩ := of_bind hunvote
  obtain ⟨s₂, htransfer, hunvote⟩ := of_bind hunvote
  have hcredits₂ := credits_transferCoin hreceive htransfer (hcredits.of_eq rfl)
  have hfinds₂ : s₂.Finds w := finds_transferCoin hlistless htransfer hfinds
  dsimp only at hunvote
  split at hunvote
  · obtain rfl := Option.some.inj hunvote
    exact hcredits₂.of_eq rfl
  · rename_i found hfound
    obtain ⟨-, hupdate⟩ := of_assert hunvote
    obtain rfl : found.address = address := (of_findCandidate (read_electInit _) hfound).1
    exact misses_updateStake hupdate hrole hfinds₂ hfound hcredits₂

/-- `append` adds to a stake if the sender is on the list, and puts it on the list otherwise. -/
theorem credits_append {role : Role} (happend : append msg role s = some s₁) (hfinds : s.Finds w)
    (hjournal : s.world.journal = []) :
    s₁.Credits fun elect =>
      RewardedInGroups w elect ↔
        w.Distinct ∧ (Method.append role).updatesStake msg w = false := by
  have hcredits : ∀ good, s.Credits good := fun good elect valDist kolDist hmark => by
    rw [hjournal] at hmark
    cases hmark
  obtain ⟨proposal, -, happend⟩ := of_bind happend
  obtain ⟨-, happend⟩ := of_assert happend
  obtain ⟨odd, -, happend⟩ := of_bind happend
  obtain ⟨-, happend⟩ := of_assert happend
  obtain ⟨old, -, happend⟩ := of_bind happend
  obtain ⟨pledge, -, happend⟩ := of_bind happend
  dsimp only at happend
  split at happend
  · obtain rfl := Option.some.inj happend
    exact (hcredits _).of_eq rfl
  · obtain ⟨hrole, happend⟩ := of_assert happend
    generalize hsaved : s.saveProposal _ _ = s₂ at happend
    have hfinds₂ : s₂.Finds w := hsaved ▸ hfinds
    have hcredits₂ : ∀ good, s₂.Credits good := fun good => by
      rw [← hsaved]
      exact (hcredits good).of_eq rfl
    have hfind : findCandidate role msg.sender (electInit s₂) =
      w.register.find role msg.sender := by
      rw [findCandidate, read_electInit, Register.find, ← hfinds₂.2]
      rfl
    split at happend
    · rename_i hnone
      rw [hfind] at hnone
      have hgood : s₁.Credits (FromLists w) :=
        credits_addCandidates happend ((hcredits₂ _).of_eq rfl)
          (rewardedInGroups_electInit hfinds₂)
      intro elect valDist kolDist hmark
      refine (hgood elect valDist kolDist hmark).trans ?_
      rw [Method.updatesStake, hnone]
      exact (and_iff_left rfl).symm
    · rename_i found hfound
      obtain ⟨stake, -, hupdate⟩ := of_bind happend
      obtain ⟨haddress, -⟩ := of_findCandidate (read_electInit _) hfound
      have hmisses := misses_updateStake hupdate hrole hfinds₂ (haddress ▸ hfound) (hcredits₂ _)
      rw [hfind] at hfound
      intro elect valDist kolDist hmark
      simp [hmisses elect valDist kolDist hmark, Method.updatesStake, hfound]

theorem credits_dispatch (hreceive : ReceiveSilent receive) {method : Method}
    (hlistless : ∀ role address, method = .unVote role address → ReceiveListless receive)
    (hdispatch : dispatch host receive msg method s = some s₁) (hfinds : s.Finds w)
    (hjournal : s.world.journal = []) :
    s₁.Credits fun elect =>
      RewardedInGroups w elect ↔ w.Distinct ∧ method.updatesStake msg w = false := by
  have hcredits : ∀ good, s.Credits good := fun good elect valDist kolDist hmark => by
    rw [hjournal] at hmark
    cases hmark
  cases method with
  | apply role pool ratio node => exact credits_apply hdispatch (hcredits _)
  | append role => exact credits_append hdispatch hfinds hjournal
  | approve operate content address =>
      intro elect valDist kolDist hmark
      exact (credits_approve (hcredits _) hfinds hdispatch elect valDist kolDist hmark).trans
        (and_iff_left rfl).symm
  | vote role address =>
      intro elect valDist kolDist hmark
      exact iff_of_false (misses_vote hdispatch hfinds (hcredits _) elect valDist kolDist hmark)
        (by simp [Method.updatesStake])
  | unVote role address =>
      intro elect valDist kolDist hmark
      exact iff_of_false (misses_unVote hreceive (hlistless role address rfl) hdispatch hfinds
        (hcredits _) elect valDist kolDist hmark) (by simp [Method.updatesStake])
  | abolish role address => exact credits_abolish hdispatch (hcredits _)
  | withdraw role =>
      have hgood : s₁.Credits (FromLists w) :=
        credits_withdraw hreceive (hcredits _) (fun hcfg hcands => rewardedInGroups_electInit
          ⟨hcfg.trans hfinds.1, fun role => (hcands role).trans (hfinds.2 role)⟩) hdispatch
      intro elect valDist kolDist hmark
      exact (hgood elect valDist kolDist hmark).trans (and_iff_left rfl).symm
  | extract list =>
      have hgood : s₁.Credits (FromLists w) :=
        credits_extract hreceive (hcredits _) (rewardedInGroups_electInit hfinds) hdispatch
      intro elect valDist kolDist hmark
      exact (hgood elect valDist kolDist hmark).trans (and_iff_left rfl).symm
  | configure item value => exact credits_configure hdispatch (hcredits _)
  | setNodeAddress address => exact credits_setNodeAddress hdispatch (hcredits _)
  | setVoteDividend role pool ratio => exact credits_setVoteDividend hdispatch (hcredits _)
  | clean operate content address => exact credits_clean hreceive (hcredits _) hdispatch
  | unknown => cases hdispatch

/-- **Who is rewarded in the right group.**  In every call that distributes a reward, the
candidates of both roles are rewarded once, in the groups in which they were before the call,
just if no address is twice on a list and the call does not add to the stake of a candidate that
is on the list. -/
theorem rewarded_iff {method : Method} {reactions : ℕ → Reaction}
    (hmain : main host (fun i => react host (reactions i)) msg method w = some w₁)
    (hjournal : w.journal = [])
    (hlistless : ∀ role address, method = .unVote role address →
      ReceiveListless fun i => react host (reactions i))
    (helect : elect ∈ w₁.distributions) :
    RewardedInGroups w elect ↔ w.Distinct ∧ method.updatesStake msg w = false := by
  obtain ⟨valDist, kolDist, hmark⟩ := exists_mark_of_mem_distributions helect
  obtain ⟨s, hprepare, hmain⟩ := of_bind hmain
  obtain ⟨-, hmain⟩ := of_assert hmain
  obtain ⟨s₁, hdispatch, hmain⟩ := of_bind hmain
  obtain rfl := Option.some.inj hmain
  obtain ⟨hregister, hcfg⟩ := register_prepare hprepare
  have hempty : s.world.journal = [] := by
    rw [← hjournal]
    obtain ⟨allStake, -, ⟨-, rfl⟩ | ⟨-, rfl⟩⟩ := prepare_cases hprepare
    · rfl
    · rfl
  have hown : .credited elect valDist kolDist ∈ s₁.world.journal := by
    unfold saveDists at hmark
    split at hmark <;> exact hmark
  exact credits_dispatch (fun i _ _ h => silent_react (reactions i) h) hlistless hdispatch
    ⟨hcfg, fun role => by rw [hregister]⟩ hempty elect valDist kolDist hown

/-! ## A small history -/

/-- Of two validators one is formal, and coins have come. -/
def borderHistory : List Step :=
  [plainCall [1] 1 (.configure .validatorSize (.number 1)),
    plainCall [2] 2 (.approve .config (.item .validatorSize) [1]), .reward 1000]

/-- What a call finds after this. -/
def borderWorld (msg : Msg) : World :=
  { borderHistory.foldl (step sampleHost) (sampleWorld [([3], 0), ([4], 0)]) with
    journal := [], callbacks := [] }.arrive msg.coinAmount

/-- A call after this, in which nobody who is paid does anything. -/
def borderCall (msg : Msg) (method : Method) : Option World :=
  main sampleHost (fun _ => react sampleHost .done) msg method (borderWorld msg)

/-- The reserve leaves, and before it does, both are rewarded as they should be. -/
theorem rewarded_iff_withdraw : ∃ w₁ elect,
    borderCall (plainMsg [4] 3) (.withdraw .validator) = some w₁ ∧ elect ∈ w₁.distributions ∧
      RewardedInGroups (borderWorld (plainMsg [4] 3)) elect := by
  have hcall : (borderCall (plainMsg [4] 3) (.withdraw .validator)).map
      (fun w₁ => w₁.distributions.length) = some 1 := by decide +kernel
  obtain ⟨w₁, hmain, hlength⟩ := Option.map_eq_some_iff.mp hcall
  obtain ⟨elect, hdistributions⟩ := List.length_eq_one_iff.mp hlength
  have helect : elect ∈ w₁.distributions := by
    rw [hdistributions]
    exact List.mem_singleton_self elect
  have hdistinct : (borderWorld (plainMsg [4] 3)).Distinct := by
    intro role hrole
    cases role with
    | committee => exact absurd rfl hrole
    | validator => decide +kernel
    | kol => decide +kernel
  exact ⟨w₁, elect, hmain, helect,
    (rewarded_iff hmain rfl (fun _ _ h => by cases h) helect).mpr ⟨hdistinct, rfl⟩⟩

/-- The voter and its coins. -/
def borderVoter : Msg :=
  { plainMsg [7] 3 with coinAmount := 1000000000, nonneg := by decide }

/-- Somebody votes for the reserve, which becomes the formal one: it gets nothing, and the other
one is rewarded twice. -/
theorem rewarded_twice_vote : (borderWorld borderVoter).Distinct ∧ ∃ w₁ elect,
    borderCall borderVoter (.vote .validator [4]) = some w₁ ∧ elect ∈ w₁.distributions ∧
      ¬ RewardedInGroups (borderWorld borderVoter) elect ∧
      (timesIn [3] elect.validators, timesIn [3] (elect.valCands.drop 1)) = (1, 1) ∧
      (timesIn [4] elect.validators, timesIn [4] (elect.valCands.drop 1)) = (0, 0) := by
  have hdistinct : (borderWorld borderVoter).Distinct := by
    intro role hrole
    cases role with
    | committee => exact absurd rfl hrole
    | validator => decide +kernel
    | kol => decide +kernel
  have hcall : (borderCall borderVoter (.vote .validator [4])).map
      (fun w₁ => w₁.distributions.map fun elect =>
        ((timesIn [3] elect.validators, timesIn [3] (elect.valCands.drop 1)),
          (timesIn [4] elect.validators, timesIn [4] (elect.valCands.drop 1)))) =
      some [((1, 1), (0, 0))] := by decide +kernel
  obtain ⟨w₁, hmain, hmap⟩ := Option.map_eq_some_iff.mp hcall
  obtain ⟨elect, hdistributions, hgroups⟩ := List.map_eq_singleton_iff.mp hmap
  obtain ⟨hfirst, hsecond⟩ := Prod.mk.inj hgroups
  refine ⟨hdistinct, w₁, elect, hmain, ?_, fun hrewarded => ?_, hfirst, hsecond⟩
  · rw [hdistributions]
    exact List.mem_singleton_self elect
  · have howners : (borderWorld borderVoter).owners .validator = [[3], [4]] := by decide +kernel
    have hsize : (formalSize .validator (borderWorld borderVoter).storage.config).toNat = 1 := by
      decide +kernel
    obtain ⟨-, hreserve⟩ := hrewarded .validator (by decide) 1 (by rw [howners]; decide)
    simp only [howners, Elect.reserve, hsize] at hreserve
    exact absurd ((Prod.mk.inj hsecond).2.symm.trans hreserve) (by decide)

end CegChain.Dpos
