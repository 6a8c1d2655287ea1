import CegChain.Contract.Solvency

/-!
# The register of the election

The candidate lists, the applications, the votes and the validators that were set are
stored under different keys and changed by different methods.  `Register` has them
together, and `Move` says all that a call may do to them: an application is approved, a
pledge is raised, a candidate leaves, votes come and go, a node address changes.

`unVote` takes the vote off the records, pays, and only then takes it off the stake.
While the payment is under way the amount is pending, and the account that is paid may
call the contract again.

What every move keeps, every call keeps (`Invariant.main`), with all the calls that are
made from within its payments (`Invariant.react`).
-/

namespace CegChain.Dpos

open Layers Totals

variable {host : Host} {receive : Receive} {msg : Msg} {s s₁ s₂ : Run} {w w₁ : World}

/-! ## The register -/

structure Register where
  config : Config
  valCands : List Candidate
  kolCands : List Candidate
  proposals : Table ProposalKey Proposal
  voters : Table VoterKey ℤ
  validators : List (Address × ℤ)

/-- The register of the metadata. -/
def World.register (w : World) : Register where
  config := w.storage.config
  valCands := w.storage.valCands
  kolCands := w.storage.kolCands
  proposals := w.storage.proposals
  voters := w.storage.voters
  validators := w.validators

/-- The pledge of an approved application. -/
def approved (proposals : Table ProposalKey Proposal) (role : Role) (address : Address) :
    Option ℤ :=
  (proposals.lookup ⟨.apply, .role role, address⟩).bind fun proposal =>
    proposal.passTime.map fun _ => proposal.amount

/-- The same applications are approved. -/
def SameApproved (proposals proposals' : Table ProposalKey Proposal) : Prop :=
  ∀ role address, role ≠ .committee →
    approved proposals' role address = approved proposals role address

/-- One application changes. -/
def SetApproved (role : Role) (address : Address) (pledge : Option ℤ)
    (proposals proposals' : Table ProposalKey Proposal) : Prop :=
  approved proposals' role address = pledge ∧
    ∀ role' address', role' ≠ .committee → (role', address') ≠ (role, address) →
      approved proposals' role' address' = approved proposals role' address'

/-- The validators that a list of candidates gives. -/
def elected (cfg : Config) (candidates : List Candidate) : List (Address × ℤ) :=
  (candidates.take (cfg.int .validatorSize).toNat).map fun row => (row.node.getD [], row.stake)

namespace Register

/-- The candidates of a role. -/
def cands (role : Role) (r : Register) : List Candidate :=
  if role = .validator then r.valCands else r.kolCands

/-- The candidates of a role change. -/
def setCands (role : Role) (candidates : List Candidate) (r : Register) : Register :=
  if role = .validator then { r with valCands := candidates }
  else { r with kolCands := candidates }

/-- The candidates of a role are saved, and the validators with them if `update` says
so. -/
def save (cfg : Config) (role : Role) (candidates : List Candidate) (update : Bool)
    (r : Register) : Register :=
  if role = .validator ∧ update then
    { r.setCands role candidates with validators := elected cfg candidates }
  else r.setCands role candidates

/-- The row of an address. -/
def find (role : Role) (address : Address) (r : Register) : Option Candidate :=
  (r.cands role).find? (·.address = address)

/-- The place of an address. -/
def place (role : Role) (address : Address) (r : Register) : ℕ :=
  (r.cands role).findIdx (·.address = address)

/-- The stake of a row changes. -/
def restake (cfg : Config) (role : Role) (found : Candidate) (stake : ℤ) (r : Register) :
    Register :=
  let row := { found with stake := stake }
  let sorted := sortRows ((r.cands role).set (r.place role found.address) row)
  r.save cfg role sorted (decide (crosses (formalSize role cfg) (r.place role found.address)
    (sorted.findIdx (· = row))))

theorem proposals_save (cfg : Config) (role : Role) (candidates : List Candidate) (update : Bool)
    (r : Register) : (r.save cfg role candidates update).proposals = r.proposals := by
  unfold save setCands
  split <;> split <;> rfl

/-- Lists and proposals are written in any order. -/
theorem save_setProposals (cfg : Config) (role : Role) (candidates : List Candidate)
    (update : Bool) (r : Register) (proposals : Table ProposalKey Proposal) :
    { r.save cfg role candidates update with proposals := proposals } =
      { r with proposals := proposals }.save cfg role candidates update := by
  unfold save setCands
  split <;> split <;> rfl

end Register

open Register

/-! ## Moves -/

/-- Votes that are off the records but not yet off the stake. -/
abbrev Pending := Role → Address → ℤ

/-- More is pending. -/
def Pending.add (role : Role) (address : Address) (amount : ℤ) (p : Pending) : Pending :=
  fun role' address' =>
    if role' = role ∧ address' = address then p role' address' + amount else p role' address'

/-- The moves that a condition may be about, and the others. -/
inductive Kind where
  | other
  | config (item : Item)
  /-- An application is approved or its pledge is raised. -/
  | pledge
  /-- An application whose address has a zero character, behind which the host sees nothing, is
  approved or abolished. -/
  | stray
  /-- The votes for such an address are paid back. -/
  | strayVote

theorem Kind.other_ne_pledge : Kind.other ≠ .pledge := nofun

theorem Kind.other_ne_stray : Kind.other ≠ .stray := nofun

/-- A move about this address is of the kind `usual`, or `hidden` where a part of the address
may be hidden. -/
def Kind.IsFor (usual hidden kind : Kind) (address : Address) : Prop :=
  kind = usual ∧ 0 ∉ address ∨ kind = hidden

/-- What a call with the configuration `cfg` may do to the register. -/
inductive Move (cfg : Config) : Kind → Register → Pending → Register → Pending → Prop where
  | papers {r p proposals} (hsame : SameApproved r.proposals proposals) :
      Move cfg .other r p { r with proposals := proposals } p
  | config {r p proposals} (item : Item) (value : Value)
      (hsame : SameApproved r.proposals proposals) :
      Move cfg (.config item) r p
        { r with config := Function.update cfg item value, proposals := proposals } p
  /-- An application is approved, or a candidate that was evicted raises its pledge, and
  the list has no place. -/
  | pass {kind r p proposals role address} {pledge : ℤ} (hrole : role ≠ .committee)
      (hkind : Kind.IsFor .pledge .stray kind address)
      (hnew : approved r.proposals role (toCString address) = none ∨ r.find role address = none)
      (hset : SetApproved role (toCString address) (some pledge) r.proposals proposals) :
      Move cfg kind r p { r with proposals := proposals } p
  /-- The same, and there is a place. -/
  | enlist {kind r p proposals role row saved} {pledge : ℤ} (hrole : role ≠ .committee)
      (hkind : Kind.IsFor .pledge .stray kind row.address)
      (hnew : approved r.proposals role (toCString row.address) = none ∨
        r.find role row.address = none)
      (hset : SetApproved role (toCString row.address) (some pledge) r.proposals proposals)
      (hstake : row.stake = pledge * cfg.printed .pledgeMagnification)
      (hnode : role = .validator → ∀ row' ∈ r.cands role, row'.node ≠ row.node)
      (hsaved : saved = (sortRows (r.cands role ++ [row])).take (maxSize role cfg)) :
      Move cfg kind r p (Register.save cfg role saved (isElected saved row cfg)
        { r with proposals := proposals }) p
  /-- A candidate raises its pledge. -/
  | raise {r p proposals role} {found : Candidate} {amount old : ℤ} (hrole : role ≠ .committee)
      (hfound : r.find role found.address = some found)
      (hold : approved r.proposals role found.address = some old)
      (hset : SetApproved role found.address (some (old + amount)) r.proposals proposals) :
      Move cfg .pledge r p (Register.restake cfg role found
        (found.stake + amount * cfg.printed .pledgeMagnification)
        { r with proposals := proposals }) p
  /-- A candidate leaves. -/
  | leave {r p proposals role address} (hrole : role ≠ .committee)
      (hlisted : r.find role address ≠ none)
      (hset : SetApproved role (toCString address) none r.proposals proposals) :
      Move cfg .other r p (Register.save cfg role
        (sortRows ((r.cands role).eraseIdx (r.place role address)))
        (decide ((r.place role address : ℤ) < cfg.int .validatorSize))
        { r with proposals := proposals }) p
  /-- One who is not on the list leaves. -/
  | withdraw {kind r p proposals role address} (hrole : role ≠ .committee)
      (hkind : Kind.IsFor .other .stray kind address) (hunlisted : r.find role address = none)
      (hset : SetApproved role (toCString address) none r.proposals proposals) :
      Move cfg kind r p { r with proposals := proposals } p
  | vote {r p role} {voter : Address} {found : Candidate} {amount votes : ℤ}
      (hrole : role ≠ .committee) (hfound : r.find role found.address = some found)
      (hvotes : votes = (r.voters.lookup (voterKey voter role found.address)).getD 0 + amount) :
      Move cfg .other r p (Register.restake cfg role found (found.stake + amount)
        { r with voters := r.voters.insert (voterKey voter role found.address) votes }) p
  /-- A vote is taken off the records. -/
  | drop {r p key} {amount : ℤ} (hlookup : r.voters.lookup key = some amount) :
      Move cfg .other r p { r with voters := r.voters.erase key }
        (p.add key.role key.candidate amount)
  /-- A vote is taken off the stake. -/
  | settle {r p role} {found : Candidate} {amount : ℤ} (hrole : role ≠ .committee)
      (hfound : r.find role found.address = some found) :
      Move cfg .other r (p.add role (toCString found.address) amount)
        (Register.restake cfg role found (found.stake - amount) r) p
  /-- There is no stake to take it off. -/
  | forget {kind r p role address} {amount : ℤ} (hrole : role ≠ .committee)
      (hkind : Kind.IsFor .other .strayVote kind address) (hunlisted : r.find role address = none) :
      Move cfg kind r (p.add role (toCString address) amount) r p
  /-- A validator gives another node. -/
  | seat {r p proposals} {found : Candidate} {node : Address}
      (hfound : r.find .validator found.address = some found)
      (hnode : ∀ row ∈ r.valCands, row.node ≠ some node)
      (hsame : SameApproved r.proposals proposals) :
      Move cfg .other r p (Register.save cfg .validator
        (r.valCands.set (r.place .validator found.address) { found with node := some node })
        (decide ((r.place .validator found.address : ℤ) < cfg.int .validatorSize))
        { r with proposals := proposals }) p

/-! ## Parts of calls -/

theorem register_rewardDistribution (hdist : rewardDistribution s = some s₁) :
    s₁.world.register = s.world.register := by
  obtain ⟨reward, -, hdist⟩ := of_bind hdist
  split at hdist
  · obtain rfl := Option.some.inj hdist
    rfl
  · obtain ⟨⟨valDist, kolDist⟩, -, hdist⟩ := of_bind hdist
    obtain rfl := Option.some.inj hdist
    rfl

theorem register_addDist (role : Role) (address : Address) (proposal : Proposal) (s : Run) :
    (addDist role address proposal s).world.register = s.world.register := by
  unfold addDist
  split <;> rfl

theorem register_saveElection (role : Role) (sorted saved : List Candidate) (update : Bool)
    (s : Run) : (saveElection role sorted saved update s).world.register =
      s.world.register.save s.cfg role saved update := by
  cases role <;> cases update <;> rfl

theorem register_updateValidators (candidates : List Candidate) (s : Run) :
    (updateValidators candidates s).world.register =
      { s.world.register with validators := elected s.cfg candidates } :=
  rfl

theorem register_saveCandidates (role : Role) (candidates : List Candidate) (s : Run) :
    (s.saveCandidates role candidates).world.register =
      s.world.register.setCands role candidates := by
  cases role <;> rfl

/-- The lists in `elect` are those of the register. -/
def Run.Read (s : Run) : Prop :=
  ∀ role, s.candidates role = s.world.register.cands role

theorem read_electInit (s : Run) : (electInit s).Read := by
  intro role
  cases role <;> rfl

theorem read_rewardDistribution (hread : s.Read) (hdist : rewardDistribution s = some s₁) :
    s₁.Read := by
  intro role
  rw [(rewardDistribution_frame hdist).2, register_rewardDistribution hdist]
  exact hread role

/-- The place of a candidate, or none, after `addCandidates`. -/
theorem register_addCandidates {role : Role} {address : Address} {proposal : Proposal}
    (hread : s.Read)
    (hadd : addCandidates role address proposal (maxSize role s.cfg) s = some s₁) :
    ∃ pledge, proposal.pledge = some pledge ∧ (s₁.world.register = s.world.register ∨
      ∃ row saved, row.address = address ∧
        row.stake = pledge * s.cfg.printed .pledgeMagnification ∧
        (role = .validator → ∀ row' ∈ s.world.register.cands role, row'.node ≠ row.node) ∧
        saved = (sortRows (s.world.register.cands role ++ [row])).take (maxSize role s.cfg) ∧
        s₁.world.register =
          s.world.register.save s.cfg role saved (isElected saved row s.cfg)) := by
  obtain ⟨pledge, hpledge, hadd⟩ := of_bind hadd
  obtain ⟨stake, hstake, hadd⟩ := of_bind hadd
  obtain rfl := of_int64Mul hstake
  refine ⟨pledge, hpledge, ?_⟩
  split at hadd
  · obtain rfl := Option.some.inj hadd
    exact .inl rfl
  · obtain ⟨s₂, hdist, hadd⟩ := of_bind hadd
    obtain ⟨hnode, hadd⟩ := of_assert hadd
    obtain rfl := Option.some.inj hadd
    obtain ⟨hcfg, -⟩ := rewardDistribution_frame hdist
    have hcands := read_rewardDistribution hread hdist role
    rw [register_rewardDistribution hdist] at hcands
    rw [hcands] at hnode
    refine .inr ⟨⟨address, _, if role = .validator then proposal.node else none⟩, _, rfl, rfl,
      fun hrole row hrow => ?_, rfl, ?_⟩
    · dsimp only
      rw [if_pos hrole]
      have hall := List.all_eq_true.mp (hnode.resolve_left (absurd hrole)) row hrow
      exact of_decide_eq_true hall
    · rw [register_saveElection, cfg_addDist, hcfg, register_addDist,
        register_rewardDistribution hdist, hcands]

theorem find_eq_none_iff {role : Role} {address : Address} {r : Register} :
    r.find role address = none ↔ (r.cands role).any (·.address = address) = false := by
  rw [Register.find, List.find?_eq_none, List.any_eq_false]

theorem register_deleteCandidate {role : Role} {address : Address} (hread : s.Read)
    (hdelete : deleteCandidate role address s = some s₁) :
    (s.world.register.find role address = none ∧ s₁.world.register = s.world.register) ∨
      (s.world.register.find role address ≠ none ∧ s₁.world.register =
        s.world.register.save s.cfg role
          (sortRows ((s.world.register.cands role).eraseIdx (s.world.register.place role address)))
          (decide ((s.world.register.place role address : ℤ) < s.cfg.int .validatorSize))) := by
  unfold deleteCandidate at hdelete
  split at hdelete
  · rename_i hany
    obtain ⟨s₂, hdist, hdelete⟩ := of_bind hdelete
    obtain rfl := Option.some.inj hdelete
    obtain ⟨hcfg, -⟩ := rewardDistribution_frame hdist
    have hcands := read_rewardDistribution hread hdist role
    rw [register_rewardDistribution hdist] at hcands
    refine .inr ⟨fun hnone => ?_, ?_⟩
    · rw [find_eq_none_iff, ← hread role, hany] at hnone
      cases hnone
    · rw [register_saveElection, hcands]
      change Register.save s₂.cfg role _ _ s₂.world.register = _
      rw [register_rewardDistribution hdist, hcfg]
      rfl
  · rename_i hany
    obtain rfl := Option.some.inj hdelete
    refine .inl ⟨?_, rfl⟩
    rw [find_eq_none_iff, ← hread role]
    exact eq_false_of_ne_true hany

theorem register_updateStake {role : Role} {found : Candidate} {amount : ℤ} (hread : s.Read)
    (hupdate : updateStake role found (formalSize role s.cfg) amount s = some s₁) :
    s₁.world.register =
      s.world.register.restake s.cfg role found (found.stake + amount) := by
  obtain ⟨stake, hstake, hupdate⟩ := of_bind hupdate
  obtain rfl := of_int64Add hstake
  rw [hread role] at hupdate
  dsimp only at hupdate
  rw [Register.restake, Register.place]
  generalize hsorted : sortRows _ = sorted at hupdate ⊢
  split at hupdate
  · rename_i hcrosses
    obtain ⟨s₂, hdist, hupdate⟩ := of_bind hupdate
    have hregister : s₂.world.register = s.world.register.setCands role sorted :=
      (register_rewardDistribution hdist).trans (register_saveCandidates role sorted _)
    obtain ⟨hcfg, -⟩ := rewardDistribution_frame hdist
    rw [Register.save, decide_eq_true hcrosses]
    split at hupdate
    · rename_i hrole
      obtain rfl := Option.some.inj hupdate
      rw [if_pos ⟨hrole, rfl⟩, register_updateValidators, hregister, hcfg]
      rfl
    · rename_i hrole
      obtain rfl := Option.some.inj hupdate
      rw [if_neg fun h => hrole h.1, hregister]
  · rename_i hcrosses
    obtain rfl := Option.some.inj hupdate
    rw [Register.save, if_neg fun h => hcrosses (of_decide_eq_true h.2)]
    exact register_saveCandidates role sorted _

/-! ## Applications -/

theorem approved_insert_of_ne {proposals : Table ProposalKey Proposal} {key : ProposalKey}
    (proposal : Proposal) {role : Role} {address : Address}
    (hkey : key ≠ ⟨.apply, .role role, address⟩) :
    approved (proposals.insert key proposal) role address = approved proposals role address := by
  rw [approved, approved, AList.lookup_insert_ne hkey.symm]

theorem approved_insert_self {proposals : Table ProposalKey Proposal} (proposal : Proposal)
    (role : Role) (address : Address) :
    approved (proposals.insert ⟨.apply, .role role, address⟩ proposal) role address =
      proposal.passTime.map fun _ => proposal.amount := by
  rw [approved, AList.lookup_insert]
  rfl

theorem approved_erase_of_ne {proposals : Table ProposalKey Proposal} {key : ProposalKey}
    {role : Role} {address : Address} (hkey : key ≠ ⟨.apply, .role role, address⟩) :
    approved (proposals.erase key) role address = approved proposals role address := by
  rw [approved, approved, AList.lookup_erase_ne hkey.symm]

theorem approved_erase_self {proposals : Table ProposalKey Proposal} (role : Role)
    (address : Address) :
    approved (proposals.erase ⟨.apply, .role role, address⟩) role address = none := by
  rw [approved, AList.lookup_erase]
  rfl

theorem approved_of_lookup {proposals : Table ProposalKey Proposal} {proposal : Proposal}
    {role : Role} {address : Address}
    (hlookup : proposals.lookup ⟨.apply, .role role, address⟩ = some proposal) :
    approved proposals role address = proposal.passTime.map fun _ => proposal.amount := by
  rw [approved, hlookup]
  rfl

/-- What is written under a key of another sort. -/
theorem sameApproved_insert {proposals : Table ProposalKey Proposal} {key : ProposalKey}
    (proposal : Proposal)
    (hkey : ∀ role address, role ≠ .committee → key ≠ ⟨.apply, .role role, address⟩) :
    SameApproved proposals (proposals.insert key proposal) :=
  fun role address hrole => approved_insert_of_ne proposal (hkey role address hrole)

theorem sameApproved_erase {proposals : Table ProposalKey Proposal} {key : ProposalKey}
    (hkey : ∀ role address, role ≠ .committee → key ≠ ⟨.apply, .role role, address⟩) :
    SameApproved proposals (proposals.erase key) :=
  fun role address hrole => approved_erase_of_ne (hkey role address hrole)

/-- A proposal is written again with the same pledge and the same approval, or without
one. -/
theorem sameApproved_insert_same {proposals : Table ProposalKey Proposal} {key : ProposalKey}
    {old proposal : Proposal} (hlookup : proposals.lookup key = some old)
    (hpass : proposal.passTime = old.passTime)
    (hpledge : proposal.passTime = none ∨ proposal.pledge = old.pledge) :
    SameApproved proposals (proposals.insert key proposal) := by
  intro role address hrole
  by_cases hkey : key = ⟨.apply, .role role, address⟩
  · subst hkey
    rw [approved_insert_self, approved_of_lookup hlookup, ← hpass]
    rcases hpledge with hnone | hpledge
    · rw [hnone]
      rfl
    · rw [Proposal.amount, Proposal.amount, hpledge]
  · exact approved_insert_of_ne proposal hkey

/-- A proposal that is not approved goes. -/
theorem sameApproved_erase_none {proposals : Table ProposalKey Proposal} {key : ProposalKey}
    {old : Proposal} (hlookup : proposals.lookup key = some old) (hpass : old.passTime = none) :
    SameApproved proposals (proposals.erase key) := by
  intro role address hrole
  by_cases hkey : key = ⟨.apply, .role role, address⟩
  · subst hkey
    rw [approved_erase_self, approved_of_lookup hlookup, hpass]
    rfl
  · exact approved_erase_of_ne hkey

theorem setApproved_insert {proposals : Table ProposalKey Proposal} {proposal : Proposal}
    {time pledge : ℤ} (role : Role) (address : Address) (hpass : proposal.passTime = some time)
    (hpledge : proposal.pledge = some pledge) :
    SetApproved role address (some pledge) proposals
      (proposals.insert ⟨.apply, .role role, address⟩ proposal) := by
  refine ⟨?_, fun role' address' _ hne => ?_⟩
  · rw [approved_insert_self, hpass, Proposal.amount, hpledge]
    rfl
  · refine approved_insert_of_ne proposal fun hkey => hne ?_
    cases hkey
    rfl

theorem setApproved_erase {proposals : Table ProposalKey Proposal} (role : Role)
    (address : Address) :
    SetApproved role address none proposals
      (proposals.erase ⟨.apply, .role role, address⟩) := by
  refine ⟨approved_erase_self role address, fun role' address' _ hne => ?_⟩
  refine approved_erase_of_ne fun hkey => hne ?_
  cases hkey
  rfl

/-- Before and after the change of an application there may be others that change
nothing. -/
theorem SetApproved.of_same {role : Role} {address : Address} {pledge : Option ℤ}
    {proposals proposals₁ proposals₂ proposals' : Table ProposalKey Proposal}
    (hrole : role ≠ .committee) (hbefore : SameApproved proposals proposals₁)
    (hset : SetApproved role address pledge proposals₁ proposals₂)
    (hafter : SameApproved proposals₂ proposals') :
    SetApproved role address pledge proposals proposals' := by
  refine ⟨(hafter role address hrole).trans hset.1, fun role' address' hrole' hne => ?_⟩
  rw [hafter role' address' hrole', hset.2 role' address' hrole' hne, hbefore role' address' hrole']

theorem SetApproved.toCString {role : Role} {address : Address} {pledge : Option ℤ}
    {proposals proposals' : Table ProposalKey Proposal}
    (hset : SetApproved role address pledge proposals proposals') (hplain : 0 ∉ address) :
    SetApproved role (toCString address) pledge proposals proposals' := by
  rwa [toCString_of_not_mem hplain]

theorem SameApproved.refl (proposals : Table ProposalKey Proposal) :
    SameApproved proposals proposals :=
  fun _ _ _ => rfl

/-! ## Methods without payments -/

variable {p : Pending}

/-- The kinds of moves that a method may make. -/
def Method.Makes : Method → Kind → Prop
  | .append _, kind => kind = .other ∨ kind = .pledge
  | .approve .config (.item item) _, kind => kind = .other ∨ kind = .config item
  | .approve operate content address, kind =>
      kind = .other ∨ operate = .apply ∧ kind = .pledge ∨
        ∃ role ≠ .committee, content = .role role ∧ 0 ∈ address ∧ kind = .stray
  | .unVote _ address, kind => kind = .other ∨ 0 ∈ address ∧ kind = .strayVote
  | _, kind => kind = .other

/-- The address of an application is the one that the host sees. -/
def Method.Plain : Method → Prop
  | .approve _ (.role role) address => role = .committee ∨ 0 ∉ address
  | _ => True

theorem ne_stray_of_makes {method : Method} {kind : Kind} (hplain : method.Plain)
    (hmakes : method.Makes kind) : kind ≠ .stray := by
  rintro rfl
  unfold Method.Makes at hmakes
  split at hmakes
  case h_3 hconfig =>
    obtain ⟨role, hrole, rfl, hzero, -⟩ := (hmakes.resolve_left nofun).resolve_left nofun
    exact hplain.elim hrole (absurd hzero)
  all_goals simp at hmakes

theorem of_findCandidate {role : Role} {address : Address} {found : Candidate} (hread : s.Read)
    (hfound : findCandidate role address s = some found) :
    found.address = address ∧ s.world.register.find role found.address = some found := by
  have haddress : found.address = address := of_decide_eq_true (List.find?_some hfound :)
  refine ⟨haddress, ?_⟩
  rw [haddress, Register.find, ← hread role]
  exact hfound

theorem of_findCandidate_none {role : Role} {address : Address} (hread : s.Read)
    (hfound : findCandidate role address s = none) :
    s.world.register.find role address = none := by
  rw [Register.find, ← hread role]
  exact hfound

/-- The rule for proposals that are not approved. -/
theorem move_of_same {cfg : Config} (hsame : SameApproved s.proposals s₁.proposals)
    (hregister : s₁.world.register = { s.world.register with proposals := s₁.proposals }) :
    Move cfg .other s.world.register p s₁.world.register p := by
  rw [hregister]
  exact .papers hsame

theorem passTime_applicationProposal {role : Role} {pool : Address} {ratio : ℤ} {node : Address}
    {proposal : Proposal}
    (happlication : applicationProposal host msg role pool ratio node s = some proposal) :
    proposal.passTime = none := by
  unfold applicationProposal at happlication
  dsimp only at happlication
  split at happlication
  · obtain rfl := Option.some.inj happlication
    rfl
  · obtain ⟨-, happlication⟩ := of_assert happlication
    obtain ⟨-, happlication⟩ := of_assert happlication
    split at happlication
    · obtain rfl := Option.some.inj happlication
      rfl
    · obtain ⟨-, -, happlication⟩ := of_bind happlication
      obtain rfl := Option.some.inj happlication
      rfl

theorem move_apply {role : Role} {pool : Option Address} {ratio : Option ℤ}
    {node : Option Address} (happly : apply host msg role pool ratio node s = some s₁) :
    Move s.cfg .other s.world.register p s₁.world.register p := by
  obtain ⟨hlookup, happly⟩ := of_assert happly
  obtain ⟨-, -, happly⟩ := of_bind happly
  obtain ⟨proposal, hproposal, happly⟩ := of_bind happly
  obtain rfl := Option.some.inj happly
  refine move_of_same (fun role' address' _ => ?_) rfl
  have hpass := passTime_applicationProposal hproposal
  by_cases hkey : (⟨.apply, .role role, msg.sender⟩ : ProposalKey) =
      ⟨.apply, .role role', address'⟩
  · cases hkey
    refine (approved_insert_self proposal role msg.sender).trans ?_
    rw [hpass, approved, hlookup]
    rfl
  · exact approved_insert_of_ne proposal hkey

theorem move_append {role : Role} (happend : append msg role s = some s₁) :
    ∃ kind, (Method.append role).Makes kind ∧
      Move s.cfg kind s.world.register p s₁.world.register p := by
  obtain ⟨proposal, hlookup, happend⟩ := of_bind happend
  obtain ⟨-, happend⟩ := of_assert happend
  obtain ⟨odd, -, happend⟩ := of_bind happend
  obtain ⟨-, happend⟩ := of_assert happend
  obtain ⟨old, hold, happend⟩ := of_bind happend
  obtain ⟨pledge, hpledge, happend⟩ := of_bind happend
  obtain rfl := of_int64Add hpledge
  dsimp only at happend
  split at happend
  · rename_i hpass
    obtain rfl := Option.some.inj happend
    exact ⟨.other, .inl rfl, move_of_same
      (sameApproved_insert_same hlookup rfl (.inl hpass)) rfl⟩
  · rename_i hpass
    obtain ⟨time, htime⟩ := Option.ne_none_iff_exists'.mp hpass
    obtain ⟨hrole, happend⟩ := of_assert happend
    refine ⟨.pledge, .inr rfl, ?_⟩
    have hread := read_electInit (s.saveProposal ⟨.apply, .role role, msg.sender⟩
      { proposal with pledge := some (old + msg.coinAmount) })
    have hset : SetApproved role msg.sender (some (old + msg.coinAmount)) s.proposals
        (s.proposals.insert ⟨.apply, .role role, msg.sender⟩
          { proposal with pledge := some (old + msg.coinAmount) }) :=
      setApproved_insert role msg.sender htime rfl
    split at happend
    · rename_i hfound
      have hunlisted := of_findCandidate_none hread hfound
      obtain ⟨pledge, hpledge', hadd⟩ := register_addCandidates hread happend
      cases hpledge'
      rcases hadd with hsame | ⟨row, saved, haddress, hstake, hnode, hsaved, hregister⟩
      · rw [hsame]
        exact .pass hrole (.inl ⟨rfl, msg.plain⟩) (.inr hunlisted) (hset.toCString msg.plain)
      · rw [hregister]
        refine .enlist hrole (.inl ⟨rfl, haddress ▸ msg.plain⟩) (.inr (haddress ▸ hunlisted)) ?_
          hstake hnode hsaved
        rw [haddress]
        exact hset.toCString msg.plain
    · rename_i found hfound
      obtain ⟨haddress, hlisted⟩ := of_findCandidate hread hfound
      obtain ⟨stake, hstake, hupdate⟩ := of_bind happend
      obtain rfl := of_int64Mul hstake
      rw [register_updateStake hread hupdate]
      have hbefore : approved s.proposals role found.address = some old := by
        rw [haddress, approved_of_lookup hlookup, htime, Proposal.amount, hold]
        rfl
      refine .raise hrole hlisted hbefore ?_
      rw [haddress]
      exact hset

theorem proposals_penalty {evil : Address} {role : Role}
    (hpenalty : penalty evil role s = some s₁) :
    s₁.world.register = { s.world.register with proposals := s₁.proposals } ∧
      SetApproved role (toCString evil) none s.proposals s₁.proposals := by
  obtain ⟨proposal, -, rfl⟩ := Option.map_eq_some_iff.mp hpenalty
  refine ⟨rfl, ?_⟩
  split
  · rename_i hnone
    have hsame : SameApproved s.proposals
        (s.proposals.erase ⟨.withdraw, .role role, toCString evil⟩) :=
      sameApproved_erase fun _ _ _ => by simp
    refine ⟨?_, fun role' address' hrole _ => hsame role' address' hrole⟩
    refine (approved_erase_of_ne (by simp)).trans ?_
    change (s.proposals.lookup (proposalKey .apply (.role role) evil)).bind _ = none
    rw [hnone]
    rfl
  · exact setApproved_erase role (toCString evil)

/-- There is a kind for what is done about an address. -/
theorem Kind.exists_isFor (usual hidden : Kind) (address : Address) :
    ∃ kind, (kind = usual ∨ 0 ∈ address ∧ kind = hidden) ∧
      Kind.IsFor usual hidden kind address := by
  by_cases hmem : 0 ∈ address
  · exact ⟨hidden, .inr ⟨hmem, rfl⟩, .inr rfl⟩
  · exact ⟨usual, .inl rfl, .inl ⟨rfl, hmem⟩⟩

theorem move_passIn {proposal : Proposal} {role : Role} {address : Address}
    (hnone : approved s.proposals role (toCString address) = none)
    (hpass : passIn msg (proposalKey .apply (.role role) address) proposal role address s =
      some s₁) :
    ∃ kind, (kind = .other ∨ kind = .pledge ∨ role ≠ .committee ∧ 0 ∈ address ∧ kind = .stray) ∧
      Move s.cfg kind s.world.register p s₁.world.register p := by
  unfold passIn at hpass
  dsimp only at hpass
  split at hpass
  · rename_i hrole
    subst hrole
    refine ⟨.other, .inl rfl, ?_⟩
    have hsame := @sameApproved_insert s.proposals (proposalKey .apply (.role .committee) address)
      { proposal with passTime := some msg.timestamp } fun role' _ hrole' hkey => by
        cases hkey
        exact hrole' rfl
    split at hpass
    · obtain rfl := Option.some.inj hpass
      exact move_of_same hsame rfl
    · obtain rfl := Option.some.inj hpass
      exact move_of_same hsame rfl
  · rename_i hrole
    obtain ⟨kind, hmakes, hkind⟩ := Kind.exists_isFor .pledge .stray address
    refine ⟨kind, .inr (hmakes.imp_right fun h => ⟨hrole, h⟩), ?_⟩
    obtain ⟨pledge, hpledge, hadd⟩ := register_addCandidates (read_electInit _) hpass
    have hset := @setApproved_insert s.proposals { proposal with passTime := some msg.timestamp }
      msg.timestamp pledge role (toCString address) rfl hpledge
    rcases hadd with hsame | ⟨row, saved, rfl, hstake, hnode, hsaved, hregister⟩
    · rw [hsame]
      exact .pass hrole hkind (.inl hnone) hset
    · rw [hregister]
      exact .enlist hrole hkind (.inl hnone) hset hstake hnode hsaved

theorem move_passOut {role : Role} {address : Address}
    (hpass : passOut (proposalKey .abolish (.role role) address) role address s = some s₁) :
    ∃ kind, (kind = .other ∨ role ≠ .committee ∧ 0 ∈ address ∧ kind = .stray) ∧
      Move s.cfg kind s.world.register p s₁.world.register p := by
  have hsame : SameApproved s.proposals
      (s.proposals.erase (proposalKey .abolish (.role role) address)) :=
    sameApproved_erase fun _ _ _ => by simp [proposalKey]
  unfold passOut at hpass
  dsimp only at hpass
  split at hpass
  · obtain ⟨-, hpass⟩ := of_assert hpass
    obtain rfl := Option.some.inj hpass
    exact ⟨.other, .inl rfl, move_of_same hsame rfl⟩
  · rename_i hrole
    obtain ⟨s₂, hdelete, hpenalty⟩ := of_bind hpass
    obtain ⟨hregister, hset⟩ := proposals_penalty hpenalty
    rw [hregister]
    rcases register_deleteCandidate (read_electInit _) hdelete with ⟨hunlisted, hdeleted⟩ |
      ⟨hlisted, hdeleted⟩
    · have hproposals :
          s₂.proposals = s.proposals.erase (proposalKey .abolish (.role role) address) :=
        congrArg Register.proposals hdeleted
      rw [hproposals] at hset
      rw [hdeleted]
      obtain ⟨kind, hmakes, hkind⟩ := Kind.exists_isFor .other .stray address
      exact ⟨kind, hmakes.imp_right fun h => ⟨hrole, h⟩,
        .withdraw hrole hkind hunlisted (hset.of_same hrole hsame (.refl _))⟩
    · have hproposals :
          s₂.proposals = s.proposals.erase (proposalKey .abolish (.role role) address) :=
        (congrArg Register.proposals hdeleted).trans (proposals_save ..)
      rw [hproposals] at hset
      rw [hdeleted, save_setProposals]
      exact ⟨.other, .inl rfl, .leave hrole hlisted (hset.of_same hrole hsame (.refl _))⟩

theorem move_approve {operate : Motion} {content : Content} {address : Address}
    (happrove : approve host msg operate content address s = some s₁) :
    ∃ kind, (Method.approve operate content address).Makes kind ∧
      Move s.cfg kind s.world.register p s₁.world.register p := by
  obtain ⟨-, happrove⟩ := of_assert happrove
  obtain ⟨-, happrove⟩ := of_assert happrove
  obtain ⟨-, happrove⟩ := of_assert happrove
  obtain ⟨proposal, hlookup, happrove⟩ := of_bind happrove
  obtain ⟨hpass, happrove⟩ := of_assert happrove
  have hother : (Method.approve operate content address).Makes .other := by
    unfold Method.Makes
    split <;> simp
  split at happrove
  · obtain rfl := Option.some.inj happrove
    exact ⟨.other, hother, move_of_same (.refl _) rfl⟩
  · obtain ⟨-, happrove⟩ := of_assert happrove
    dsimp only at happrove
    split at happrove
    · obtain rfl := Option.some.inj happrove
      exact ⟨.other, hother, move_of_same
        (sameApproved_insert_same hlookup rfl (.inl hpass)) rfl⟩
    · split at happrove
      · obtain ⟨value, -, rfl⟩ := Option.map_eq_some_iff.mp happrove
        refine ⟨.config _, .inr rfl, ?_⟩
        have hsame (item : Item) : SameApproved s.proposals
            (s.proposals.erase (proposalKey .config (.item item) address)) :=
          sameApproved_erase fun _ _ _ => by simp [proposalKey]
        have hmove := fun item => @Move.config s.cfg s.world.register p _ item value (hsame item)
        unfold updateCfg
        dsimp only
        split
        · exact hmove _
        · exact hmove _
      · obtain ⟨kind, hmakes, hmove⟩ := move_passIn (by
          rw [approved_of_lookup hlookup, hpass]
          rfl) happrove
        exact ⟨kind, hmakes.imp_right (Or.imp (⟨rfl, ·⟩) fun h => ⟨_, h.1, rfl, h.2⟩), hmove⟩
      · obtain ⟨kind, hmakes, hmove⟩ := move_passOut happrove
        exact ⟨kind, hmakes.imp_right fun h => .inr ⟨_, h.1, rfl, h.2⟩, hmove⟩
      · cases happrove

theorem move_vote {role : Role} {address : Address}
    (hvote : vote host msg role address s = some s₁) :
    Move s.cfg .other s.world.register p s₁.world.register p := by
  obtain ⟨hrole, hvote⟩ := of_assert hvote
  obtain ⟨-, hvote⟩ := of_assert hvote
  obtain ⟨odd, -, hvote⟩ := of_bind hvote
  obtain ⟨-, hvote⟩ := of_assert hvote
  obtain ⟨votes, hvotes, hvote⟩ := of_bind hvote
  obtain ⟨found, hfound, hupdate⟩ := of_bind hvote
  have hread := read_electInit (s.store fun st =>
    { st with voters := st.voters.insert (voterKey msg.sender role address) votes })
  obtain ⟨rfl, hlisted⟩ := of_findCandidate hread hfound
  rw [register_updateStake hread hupdate]
  refine .vote hrole hlisted ?_
  unfold addVotes at hvotes
  split at hvotes
  · rename_i hnone
    obtain rfl := Option.some.inj hvotes
    rw [show s.world.register.voters.lookup _ = none from hnone]
    exact (zero_add _).symm
  · rename_i old hold
    rw [show s.world.register.voters.lookup _ = some old from hold]
    exact of_int64Add hvotes

theorem move_abolish {role : Role} {address : Address}
    (habolish : abolish host msg role address s = some s₁) :
    Move s.cfg .other s.world.register p s₁.world.register p := by
  obtain ⟨-, -, habolish⟩ := of_bind habolish
  obtain ⟨-, habolish⟩ := of_assert habolish
  obtain ⟨applied, -, habolish⟩ := of_bind habolish
  obtain ⟨-, habolish⟩ := of_assert habolish
  obtain rfl := Option.some.inj habolish
  exact move_of_same (sameApproved_insert _ fun _ _ _ => by simp [proposalKey]) rfl

theorem move_configure {item : Item} {value : Value}
    (hconfigure : configure host msg item value s = some s₁) :
    Move s.cfg .other s.world.register p s₁.world.register p := by
  obtain ⟨-, hconfigure⟩ := of_assert hconfigure
  obtain ⟨-, hconfigure⟩ := of_assert hconfigure
  dsimp only at hconfigure
  split at hconfigure
  · obtain rfl := Option.some.inj hconfigure
    exact move_of_same (.refl _) rfl
  · obtain rfl := Option.some.inj hconfigure
    exact move_of_same (sameApproved_insert _ fun _ _ _ => by simp) rfl

theorem move_setVoteDividend {role : Role} {pool : Option Address} {ratio : Option ℤ}
    (hset : setVoteDividend host msg role pool ratio s = some s₁) :
    Move s.cfg .other s.world.register p s₁.world.register p := by
  obtain ⟨proposal, hlookup, hset⟩ := of_bind hset
  obtain ⟨-, hset⟩ := of_assert hset
  obtain ⟨-, hset⟩ := of_assert hset
  obtain rfl := Option.some.inj hset
  have hmove := @Move.papers s.cfg s.world.register p _ (@sameApproved_insert_same s.proposals
    ⟨.apply, .role role, msg.sender⟩ proposal
    { proposal with
      rewardPool := pool.or proposal.rewardPool
      rewardRatio := ratio.or proposal.rewardRatio } hlookup rfl (.inr rfl))
  cases role <;> exact hmove

theorem find_of_getElem? {role : Role} {address : Address} {found : Candidate} {r : Register}
    (hfound : (r.cands role)[r.place role address]? = some found) :
    found.address = address ∧ r.find role found.address = some found := by
  obtain ⟨hlt, hget⟩ := List.getElem?_eq_some_iff.mp hfound
  have haddress : found.address = address := by
    rw [← hget]
    exact of_decide_eq_true (List.findIdx_getElem (w := hlt) :)
  refine ⟨haddress, ?_⟩
  rw [haddress, Register.find, List.find?_eq_some_iff_getElem]
  refine ⟨decide_eq_true haddress, r.place role address, hlt, hget, fun j hj => ?_⟩
  simpa using List.not_of_lt_findIdx hj

theorem move_setNodeAddress {address : Address}
    (hset : setNodeAddress host msg address s = some s₁) :
    Move s.cfg .other s.world.register p s₁.world.register p := by
  obtain ⟨u, hvalid, hset⟩ := of_bind hset
  obtain ⟨-, hvalid⟩ := of_assert hvalid
  have hnode := assert_eq_some.mp hvalid
  obtain ⟨proposal, hlookup, hset⟩ := of_bind hset
  have hsame := @sameApproved_insert_same s.proposals ⟨.apply, .role .validator, msg.sender⟩
    proposal { proposal with node := some address } hlookup rfl (.inr rfl)
  dsimp only at hset
  split at hset
  · obtain rfl := Option.some.inj hset
    exact move_of_same hsame rfl
  · rename_i found hfound
    obtain ⟨haddress, hlisted⟩ := @find_of_getElem? .validator _ _ s.world.register hfound
    have hmove := @Move.seat s.cfg s.world.register p _ found address hlisted
      (fun row hrow => of_decide_eq_true (List.all_eq_true.mp hnode row hrow)) hsame
    rw [show s.world.register.place .validator found.address =
      s.world.register.place .validator msg.sender by rw [haddress]] at hmove
    split at hset
    · rename_i hlt
      obtain rfl := Option.some.inj hset
      have hplace : ((s.world.register.place .validator msg.sender : ℕ) : ℤ) <
          s.cfg.int .validatorSize := hlt
      rw [Register.save, if_pos ⟨rfl, decide_eq_true hplace⟩] at hmove
      exact hmove
    · rename_i hlt
      obtain rfl := Option.some.inj hset
      have hplace : ¬ ((s.world.register.place .validator msg.sender : ℕ) : ℤ) <
          s.cfg.int .validatorSize := hlt
      rw [Register.save, if_neg fun h => hplace (of_decide_eq_true h.2)] at hmove
      exact hmove

/-- The method makes payments. -/
def Method.pays : Method → Bool
  | .unVote .. | .withdraw .. | .extract .. | .clean .. => true
  | _ => false

/-- **A method without payments makes one move.** -/
theorem move_dispatch {method : Method} (hpays : method.pays = false)
    (hdispatch : dispatch host receive msg method s = some s₁) :
    ∃ kind, method.Makes kind ∧ Move s.cfg kind s.world.register p s₁.world.register p := by
  cases method with
  | apply => exact ⟨.other, rfl, move_apply hdispatch⟩
  | append => exact move_append hdispatch
  | approve => exact move_approve hdispatch
  | vote => exact ⟨.other, rfl, move_vote hdispatch⟩
  | abolish => exact ⟨.other, rfl, move_abolish hdispatch⟩
  | configure => exact ⟨.other, rfl, move_configure hdispatch⟩
  | setNodeAddress => exact ⟨.other, rfl, move_setNodeAddress hdispatch⟩
  | setVoteDividend => exact ⟨.other, rfl, move_setVoteDividend hdispatch⟩
  | unVote => cases hpays
  | withdraw => cases hpays
  | extract => cases hpays
  | clean => cases hpays
  | unknown => cases hdispatch

theorem register_prepare (hprepare : prepare msg w = some s) :
    s.world.register = w.register ∧ s.cfg = w.storage.config := by
  obtain ⟨allStake, -, ⟨-, rfl⟩ | ⟨-, rfl⟩⟩ := prepare_cases hprepare
  · exact ⟨rfl, rfl⟩
  · exact ⟨rfl, rfl⟩

theorem register_saveDists (call : Call) (s : Run) :
    ((saveDists s).log call).register = s.world.register := by
  unfold saveDists
  split <;> rfl

/-- The same for the whole call. -/
theorem move_main {method : Method} (hpays : method.pays = false)
    (hmain : main host receive msg method w = some w₁) :
    ∃ kind, method.Makes kind ∧ Move w.storage.config kind w.register p w₁.register p := by
  obtain ⟨s, hprepare, hmain⟩ := of_bind hmain
  obtain ⟨-, hmain⟩ := of_assert hmain
  obtain ⟨s₁, hdispatch, hmain⟩ := of_bind hmain
  obtain rfl := Option.some.inj hmain
  obtain ⟨hregister, hcfg⟩ := register_prepare hprepare
  rw [register_saveDists, ← hregister, ← hcfg]
  exact move_dispatch hpays hdispatch

/-! ## Invariants -/

/-- What the moves of the kinds that are allowed keep, when the configuration of the call
is good. -/
structure Invariant where
  holds : Register → Pending → Prop
  good : Config → Prop
  allowed : Kind → Prop
  other : allowed .other
  config : ∀ {r p}, holds r p → good r.config
  move : ∀ {cfg kind r p r' p'}, good cfg → allowed kind → Move cfg kind r p r' p' →
    holds r p → holds r' p'

namespace Invariant

variable (inv : Invariant)

/-- The method makes allowed moves only. -/
def Allows (method : Method) : Prop :=
  ∀ kind, method.Makes kind → inv.allowed kind

/-- The accounts that are paid keep the invariant, whatever is pending. -/
def Receives (receive : Receive) : Prop :=
  ∀ i w w' p, receive i w = some w' → inv.holds w.register p → inv.holds w'.register p

variable {inv}

theorem transferCoin (hreceive : inv.Receives receive) {dest : Address} {amount : ℤ}
    {remark : Remark} (htransfer : transferCoin host receive dest amount remark s = some s₁)
    (hholds : inv.holds s.world.register p) :
    inv.holds s₁.world.register p ∧ s₁.cfg = s.cfg := by
  rcases transferCoin_cases htransfer with ⟨-, rfl⟩ | ⟨w, hw, -, -, rfl⟩
  · exact ⟨hholds, rfl⟩
  · exact ⟨hreceive _ _ _ p hw hholds, rfl⟩

theorem extract (hreceive : inv.Receives receive) {list : Option (List Payee)}
    (hextract : extract host receive msg list s = some s₁)
    (hholds : inv.holds s.world.register p) : inv.holds s₁.world.register p := by
  refine @extract_invariant host receive msg s s₁ (fun s => inv.holds s.world.register p) ?_ ?_
    list hextract ?_
  · intro dest amount remark s₂ s₃ htransfer hholds₂
    exact (transferCoin hreceive htransfer hholds₂).1
  · intro s₂ role address entry hholds₂
    exact ⟨hholds₂, hholds₂⟩
  · intro s₂ hdist
    rw [register_rewardDistribution hdist]
    exact hholds

theorem unVote (hreceive : inv.Receives receive) {role : Role} {address : Address}
    (hallows : inv.Allows (.unVote role address)) (hgood : inv.good s.cfg)
    (hunvote : unVote host receive msg role address s = some s₁)
    (hholds : inv.holds s.world.register p) : inv.holds s₁.world.register p := by
  obtain ⟨hrole, hunvote⟩ := of_assert hunvote
  obtain ⟨-, hunvote⟩ := of_assert hunvote
  obtain ⟨amount, hlookup, hunvote⟩ := of_bind hunvote
  obtain ⟨s₂, htransfer, hunvote⟩ := of_bind hunvote
  have hdrop := inv.move hgood inv.other
    (@Move.drop s.cfg s.world.register p (voterKey msg.sender role address) amount hlookup) hholds
  obtain ⟨hpaid, hcfg⟩ := transferCoin hreceive htransfer hdrop
  have hgood₂ : inv.good s₂.cfg := by
    rw [hcfg]
    exact hgood
  have hread := read_electInit s₂
  dsimp only at hunvote
  split at hunvote
  · rename_i hfound
    obtain rfl := Option.some.inj hunvote
    obtain ⟨kind, hmakes, hkind⟩ := Kind.exists_isFor .other .strayVote address
    exact inv.move hgood₂ (hallows kind hmakes)
      (.forget hrole hkind (of_findCandidate_none hread hfound)) hpaid
  · rename_i found hfound
    obtain ⟨-, hupdate⟩ := of_assert hunvote
    obtain ⟨rfl, hlisted⟩ := of_findCandidate hread hfound
    rw [register_updateStake hread hupdate, ← sub_eq_add_neg]
    exact inv.move hgood₂ inv.other (.settle hrole hlisted) hpaid

theorem withdraw (hreceive : inv.Receives receive) {role : Role} (hgood : inv.good s.cfg)
    (hwithdraw : withdraw host receive msg role s = some s₁)
    (hholds : inv.holds s.world.register p) : inv.holds s₁.world.register p := by
  unfold Dpos.withdraw at hwithdraw
  dsimp only at hwithdraw
  split at hwithdraw
  · rename_i hrole
    subst hrole
    obtain ⟨-, hwithdraw⟩ := of_assert hwithdraw
    obtain ⟨-, hwithdraw⟩ := of_assert hwithdraw
    obtain rfl := Option.some.inj hwithdraw
    refine inv.move hgood inv.other (move_of_same (sameApproved_erase ?_) rfl) hholds
    intro role' _ hrole' hkey
    cases hkey
    exact hrole' rfl
  · rename_i hrole
    split at hwithdraw
    · obtain ⟨applicant, hlookup, hwithdraw⟩ := of_bind hwithdraw
      obtain ⟨pledge, -, hwithdraw⟩ := of_bind hwithdraw
      split at hwithdraw
      · rename_i hpass
        refine (transferCoin hreceive hwithdraw ?_).1
        exact inv.move hgood inv.other
          (.papers (sameApproved_erase_none hlookup hpass)) hholds
      · obtain ⟨s₂, hdelete, hwithdraw⟩ := of_bind hwithdraw
        obtain rfl := Option.some.inj hwithdraw
        have hset := (@setApproved_erase s.proposals role msg.sender).toCString msg.plain
        have hafter : SameApproved s₂.proposals (s₂.saveProposal ⟨.withdraw, .role role, msg.sender⟩
            { pledge := some pledge
              expiration := deadline msg s₂.cfg }).proposals :=
          sameApproved_insert _ fun _ _ _ => by simp
        refine inv.move hgood inv.other ?_ hholds
        change Move s.cfg .other s.world.register p
          { s₂.world.register with proposals := (s₂.saveProposal _ _).proposals } p
        rcases register_deleteCandidate (read_electInit _) hdelete with ⟨hunlisted, hdeleted⟩ |
          ⟨hlisted, hdeleted⟩
        · have hproposals : s₂.proposals = s.proposals.erase ⟨.apply, .role role, msg.sender⟩ :=
            congrArg Register.proposals hdeleted
          rw [hproposals] at hafter
          rw [hdeleted]
          exact .withdraw hrole (.inl ⟨rfl, msg.plain⟩) hunlisted
            (hset.of_same hrole (.refl _) hafter)
        · have hproposals : s₂.proposals = s.proposals.erase ⟨.apply, .role role, msg.sender⟩ :=
            (congrArg Register.proposals hdeleted).trans (proposals_save ..)
          rw [hproposals] at hafter
          rw [hdeleted, save_setProposals]
          exact .leave hrole hlisted (hset.of_same hrole (.refl _) hafter)
    · obtain ⟨-, hwithdraw⟩ := of_assert hwithdraw
      obtain ⟨pledge, -, htransfer⟩ := of_bind hwithdraw
      refine (transferCoin hreceive htransfer ?_).1
      exact inv.move hgood inv.other (.papers (sameApproved_erase fun _ _ _ => by simp)) hholds

theorem clean (hreceive : inv.Receives receive) {operate : Motion} {content : Content}
    {address : Address} (hgood : inv.good s.cfg)
    (hclean : clean host receive msg operate content address s = some s₁)
    (hholds : inv.holds s.world.register p) : inv.holds s₁.world.register p := by
  obtain ⟨-, hclean⟩ := of_assert hclean
  obtain ⟨proposal, hlookup, hclean⟩ := of_bind hclean
  obtain ⟨⟨-, hpass⟩, hclean⟩ := of_assert hclean
  have hdeleted := inv.move hgood inv.other
    (.papers (r := s.world.register) (p := p) (sameApproved_erase_none hlookup hpass)) hholds
  dsimp only at hclean
  split at hclean
  · split at hclean
    · exact (transferCoin hreceive hclean hdeleted).1
    · obtain rfl := Option.some.inj hclean
      exact hdeleted
  · obtain rfl := Option.some.inj hclean
    exact hdeleted

/-- **One call keeps the invariant.** -/
theorem main (hreceive : inv.Receives receive) {method : Method} (hallows : inv.Allows method)
    (hmain : main host receive msg method w = some w₁) (hholds : inv.holds w.register p) :
    inv.holds w₁.register p := by
  have hgood : inv.good w.storage.config := inv.config hholds
  by_cases hpays : method.pays = false
  · obtain ⟨kind, hmakes, hmove⟩ := move_main hpays hmain
    exact inv.move hgood (hallows kind hmakes) hmove hholds
  · obtain ⟨s, hprepare, hmain⟩ := of_bind hmain
    obtain ⟨-, hmain⟩ := of_assert hmain
    obtain ⟨s₁, hdispatch, hmain⟩ := of_bind hmain
    obtain rfl := Option.some.inj hmain
    obtain ⟨hregister, hcfg⟩ := register_prepare hprepare
    rw [← hcfg] at hgood
    rw [← hregister] at hholds
    rw [register_saveDists]
    cases method with
    | unVote => exact unVote hreceive hallows hgood hdispatch hholds
    | withdraw => exact withdraw hreceive hgood hdispatch hholds
    | extract => exact extract hreceive hdispatch hholds
    | clean => exact clean hreceive hgood hdispatch hholds
    | apply | append | approve | vote | abolish | configure | setNodeAddress | setVoteDividend
    | unknown => exact absurd rfl hpays

end Invariant

theorem register_within (f : World → Option World) (w : World) :
    (w.within f).register = w.register ∨
      ∃ w', f { w with journal := [], callbacks := [] } = some w' ∧
        (w.within f).register = w'.register := by
  unfold World.within
  split
  · rename_i w' hw'
    exact .inr ⟨w', hw', rfl⟩
  · exact .inl rfl

/-- **A reaction keeps the invariant**, by induction on the calls that are made in it. -/
theorem Invariant.react {inv : Invariant} (reaction : Reaction) :
    reaction.All inv.Allows → ∀ {w w₁ : World} {p : Pending},
      react host reaction w = some w₁ → inv.holds w.register p → inv.holds w₁.register p := by
  induction reaction with
  | done =>
      intro _ w w₁ p hreact hholds
      obtain rfl := Option.some.inj hreact
      exact hholds
  | fail =>
      intro _ w w₁ p hreact
      cases hreact
  | call msg method reactions next ihreactions ihnext =>
      intro ⟨hmethod, hreactions, hnext⟩ w w₁ p hreact hholds
      refine ihnext hnext hreact ?_
      rcases register_within (fun w => Dpos.main host (fun i => Dpos.react host (reactions i)) msg
        method (w.arrive msg.coinAmount)) w with hsame | ⟨w', hmain, hsame⟩
      · rw [hsame]
        exact hholds
      · rw [hsame]
        refine Invariant.main (fun i w w' p h => ihreactions i (hreactions i) h) hmethod hmain ?_
        exact hholds

/-- The calls that are made in the payments of a step. -/
def Step.Within (q : Method → Prop) : Step → Prop
  | .call _ _ reactions => ∀ i, (reactions i).All q
  | .reward _ => True

/-- The step is not a call, or one of a method that `q` allows. -/
def Step.Calls (q : Method → Prop) : Step → Prop
  | .call _ method _ => q method
  | .reward _ => True

/-- What a step does: nothing, or a call that succeeds. -/
theorem step_cases (host : Host) (w : World) (st : Step) :
    ((step host w st).storage = w.storage ∧ (step host w st).register = w.register) ∨
      ∃ msg method reactions, ∃ w₀ : World, st = .call msg method reactions ∧
        w₀.storage = w.storage ∧ w₀.register = w.register ∧
        Dpos.main host (fun i => react host (reactions i)) msg method w₀ =
          some (step host w st) := by
  cases st with
  | reward amount => exact .inl ⟨rfl, rfl⟩
  | call msg method reactions =>
      unfold step
      dsimp only
      generalize hmain : Dpos.main host (fun i => react host (reactions i)) msg method _ = r
      cases r with
      | none => exact .inl ⟨rfl, rfl⟩
      | some w₁ =>
          refine .inr ⟨msg, method, reactions, _, rfl, ?_, ?_, hmain⟩
          · rfl
          · rfl

/-- **What every step keeps holds in every state of a history.** A condition `q` is on the
steps and `rel` on the states before and after each of them. -/
theorem states_invariant {inv : World → Prop} {rel : World → World → Prop} {q : Step → Prop}
    (hstep : ∀ {w : World} {st : Step}, q st → rel w (step host w st) → inv w →
      inv (step host w st))
    (hinv : inv w) {steps : List Step} (hq : ∀ st ∈ steps, q st)
    (hrel : (states host w steps).IsChain rel) : ∀ w' ∈ states host w steps, inv w' := by
  induction steps generalizing w with
  | nil =>
      intro w' hmem
      obtain rfl := List.mem_singleton.mp hmem
      exact hinv
  | cons st steps ih =>
      have hcons : states host w (st :: steps) = w :: states host (step host w st) steps := by
        rw [states, List.scanl_cons]
        rfl
      obtain ⟨rest, hrest⟩ : ∃ rest, states host (step host w st) steps =
          step host w st :: rest := by
        cases steps with
        | nil => exact ⟨[], rfl⟩
        | cons => exact ⟨_, by rw [states, List.scanl_cons]⟩
      rw [hcons] at hrel ⊢
      intro w' hmem
      rcases List.mem_cons.mp hmem with rfl | hmem
      · exact hinv
      · rw [hrest, List.isChain_cons_cons, ← hrest] at hrel
        exact ih (hstep (hq st (List.mem_cons_self ..)) hrel.1 hinv)
          (fun st h => hq st (List.mem_cons_of_mem _ h)) hrel.2 w' hmem

end CegChain.Dpos
